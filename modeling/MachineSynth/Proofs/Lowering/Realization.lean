import Mathlib
import MachineSynth.Proofs.Lowering.Placement

/-! Realization: an instruction that only computes is lowered, always, and to states that realize
it. -/
namespace MachineSynth
namespace Synth

open Rtl (kindAt)
open Lowering (Quiet Step Placed Keeps Settles Fixed Spare)

namespace Lower

variable {s : Site} {l l' : Lowering}

/-- A part of the lowering that finds what a state needs. -/
structure Prepares (s : Site) (l l' : Lowering) : Prop where
  sound : l'.Sound
  placed : l'.Placed s
  states : l'.states = l.states
  walker : l'.walker = l.walker
  keeps : l.Keeps l'

theorem Prepares.trans {a b c : Lowering} (h : Prepares s a b) (h' : Prepares s b c) :
    Prepares s a c :=
  ⟨h'.sound, h'.placed, h'.states.trans h.states, h'.walker.trans h.walker,
    h.keeps.trans h'.keeps⟩

theorem prepares_of {u : Uses} (hp : l.Placed s) (hq : Quiet u l l') (hs : Settles s l l') :
    Prepares s l l' :=
  ⟨hq.sound, hs.placed hp, hq.states, hq.walker, hs.keeps⟩

theorem register_prepares {r : RegisterId} {i : Nat} (hl : l.Sound) (hp : l.Placed s)
    (h : (register s r).run l = .ok (i, l')) :
    Prepares s l l' ∧ l'.locals.lookup r = some i := by
  obtain ⟨hs, hr⟩ := register_settles hl.builder h
  exact ⟨prepares_of hp (register_quiet (u := .none) hl h) hs, hr⟩

theorem resource_prepares {take : Pool → Nat × Pool} {kind : String} {i : Nat} (hl : l.Sound)
    (hp : l.Placed s) (ht : Pool.TakesOther take kind)
    (h : (resource take).run l = .ok (i, l')) :
    Prepares s l l' ∧ kindAt l'.builder.pool.resources i = some kind := by
  obtain ⟨hq, hk⟩ := resource_quiet (u := .none) hl ht h
  exact ⟨prepares_of hp hq (resource_settles ht.toTakes h), hk⟩

theorem constant_prepares {width : UInt64} {value : Int64} {i : Nat} (hl : l.Sound)
    (hp : l.Placed s) (h : (build (·.constant width value)).run l = .ok (i, l')) :
    Prepares s l l' ∧ l'.Fixed i value := by
  obtain ⟨hs, hf⟩ := constant_settles (s := s) h
  exact ⟨prepares_of hp (constant_quiet (u := .none) hl h) hs, hf⟩

theorem storage_prepares {stem : String} {width : UInt64} {i : Nat} (hl : l.Sound)
    (hp : l.Placed s) (h : (build (·.storage stem width)).run l = .ok (i, l')) :
    Prepares s l l' ∧ l'.Spare i := by
  obtain ⟨hs, hf⟩ := storage_settles hl.builder hp h
  exact ⟨prepares_of hp (storage_quiet (u := .none) hl h) hs, hf⟩

theorem memberRegister_prepares {e : Entity} {width : UInt64} {initial : Int64} {i : Nat}
    (hl : l.Sound) (hp : l.Placed s)
    (h : (build (·.memberRegister e width initial)).run l = .ok (i, l')) :
    Prepares s l l' ∧ l'.builder.members.lookup e = some i := by
  obtain ⟨hs, hm⟩ := memberRegister_settles (s := s) h
  refine ⟨prepares_of (u := .all) hp ?_ hs, hm⟩
  cases run_build_eq_ok.mp h
  exact hl.build (Builder.memberRegister_extends _ _ _ _)
    (Builder.memberRegister_sound hl.builder _ _ _) (Builder.memberRegister_covered trivial _ _ _)

theorem insn_prepares {resource : Nat} {operand : String} {inputs outputs : List Nat}
    {i : Rtl.Insn} (hl : l.Sound) (hp : l.Placed s)
    (h : (insn resource operand inputs outputs).run l = .ok (i, l')) :
    Prepares s l l' ∧ i.resource = resource ∧ i.inputs = inputs := by
  have hq := insn_quiet (u := .none) hl h
  cases run_insn_eq_ok.mp h
  exact ⟨prepares_of hp hq (.of_extends hq.builder rfl), rfl, rfl⟩

/-- What a finished instruction leaves behind: its states, which realize it. -/
structure Finishes (s : Site) (i : Insn) (l l' : Lowering) : Prop where
  sound : l'.Sound
  placed : l'.Placed s
  walker : l'.walker = l.walker
  keeps : l.Keeps l'
  states : ∃ new, l'.states = l.states ++ new ∧ Realizes s l' i new

/-- The state of an instruction does what the instruction says, on whatever its resource is. -/
theorem emit_does {unit output : Nat} {operand : String} {inputs : List Nat}
    (h : (emit unit operand inputs [output]).run l = .ok ((), l')) :
    ∃ st, l'.states = l.states ++ [st] ∧ ∀ {resources kind}, kindAt resources unit = some kind →
      Does resources kind operand inputs output st := by
  cases run_emit_eq_ok.mp h
  refine ⟨_, rfl, fun {resources kind} hk => ⟨rfl, ?_⟩⟩
  exact ⟨⟨l.builder.newInsn.1, unit, operand, inputs, [output], []⟩, rfl, hk, rfl⟩

/-- A state that computes one value, after what it needs has been found. -/
theorem emit_finishes {i : Insn} {a : Lowering} {unit output : Nat} {kind operand : String}
    {inputs : List Nat} (ha : Prepares s l a)
    (hk : kindAt a.builder.pool.resources unit = some kind)
    (htr : kind ≠ Rtl.Resource.transitionKind) (hps : kind ≠ Pool.pseudoKind)
    (hreal : ∀ st, a.Keeps l' → Does l'.builder.pool.resources kind operand inputs output st →
      Realizes s l' i [st])
    (h : (emit unit operand inputs [output]).run a = .ok ((), l')) : Finishes s i l l' := by
  have hstep := emit_step (u := .none) ha.sound hk htr hps h
  have hs : Settles s a l' := emit_settles h
  refine ⟨hstep.sound, hs.placed ha.placed, hstep.walker.trans ha.walker,
    ha.keeps.trans hs.keeps, ?_⟩
  obtain ⟨st, hst, hdoes⟩ := emit_does h
  exact ⟨[st], by rw [hst, ha.states],
    hreal st hs.keeps (hdoes (hs.keeps.builder.pool.kindAt hk))⟩

theorem assign_finishes {target source : RegisterId} (hl : l.Sound) (hp : l.Placed s)
    (h : (assign s target source).run l = .ok ((), l')) :
    Finishes s (.assign target source) l l' := by
  simp only [assign, run_bind_eq_ok] at h
  obtain ⟨t, l₁, ht, r, l₂, hr, unit, l₃, hunit, h⟩ := h
  obtain ⟨p₁, ht⟩ := register_prepares hl hp ht
  obtain ⟨p₂, hr⟩ := register_prepares p₁.sound p₁.placed hr
  obtain ⟨p₃, hk⟩ := resource_prepares p₂.sound p₂.placed Pool.assign_takes hunit
  refine emit_finishes ((p₁.trans p₂).trans p₃) hk (by decide) (by decide) (fun st hkeeps does =>
    ?_) h
  exact .assign ((p₂.trans p₃).keeps.trans hkeeps |>.kept ht) (p₃.keeps.trans hkeeps |>.kept hr)
    does

theorem invert_finishes {logical : Bool} {target source : RegisterId} (hl : l.Sound)
    (hp : l.Placed s) (h : (instruction s (.invert logical target source)).run l = .ok ((), l')) :
    Finishes s (.invert logical target source) l l' := by
  simp only [instruction, invert, run_bind_eq_ok] at h
  obtain ⟨r, l₁, hr, t, l₂, ht, unit, l₃, hunit, h⟩ := h
  obtain ⟨p₁, hr⟩ := register_prepares hl hp hr
  obtain ⟨p₂, ht⟩ := register_prepares p₁.sound p₁.placed ht
  obtain ⟨p₃, hk⟩ := resource_prepares p₂.sound p₂.placed (Pool.operator_takes (by decide) _) hunit
  refine emit_finishes ((p₁.trans p₂).trans p₃) hk (by decide) (by decide) (fun st hkeeps does =>
    ?_) h
  exact .invert (p₃.keeps.trans hkeeps |>.kept ht) ((p₂.trans p₃).keeps.trans hkeeps |>.kept hr)
    does

theorem binary_finishes {op : BinaryOp} {target left right : RegisterId} (hl : l.Sound)
    (hp : l.Placed s) (h : (binary s op target left right).run l = .ok ((), l')) :
    Finishes s (.binary op target left right) l l' := by
  unfold binary at h
  split at h
  · exact absurd h run_fault_ne_ok
  · rename_i kind hkind
    obtain ⟨harr, htr, hps⟩ := operatorKind?_works hkind
    simp only [run_bind_eq_ok] at h
    obtain ⟨unit, l₁, hunit, x, l₂, hx, y, l₃, hy, t, l₄, ht, h⟩ := h
    obtain ⟨p₁, hk⟩ := resource_prepares hl hp (Pool.operator_takes harr _) hunit
    obtain ⟨p₂, hx⟩ := register_prepares p₁.sound p₁.placed hx
    obtain ⟨p₃, hy⟩ := register_prepares p₂.sound p₂.placed hy
    obtain ⟨p₄, ht⟩ := register_prepares p₃.sound p₃.placed ht
    have hk₄ := ((p₂.trans p₃).trans p₄).keeps.builder.pool.kindAt hk
    have hx₄ := (p₃.trans p₄).keeps.kept hx
    have hy₄ := p₄.keeps.kept hy
    have p : Prepares s l l₄ := ((p₁.trans p₂).trans p₃).trans p₄
    split at h
    · rename_i hneg
      -- The result of the comparison goes to a spare register, from which it is inverted.
      simp only [run_bind_eq_ok, invert] at h
      obtain ⟨z, l₅, hz, _, l₆, hemit, unit', l₇, hunit', h⟩ := h
      obtain ⟨p₅, hspare⟩ := storage_prepares p₄.sound p₄.placed hz
      have hk₅ := p₅.keeps.builder.pool.kindAt hk₄
      have e₆ := emit_step (u := .none) p₅.sound hk₅ htr hps hemit
      have s₆ : Settles s l₅ l₆ := emit_settles hemit
      obtain ⟨p₇, hk₇⟩ := resource_prepares e₆.sound (s₆.placed p₅.placed)
        (Pool.operator_takes (by decide) _) hunit'
      have e₈ := emit_step (u := .none) p₇.sound hk₇ (by decide) (by decide) h
      have s₈ : Settles s l₇ l' := emit_settles h
      have hkeeps : l₄.Keeps l' := p₅.keeps.trans (s₆.keeps.trans (p₇.keeps.trans s₈.keeps))
      refine ⟨e₈.sound, s₈.placed p₇.placed, ?_, p.keeps.trans hkeeps, ?_⟩
      · rw [e₈.walker, p₇.walker, e₆.walker, p₅.walker, p.walker]
      · have k₆ : l₅.Keeps l' := s₆.keeps.trans (p₇.keeps.trans s₈.keeps)
        obtain ⟨st, hst, hdoes⟩ := emit_does hemit
        obtain ⟨st', hst', hinverts⟩ := emit_does h
        refine ⟨[st, st'], ?_, .negated hkind hneg (hkeeps.kept ht) (hkeeps.kept hx₄)
          (hkeeps.kept hy₄) (hspare.mono k₆) (hdoes (k₆.builder.pool.kindAt hk₅))
          (hinverts (s₈.keeps.builder.pool.kindAt hk₇))⟩
        rw [hst', p₇.states, hst, p₅.states, p.states, List.append_assoc]
        rfl
    · rename_i hneg
      refine emit_finishes p hk₄ htr hps (fun st hkeeps does => ?_) h
      exact .binary hkind (by simpa using hneg) (hkeeps.kept ht) (hkeeps.kept hx₄)
        (hkeeps.kept hy₄) does

theorem shift_finishes {right : Bool} {target source amount : RegisterId} (hl : l.Sound)
    (hp : l.Placed s) (h : (shift s right target source amount).run l = .ok ((), l')) :
    Finishes s (.shift right target source amount) l l' := by
  simp only [shift, run_bind_eq_ok] at h
  obtain ⟨value, l₀, hvalue, r, l₁, hr, unit, l₂, hunit, n, l₃, hn, t, l₄, ht, h⟩ := h
  obtain ⟨hamount, rfl⟩ := constantOf_eq_ok hvalue
  obtain ⟨p₁, hr⟩ := register_prepares hl hp hr
  obtain ⟨p₂, hk⟩ := resource_prepares p₁.sound p₁.placed (Pool.operator_takes (by decide) _) hunit
  obtain ⟨p₃, hfixed⟩ := constant_prepares p₂.sound p₂.placed hn
  obtain ⟨p₄, ht⟩ := register_prepares p₃.sound p₃.placed ht
  have hk₄ := (p₃.trans p₄).keeps.builder.pool.kindAt hk
  refine emit_finishes (((p₁.trans p₂).trans p₃).trans p₄) hk₄ (by decide) (by decide)
    (fun st hkeeps does => ?_) h
  exact .shift hamount (hfixed.mono (p₄.keeps.trans hkeeps)) (hkeeps.kept ht)
    (((p₂.trans p₃).trans p₄).keeps.trans hkeeps |>.kept hr) does

theorem concat_finishes {target left right : RegisterId} (hl : l.Sound) (hp : l.Placed s)
    (h : (concat s target left right).run l = .ok ((), l')) :
    Finishes s (.concat target left right) l l' := by
  simp only [concat, run_bind_eq_ok] at h
  obtain ⟨x, l₁, hx, y, l₂, hy, unit, l₃, hunit, t, l₄, ht, h⟩ := h
  obtain ⟨p₁, hx⟩ := register_prepares hl hp hx
  obtain ⟨p₂, hy⟩ := register_prepares p₁.sound p₁.placed hy
  obtain ⟨p₃, hk⟩ := resource_prepares p₂.sound p₂.placed (Pool.operator_takes (by decide) _) hunit
  obtain ⟨p₄, ht⟩ := register_prepares p₃.sound p₃.placed ht
  refine emit_finishes (((p₁.trans p₂).trans p₃).trans p₄) (p₄.keeps.builder.pool.kindAt hk)
    (by decide) (by decide) (fun st hkeeps does => ?_) h
  exact .concat (hkeeps.kept ht) (((p₂.trans p₃).trans p₄).keeps.trans hkeeps |>.kept hx)
    ((p₃.trans p₄).keeps.trans hkeeps |>.kept hy) does

theorem count_finishes {down : Bool} {operand : RegisterId} (hl : l.Sound) (hp : l.Placed s)
    (h : (count s down operand).run l = .ok ((), l')) : Finishes s (.count down operand) l l' := by
  simp only [count, run_bind_eq_ok] at h
  obtain ⟨r, l₁, hr, unit, l₂, hunit, one, l₃, hone, h⟩ := h
  have hkind : (if down then "sub" else "add") ∉ Pool.trackedKinds := by cases down <;> decide
  obtain ⟨p₁, hr⟩ := register_prepares hl hp hr
  obtain ⟨p₂, hk⟩ := resource_prepares p₁.sound p₁.placed (Pool.operator_takes hkind _) hunit
  obtain ⟨p₃, hfixed⟩ := constant_prepares p₂.sound p₂.placed hone
  refine emit_finishes ((p₁.trans p₂).trans p₃) (p₃.keeps.builder.pool.kindAt hk)
    (by cases down <;> decide) (by cases down <;> decide) (fun st hkeeps does => ?_) h
  exact .count ((p₂.trans p₃).keeps.trans hkeeps |>.kept hr) (hfixed.mono hkeeps) does

theorem bitRange_finishes {target source msb lsb : RegisterId} (hl : l.Sound) (hp : l.Placed s)
    (h : (bitRange s target source msb lsb).run l = .ok ((), l')) :
    Finishes s (.bitRange target source msb lsb) l l' := by
  simp only [bitRange, run_bind_eq_ok] at h
  obtain ⟨high, l₀, hhigh, low, l₀', hlow, r, l₁, hr, unit, l₂, hunit, x, l₃, hx, y, l₄, hy, t, l₅,
    ht, h⟩ := h
  obtain ⟨hmsb, rfl⟩ := constantOf_eq_ok hhigh
  obtain ⟨hlsb, rfl⟩ := constantOf_eq_ok hlow
  obtain ⟨p₁, hr⟩ := register_prepares hl hp hr
  obtain ⟨p₂, hk⟩ := resource_prepares p₁.sound p₁.placed (Pool.operator_takes (by decide) _) hunit
  obtain ⟨p₃, hx⟩ := constant_prepares p₂.sound p₂.placed hx
  obtain ⟨p₄, hy⟩ := constant_prepares p₃.sound p₃.placed hy
  obtain ⟨p₅, ht⟩ := register_prepares p₄.sound p₄.placed ht
  have p : Prepares s l₂ l₅ := (p₃.trans p₄).trans p₅
  refine emit_finishes ((p₁.trans p₂).trans p) (p.keeps.builder.pool.kindAt hk)
    (by decide) (by decide) (fun st hkeeps does => ?_) h
  exact .bitRange hmsb hlsb (hx.mono ((p₄.trans p₅).keeps.trans hkeeps))
    (hy.mono (p₅.keeps.trans hkeeps)) (hkeeps.kept ht)
    ((p₂.trans p).keeps.trans hkeeps |>.kept hr) does

theorem privateMember_finishes {label : String} {width : UInt64} {initial : Int64}
    {object r : RegisterId} (write : Bool) (hl : l.Sound) (hp : l.Placed s)
    (h : (privateMember s ⟨s.object, label⟩ width initial r write).run l = .ok ((), l')) :
    Finishes s (if write then .memberWrite object label r else .memberRead r object label) l l' := by
  simp only [privateMember, run_bind_eq_ok] at h
  obtain ⟨member, l₁, hmember, own, l₂, hown, unit, l₃, hunit, h⟩ := h
  obtain ⟨p₁, hmember⟩ := memberRegister_prepares hl hp hmember
  obtain ⟨p₂, hown⟩ := register_prepares p₁.sound p₁.placed hown
  obtain ⟨p₃, hk⟩ := resource_prepares p₂.sound p₂.placed Pool.assign_takes hunit
  have p : Prepares s l l₃ := (p₁.trans p₂).trans p₃
  have hmember₃ := (p₂.trans p₃).keeps.builder.member hmember
  have hown₃ := p₃.keeps.kept hown
  cases write with
  | true =>
    refine emit_finishes p hk (by decide) (by decide) (fun st hkeeps does => ?_) h
    exact .memberWrite (hkeeps.kept hown₃) (hkeeps.builder.member hmember₃) does
  | false =>
    refine emit_finishes p hk (by decide) (by decide) (fun st hkeeps does => ?_) h
    exact .memberRead (hkeeps.kept hown₃) (hkeeps.builder.member hmember₃) does

theorem memberAccess_of_own {i : Insn} {label : String} (r : RegisterId) (write : Bool)
    (haccess : l.walker.access s.machine i = .ok (s.object, l.walker)) (hown : s.OwnMember label) :
    ∃ width initial, (memberAccess s i label r write).run l =
      (privateMember s ⟨s.object, label⟩ width initial r write).run l := by
  obtain ⟨hstored, hshared⟩ := hown
  unfold memberAccess
  rw [run_bind_of_ok (run_get_eq_ok.mpr rfl), run_bind_of_ok
    (run_ofExcept_eq_ok (r := ((s.object, l.walker), l)).mpr ⟨haccess, rfl⟩)]
  dsimp only
  rw [run_bind_of_ok (run_modify_eq_ok.mpr rfl)]
  unfold Walker.storedMember? at hstored
  split at hstored
  · rename_i width value hlookup
    exact ⟨width, value, by simp [hlookup, storedMember, hshared]⟩
  · rename_i width value hlookup
    exact ⟨0, value, by simp [hlookup, storedMember, hshared]⟩
  · cases hstored

theorem access_of_own {w : Walker} {label : String} {r : RegisterId}
    (hw : w = Walker.start s.object) (hown : s.OwnMember label) :
    w.access s.machine (.memberRead r RegisterId.unused label) = .ok (s.object, w) ∧
      w.access s.machine (.memberWrite RegisterId.unused label r) = .ok (s.object, w) := by
  have hobject : w.objectOf? RegisterId.unused = some s.object := by
    subst hw
    rfl
  obtain ⟨hstored, -⟩ := hown
  unfold Walker.storedMember? at hstored
  refine ⟨?_, ?_⟩ <;> simp only [Walker.access, Walker.read, Walker.boundObject, hobject,
    Bind.bind, Except.bind, pure, Except.pure]
  split at hstored
  · rename_i hlookup
    simp [hlookup]
  · rename_i hlookup
    simp [hlookup]
  · cases hstored

theorem branch_finishes {cond : RegisterId} {target : UInt64} (hl : l.Sound) (hp : l.Placed s)
    (h : (branch s cond target).run l = .ok ((), l')) :
    Finishes s (.branch cond target) l l' := by
  have hstep := branch_step (u := .none) hl h
  simp only [branch, run_bind_eq_ok] at h
  obtain ⟨unit, l₁, hunit, c, l₂, hc, i, l₃, hinsn, h⟩ := h
  obtain ⟨p₁, -⟩ := resource_prepares hl hp Pool.transition_takes hunit
  obtain ⟨p₂, hc⟩ := register_prepares p₁.sound p₁.placed hc
  obtain ⟨p₃, -, hinputs⟩ := insn_prepares p₂.sound p₂.placed hinsn
  have p : Prepares s l l₃ := (p₁.trans p₂).trans p₃
  have hs : Settles s l₃ l' := push_settles h
  cases run_push_eq_ok.mp h
  refine ⟨hstep.sound, hs.placed p.placed, hstep.walker, p.keeps.trans hs.keeps, ?_⟩
  exact ⟨_, by rw [p.states], .branch _ cond target (p₃.keeps.kept hc) hinputs⟩

theorem instruction_finishes {i : Insn} (hi : s.Computes i) (hl : l.Sound) (hp : l.Placed s)
    (hw : l.walker = Walker.start s.object) (h : (instruction s i).run l = .ok ((), l')) :
    Finishes s i l (force l.states.length l') := by
  -- Only an instruction that does nothing leaves its state to be forced.
  have hforce : Finishes s i l l' → Finishes s i l (force l.states.length l') := by
    intro hf
    obtain ⟨new, hnew, hreal⟩ := hf.states
    have hlen : l'.states.length ≠ l.states.length := by
      have : new ≠ [] := by cases hreal <;> simp
      have := List.length_pos_iff.mpr this
      rw [hnew, List.length_append]
      omega
    rwa [force, if_neg hlen]
  cases i with
  | nop =>
    cases run_pure_eq_ok.mp h
    rw [force, if_pos rfl]
    have hs : Settles s l (pushed l) := .of_extends (Builder.newState_extends l.builder) rfl
    exact ⟨(pushed_step (u := .none) hl).sound, hs.placed hp, rfl, hs.keeps, _, rfl, .nop _⟩
  | goto target =>
    refine hforce ?_
    have hstep := push_step (u := .none) hl (fun id => .goto id target) h
    have hs : Settles s l l' := push_settles h
    cases run_push_eq_ok.mp h
    exact ⟨hstep.sound, hs.placed hp, rfl, hs.keeps, _, rfl, .goto _ target⟩
  | branch cond target => exact hforce (branch_finishes hl hp h)
  | assign target source => exact hforce (assign_finishes hl hp h)
  | binary op target left right => exact hforce (binary_finishes hl hp h)
  | shift right target source amount => exact hforce (shift_finishes hl hp h)
  | concat target left right => exact hforce (concat_finishes hl hp h)
  | count down operand => exact hforce (count_finishes hl hp h)
  | bitRange target source msb lsb => exact hforce (bitRange_finishes hl hp h)
  | invert logical target source => exact hforce (invert_finishes hl hp h)
  | memberRead target object label =>
    obtain ⟨rfl, -, hown⟩ := hi
    obtain ⟨width, initial, hrun⟩ := memberAccess_of_own target false
      (access_of_own (r := target) hw hown).1 hown
    exact hforce (privateMember_finishes false hl hp (hrun ▸ h))
  | memberWrite object label source =>
    obtain ⟨rfl, -, hown⟩ := hi
    obtain ⟨width, initial, hrun⟩ := memberAccess_of_own source true
      (access_of_own (r := source) hw hown).2 hown
    exact hforce (privateMember_finishes true hl hp (hrun ▸ h))
  | _ => exact hi.elim

section Success

variable {α β : Type}

def Succeeds (x : Lower α) (l : Lowering) : Prop := ∃ a l', x.run l = .ok (a, l')

theorem Succeeds.bind {x : Lower α} {f : α → Lower β} (hx : Succeeds x l)
    (hf : ∀ a l', x.run l = .ok (a, l') → Succeeds (f a) l') : Succeeds (x >>= f) l := by
  obtain ⟨a, l₁, ha⟩ := hx
  obtain ⟨b, l₂, hb⟩ := hf a l₁ ha
  exact ⟨b, l₂, run_bind_eq_ok.mpr ⟨a, l₁, ha, hb⟩⟩

theorem succeeds_pure (a : α) (l : Lowering) : Succeeds (pure a) l :=
  ⟨a, l, run_pure_eq_ok.mpr rfl⟩

theorem succeeds_get (l : Lowering) : Succeeds get l := ⟨l, l, run_get_eq_ok.mpr rfl⟩

theorem succeeds_modify (f : Lowering → Lowering) (l : Lowering) : Succeeds (modify f) l :=
  ⟨_, _, run_modify_eq_ok.mpr rfl⟩

theorem succeeds_build (f : Builder → α × Builder) (l : Lowering) : Succeeds (build f) l :=
  ⟨_, _, run_build_eq_ok.mpr rfl⟩

theorem succeeds_insn (unit : Nat) (operand : String) (inputs outputs : List Nat) (l : Lowering) :
    Succeeds (insn unit operand inputs outputs) l :=
  ⟨_, _, run_insn_eq_ok.mpr rfl⟩

theorem succeeds_push (insns : List Rtl.Insn) (jump : Option Insn) (callee : Option Callee)
    (l : Lowering) : Succeeds (push insns jump callee) l :=
  ⟨_, _, run_push_eq_ok.mpr rfl⟩

theorem succeeds_emit (unit : Nat) (operand : String) (inputs outputs : List Nat) (l : Lowering) :
    Succeeds (emit unit operand inputs outputs) l :=
  ⟨_, _, run_emit_eq_ok.mpr rfl⟩

theorem succeeds_bindLocal (r : RegisterId) (i : Nat) (l : Lowering) :
    Succeeds (Lower.bind r i) l :=
  ⟨_, _, run_bindLocal_eq_ok.mpr rfl⟩

theorem succeeds_newLocal (r : RegisterId) (reg : Register) (l : Lowering) :
    Succeeds (newLocal s r reg) l := by
  cases hc : reg.const <;> simp only [newLocal, hc] <;> exact succeeds_build _ l

theorem succeeds_register {r : RegisterId} (hr : s.Has r) (l : Lowering) :
    Succeeds (register s r) l := by
  obtain ⟨reg, hreg⟩ := hr
  refine (succeeds_get l).bind fun a l₁ _ => ?_
  split
  · exact succeeds_pure _ l₁
  · simp only [hreg]
    exact (succeeds_newLocal r reg l₁).bind fun i l₂ _ =>
      (succeeds_bindLocal r i l₂).bind fun _ l₃ _ => succeeds_pure i l₃

theorem succeeds_registers {rs : List RegisterId} (hrs : ∀ r ∈ rs, s.Has r) (l : Lowering) :
    Succeeds (registers s rs) l := by
  induction rs generalizing l with
  | nil => exact succeeds_pure [] l
  | cons r rest ih =>
    refine (succeeds_register (hrs r (by simp)) l).bind fun i l₁ _ => ?_
    exact (ih (fun r hr => hrs r (List.mem_cons_of_mem _ hr)) l₁).bind fun is l₂ _ =>
      succeeds_pure (i :: is) l₂

theorem succeeds_constantOf {r : RegisterId} (hr : s.Constant r) (what : String) (l : Lowering) :
    Succeeds (constantOf s r what) l := by
  obtain ⟨reg, value, hreg, hc⟩ := hr
  simp only [constantOf, hreg, Option.bind_some, hc]
  exact succeeds_pure value l

theorem succeeds_invert (source target : Nat) (l : Lowering) : Succeeds (invert source target) l :=
  (succeeds_build _ l).bind fun unit l₁ _ => succeeds_emit unit _ _ _ l₁

theorem succeeds_privateMember (e : Entity) (width : UInt64) (initial : Int64) {r : RegisterId}
    (write : Bool) (hr : s.Has r) (l : Lowering) :
    Succeeds (privateMember s e width initial r write) l := by
  refine (succeeds_build _ l).bind fun member l₁ _ => ?_
  refine (succeeds_register hr l₁).bind fun own l₂ _ => ?_
  refine (succeeds_build _ l₂).bind fun unit l₃ _ => ?_
  split <;> exact succeeds_emit unit _ _ _ l₃

theorem instruction_succeeds {i : Insn} (hi : s.Computes i)
    (hw : l.walker = Walker.start s.object) : Succeeds (instruction s i) l := by
  cases i with
  | nop => exact succeeds_pure () l
  | goto target => exact succeeds_push _ _ _ l
  | branch cond target =>
    refine (succeeds_build _ l).bind fun unit l₁ _ => ?_
    refine (succeeds_register hi.1 l₁).bind fun c l₂ _ => ?_
    exact (succeeds_insn unit _ _ _ l₂).bind fun j l₃ _ => succeeds_push _ _ _ l₃
  | assign target source =>
    refine (succeeds_register hi.1.has l).bind fun t l₁ _ => ?_
    refine (succeeds_register hi.2 l₁).bind fun r l₂ _ => ?_
    exact (succeeds_build _ l₂).bind fun unit l₃ _ => succeeds_emit unit _ _ _ l₃
  | binary op target left right =>
    obtain ⟨hop, htarget, hleft, hright⟩ := hi
    obtain ⟨kind, hkind⟩ := Option.isSome_iff_exists.mp hop
    simp only [instruction, binary, hkind]
    refine (succeeds_build _ l).bind fun unit l₁ _ => ?_
    refine (succeeds_register hleft l₁).bind fun x l₂ _ => ?_
    refine (succeeds_register hright l₂).bind fun y l₃ _ => ?_
    refine (succeeds_register htarget.has l₃).bind fun t l₄ _ => ?_
    split
    · refine (succeeds_build _ l₄).bind fun z l₅ _ => ?_
      exact (succeeds_emit unit _ _ _ l₅).bind fun _ l₆ _ => succeeds_invert z t l₆
    · exact succeeds_emit unit _ _ _ l₄
  | shift right target source amount =>
    refine (succeeds_constantOf hi.2.2 _ l).bind fun n l₀ _ => ?_
    refine (succeeds_register hi.2.1 l₀).bind fun r l₁ _ => ?_
    refine (succeeds_build _ l₁).bind fun unit l₂ _ => ?_
    refine (succeeds_build _ l₂).bind fun c l₃ _ => ?_
    exact (succeeds_register hi.1.has l₃).bind fun t l₄ _ => succeeds_emit unit _ _ _ l₄
  | concat target left right =>
    refine (succeeds_register hi.2.1 l).bind fun x l₁ _ => ?_
    refine (succeeds_register hi.2.2 l₁).bind fun y l₂ _ => ?_
    refine (succeeds_build _ l₂).bind fun unit l₃ _ => ?_
    exact (succeeds_register hi.1.has l₃).bind fun t l₄ _ => succeeds_emit unit _ _ _ l₄
  | count down operand =>
    refine (succeeds_register (Site.Writable.has hi) l).bind fun r l₁ _ => ?_
    refine (succeeds_build _ l₁).bind fun unit l₂ _ => ?_
    exact (succeeds_build _ l₂).bind fun one l₃ _ => succeeds_emit unit _ _ _ l₃
  | bitRange target source msb lsb =>
    obtain ⟨htarget, hsource, hmsb, hlsb⟩ := hi
    refine (succeeds_constantOf hmsb _ l).bind fun high l₀ _ => ?_
    refine (succeeds_constantOf hlsb _ l₀).bind fun low l₁ _ => ?_
    refine (succeeds_register hsource l₁).bind fun r l₂ _ => ?_
    refine (succeeds_build _ l₂).bind fun unit l₃ _ => ?_
    refine (succeeds_build _ l₃).bind fun x l₄ _ => ?_
    refine (succeeds_build _ l₄).bind fun y l₅ _ => ?_
    exact (succeeds_register htarget.has l₅).bind fun t l₆ _ => succeeds_emit unit _ _ _ l₆
  | invert logical target source =>
    refine (succeeds_register hi.2 l).bind fun r l₁ _ => ?_
    exact (succeeds_register hi.1.has l₁).bind fun t l₂ _ => succeeds_invert r t l₂
  | memberRead target object label =>
    obtain ⟨rfl, htarget, hown⟩ := hi
    obtain ⟨width, initial, hrun⟩ := memberAccess_of_own target false
      (access_of_own (r := target) hw hown).1 hown
    obtain ⟨a, l', h⟩ := succeeds_privateMember ⟨s.object, label⟩ width initial false
      htarget.has l
    exact ⟨a, l', hrun.trans h⟩
  | memberWrite object label source =>
    obtain ⟨rfl, hsource, hown⟩ := hi
    obtain ⟨width, initial, hrun⟩ := memberAccess_of_own source true
      (access_of_own (r := source) hw hown).2 hown
    obtain ⟨a, l', h⟩ := succeeds_privateMember ⟨s.object, label⟩ width initial true
      hsource l
    exact ⟨a, l', hrun.trans h⟩
  | _ => exact hi.elim

end Success

end Lower
end Synth
end MachineSynth
