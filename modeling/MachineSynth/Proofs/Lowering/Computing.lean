import Mathlib
import MachineSynth.Proofs.Lowering.Realization

/-! Methods that only compute: they can always be lowered, each of their instructions is realized by
the states at its position, and these lead on as the code does. -/
namespace MachineSynth
namespace Synth

open Rtl (kindAt)
open Lowering (Quiet Step Placed Keeps Settles Linked)

def LoweredState.Within (n : Nat) (st : LoweredState) : Prop :=
  ∀ j t, st.jump = some j → j.jumpTarget? = some t → t.toNat ≤ n

theorem Realizes.length {s : Site} {l : Lowering} {i : Insn} {new : List LoweredState}
    (h : Realizes s l i new) : new.length = Lower.stateCount i := by
  cases h with
  | binary kind plain => simp [Lower.stateCount, plain]
  | negated kind negates => simp [Lower.stateCount, negates]
  | _ => rfl

theorem Realizes.within {s : Site} {l : Lowering} {i : Insn} {new : List LoweredState}
    (h : Realizes s l i new) (hi : s.Computes i) :
    ∀ st ∈ new, st.Within s.method.code.length := by
  have hnone : ∀ {st : LoweredState}, st.jump = none → st.Within s.method.code.length :=
    fun hst j t hj => by rw [hst] at hj; cases hj
  intro st hst
  cases h with
  | nop id =>
    cases List.mem_singleton.mp hst
    exact hnone rfl
  | goto id target =>
    cases List.mem_singleton.mp hst
    rintro j t ⟨⟩ ⟨⟩
    exact hi
  | branch id cond target place inputs =>
    cases List.mem_singleton.mp hst
    rintro j t ⟨⟩ ⟨⟩
    exact hi.2
  | negated kind negates target left right spare does inverts =>
    simp only [List.mem_cons, List.not_mem_nil, or_false] at hst
    rcases hst with rfl | rfl
    · exact hnone does.jump
    · exact hnone inverts.jump
  | assign target source does | binary kind plain target left right does
  | shift amount fixed target source does | concat target left right does
  | count operand fixed does | bitRange msb lsb high low target source does
  | invert target source does | memberRead target member does
  | memberWrite source member does =>
    cases List.mem_singleton.mp hst
    exact hnone does.jump

namespace Lower

variable {s : Site} {l l' : Lowering}

/-- The lowering of a method that only computes, while some of its code is done. -/
structure Computing (s : Site) (start : Lowering) (done : List Insn) (l : Lowering) : Prop where
  sound : l.Sound
  placed : l.Placed s
  walker : l.walker = Walker.start s.object
  count : l.states.length = start.states.length + offset done
  within : ∀ st ∈ l.states, st.Within s.method.code.length

/-- Later, with the same states first. -/
def Follows (l l' : Lowering) : Prop := l.Keeps l' ∧ l.states <+: l'.states

theorem Computing.step {start : Lowering} {done : List Insn} {i : Insn} (hl : Computing s start done l)
    (hi : s.Computes i) (h : (instruction s i).run l = .ok ((), l')) :
    Computing s start (done ++ [i]) (force l.states.length l') ∧
      Follows l (force l.states.length l') := by
  have hf := instruction_finishes hi hl.sound hl.placed hl.walker h
  obtain ⟨new, hnew, hreal⟩ := hf.states
  refine ⟨⟨hf.sound, hf.placed, hf.walker.trans hl.walker, ?_, fun st hst => ?_⟩, hf.keeps, ?_⟩
  · rw [hnew, List.length_append, hreal.length, hl.count, offset_append, offset_cons, offset_nil,
      add_zero, add_assoc]
  · rw [hnew] at hst
    rcases List.mem_append.mp hst with hst | hst
    · exact hl.within st hst
    · exact hreal.within hi st hst
  · rw [hnew]
    exact List.prefix_append _ _

theorem code_succeeds {is : List Insn} {start : Lowering} {done : List Insn}
    (his : ∀ i ∈ is, s.Computes i) (hl : Computing s start done l) : Succeeds (code s is) l := by
  induction is generalizing l done with
  | nil => exact succeeds_pure [] l
  | cons i rest ih =>
    obtain ⟨_, b, hb⟩ := instruction_succeeds (his i (by simp)) hl.walker
    obtain ⟨starts, l', h⟩ := ih (fun j hj => his j (List.mem_cons_of_mem i hj))
      (hl.step (his i (by simp)) hb).1
    exact ⟨_, l', code_cons_eq_ok.mpr ⟨b, starts, hb, h, rfl⟩⟩

theorem code_realizes {is : List Insn} {starts : List Nat} (his : ∀ i ∈ is, s.Computes i)
    (hl : Computing s l [] l) (h : (code s is).run l = .ok (starts, l')) :
    Computing s l is l' ∧ Follows l l' ∧ starts.length = is.length ∧
      ∀ k i, is[k]? = some i → starts[k]? = some (l.states.length + offset (is.take k)) ∧
        ∃ new, Realizes s l' i new ∧ ∀ d st, new[d]? = some st →
          l'.states[l.states.length + offset (is.take k) + d]? = some st := by
  have hstep : ∀ done i rest a b, is = done ++ i :: rest → Computing s l done a →
      (instruction s i).run a = .ok ((), b) →
      Computing s l (done ++ [i]) (force a.states.length b) ∧
        Follows a (force a.states.length b) := by
    intro done i rest a b hall ha hb
    exact ha.step (his i (by simp [hall])) hb
  obtain ⟨hl', hfollows, hlen, hat⟩ := code_at (R := Follows) (fun a => ⟨.refl a, List.prefix_refl _⟩)
    (fun _ _ _ h h' => ⟨h.1.trans h'.1, h.2.trans h'.2⟩) (List.nil_append is).symm hstep hl h
  refine ⟨hl', hfollows, hlen, fun k i hi => ?_⟩
  obtain ⟨a, b, ha, hb, hstart, -, hrest⟩ := hat k i hi
  rw [List.nil_append] at ha
  have hf := instruction_finishes (his i (List.mem_of_getElem? hi)) ha.sound ha.placed ha.walker hb
  obtain ⟨new, hnew, hreal⟩ := hf.states
  refine ⟨hstart.trans (by rw [ha.count]), new, hreal.mono hrest.1, fun d st hst => ?_⟩
  refine getElem?_of_isPrefix hrest.2 ?_
  rw [hnew, ← ha.count, List.getElem?_append_right (Nat.le_add_right _ _), Nat.add_sub_cancel_left]
  exact hst

section Entry

theorem argumentRegisters_placed {i : Nat} {args : List VarDecl} {rs : List Nat} (hl : l.Sound)
    (hp : l.Placed s) (h : (argumentRegisters s i args).run l = .ok (rs, l')) : l'.Placed s := by
  induction args generalizing i l rs with
  | nil =>
    cases run_pure_eq_ok.mp h
    exact hp
  | cons d rest ih =>
    simp only [argumentRegisters, run_bind_eq_ok] at h
    obtain ⟨r, l₁, hr, h⟩ := h
    have q₁ : Quiet .none l l₁ := storage_quiet hl hr
    have hrest : ∀ {l₂}, l₂.Sound → l₂.Placed s → (do
        return r :: (← argumentRegisters s (i + 1) rest)).run l₂ = .ok (rs, l') →
        l'.Placed s := by
      intro l₂ hl₂ hp₂ h
      rw [run_bind_eq_ok] at h
      obtain ⟨rs', l₃, hrs, h⟩ := h
      cases run_pure_eq_ok.mp h
      exact ih hl₂ hp₂ hrs
    split at h
    · rw [run_bind_eq_ok] at h
      obtain ⟨_, l₂, hbind, h⟩ := h
      refine hrest (bindLocal_quiet (u := .none) q₁.sound hbind).sound ?_ h
      cases run_build_eq_ok.mp hr
      cases run_bindLocal_eq_ok.mp hbind
      obtain ⟨reg, hreg, hkind, -⟩ := l.builder.getElem?_freshRegister d.name
        (.unsigned ((argumentWidth? d).getD 0)) .storage none
      refine bindLocal_placed hl.builder hp (Builder.freshRegister_extends _ _ _ _ _) rfl hreg
        fun hk => ?_
      rw [hkind] at hk
      cases hk
    · exact hrest q₁.sound ((storage_settles hl.builder hp hr).1.placed hp) h

theorem registers_placed {rs : List RegisterId} {is : List Nat} (hl : l.Sound) (hp : l.Placed s)
    (h : (registers s rs).run l = .ok (is, l')) : l'.Placed s := by
  induction rs generalizing l is with
  | nil =>
    cases run_pure_eq_ok.mp h
    exact hp
  | cons r rest ih =>
    simp only [registers, run_bind_eq_ok] at h
    obtain ⟨i, l₁, hr, is', l₂, hrest, h⟩ := h
    cases run_pure_eq_ok.mp h
    exact ih (register_quiet (u := .none) hl hr).sound
      ((register_settles hl.builder hr).1.placed hp) hrest

theorem resultRegisters_placed {rs : List Nat} (hl : l.Sound) (hp : l.Placed s)
    (h : (resultRegisters s).run l = .ok (rs, l')) : l'.Placed s := by
  unfold resultRegisters at h
  split at h
  · simp only [run_bind_eq_ok] at h
    obtain ⟨r, l₁, hr, h⟩ := h
    cases run_pure_eq_ok.mp h
    exact (storage_settles hl.builder hp hr).1.placed hp
  · exact registers_placed hl hp h

theorem entry_placed {e : Rtl.Insn} (hl : l.Sound) (hp : l.Placed s)
    (h : (entry s).run l = .ok (e, l')) : l'.Placed s := by
  simp only [entry, run_bind_eq_ok] at h
  obtain ⟨unit, l₁, hunit, i, l₂, hi, inputs, l₃, hinputs, outputs, l₄, houtputs, h⟩ := h
  obtain ⟨p₁, -⟩ := resource_prepares hl hp Pool.pseudo_takes hunit
  obtain ⟨p₂, -⟩ := insn_prepares p₁.sound p₁.placed hi
  have hp₃ := argumentRegisters_placed p₂.sound p₂.placed hinputs
  have q₃ := argumentRegisters_quiet (u := .none) p₂.sound hinputs
  have hp₄ := resultRegisters_placed q₃.sound hp₃ houtputs
  split at h
  · exact absurd h run_error_ne_ok
  · cases run_pure_eq_ok.mp h
    exact hp₄

theorem succeeds_argumentRegisters (i : Nat) (args : List VarDecl) (l : Lowering) :
    Succeeds (argumentRegisters s i args) l := by
  induction args generalizing i l with
  | nil => exact succeeds_pure [] l
  | cons d rest ih =>
    refine (succeeds_build _ l).bind fun r l₁ _ => ?_
    have hrest : ∀ l₂, Succeeds (do return r :: (← argumentRegisters s (i + 1) rest)) l₂ :=
      fun l₂ => (ih (i + 1) l₂).bind fun rs l₃ _ => succeeds_pure (r :: rs) l₃
    split
    · exact (succeeds_bindLocal _ r l₁).bind fun _ l₂ _ => hrest l₂
    · exact hrest l₁

end Entry

end Lower

namespace Site

/-- A method that only computes: its arguments are numbers or truth values, its results have
registers, and so has all that its code names. -/
structure OnlyComputes (s : Site) : Prop where
  arguments : ∀ d ∈ s.method.args, (Lower.argumentWidth? d).isSome
  results : ∀ i < s.method.returns.length, s.Has (s.method.returnRegister (UInt64.ofNat i))
  code : ∀ i ∈ s.method.code, s.Computes i

/-- The position of the first state of an instruction; behind the last one, that of the last
state. -/
def position (s : Site) (k : Nat) : Nat := Lower.firstState s.role + Lower.offset (s.method.code.take k)

end Site

namespace Lower

variable {s : Site} {l l' : Lowering}

theorem succeeds_entry (hs : s.OnlyComputes) (l : Lowering) : Succeeds (entry s) l := by
  refine (succeeds_build _ l).bind fun unit l₁ _ => ?_
  refine (succeeds_insn unit _ _ _ l₁).bind fun i l₂ _ => ?_
  refine (succeeds_argumentRegisters 0 s.method.args l₂).bind fun inputs l₃ _ => ?_
  have hresults : Succeeds (resultRegisters s) l₃ := by
    unfold resultRegisters
    split
    · exact (succeeds_build _ l₃).bind fun r l₄ _ => succeeds_pure [r] l₄
    · refine succeeds_registers (fun r hr => ?_) l₃
      simp only [List.mem_map, List.mem_range] at hr
      obtain ⟨j, hj, rfl⟩ := hr
      exact hs.results j hj
  refine hresults.bind fun outputs l₄ _ => ?_
  have hnone : s.method.args.find? (argumentWidth? · |>.isNone) = none := by
    refine List.find?_eq_none.mpr fun d hd => ?_
    simpa [Option.isSome_iff_ne_none] using hs.arguments d hd
  rw [hnone]
  exact succeeds_pure _ l₄

theorem succeeds_wait (e : Rtl.Insn) (l : Lowering) : Succeeds (wait s e) l := by
  refine (succeeds_get l).bind fun _ l₁ _ => ?_
  simp only
  split
  · exact (succeeds_build _ l₁).bind fun unit l₂ _ => succeeds_emit unit _ _ _ l₂
  · split
    · exact (succeeds_build _ l₁).bind fun unit l₂ _ => succeeds_emit unit _ _ _ l₂
    · exact (succeeds_build _ l₁).bind fun unit l₂ _ => succeeds_emit unit _ _ _ l₂

theorem succeeds_addTargets (targets : List Nat) (st : LoweredState) (l : Lowering) :
    Succeeds (addTargets targets st) l := by
  refine (succeeds_get l).bind fun a l₁ _ => ?_
  simp only
  split
  · exact succeeds_pure _ l₁
  · refine (succeeds_build _ l₁).bind fun r l₂ _ => ?_
    exact (succeeds_insn r _ _ _ l₂).bind fun i l₃ _ => succeeds_pure _ l₃

theorem succeeds_updateStates {f : Nat → LoweredState → Lower LoweredState}
    (hf : ∀ j st a, st ∈ l.states → Succeeds (f j st) a) : Succeeds (updateStates f) l := by
  have hmap : ∀ (sts : List LoweredState) (k : Nat) (a : Lowering),
      (∀ st ∈ sts, st ∈ l.states) → Succeeds (mapStates f k sts) a := by
    intro sts
    induction sts with
    | nil => exact fun k a _ => succeeds_pure [] a
    | cons st rest ih =>
      intro k a hsub
      refine (hf k st a (hsub st (by simp))).bind fun st' a₁ _ => ?_
      exact (ih (k + 1) a₁ fun x hx => hsub x (List.mem_cons_of_mem st hx)).bind
        fun rest' a₂ _ => succeeds_pure (st' :: rest') a₂
  refine (succeeds_get l).bind fun a l₁ ha => ?_
  cases run_get_eq_ok.mp ha
  exact (hmap l.states 0 l fun _ h => h).bind fun sts l₂ _ => succeeds_modify _ l₂

theorem succeeds_resolveJump {starts : List Nat} {n i : Nat} {st : LoweredState}
    (hlen : starts.length = n + 1) (hst : st.Within n) (l : Lowering) :
    Succeeds (resolveJump s starts i st) l := by
  have htarget : ∀ {t : UInt64}, t.toNat ≤ n → Succeeds (jumpTarget s starts t) l := by
    intro t ht
    unfold jumpTarget
    rw [List.getElem?_eq_getElem (by omega)]
    exact succeeds_pure _ l
  unfold resolveJump
  split
  · rename_i target hjump
    exact (htarget (hst _ target hjump rfl)).bind fun t l₁ _ => succeeds_addTargets _ st l₁
  · rename_i cond target hjump
    exact (htarget (hst _ target hjump rfl)).bind fun t l₁ _ => succeeds_addTargets _ st l₁
  · exact succeeds_pure st l

theorem succeeds_linkStates (l : Lowering) : Succeeds linkStates l := by
  refine (succeeds_get l).bind fun a l₁ _ => ?_
  refine succeeds_updateStates fun j st b _ => ?_
  refine (succeeds_get b).bind fun c b₁ _ => ?_
  simp only
  split
  · exact succeeds_pure st b₁
  · split
    · exact succeeds_pure st b₁
    · exact succeeds_addTargets _ st b₁

theorem succeeds_closeLoop (e : Rtl.Insn) (l : Lowering) : Succeeds (closeLoop s e) l := by
  refine (succeeds_get l).bind fun a l₁ _ => ?_
  refine succeeds_updateStates fun j st b _ => ?_
  have hfinish : Succeeds (finish s e) b := by
    unfold finish
    split
    · exact (succeeds_build _ b).bind fun unit b₁ _ =>
        (succeeds_insn unit _ _ _ b₁).bind fun i b₂ _ => succeeds_pure [i] b₂
    · split
      · exact succeeds_pure [] b
      · exact (succeeds_build _ b).bind fun unit b₁ _ =>
          (succeeds_insn unit _ _ _ b₁).bind fun i b₂ _ => succeeds_pure [i] b₂
  split
  · exact hfinish.bind fun insns b₁ _ => succeeds_addTargets _ _ b₁
  · exact succeeds_pure st b

theorem wait_eq_ok {e : Rtl.Insn} (h : (wait s e).run l = .ok ((), l')) :
    ∃ st, (st.jump = none ∧ ∀ i ∈ st.insns, i.inputs = []) ∧ l'.locals = l.locals ∧
      l'.states = l.states ++ [st] := by
  simp only [wait, run_bind_eq_ok, run_get_eq_ok] at h
  obtain ⟨_, _, hget, h⟩ := h
  cases hget
  have hone : ∀ {take}, (do
        let unit ← resource take
        emit unit "" [] e.inputs).run l = .ok ((), l') →
      ∃ st, (st.jump = none ∧ ∀ i ∈ st.insns, i.inputs = []) ∧ l'.locals = l.locals ∧
        l'.states = l.states ++ [st] := by
    intro take h
    rw [run_bind_eq_ok] at h
    obtain ⟨unit, l₁, hunit, h⟩ := h
    cases run_build_eq_ok.mp hunit
    cases run_emit_eq_ok.mp h
    exact ⟨_, ⟨rfl, by simp⟩, rfl, rfl⟩
  split at h
  · exact hone h
  · split at h
    · exact hone h
    · exact hone h

/-- A method that only computes, as far as its code: where the lowering then stands. -/
theorem computing_of_entry {e : Rtl.Insn} {b : Builder} {l₁ : Lowering} (hb : b.Sound)
    (he : (entry s).run ⟨b, Walker.start s.object, [], []⟩ = .ok (e, l₁))
    (hl : s.role = .inner ∧ l = l₁ ∨ s.role ≠ .inner ∧ (wait s e).run l₁ = .ok ((), l)) :
    Computing s l [] l ∧ l.states.length = firstState s.role := by
  have hstart : Lowering.Sound ⟨b, Walker.start s.object, [], []⟩ := Site.start_sound hb s.object
  have hplaced : Placed s ⟨b, Walker.start s.object, [], []⟩ :=
    ⟨fun h => by simp at h, fun h => by simp at h, fun h => by simp at h⟩
  have q₁ := entry_quiet (u := .none) hstart he
  have hp₁ := entry_placed hstart hplaced he
  rcases hl with ⟨hrole, rfl⟩ | ⟨hrole, hwait⟩
  · refine ⟨⟨q₁.sound, hp₁, q₁.walker, by simp, fun st hst => ?_⟩, ?_⟩
    · rw [q₁.states] at hst
      cases hst
    · simp [q₁.states, firstState, hrole]
  · obtain ⟨a, ha, hlocals, hstates⟩ := wait_eq_ok hwait
    have q₂ := wait_step (u := .none) q₁.sound hwait
    refine ⟨⟨q₂.sound, hp₁.extend q₂.builder hlocals, q₂.walker.trans q₁.walker, by simp,
      fun st hst => ?_⟩, ?_⟩
    · rw [hstates, q₁.states] at hst
      cases List.mem_singleton.mp hst
      intro j t hj
      rw [ha.1] at hj
      cases hj
    · simp [q₂.count, q₁.states, firstState, hrole]

theorem body_succeeds {b : Builder} (hb : b.Sound) (hs : s.OnlyComputes) :
    Succeeds (body s) ⟨b, Walker.start s.object, [], []⟩ := by
  have hrest : ∀ {l₂ : Lowering} {finally' : Lower Rtl.Insn}, Computing s l₂ [] l₂ →
      (∀ a, Succeeds finally' a) → Succeeds (do
        let starts ← code s s.method.code
        push [] none none
        let last := (← get).states.length - 1
        updateStates (resolveJump s (starts ++ [last]))
        linkStates
        finally') l₂ := by
    intro l₂ finally' hl₂ hfinally
    refine (code_succeeds hs.code hl₂).bind fun starts l₃ hcode => ?_
    obtain ⟨hl₃, -, hlen, -⟩ := code_realizes hs.code hl₂ hcode
    refine (succeeds_push [] none none l₃).bind fun _ l₄ hpush => ?_
    refine (succeeds_get l₄).bind fun a l₅ hget => ?_
    cases run_get_eq_ok.mp hget
    refine Succeeds.bind (succeeds_updateStates fun j st x hst => ?_) fun _ l₆ _ =>
      (succeeds_linkStates l₆).bind fun _ l₇ _ => hfinally l₇
    refine succeeds_resolveJump (n := s.method.code.length) (by simp [hlen]) ?_ x
    cases run_push_eq_ok.mp hpush
    rcases List.mem_append.mp hst with hst | hst
    · exact hl₃.within st hst
    · cases List.mem_singleton.mp hst
      intro j t hj
      cases hj
  unfold body
  refine (succeeds_entry hs _).bind fun e l₁ he => ?_
  split
  · rename_i hrole
    replace hrole : s.role ≠ .inner := by simpa using hrole
    refine (succeeds_wait e l₁).bind fun _ l₂ hwait => ?_
    refine hrest (computing_of_entry hb he (.inr ⟨hrole, hwait⟩)).1 fun a => ?_
    exact (succeeds_closeLoop e a).bind fun _ a₁ _ => succeeds_pure e a₁
  · rename_i hrole
    replace hrole : s.role = .inner := by simpa using hrole
    exact hrest (computing_of_entry hb he (.inl ⟨hrole, rfl⟩)).1 fun a => succeeds_pure e a

end Lower

/-- A lowered method that only computes: its states realize its code, and lead on as it does. -/
structure Built (s : Site) (starts : List Nat) (l : Lowering) : Prop where
  sound : l.builder.Sound
  placed : l.Placed s
  length : l.states.length = s.position s.method.code.length + 1
  start : ∀ {k : Nat}, k ≤ s.method.code.length → starts[k]? = some (s.position k)
  realized : ∀ {k : Nat} {i : Insn}, s.method.code[k]? = some i → ∃ new, Realizes s l i new ∧
    ∀ d st, new[d]? = some st → ∃ st', l.states[s.position k + d]? = some st' ∧
      LoweredState.Routed l.builder.pool.resources starts (s.role != .inner) l.states.length
        (s.position k + d) st st'
  last : ∃ st st', st.insns = [] ∧ l.states[s.position s.method.code.length]? = some st' ∧
    LoweredState.Routed l.builder.pool.resources starts (s.role != .inner) l.states.length
      (s.position s.method.code.length) st st'
  waits : s.role ≠ .inner → ∃ st st', (st.jump = none ∧ ∀ i ∈ st.insns, i.inputs = []) ∧
    l.states[0]? = some st' ∧ LoweredState.Routed l.builder.pool.resources starts
      (s.role != .inner) l.states.length 0 st st'

theorem body_builds {s : Site} {b : Builder} (hb : b.Sound) (hs : s.OnlyComputes) :
    ∃ e l starts, (Lower.body s).run ⟨b, Walker.start s.object, [], []⟩ = .ok (e, l) ∧
      Built s starts l := by
  obtain ⟨e, l, hrun⟩ := Lower.body_succeeds hb hs
  obtain ⟨l₁, l₂, l₃, starts, he, -, hwait, -, hcode, hlinked⟩ :=
    Lower.body_spec (u := .none) (Site.start_sound hb s.object) hrun
  obtain ⟨hl₂, hfirst⟩ := Lower.computing_of_entry hb he hwait
  obtain ⟨hl₃, hfollows, hlen, hat⟩ := Lower.code_realizes hs.code hl₂ hcode
  have hcount : l₃.states.length = s.position s.method.code.length := by
    rw [hl₃.count, hfirst, Site.position, List.take_length]
  have hkeeps : l₃.Keeps l := by
    refine (Settles.of_extends (s := s) ?_ ?_).keeps
    · exact (Builder.newState_extends l₃.builder).trans hlinked.builder
    · rw [hlinked.locals]
      rfl
  have hpushed : ∀ {j st}, l₃.states[j]? = some st → (Lower.pushed l₃).states[j]? = some st :=
    fun hj => getElem?_of_isPrefix (List.prefix_append _ _) hj
  have hlength : (Lower.pushed l₃).states.length = l.states.length := hlinked.length.symm
  refine ⟨e, l, starts ++ [l₃.states.length], hrun, hlinked.sound, ?_, ?_, fun {k} hk => ?_,
    fun {k i} hi => ?_, ?_, fun hrole => ?_⟩
  · exact hl₃.placed.extend hkeeps.builder (by rw [hlinked.locals]; rfl)
  · rw [← hlength, ← hcount]
    simp [Lower.pushed]
  · rcases Nat.lt_or_ge k s.method.code.length with hlt | hge
    · rw [List.getElem?_append_left (hlen ▸ hlt),
        (hat k _ (List.getElem?_eq_getElem hlt)).1, hfirst, Site.position]
    · cases Nat.le_antisymm hk hge
      rw [← hlen, List.getElem?_concat_length, hcount, hlen]
  · obtain ⟨-, new, hreal, hnew⟩ := hat k i hi
    refine ⟨new, hreal.mono hkeeps, fun d st hst => ?_⟩
    rw [← hlength, Site.position, ← hfirst]
    exact hlinked.state (hpushed (hnew d st hst))
  · have hlast : (Lower.pushed l₃).states[s.position s.method.code.length]? =
        some ⟨l₃.builder.newState.1, [], none, none⟩ := by
      rw [← hcount]
      exact List.getElem?_concat_length
    obtain ⟨st', hst', hrouted⟩ := hlinked.state hlast
    exact ⟨_, st', rfl, hst', hlength ▸ hrouted⟩
  · obtain ⟨-, hwait⟩ := hwait.resolve_left fun h => hrole h.1
    obtain ⟨a, ha, -, hstates⟩ := Lower.wait_eq_ok hwait
    have hzero : l₂.states[0]? = some a := by
      have hl₁ : l₁.states = [] :=
        (Lower.entry_quiet (u := .none) (Site.start_sound hb s.object) he).states
      rw [hstates, hl₁]
      rfl
    obtain ⟨st', hst', hrouted⟩ := hlinked.state (hpushed (getElem?_of_isPrefix hfollows.2 hzero))
    exact ⟨a, st', ha, hst', hlength ▸ hrouted⟩

end Synth
end MachineSynth
