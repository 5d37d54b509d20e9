import Mathlib
import MachineSynth.Proofs.Lowering.Stability
import MachineSynth.Proofs.Resolving

/-! Constants while methods are lowered: as long as the code gives no value to a register that
stands for a constant, no state writes a constant of the table. The registers of the finished table
are given from the start: what can be written in an earlier table can be written in it. -/
namespace MachineSynth
namespace Method

/-- Whether a register stands for a constant when some of the code is done: it is declared as one,
or has been made to stand for one since. -/
def Fixed (m : Machine) (object : Nat) (f : Method) (done : List Insn) (r : RegisterId) : Prop :=
  f.Declares r ∨ (Synth.Walker.start object).Along m done (·.Rebinds m · r)

/-- Whether the code gives values only to registers that do not stand for constants. What makes a
register stand for a constant gives it none. -/
def SparesConstants (m : Machine) (object : Nat) (f : Method) : Prop :=
  ∀ k i w, f.code[k]? = some i → (Synth.Walker.start object).walk m (f.code.take k) = .ok w →
    ∀ r ∈ w.results m i, w.Rebinds m i r ∨ ¬ f.Fixed m object (f.code.take k) r

theorem Closed.not_declares {f : Method} (h : f.Closed) {n : Nat} (hn : n < f.returns.length) :
    ¬ f.Declares (f.returnRegister (UInt64.ofNat n)) := by
  rintro ⟨reg, hreg, hconst⟩
  obtain ⟨params, locals, hregisters, hdeclares⟩ := h.parameters
  have hlength := hdeclares.length_eq
  have hlt : (f.returnRegister (UInt64.ofNat n)).toNat < params.length := by
    have hle := Nat.mod_le (f.args.length % 2 ^ 64 + n % 2 ^ 64) (2 ^ 64)
    have hargs := Nat.mod_le f.args.length (2 ^ 64)
    have hres := Nat.mod_le n (2 ^ 64)
    simp only [returnRegister, UInt64.toNat_add, UInt64.toNat_ofNat', hlength, List.length_append]
    omega
  rw [register?, hregisters, List.getElem?_append_left hlt, List.getElem?_eq_getElem hlt,
    Option.some.injEq] at hreg
  have hdeclared := (List.forall₂_iff_get.mp hdeclares).2 _ hlt (hlength ▸ hlt)
  rw [List.get_eq_getElem, hreg] at hdeclared
  simp [hdeclared.2.2] at hconst

end Method

namespace Synth

open Rtl (Writable)

def LoweredState.Clean (R : List Rtl.Register) (st : LoweredState) : Prop :=
  ∀ i ∈ st.insns, ∀ j ∈ i.outputs, Writable R j

/-- A lowering that writes no constants, for a table with the given registers in the end. What
registers of the method have in the table can be written, unless they are fixed. -/
structure Lowering.Respects (R : List Rtl.Register) (fixed : RegisterId → Prop) (l : Lowering) :
    Prop where
  bound : ∀ {r : RegisterId} {j : Nat}, l.locals.lookup r = some j → ¬ fixed r → Writable R j
  member : ∀ {e : Entity} {j : Nat}, l.builder.members.lookup e = some j → Writable R j
  clean : ∀ st ∈ l.states, st.Clean R

theorem Lowering.Respects.weaken {R : List Rtl.Register} {fixed fixed' : RegisterId → Prop}
    {l : Lowering} (h : l.Respects R fixed) (hle : ∀ r, fixed r → fixed' r) :
    l.Respects R fixed' :=
  ⟨fun hj hr => h.bound hj fun hfixed => hr (hle _ hfixed), h.member, h.clean⟩

namespace Lowering

variable {s : Site} {may : Allowance} {R : List Rtl.Register} {fixed : RegisterId → Prop}
  {l l' : Lowering}

/-- A move keeps to constants if it only binds registers anew that are fixed, and gives values only
to those that are not. -/
theorem Move.respects (h : Move s may l l') (hdeclares : ∀ r, s.method.Declares r → fixed r)
    (hrebinds : ∀ r, may.rebinds r → fixed r) (hgives : ∀ r, may.gives r → ¬ fixed r)
    (hR : l'.builder.registers <+: R) (hl : l.Respects R fixed) : l'.Respects R fixed := by
  have hgrows := h.grows
  have hmember : ∀ {e : Entity} {j : Nat}, l'.builder.members.lookup e = some j → Writable R j :=
    fun hj => (hgrows.writable hj).elim hl.member (·.mono hR)
  have hgiven : ∀ {j}, l.Gives may.gives j → Writable R j := by
    rintro j (⟨r, hr, hj⟩ | ⟨e, he⟩ | hnew)
    · exact hl.bound hj (hgives r hr)
    · exact hl.member he
    · exact Rtl.Writable.mono hnew (hgrows.registers.trans hR)
  cases h with
  | build | walk => exact ⟨hl.bound, hmember, hl.clean⟩
  | push grows callee admits =>
    refine ⟨hl.bound, hmember, fun st hst => ?_⟩
    rcases List.mem_append.mp hst with hst | hst
    · exact hl.clean st hst
    · cases List.mem_singleton.mp hst
      exact fun i hi j hj => hgiven ((admits i hi).outputs j hj)
  | bind lt new =>
    refine ⟨fun {r' j} hj hr' => ?_, hmember, hl.clean⟩
    rw [lookup_cons_eq] at hj
    split at hj
    · rename_i heq
      cases hj
      obtain ⟨-, hmatches⟩ | hrebound := new
      · exact (hmatches.writable fun hr => hr' (heq ▸ hdeclares _ hr)).mono hR
      · exact absurd (heq ▸ hrebinds _ hrebound) hr'
    · exact hl.bound hj hr'
  | link grows widens =>
    refine ⟨hl.bound, hmember, fun st' hst' i' hi' j hj => ?_⟩
    obtain ⟨st, hst, hwidens⟩ := exists_mem_of_forall₂ widens hst'
    obtain hj | ⟨i, hi, hj⟩ := hwidens.outputs i' hi' j hj
    · exact hgiven hj
    · exact hl.clean st hst i hi j hj

theorem respects_of_moves (h : Relation.ReflTransGen (Move s may) l l')
    (hdeclares : ∀ r, s.method.Declares r → fixed r) (hrebinds : ∀ r, may.rebinds r → fixed r)
    (hgives : ∀ r, may.gives r → ¬ fixed r) (hR : l'.builder.registers <+: R)
    (hl : l.Respects R fixed) : l'.Respects R fixed := by
  induction h with
  | refl => exact hl
  | tail _ hmove ih =>
    exact hmove.respects hdeclares hrebinds hgives hR (ih (hmove.grows.registers.trans hR))

end Lowering

namespace Lower

open Lowering (Move)

variable {s : Site} {R : List Rtl.Register} {fixed : RegisterId → Prop} {l l' : Lowering}
  {e : Rtl.Insn}

theorem entry_respects (hdeclares : ∀ r, s.method.Declares r → fixed r)
    (h : (entry s).run l = .ok (e, l')) (hR : l'.builder.registers <+: R)
    (hl : l.Respects R fixed) : l'.Respects R fixed := by
  obtain ⟨l₁, l₂, hmoves, hargs, hout⟩ := entry_cases h
  have hpassed := argumentRegisters_passed hargs
  have hresults : Advances s True .none (resultRegisters s) l₂ := advances_resultRegisters l₂
  replace hresults := hresults.2 _ _ hout
  have hR₂ := (Lowering.grows_of_moves hresults).registers.trans hR
  have h₁ : l₁.Respects R fixed := Lowering.respects_of_moves hmoves hdeclares
    (fun _ => False.elim) (fun _ => False.elim) (hpassed.builder.registers.trans hR₂) hl
  have h₂ : l₂.Respects R fixed := by
    refine ⟨fun hj hr => ?_, fun hj => ?_, hpassed.states ▸ h₁.clean⟩
    · exact (hpassed.bound hj).elim (h₁.bound · hr) (·.mono hR₂)
    · exact (hpassed.builder.writable hj).elim h₁.member (·.mono hR₂)
  exact Lowering.respects_of_moves hresults hdeclares (fun _ => False.elim) (fun _ => False.elim)
    hR h₂

section Code

theorem fixed_concat {m : Machine} {object : Nat} {f : Method} {done : List Insn} {i : Insn}
    {w : Walker} (hw : (Walker.start object).walk m done = .ok w) (r : RegisterId) :
    f.Fixed m object (done ++ [i]) r ↔ f.Fixed m object done r ∨ w.Rebinds m i r := by
  rw [Method.Fixed, Walker.along_concat hw, ← or_assoc, Method.Fixed]

theorem code_respects {start : Lowering} {done is : List Insn} {starts : List Nat}
    (hall : s.method.code = done ++ is) (hat : Lowering.At s start done l)
    (hwalker : start.walker = Walker.start s.object)
    (hspares : s.method.SparesConstants s.machine s.object)
    (h : (code s is).run l = .ok (starts, l')) (hR : l'.builder.registers <+: R)
    (hl : l.Respects R (s.method.Fixed s.machine s.object done)) :
    l'.Respects R (s.method.Fixed s.machine s.object s.method.code) := by
  induction is generalizing l done starts with
  | nil =>
    cases run_pure_eq_ok.mp h
    rwa [hall, List.append_nil]
  | cons i rest ih =>
    obtain ⟨b, starts', hi, hrest, -⟩ := code_cons_eq_ok.mp h
    have hforced := (force_at hat hi).1
    have hmoves := (instruction_advances s i l).2 () b hi
    have hforce : Relation.ReflTransGen (Move s .none) b (force l.states.length b) :=
      force_moves _ b
    have hR₁ := (Lowering.grows_of_moves
      ((code_advances rest hforced.sound).2 _ _ hrest)).registers.trans hR
    have hw := hat.walker
    rw [hwalker] at hw
    have hfixed := fixed_concat (f := s.method) (i := i) hw
    have hdeclares : ∀ r, s.method.Declares r →
        s.method.Fixed s.machine s.object (done ++ [i]) r := fun _ => .inl
    have hgives : ∀ r, (allowed s l.walker i).gives r →
        ¬ s.method.Fixed s.machine s.object (done ++ [i]) r := by
      rintro r ⟨hr, hnot⟩
      have hspared := hspares done.length i l.walker (by simp [hall]) (by simp [hall, hw]) r hr
      rw [hall, List.take_left] at hspared
      rw [hfixed r]
      exact not_or.mpr ⟨hspared.resolve_left hnot, hnot⟩
    have hb : b.Respects R (s.method.Fixed s.machine s.object (done ++ [i])) :=
      Lowering.respects_of_moves hmoves hdeclares (fun r hr => (hfixed r).mpr (.inr hr)) hgives
        ((Lowering.grows_of_moves hforce).registers.trans hR₁)
        (hl.weaken fun r hr => (hfixed r).mpr (.inl hr))
    exact ih (by simp [hall]) hforced hrest (Lowering.respects_of_moves hforce hdeclares
      (fun _ => False.elim) (fun _ => False.elim) hR₁ hb)

end Code

section Methods

/-- The registers of a lowered method, of which arguments can be written, and its states. -/
abbrev Spared (R : List Rtl.Register) (e : Rtl.Insn) (states : List LoweredState) : Prop :=
  (∀ j ∈ e.inputs, Writable R j) ∧ ∀ st ∈ states, st.Clean R

theorem start_respects {b : Builder} (hb : b.Sound) (hR : b.registers <+: R)
    (object : Nat) : Lowering.Respects R fixed ⟨b, Walker.start object, [], []⟩ := by
  refine ⟨fun hj _ => (by cases hj), fun hj => ?_, fun st hst => (by cases hst)⟩
  obtain ⟨reg, hreg, hkind⟩ := hb.member hj
  exact ⟨reg, getElem?_of_isPrefix hR hreg, by simp [hkind]⟩

theorem fixed_nil {r : RegisterId} :
    s.method.Fixed s.machine s.object [] r ↔ s.method.Declares r :=
  or_iff_left Walker.along_nil

theorem body_spares {b : Builder} (hb : b.Sound)
    (hspares : s.method.SparesConstants s.machine s.object) (hR : l.builder.registers <+: R)
    (h : (body s).run ⟨b, Walker.start s.object, [], []⟩ = .ok (e, l)) : Spared R e l.states := by
  simp only [body_eq, run_bind_eq_ok] at h
  obtain ⟨e', l₂, hopening, starts, l₃, hcode, hclosing⟩ := h
  obtain rfl := closing_returns hclosing
  obtain ⟨hsound, hwalker⟩ := opening_walker (Site.start_sound hb s.object) hopening
  have hopens : ∃ l₁, (entry s).run _ = .ok (e, l₁) ∧
    Relation.ReflTransGen (Move s .none) l₁ l₂ := opening_moves hopening
  obtain ⟨l₁, he, hwaits⟩ := hopens
  have hcodes := (code_advances s.method.code hsound).2 _ _ hcode
  have hwithin := (opening_within (fun r j hj => by cases hj) hopening).mono
    (Lowering.grows_of_moves hcodes).registers.length_le
  have hcloses : Advances s True (.giving fun _ => False) (closing s e starts) l₃ :=
    advances_closing starts trivial hwithin
  replace hcloses := hcloses.2 _ _ hclosing
  have hR₃ := (Lowering.grows_of_moves hcloses).registers.trans hR
  have hR₂ := (Lowering.grows_of_moves hcodes).registers.trans hR₃
  have hR₁ := (Lowering.grows_of_moves hwaits).registers.trans hR₂
  have h₁ := entry_respects (fun r hr => fixed_nil.mpr hr) he hR₁
    (start_respects hb ((entry_quiet (u := .none) (Site.start_sound hb s.object) he).builder
      |>.registers.trans hR₁) s.object)
  have h₂ := Lowering.respects_of_moves hwaits (fun r hr => fixed_nil.mpr hr)
    (fun _ => False.elim) (fun _ => False.elim) hR₂ h₁
  have hat : Lowering.At s l₂ [] l₂ := ⟨hsound, rfl, by simp⟩
  have h₃ := code_respects (List.nil_append _).symm hat hwalker hspares hcode hR₃ h₂
  have h₄ := Lowering.respects_of_moves hcloses (fun r hr => .inl hr)
    (fun _ => False.elim) (fun _ => False.elim) hR h₃
  exact ⟨fun j hj => (entry_inputs he j hj).mono hR₁, h₄.clean⟩

/-- A method without code is lowered by moves that give values to its results only. -/
theorem moves_spare {b : Builder} (hb : b.Sound) (hf : s.method.Closed)
    (hR : l.builder.registers <+: R)
    (h : ∃ l₁, (entry s).run ⟨b, Walker.start s.object, [], []⟩ = .ok (e, l₁) ∧
      Relation.ReflTransGen (Move s (.giving s.IsResult)) l₁ l) : Spared R e l.states := by
  obtain ⟨l₁, he, hmoves⟩ := h
  have hR₁ := (Lowering.grows_of_moves hmoves).registers.trans hR
  have h₁ := entry_respects (fun r hr => hr) he hR₁
    (start_respects hb ((entry_quiet (u := .none) (Site.start_sound hb s.object) he).builder
      |>.registers.trans hR₁) s.object)
  have h₂ := Lowering.respects_of_moves hmoves (fun r hr => hr) (fun _ => False.elim)
    (by rintro r ⟨n, hn, rfl⟩; exact hf.not_declares hn) hR h₁
  exact ⟨fun j hj => (entry_inputs he j hj).mono hR₁, h₂.clean⟩

end Methods

end Lower

namespace Site

/-- A method is lowered to states that write no constants, for a table that starts with the
registers so far. -/
theorem lower_spares {m : Machine} {owners : OwnershipTable} {thread : ThreadId} {object : Nat}
    {slot : String} {role : Role} {b b' : Builder} {c : Context} {R : List Rtl.Register}
    (hb : b.Sound)
    (hm : ∀ o name f, m.object? object = some o → o.method? name = some f → f.Closed)
    (hspares : ∀ o f, m.object? object = some o → o.method? slot = some f → f.isNative = false →
      f.isImported = false → f.marks.isPort = false → f.SparesConstants m object)
    (hR : b'.registers <+: R) (h : lower m owners thread object slot role b = .ok (c, b')) :
    Lower.Spared R c.entry c.states := by
  obtain ⟨o, f, e, l, ho, hf, himpl, hc, rfl, hcases⟩ := lower_cases h
  have hclosed : c.method.Closed := by
    unfold implementation? at himpl
    split at himpl
    · exact hm o _ _ ho (Option.filter_eq_some_iff.mp himpl).1
    · exact Option.some.inj himpl ▸ hm o slot f ho hf
  have hentry : c.entry = e := by rw [hc]
  have hstates : c.states = l.states := by rw [hc]
  rw [hentry, hstates]
  rcases hcases with ⟨-, hrun⟩ | ⟨-, -, hrun⟩ | ⟨hnative, himported, hport, hrun⟩
  · exact Lower.moves_spare hb hclosed hR (Lower.imported_moves (fun _ => id) trivial hrun)
  · exact Lower.moves_spare hb hclosed hR (Lower.port_moves (fun _ => id) trivial hrun)
  · obtain rfl : f = c.method := by
      simpa [implementation?, hnative] using himpl
    exact Lower.body_spares hb (hspares o c.method ho hf hnative himported hport) hR hrun

end Site
end Synth
end MachineSynth
