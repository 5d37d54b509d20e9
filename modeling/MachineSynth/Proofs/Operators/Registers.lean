import Mathlib
import MachineSynth.Proofs.Lowering.Pairing
import MachineSynth.Proofs.Resolving

/-! Registers: what a register of a method has in the table is of its type, unless the code makes
the register stand for a constant, and the states but the last stay as they are. -/
namespace MachineSynth

/-- What a register holds that is declared for an argument is as wide as an argument is passed. -/
theorem Register.Declares.type_eq {r : Register} {d : VarDecl} {t : Rtl.ValueType}
    (h : r.Declares d) (ht : r.type? = some t) :
    t = .unsigned ((Synth.Lower.argumentWidth? d).getD 0) := by
  obtain ⟨hkind, hwidth, -⟩ := h
  rw [eq_of_type? ht, hkind, hwidth]
  unfold type? at ht
  rw [hkind] at ht
  unfold Synth.Lower.argumentWidth?
  cases htype : d.type <;> rw [htype] at ht <;> first | rfl | cases ht

theorem Method.Closed.argument_type {f : Method} (h : f.Closed)
    (hargs : f.args.length ≤ UInt64.size) {n : Nat} {d : VarDecl} {t : Rtl.ValueType}
    (hd : f.args[n]? = some d) (ht : f.type? (UInt64.ofNat n) = some t) :
    t = .unsigned ((Synth.Lower.argumentWidth? d).getD 0) := by
  obtain ⟨params, locals, hregisters, hdeclares⟩ := h.parameters
  have hn : n < f.args.length := (List.getElem?_eq_some_iff.mp hd).1
  have hparams : n < params.length := by
    rw [hdeclares.length_eq, List.length_append]
    omega
  have hregister : f.register? (UInt64.ofNat n) = some params[n] := by
    rw [Method.register?, UInt64.toNat_ofNat_of_lt' (by omega), hregisters,
      List.getElem?_append_left hparams, List.getElem?_eq_getElem hparams]
  rw [Method.type?, hregister, Option.bind_some] at ht
  obtain ⟨d', hd', hdeclared⟩ :=
    exists_getElem?_of_forall₂ hdeclares (List.getElem?_eq_getElem hparams)
  rw [List.getElem?_append_left hn, hd, Option.some.injEq] at hd'
  subst hd'
  exact hdeclared.type_eq ht

namespace Synth
namespace Lowering

/-- Whether registers of the method have table registers of their types, unless they may be bound to
something else. -/
def Typed (s : Site) (rebinds : RegisterId → Prop) (l : Lowering) : Prop :=
  ∀ (r : RegisterId) (j : Nat), l.locals.lookup r = some j →
    rebinds r ∨ s.Holds l.builder.registers r j

/-- The states but the last, to which results may still be bound, stay as they are. -/
structure Retains (l l' : Lowering) : Prop where
  length_le : l.states.length ≤ l'.states.length
  state : ∀ {n : Nat} {st : LoweredState}, n + 1 < l.states.length → l.states[n]? = some st →
    l'.states[n]? = some st

section Moves

variable {s : Site} {may : Allowance} {rebinds : RegisterId → Prop} {l l' : Lowering}

theorem Typed.mono {b : Builder} (hl : l.Typed s rebinds)
    (hregisters : l.builder.registers <+: b.registers) (states : List LoweredState) :
    Typed s rebinds { l with builder := b, states := states } :=
  fun r j hj => (hl r j hj).imp_right (·.mono hregisters)

/-- A register that is bound has a table register of its type. -/
theorem Typed.bind {r : RegisterId} {i : Nat} (hl : l.Typed s rebinds)
    (hr : rebinds r ∨ s.Holds l.builder.registers r i) :
    Typed s rebinds { l with locals := (r, i) :: l.locals } := by
  intro r' j hj
  rw [lookup_cons_eq] at hj
  split at hj
  · rename_i heq
    cases hj
    exact heq ▸ hr
  · exact hl r' j hj

theorem Move.typed (h : Move s may l l') (hmay : ∀ r, may.rebinds r → rebinds r)
    (hl : l.Typed s rebinds) : l'.Typed s rebinds := by
  cases h with
  | build grows | push grows _ _ | link grows _ _ => exact hl.mono grows.registers _
  | walk => exact hl
  | bind _ new => exact hl.bind (new.symm.imp (hmay _) (·.2.holds))

theorem typed_of_moves (h : Relation.ReflTransGen (Move s may) l l')
    (hmay : ∀ r, may.rebinds r → rebinds r) (hl : l.Typed s rebinds) : l'.Typed s rebinds :=
  preserved_of_steps (fun hmove => hmove.typed hmay) h hl

theorem Move.states (h : Move s may l l') (hamends : ¬ may.amends) :
    l.states <+: l'.states := by
  cases h with
  | build | walk | bind => exact List.prefix_rfl
  | push => exact List.prefix_append _ _
  | link _ _ amended => exact absurd amended hamends

theorem states_of_moves (h : Relation.ReflTransGen (Move s may) l l') (hamends : ¬ may.amends)
    : l.states <+: l'.states :=
  preserved_of_steps (P := fun a => l.states <+: a.states)
    (fun hmove hprefix => hprefix.trans (hmove.states hamends)) h List.prefix_rfl

end Moves

variable {a b c : Lowering}

theorem Retains.refl (a : Lowering) : a.Retains a := ⟨le_rfl, fun _ hst => hst⟩

theorem Retains.trans (h : a.Retains b) (h' : b.Retains c) : a.Retains c :=
  ⟨h.length_le.trans h'.length_le,
    fun hn hst => h'.state (hn.trans_le h.length_le) (h.state hn hst)⟩

theorem Retains.of_states (h : a.states <+: b.states) : a.Retains b :=
  ⟨h.length_le, fun _ hst => getElem?_of_isPrefix h hst⟩

end Lowering

namespace Lower

variable {α : Type} {s : Site} {rebinds : RegisterId → Prop} {l l' : Lowering} {starts : List Nat}

theorem typed_of_run {x : Lower α} {a : α}
    (hx : Advances s True (.rebinding rebinds) x l) (h : x.run l = .ok (a, l'))
    (hl : l.Typed s rebinds) : l'.Typed s rebinds :=
  Lowering.typed_of_moves (hx.2 a l' h) (fun _ => id) hl

/-- What a method is passed has the types that it declares. -/
theorem argumentRegisters_typed {i : Nat} {args : List VarDecl} {rs : List Nat}
    (hargs : ∀ n d t, args[n]? = some d → s.method.type? (UInt64.ofNat (i + n)) = some t →
      t = .unsigned ((argumentWidth? d).getD 0))
    (hl : l.Typed s rebinds) (h : (argumentRegisters s i args).run l = .ok (rs, l')) :
    l'.Typed s rebinds := by
  induction args generalizing i l rs with
  | nil =>
    cases run_pure_eq_ok.mp h
    exact hl
  | cons d rest ih =>
    have hrest : ∀ {a : Lowering} {r : Nat} {rs : List Nat}, a.Typed s rebinds →
        (do return r :: (← argumentRegisters s (i + 1) rest) : Lower (List Nat)).run a =
          .ok (rs, l') → l'.Typed s rebinds := by
      intro a r rs ha h
      obtain ⟨rs', a', hrun, h⟩ := run_bind_eq_ok.mp h
      cases run_pure_eq_ok.mp h
      exact ih (fun n d' t hd' ht => hargs (n + 1) d' t hd'
        (by rwa [Nat.add_right_comm, Nat.add_assoc] at ht)) ha hrun
    simp only [argumentRegisters, run_bind_eq_ok] at h
    obtain ⟨r, l₁, hr, h⟩ := h
    cases run_build_eq_ok.mp hr
    have hbuilt := hl.mono (b := (l.builder.storage d.name ((argumentWidth? d).getD 0)).2)
      (List.prefix_append _ _) l.states
    split at h
    · rw [run_bind_eq_ok] at h
      obtain ⟨_, l₂, hbind, h⟩ := h
      cases run_bindLocal_eq_ok.mp hbind
      refine hrest (hbuilt.bind (.inr fun t ht => ?_)) h
      simp [hargs 0 d t rfl ht, Builder.storage, Builder.freshRegister, Builder.addRegister]
    · exact hrest hbuilt h

theorem entry_typed {e : Rtl.Insn} (hargs : ∀ n d t, s.method.args[n]? = some d →
      s.method.type? (UInt64.ofNat n) = some t → t = .unsigned ((argumentWidth? d).getD 0))
    (hl : l.Typed s rebinds) (h : (entry s).run l = .ok (e, l')) : l'.Typed s rebinds := by
  simp only [entry, run_bind_eq_ok] at h
  obtain ⟨unit, l₁, hunit, i, l₂, hi, inputs, l₃, hin, outputs, l₄, hout, h⟩ := h
  have h₁ : l₁.Typed s rebinds := typed_of_run (advances_resource (Pool.ofKind_tidily _) l) hunit hl
  have h₂ : l₂.Typed s rebinds := typed_of_run (advances_insn _ _ _ _ l₁) hi h₁
  have h₃ : l₃.Typed s rebinds := argumentRegisters_typed (by simpa using hargs) h₂ hin
  have h₄ : l₄.Typed s rebinds := typed_of_run (advances_resultRegisters l₃) hout h₃
  split at h
  · exact absurd h run_error_ne_ok
  · cases run_pure_eq_ok.mp h
    exact h₄

theorem instruction_typed {i : Insn} (hl : l.Typed s rebinds)
    (hr : ∀ r, l.walker.Rebinds s.machine i r → rebinds r)
    (h : (instruction s i).run l = .ok ((), l')) : l'.Typed s rebinds :=
  Lowering.typed_of_moves ((instruction_advances s i l).2 () l' h) hr hl

theorem instruction_states {i : Insn} (hi : ∀ returns, i ≠ .callDone returns)
    (h : (instruction s i).run l = .ok ((), l')) : l.states <+: l'.states :=
  Lowering.states_of_moves ((instruction_advances s i l).2 () l' h)
    fun ⟨returns, hreturns⟩ => hi returns hreturns

/-- Results are bound in the last state, whose only instruction has them as more outputs. -/
theorem callDone_binds {returns : List RegisterId}
    (h : (callDone s returns).run l = .ok ((), l')) :
    ∃ front id i jump callee outputs, l.states = front ++ [⟨id, [i], jump, callee⟩] ∧
      outputs.length = returns.length ∧
      l'.states = front ++ [⟨id, [{ i with outputs := i.outputs ++ outputs }], jump, callee⟩] := by
  obtain ⟨front, id, i, jump, callee, outputs, l₁, hstates, hout, rfl⟩ := callDone_eq_ok h
  obtain ⟨hfetches, houtputs⟩ := registers_fetches hout
  refine ⟨front, id, i, jump, callee, outputs, hstates, ?_, by simp [hfetches.states, hstates]⟩
  simpa using congrArg List.length houtputs

theorem instruction_retains {i : Insn} (h : (instruction s i).run l = .ok ((), l')) :
    l.Retains l' := by
  by_cases hi : ∃ returns, i = .callDone returns
  · obtain ⟨returns, rfl⟩ := hi
    obtain ⟨front, id, i, jump, callee, outputs, hl, -, hl'⟩ := callDone_binds h
    refine ⟨by simp [hl, hl'], fun {n st} hn hst => ?_⟩
    have hfront : n < front.length := by simpa [hl] using hn
    rw [hl, List.getElem?_append_left hfront] at hst
    rwa [hl', List.getElem?_append_left hfront]
  · exact .of_states (instruction_states (fun returns hreturns => hi ⟨returns, hreturns⟩) h)

theorem states_force (n : Nat) (l : Lowering) : l.states <+: (force n l).states := by
  unfold force
  split
  · exact List.prefix_append _ _
  · exact List.prefix_rfl

theorem code_retains {is : List Insn} (h : (code s is).run l = .ok (starts, l')) :
    l.Retains l' := by
  induction is generalizing l starts with
  | nil =>
    cases run_pure_eq_ok.mp h
    exact .refl _
  | cons i rest ih =>
    obtain ⟨b, starts', hi, hrest, -⟩ := code_cons_eq_ok.mp h
    exact ((instruction_retains hi).trans (.of_states (states_force _ b))).trans (ih hrest)

def boundResults : List Insn → List RegisterId
  | .callDone returns :: _ => returns
  | _ => []

theorem boundResults_eq_nil_iff {is : List Insn} :
    boundResults is = [] ↔ ∀ returns, is.head? = some (.callDone returns) → returns = [] := by
  unfold boundResults
  split
  · simp
  · rename_i hne
    refine ⟨fun _ returns hhead => ?_, fun _ => rfl⟩
    obtain ⟨rest, rfl⟩ := List.head?_eq_some_iff.mp hhead
    exact absurd rfl (hne returns rest)

/-- The last state stays as well, but its only instruction has the results that come first as more
outputs. -/
theorem code_binds {is : List Insn} (h : (code s is).run l = .ok (starts, l')) {n id : Nat}
    {i : Rtl.Insn} {jump : Option Insn} {callee : Option Callee} (hn : n + 1 = l.states.length)
    (hst : l.states[n]? = some ⟨id, [i], jump, callee⟩) :
    ∃ outputs, outputs.length = (boundResults is).length ∧ l'.states[n]? =
      some ⟨id, [{ i with outputs := i.outputs ++ outputs }], jump, callee⟩ := by
  have hkept : i = { i with outputs := i.outputs ++ [] } := by rw [List.append_nil]
  cases is with
  | nil =>
    cases run_pure_eq_ok.mp h
    exact ⟨[], rfl, hkept ▸ hst⟩
  | cons first rest =>
    obtain ⟨b, starts', hfirst, hrest, -⟩ := code_cons_eq_ok.mp h
    have hmore : l.states.length < (force l.states.length b).states.length := by
      have hle := (instruction_retains hfirst).length_le
      unfold force
      split
      · simp only [pushed, List.length_append, List.length_singleton]
        omega
      · omega
    have hlast : ∀ {st : LoweredState}, b.states[n]? = some st → l'.states[n]? = some st :=
      fun hb => (code_retains hrest).state (by omega) (getElem?_of_isPrefix (states_force _ b) hb)
    by_cases hdone : ∃ returns, first = .callDone returns
    · obtain ⟨returns, rfl⟩ := hdone
      obtain ⟨front, id', i', jump', callee', outputs, hl, hlength, hb⟩ := callDone_binds hfirst
      obtain rfl : n = front.length := by simpa [hl] using hn
      simp only [hl, List.getElem?_concat_length, Option.some.injEq] at hst
      cases hst
      exact ⟨outputs, hlength, hlast (by simp [hb])⟩
    · have hne : ∀ returns, first ≠ .callDone returns := fun returns heq => hdone ⟨returns, heq⟩
      refine ⟨[], ?_, hkept ▸ hlast (getElem?_of_isPrefix (instruction_states hne hfirst) hst)⟩
      unfold boundResults
      split
      · rename_i heq
        exact absurd (List.cons.inj heq).1 (hne _)
      · rfl

/-- When some of the code of a method is done, only those registers may be bound to something else
that the code makes stand for constants. -/
theorem code_typed {start : Lowering} {done rest : List Insn} (hl : start.Sound)
    (hwalker : start.walker = Walker.start s.object) (hcode : s.method.code = done ++ rest)
    (hstart : start.Typed s s.Rebound) (h : (code s done).run start = .ok (starts, l')) :
    l'.Typed s s.Rebound := by
  have hstep : ∀ before i after a b, done = before ++ i :: after →
      Lowering.At s start before a ∧ a.Typed s s.Rebound →
      (instruction s i).run a = .ok ((), b) →
      (Lowering.At s start (before ++ [i]) (force a.states.length b) ∧
        (force a.states.length b).Typed s s.Rebound) ∧ True := by
    rintro before i after a b hall ⟨hat, htyped⟩ hi
    refine ⟨⟨(force_at hat hi).1, ?_⟩, trivial⟩
    have hb : b.Typed s s.Rebound := instruction_typed htyped (fun r hr => by
      refine ⟨before.length, i, a.walker, by simp [hcode, hall], ?_, hr⟩
      rw [hcode, hall, List.append_assoc, List.take_left, ← hwalker]
      exact hat.walker) hi
    unfold force
    split
    · exact hb
    · exact hb
  exact (code_at (P := fun before a => Lowering.At s start before a ∧ a.Typed s s.Rebound)
    (R := fun _ _ => True) (fun _ => trivial) (fun _ _ _ _ _ => trivial)
    (List.nil_append _).symm hstep ⟨⟨hl, rfl, by simp⟩, hstart⟩ h).1.2

end Lower
end Synth
end MachineSynth
