import Mathlib
import MachineSynth.Proofs.Builder
import MachineSynth.Synth.Body

/-! Lowering grows: what an instruction adds, and what it leaves as it was. States are only added
at the end; later only results can still be added to the outputs of their instructions. -/
namespace MachineSynth

/-- An instruction without its outputs: those of a call are added when its results are bound. -/
def Rtl.Insn.bare (i : Rtl.Insn) : Rtl.Insn := { i with outputs := [] }

namespace Synth

open Rtl (kindAt)

section Run

variable {σ ε α β : Type} {s : σ}

/-- A computation over a state succeeds when all its parts do, one after the other. -/
theorem run_bind_eq_ok {x : StateT σ (Except ε) α} {f : α → StateT σ (Except ε) β} {r : β × σ} :
    (x >>= f).run s = .ok r ↔ ∃ a s', x.run s = .ok (a, s') ∧ (f a).run s' = .ok r := by
  rw [StateT.run_bind]
  cases x.run s with
  | error e => simp [Bind.bind, Except.bind]
  | ok p =>
    obtain ⟨a, s'⟩ := p
    simp [Bind.bind, Except.bind]

theorem run_bind_of_ok {x : StateT σ (Except ε) α} {f : α → StateT σ (Except ε) β} {a : α} {s' : σ}
    (h : x.run s = .ok (a, s')) : (x >>= f).run s = (f a).run s' := by
  rw [StateT.run_bind, h]
  rfl

theorem run_pure_eq_ok {a : α} {r : α × σ} :
    (pure a : StateT σ (Except ε) α).run s = .ok r ↔ r = (a, s) := by
  rw [StateT.run_pure]
  exact ⟨fun h => (Except.ok.inj h).symm, fun h => h ▸ rfl⟩

theorem run_get_eq_ok {r : σ × σ} :
    (get : StateT σ (Except ε) σ).run s = .ok r ↔ r = (s, s) := by
  rw [StateT.run_get]
  exact ⟨fun h => (Except.ok.inj h).symm, fun h => h ▸ rfl⟩

theorem run_modify_eq_ok {f : σ → σ} {r : PUnit × σ} :
    (modify f : StateT σ (Except ε) PUnit).run s = .ok r ↔ r = (⟨⟩, f s) := by
  rw [StateT.run_modify]
  exact ⟨fun h => (Except.ok.inj h).symm, fun h => h ▸ rfl⟩

end Run

namespace Lower

variable {α : Type} {l l' : Lowering}

theorem run_build_eq_ok {f : Builder → α × Builder} {r : α × Lowering} :
    (build f).run l = .ok r ↔
      r = ((f l.builder).1, { l with builder := (f l.builder).2 }) :=
  ⟨fun h => (Except.ok.inj h).symm, fun h => h ▸ rfl⟩

theorem run_fault_ne_ok {f : Fault} {r : α × Lowering} : (fault f : Lower α).run l ≠ .ok r :=
  fun h => by cases h

theorem run_error_ne_ok {e : SynthError} {r : α × Lowering} : (error e : Lower α).run l ≠ .ok r :=
  fun h => by cases h

theorem run_ofExcept_eq_ok {x : Except Fault α} {r : α × Lowering} :
    (ofExcept x).run l = .ok r ↔ x = .ok r.1 ∧ r.2 = l := by
  obtain ⟨a, l'⟩ := r
  cases x with
  | error f => exact ⟨fun h => absurd h run_fault_ne_ok, fun h => by simp at h⟩
  | ok b =>
    simp only [ofExcept, run_pure_eq_ok, Prod.mk.injEq, Except.ok.injEq]
    exact ⟨fun h => ⟨h.1.symm, h.2⟩, fun h => ⟨h.1.symm, h.2⟩⟩

theorem run_insn_eq_ok {resource : Nat} {operand : String} {inputs outputs : List Nat}
    {r : Rtl.Insn × Lowering} :
    (insn resource operand inputs outputs).run l = .ok r ↔
      r = (⟨l.builder.newInsn.1, resource, operand, inputs, outputs, []⟩,
        { l with builder := l.builder.newInsn.2 }) :=
  ⟨fun h => (Except.ok.inj h).symm, fun h => h ▸ rfl⟩

theorem run_push_eq_ok {insns : List Rtl.Insn} {jump : Option Insn} {callee : Option Callee}
    {r : Unit × Lowering} :
    (push insns jump callee).run l = .ok r ↔
      r = ((), { l with
        builder := l.builder.newState.2
        states := l.states ++ [⟨l.builder.newState.1, insns, jump, callee⟩] }) :=
  ⟨fun h => (Except.ok.inj h).symm, fun h => h ▸ rfl⟩

theorem run_emit_eq_ok {resource : Nat} {operand : String} {inputs outputs : List Nat}
    {r : Unit × Lowering} :
    (emit resource operand inputs outputs).run l = .ok r ↔
      r = ((), { l with
        builder := l.builder.newInsn.2.newState.2
        states := l.states ++ [⟨l.builder.newInsn.2.newState.1,
          [⟨l.builder.newInsn.1, resource, operand, inputs, outputs, []⟩], none, none⟩] }) :=
  ⟨fun h => (Except.ok.inj h).symm, fun h => h ▸ rfl⟩

theorem run_bindLocal_eq_ok {r : RegisterId} {register : Nat} {x : Unit × Lowering} :
    (Lower.bind r register).run l = .ok x ↔
      x = ((), { l with locals := (r, register) :: l.locals }) :=
  ⟨fun h => (Except.ok.inj h).symm, fun h => h ▸ rfl⟩

end Lower

/-- An instruction that does work in its state: it neither leads to a state nor stands for a
call. -/
def Works (resources : List Rtl.Resource) (i : Rtl.Insn) : Prop :=
  i.targets = [] ∧ ∃ kind, kindAt resources i.resource = some kind ∧
    kind ≠ Rtl.Resource.transitionKind ∧ kind ≠ Pool.pseudoKind

namespace LoweredState

def bare (st : LoweredState) : LoweredState := { st with insns := st.insns.map (·.bare) }

/-- The forms of a state until its successors are known. -/
inductive Raw (resources : List Rtl.Resource) : LoweredState → Prop
  | goto (id : Nat) (target : UInt64) : Raw resources ⟨id, [], some (.goto target), none⟩
  | branch (id : Nat) (cond : RegisterId) (target : UInt64) {i : Rtl.Insn}
      (kind : kindAt resources i.resource = some Rtl.Resource.transitionKind)
      (targets : i.targets = []) (inputs : i.inputs.length = 1) :
      Raw resources ⟨id, [i], some (.branch cond target), none⟩
  | call (id : Nat) (callee : Option Callee) {i : Rtl.Insn}
      (kind : kindAt resources i.resource = some Pool.pseudoKind)
      (targets : i.targets = []) : Raw resources ⟨id, [i], none, callee⟩
  | work (id : Nat) {insns : List Rtl.Insn} (works : ∀ i ∈ insns, Works resources i) :
      Raw resources ⟨id, insns, none, none⟩

end LoweredState

theorem Works.mono {p q : Pool} (hpq : p.Extends q) {i : Rtl.Insn} (h : Works p.resources i) :
    Works q.resources i := by
  obtain ⟨ht, kind, hk, hne⟩ := h
  exact ⟨ht, kind, hpq.kindAt hk, hne⟩

theorem LoweredState.Raw.mono {p q : Pool} (hpq : p.Extends q) {st : LoweredState}
    (h : st.Raw p.resources) : st.Raw q.resources := by
  cases h with
  | goto id target => exact .goto id target
  | branch id cond target kind targets inputs =>
    exact .branch id cond target (hpq.kindAt kind) targets inputs
  | call id callee kind targets => exact .call id callee (hpq.kindAt kind) targets
  | work id works => exact .work id fun i hi => (works i hi).mono hpq

namespace Lowering

structure Sound (l : Lowering) : Prop where
  builder : l.builder.Sound
  states : ∀ st ∈ l.states, st.Raw l.builder.pool.resources

/-- The jumps that the states of a method stand for, each in its place. -/
def jumps (l : Lowering) : List (Option Insn) := l.states.map (·.jump)

/-- What a part of the lowering can do: it uses no more than it may, and adds states that stand for
the given jumps. -/
structure Step (u : Uses) (js : List (Option Insn)) (l l' : Lowering) : Prop where
  sound : l'.Sound
  builder : l.builder.Extends l'.builder
  covered : Builder.Covered u l.builder l'.builder
  walker : l'.walker = l.walker
  states : l.states.map (·.bare) <+: l'.states.map (·.bare)
  jumps : l'.jumps = l.jumps ++ js

/-- A part of the lowering that adds no state. -/
structure Quiet (u : Uses) (l l' : Lowering) : Prop where
  sound : l'.Sound
  builder : l.builder.Extends l'.builder
  covered : Builder.Covered u l.builder l'.builder
  walker : l'.walker = l.walker
  states : l'.states = l.states

/-- Whether the last state is a new one that holds a single instruction, to which results can be
added: the placeholder of a call, or an instruction of another kind. -/
def Offers (call : Bool) (l l' : Lowering) : Prop :=
  ∃ front id i jump callee kind, l'.states = front ++ [⟨id, [i], jump, callee⟩] ∧
    l.states <+: front ∧ kindAt l'.builder.pool.resources i.resource = some kind ∧
    (kind = Pool.pseudoKind ↔ call = true)

/-- A part of the lowering that ends with a state of one instruction. -/
structure Yields (u : Uses) (js : List (Option Insn)) (call : Bool) (l l' : Lowering) : Prop extends
    Step u js l l' where
  offers : Offers call l l'

/-- What an instruction with room for some states can do: end with a single instruction, which is
the placeholder of a call or not, or add no state, or an empty one. -/
inductive Turn (u : Uses) : List (Option Insn) → Lowering → Lowering → Option Bool → Prop
  | insn {js : List (Option Insn)} {l l' : Lowering} {call : Bool}
      (yields : Yields u js call l l') : Turn u js l l' (some call)
  | quiet {l l' : Lowering} (step : Step u [] l l') : Turn u [none] l l' none
  | empty {l l' : Lowering} {jump : Option Insn} (step : Step u [jump] l l')
      {front : List LoweredState} {id : Nat}
      (states : l'.states = front ++ [⟨id, [], jump, none⟩]) : Turn u [jump] l l' none

variable {u : Uses} {js ks : List (Option Insn)} {call : Bool} {a b c : Lowering}

theorem Sound.refl_quiet (h : a.Sound) (u : Uses) : Quiet u a a := ⟨h, .refl _, .refl u _, rfl, rfl⟩

theorem Quiet.trans (h : Quiet u a b) (h' : Quiet u b c) : Quiet u a c :=
  ⟨h'.sound, h.builder.trans h'.builder, h.covered.trans h'.covered, h'.walker.trans h.walker,
    h'.states.trans h.states⟩

theorem Step.count (h : Step u js a b) : b.states.length = a.states.length + js.length := by
  simpa [Lowering.jumps] using congrArg List.length h.jumps

theorem Quiet.step (h : Quiet u a b) : Step u [] a b :=
  ⟨h.sound, h.builder, h.covered, h.walker, by rw [h.states],
    by rw [Lowering.jumps, h.states, List.append_nil, Lowering.jumps]⟩

theorem Step.trans (h : Step u js a b) (h' : Step u ks b c) : Step u (js ++ ks) a c :=
  ⟨h'.sound, h.builder.trans h'.builder, h.covered.trans h'.covered, h'.walker.trans h.walker,
    h.states.trans h'.states, by rw [h'.jumps, h.jumps, List.append_assoc]⟩

theorem Quiet.then (h : Quiet u a b) (h' : Step u js b c) : Step u js a c :=
  h.step.trans h'

theorem Offers.mono_left (h : Offers call b c) (hab : a.states <+: b.states) : Offers call a c := by
  obtain ⟨front, id, i, jump, callee, kind, hc, hbc, hkind⟩ := h
  exact ⟨front, id, i, jump, callee, kind, hc, hab.trans hbc, hkind⟩

theorem Quiet.yields (h : Quiet u a b) (h' : Yields u js call b c) : Yields u js call a c :=
  ⟨h.then h'.toStep, h'.offers.mono_left (h.states ▸ List.prefix_rfl)⟩

/-- What comes before the last state may add states of its own. -/
theorem Yields.trans {call' : Bool} (h : Yields u js call' a b) (h' : Yields u ks call b c) :
    Yields u (js ++ ks) call a c := by
  refine ⟨h.toStep.trans h'.toStep, h'.offers.mono_left ?_⟩
  obtain ⟨front, id, i, jump, callee, kind, hb, hab, -⟩ := h.offers
  exact hab.trans (hb ▸ List.prefix_append _ _)

theorem Yields.quiet (h : Yields u js call a b) (h' : Quiet u b c) : Yields u js call a c := by
  refine ⟨by simpa using h.toStep.trans h'.step, ?_⟩
  obtain ⟨front, id, i, jump, callee, kind, hb, hab, hkind, hcall⟩ := h.offers
  exact ⟨front, id, i, jump, callee, kind, h'.states.trans hb, hab, h'.builder.pool.kindAt hkind,
    hcall⟩

theorem Sound.setWalker (h : a.Sound) (w : Walker) : Sound { a with walker := w } :=
  ⟨h.builder, h.states⟩

theorem Sound.build (h : a.Sound) {x : Builder} (hext : a.builder.Extends x) (hx : x.Sound)
    (hcov : Builder.Covered u a.builder x) : Quiet u a { a with builder := x } :=
  ⟨⟨hx, fun st hst => (h.states st hst).mono hext.pool⟩, hext, hcov, rfl, rfl⟩

theorem Sound.push (h : a.Sound) {x : Builder} (hext : a.builder.Extends x) (hx : x.Sound)
    (hcov : Builder.Covered u a.builder x) {st : LoweredState} (hst : st.Raw x.pool.resources) :
    Step u [st.jump] a { a with builder := x, states := a.states ++ [st] } := by
  refine ⟨⟨hx, fun st' hst' => ?_⟩, hext, hcov, rfl, ?_, by simp [Lowering.jumps]⟩
  · rcases List.mem_append.mp hst' with hst' | hst'
    · exact (h.states st' hst').mono hext.pool
    · rw [List.mem_singleton.mp hst']
      exact hst
  · rw [List.map_append]
    exact List.prefix_append _ _

end Lowering
end Synth
end MachineSynth
