import Mathlib
import MachineSynth.Proofs.Expansion.Copies
import MachineSynth.Proofs.Lowering.Steps

/-! Moves: the elementary changes that expansion is made of, and all that it can stop with. What
each of them keeps, expansion keeps. -/
namespace MachineSynth
namespace Synth

def Stop.IsOfExpansion : Stop → Prop
  | .error (.recursiveCall _ _) | .error (.nestedTooDeeply _ _ _) => True
  | _ => False

/-- What an expansion may do: with what it may stop, which registers may be written, and which
calls into other tables may be left to be wired. -/
structure Expand.Limits where
  stops : Stop → Prop
  writes : Nat → Prop
  tasks : TableCall → Prop
  flows : TableCall → Prop

/-- The elementary changes of an expansion within limits. Resources are taken that stand for no
entity. -/
inductive Expansion.Move (u : Expand.Limits) : Expansion → Expansion → Prop
  | resource (x : Expansion) {take : Pool → Nat × Pool} {kind : String}
      (takes : Pool.TakesOther take kind) :
      Move u x { x with builder := (x.builder.resource take).2 }
  | state (x : Expansion) : Move u x { x with
      builder := x.builder.newState.2
      states := x.states ++ [⟨x.builder.newState.1, []⟩] }
  | insn (x : Expansion) (state : Nat) {i : Rtl.Insn} (outputs : ∀ j ∈ i.outputs, u.writes j) :
      Move u x { x with
        builder := x.builder.newInsn.2
        states := x.states.modify state fun s => { s with insns := s.insns ++ [i] } }
  | lead (x : Expansion) (state : Nat) (targets : List Nat) : Move u x { x with
      states := x.states.modify state fun s => { s with
        insns := Rtl.updateTransition x.builder.pool.resources
          (fun i => { i with targets := targets }) s.insns } }
  | task (x : Expansion) {call : TableCall} (allowed : u.tasks call) :
      Move u x { x with taskCalls := x.taskCalls ++ [call] }
  | flow (x : Expansion) {call : TableCall} (allowed : u.flows call) :
      Move u x { x with flowCalls := x.flowCalls ++ [call] }

def Expand.Limits.only (stops : Stop → Prop) : Limits :=
  ⟨stops, fun _ => True, fun _ => True, fun _ => True⟩

theorem Expansion.Move.extends {u : Expand.Limits} {x x' : Expansion} (h : Move u x x') :
    x.builder.Extends x'.builder := by
  cases h with
  | resource takes => exact Builder.resource_extends _ takes.toTakes
  | state => exact Builder.newState_extends _
  | insn => exact Builder.newInsn_extends _
  | lead | task | flow => exact .refl _

theorem Expansion.Move.covered {u : Expand.Limits} {x x' : Expansion} (h : Move u x x') :
    Builder.Covered .none x.builder x'.builder := by
  cases h with
  | resource takes => exact Builder.resource_covered takes .none _
  | state | insn | lead | task | flow => exact .of_eq rfl rfl rfl

namespace Expand

open Expansion (Move)

variable {α β : Type} {u : Limits} {env : Env}

/-- Whether a part of the expansion keeps within limits, whatever it starts from. -/
def Keeps (u : Limits) (p : Expand α) : Prop := ∀ x, Obeys u.stops (Move u) p x

theorem Keeps.bind {p : Expand α} {f : α → Expand β} (hp : Keeps u p) (hf : ∀ a, Keeps u (f a)) :
    Keeps u (p >>= f) :=
  fun x => (hp x).bind fun a x' _ => hf a x'

theorem keeps_pure (a : α) : Keeps u (pure a) := obeys_pure a

theorem keeps_get : Keeps u get := obeys_get

theorem keeps_throw {e : Stop} (he : u.stops e) : Keeps u (throw e : Expand α) :=
  fun _ => obeys_of_error rfl he

theorem keeps_resource {take : Pool → Nat × Pool} {kind : String}
    (h : Pool.TakesOther take kind) : Keeps u (build (·.resource take)) :=
  fun x => obeys_of_ok (run_build_eq_ok.mpr rfl) (.single (.resource x h))

theorem keeps_add (state resource : Nat) (operand : String) (inputs : List Nat)
    {outputs : List Nat} (targets : List Nat) (h : ∀ j ∈ outputs, u.writes j) :
    Keeps u (add state resource operand inputs outputs targets) :=
  fun x => obeys_of_ok (run_add_eq_ok.mpr rfl) (.single (.insn x state h))

theorem keeps_copyInsns (base state : Nat) {is : List Rtl.Insn}
    (h : ∀ i ∈ is, ∀ j ∈ i.outputs, u.writes j) : Keeps u (copyInsns base state is) := by
  induction is with
  | nil => exact keeps_pure _
  | cons i rest ih =>
    exact (keeps_add _ _ _ _ _ (h i List.mem_cons_self)).bind fun _ =>
      ih fun k hk => h k (List.mem_cons_of_mem i hk)

theorem keeps_assignAll (state resource : Nat) {pairs : List (Nat × Nat)}
    (h : ∀ p ∈ pairs, u.writes p.2) : Keeps u (assignAll state resource pairs) := by
  induction pairs with
  | nil => exact keeps_pure _
  | cons p rest ih =>
    refine (keeps_add _ _ _ _ _ ?_).bind fun _ => ih fun q hq => h q (List.mem_cons_of_mem p hq)
    simpa using h p List.mem_cons_self

theorem keeps_addStates (sts : List LoweredState) : Keeps u (addStates sts) := by
  induction sts with
  | nil => exact keeps_pure _
  | cons st rest ih =>
    intro x
    have hrun : (addStates (st :: rest)).run x = (addStates rest).run { x with
        builder := x.builder.newState.2
        states := x.states ++ [⟨x.builder.newState.1, []⟩] } := rfl
    obtain ⟨hstops, hmoves⟩ := ih { x with
      builder := x.builder.newState.2
      states := x.states ++ [⟨x.builder.newState.1, []⟩] }
    exact ⟨fun e he => hstops e (hrun ▸ he),
      fun a x' hx => .head (.state x) (hmoves a x' (hrun ▸ hx))⟩

theorem keeps_targetsOf (state : Nat) : Keeps u (targetsOf state) := by
  refine keeps_get.bind fun x => ?_
  dsimp only
  split
  · exact keeps_pure _
  · exact (keeps_resource Pool.transition_takes).bind fun r =>
      (keeps_add _ _ _ _ _ fun j hj => by cases hj).bind fun _ => keeps_pure _

theorem keeps_setTargets (state : Nat) (targets : List Nat) :
    Keeps u (setTargets state targets) := by
  intro x
  have hrun : (setTargets state targets).run x = .ok ((), { x with
      states := x.states.modify state fun s => { s with
        insns := Rtl.updateTransition x.builder.pool.resources
          (fun i => { i with targets := targets }) s.insns } }) := rfl
  exact obeys_of_ok hrun (.single (.lead x state targets))

/-- A copy is given its arguments, and gives the caller its results. -/
theorem keeps_inline (state : Nat) {i : Rtl.Insn} {callee : Context} (first last : Nat)
    (hi : ∀ j ∈ i.outputs, u.writes j) (hcallee : ∀ j ∈ callee.entry.inputs, u.writes j) :
    Keeps u (inline state i callee first last) := by
  have harguments : ∀ p ∈ i.inputs.zip callee.entry.inputs, u.writes p.2 :=
    fun p hp => hcallee _ (List.of_mem_zip (a := p.1) (b := p.2) hp).2
  have hresults : ∀ p ∈ callee.entry.outputs.zip i.outputs, u.writes p.2 :=
    fun p hp => hi _ (List.of_mem_zip (a := p.1) (b := p.2) hp).2
  exact (keeps_resource Pool.assign_takes).bind fun _ => (keeps_assignAll _ _ harguments).bind
    fun _ => (keeps_assignAll _ _ hresults).bind fun _ => (keeps_targetsOf _).bind fun _ =>
      (keeps_targetsOf _).bind fun _ => (keeps_setTargets _ _).bind fun _ => keeps_setTargets _ _

/-- Whether the call that a state is for may be expanded. -/
def Env.Allows (env : Env) (u : Limits) (c : TableCall) : Prop :=
  if (Walker.calledMethod? env.machine (some c.callee.object) c.callee.method).any
      (·.marks.dataFlowEntry) then u.flows c
  else if c.callee.outside then u.tasks c
  else env.contexts.lookup c.callee.method = none →
    u.stops (.fault (.notSynthesized (env.machine.name c.callee.object) c.callee.method))

/-- Whether the states of a context may be copied, and their calls expanded. -/
structure Env.Admits (env : Env) (u : Limits) (c : Context) : Prop where
  inputs : ∀ j ∈ c.entry.inputs, u.writes j
  outputs : ∀ st ∈ c.states, ∀ i ∈ st.insns, ∀ j ∈ i.outputs, u.writes j
  calls : ∀ st ∈ c.states, ∀ i ∈ st.insns, ∀ callee ∈ st.callee, ∀ state,
    env.Allows u ⟨state, i.inputs, i.outputs, callee⟩

section Copy

variable {copy : Context → Expand (Nat × Nat)}

theorem keeps_call (henv : ∀ name c, env.contexts.lookup name = some c → env.Admits u c)
    (hcopy : ∀ name c, env.contexts.lookup name = some c → Keeps u (copy c)) {state : Nat}
    {i : Rtl.Insn} (hi : ∀ j ∈ i.outputs, u.writes j) {c : Callee}
    (hc : env.Allows u ⟨state, i.inputs, i.outputs, c⟩) :
    Keeps u (call env copy state i c) := by
  unfold Env.Allows at hc
  unfold call
  simp only at hc ⊢
  split
  · rename_i hflow
    rw [if_pos hflow] at hc
    exact fun x => obeys_modify (.flow x hc)
  · rename_i hflow
    rw [if_neg hflow] at hc
    split
    · rename_i houtside
      rw [if_pos houtside] at hc
      exact fun x => obeys_modify (.task x hc)
    · rename_i houtside
      rw [if_neg houtside] at hc
      split
      · rename_i hnone
        exact keeps_throw (hc hnone)
      · rename_i callee hcallee
        exact (hcopy _ _ hcallee).bind fun _ =>
          keeps_inline _ _ _ hi (henv _ _ hcallee).inputs

theorem keeps_fill (henv : ∀ name c, env.contexts.lookup name = some c → env.Admits u c)
    (hcopy : ∀ name c, env.contexts.lookup name = some c → Keeps u (copy c)) {c : Context}
    (hc : env.Admits u c) (base state : Nat) {sts : List LoweredState}
    (hsts : ∀ st ∈ sts, st ∈ c.states) : Keeps u (fill env copy base state sts) := by
  induction sts generalizing state with
  | nil => exact keeps_pure _
  | cons st rest ih =>
    have hst := hsts st List.mem_cons_self
    have hrest : ∀ state, Keeps u (fill env copy base state rest) :=
      fun state => ih state fun st' hst' => hsts st' (List.mem_cons_of_mem st hst')
    refine keeps_get.bind fun x => (keeps_copyInsns _ _ fun i hi =>
      hc.outputs st hst i (List.mem_of_mem_filter hi)).bind fun _ => ?_
    split
    · rename_i callee i hcallee hi
      have hmem := List.mem_of_find?_eq_some hi
      exact (keeps_call henv hcopy (hc.outputs st hst i hmem)
        (hc.calls st hst i hmem callee hcallee state)).bind fun _ => hrest _
    · exact hrest _

theorem keeps_copy (henv : ∀ name c, env.contexts.lookup name = some c → env.Admits u c)
    (hstops : ∀ e : Stop, e.IsOfExpansion → u.stops e) (depth : Nat) (stack : List MethodKey)
    {c : Context} (hc : env.Admits u c) : Keeps u (Expand.copy env depth stack c) := by
  induction depth generalizing stack c with
  | zero => exact keeps_throw (hstops _ trivial)
  | succ depth ih =>
    unfold Expand.copy
    simp only
    split
    · exact keeps_throw (hstops _ trivial)
    · split
      · exact keeps_throw (hstops _ trivial)
      · exact keeps_get.bind fun _ => (keeps_addStates _).bind fun _ =>
          (keeps_fill henv (fun name c hc => ih _ (henv name c hc)) hc _ _ fun _ => id).bind
            fun _ => keeps_pure _

end Copy

section Sparing

/-- Whether a part of the expansion comes to use nothing. -/
def Spares (p : Expand α) : Prop :=
  ∀ x a x', p.run x = .ok (a, x') → Builder.Covered .none x.builder x'.builder

theorem Env.admits_any (env : Env) (c : Context) : env.Admits (.only fun _ => True) c := by
  refine ⟨fun _ _ => trivial, fun _ _ _ _ _ _ => trivial, fun _ _ _ _ _ _ _ => ?_⟩
  unfold Env.Allows
  split
  · exact trivial
  · split
    · exact trivial
    · exact fun _ => trivial

theorem spares_copy (env : Env) (depth : Nat) (stack : List MethodKey) (c : Context) :
    Spares (copy env depth stack c) := by
  intro x a x' h
  have hkeeps := keeps_copy (fun _ c _ => env.admits_any c) (fun _ _ => trivial) depth stack
    (env.admits_any c)
  exact preserved_of_steps (P := fun y => Builder.Covered .none x.builder y.builder)
    (fun hmove hy => hy.trans hmove.covered) ((hkeeps x).2 a x' h) (.refl _ _)

end Sparing

end Expand
end Synth
end MachineSynth
