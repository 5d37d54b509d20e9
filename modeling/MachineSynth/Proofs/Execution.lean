import Mathlib
import MachineSynth.Proofs.Pool
import MachineSynth.Synth.Expand

/-! Execution of state machines: the instructions of a state read the values that registers hold on
entry and write together, and its transition leads to the next state. -/
namespace MachineSynth
namespace Synth

section Run

variable {α : Type}

/-- What a number of steps lead to, if none of them is the last. -/
def run (step : α → Option α) : Nat → α → Option α
  | 0, c => some c
  | n + 1, c => (step c).bind (run step n)

@[simp] theorem run_zero (step : α → Option α) (c : α) : run step 0 c = some c := rfl

theorem run_one (step : α → Option α) (c : α) : run step 1 c = step c := by
  simp only [run]
  cases step c <;> rfl

theorem run_add (step : α → Option α) (n k : Nat) (c : α) :
    run step (n + k) c = (run step n c).bind (run step k) := by
  induction n generalizing c with
  | zero => simp
  | succ n ih =>
    rw [Nat.add_right_comm]
    simp only [run]
    cases step c with
    | none => rfl
    | some d => exact ih d

theorem run_succ (step : α → Option α) (n : Nat) (c : α) :
    run step (n + 1) c = (run step n c).bind step := by
  rw [run_add]
  exact congrArg _ (funext fun d => run_one step d)

end Run

/-- The values that the registers of a table hold. -/
abbrev Store (V : Type) := Nat → V

/-- What an instruction does in its state, whatever its number and its targets. -/
structure Action where
  resource : Nat
  operand : String
  inputs : List Nat
  outputs : List Nat
deriving DecidableEq, Repr

def actionOf (i : Rtl.Insn) : Action := ⟨i.resource, i.operand, i.inputs, i.outputs⟩

/-- Whether an instruction does work: it is neither a transition nor a placeholder. -/
def isWork (resources : List Rtl.Resource) (i : Rtl.Insn) : Bool :=
  !i.isTransition resources && !Expand.isPseudo resources i

def actions (resources : List Rtl.Resource) (insns : List Rtl.Insn) : List Action :=
  (insns.filter (isWork resources)).map actionOf

/-- How a state machine is read: what the work of a state makes of the values held on entry, and
which values count as true. -/
structure Meaning (V : Type) where
  effect : List Action → Store V → Store V
  holds : V → Bool

namespace Meaning

variable {V : Type} (M : Meaning V)

/-- Where a transition leads. With two targets it goes to the first if its condition holds. -/
def follow (σ : Store V) (i : Rtl.Insn) : Option Nat :=
  match i.targets, i.inputs with
  | [t], _ => some t
  | [t, f], c :: _ => some (if M.holds (σ c) then t else f)
  | _, _ => none

/-- The state after one with the given instructions. -/
def next? (resources : List Rtl.Resource) (insns : List Rtl.Insn) (σ : Store V) : Option Nat :=
  (Rtl.transition? resources insns).bind (M.follow σ)

def step (resources : List Rtl.Resource) (states : List (List Rtl.Insn)) (c : Nat × Store V) :
    Option (Nat × Store V) :=
  (states[c.1]?).bind fun insns =>
    (M.next? resources insns c.2).map (·, M.effect (actions resources insns) c.2)

variable {M} {resources : List Rtl.Resource} {states : List (List Rtl.Insn)} {σ : Store V}

theorem step_eq {i t : Nat} {insns : List Rtl.Insn} (hi : states[i]? = some insns)
    (ht : M.next? resources insns σ = some t) :
    M.step resources states (i, σ) = some (t, M.effect (actions resources insns) σ) := by
  simp [step, hi, ht]

end Meaning

section Kinds

open Rtl (kindAt)

variable {resources : List Rtl.Resource} {i : Rtl.Insn} {kind : String}

theorem isPseudo_eq (h : kindAt resources i.resource = some kind) :
    Expand.isPseudo resources i = decide (kind = Pool.pseudoKind) := by
  obtain ⟨r, hr, rfl⟩ := Option.map_eq_some_iff.mp h
  simp [Expand.isPseudo, hr]

theorem isWork_eq (h : kindAt resources i.resource = some kind) :
    isWork resources i =
      decide (kind ≠ Rtl.Resource.transitionKind ∧ kind ≠ Pool.pseudoKind) := by
  simp [isWork, Rtl.isTransition_eq h, isPseudo_eq h]

@[simp] theorem actions_nil : actions resources [] = [] := rfl

theorem actions_append (as bs : List Rtl.Insn) :
    actions resources (as ++ bs) = actions resources as ++ actions resources bs := by
  simp [actions]

theorem actions_of_work (h : kindAt resources i.resource = some kind)
    (htr : kind ≠ Rtl.Resource.transitionKind) (hps : kind ≠ Pool.pseudoKind) :
    actions resources [i] = [actionOf i] := by
  simp [actions, isWork_eq h, htr, hps]

theorem actions_of_transition
    (h : kindAt resources i.resource = some Rtl.Resource.transitionKind) :
    actions resources [i] = [] := by
  simp [actions, isWork_eq h]

end Kinds
end Synth
end MachineSynth
