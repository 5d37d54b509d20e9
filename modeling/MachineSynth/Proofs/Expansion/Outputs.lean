import Mathlib
import MachineSynth.Proofs.Expansion.Moves
import MachineSynth.Proofs.Expansion.Tidiness
import MachineSynth.Proofs.Lowering.Constants

/-! Outputs of an expanded table: expansion adds no registers, and what it has written are the
outputs of the lowered states and, where a call becomes a copy, the arguments of the callee. -/
namespace MachineSynth
namespace Synth

/-- Whether no instruction of some states writes a constant. -/
def StatesClean (R : List Rtl.Register) (states : List Rtl.State) : Prop :=
  ∀ s ∈ states, ∀ i ∈ s.insns, ∀ j ∈ i.outputs, Rtl.Writable R j

theorem StatesClean.addInsn {R : List Rtl.Register} {states : List Rtl.State}
    (h : StatesClean R states) (state : Nat) {i : Rtl.Insn}
    (hi : ∀ j ∈ i.outputs, Rtl.Writable R j) :
    StatesClean R (states.modify state fun s => { s with insns := s.insns ++ [i] }) := by
  intro s hs k hk
  rcases Rtl.mem_modify (f := (· ++ [i])) hs with hs | ⟨s', hs', rfl⟩
  · exact h s hs k hk
  · rcases List.mem_append.mp hk with hk | hk
    · exact h s' hs' k hk
    · exact List.mem_singleton.mp hk ▸ hi

/-- Whether the instructions of a table in the making, and the results of its calls into other
tables, write only registers that are no constants. -/
structure Expansion.Clean (R : List Rtl.Register) (x : Expansion) : Prop where
  states : StatesClean R x.states
  taskCall : ∀ c ∈ x.taskCalls, ∀ j ∈ c.outputs, Rtl.Writable R j

def Expand.Limits.clean (R : List Rtl.Register) : Limits where
  stops _ := True
  writes := Rtl.Writable R
  tasks c := ∀ j ∈ c.outputs, Rtl.Writable R j
  flows _ := True

variable {R : List Rtl.Register} {x x' : Expansion}

theorem Expansion.Move.clean (h : Move (.clean R) x x') (hx : x.Clean R) : x'.Clean R := by
  cases h with
  | resource => exact ⟨hx.states, hx.taskCall⟩
  | state =>
    refine ⟨fun s hs => ?_, hx.taskCall⟩
    rcases List.mem_append.mp hs with hs | hs
    · exact hx.states s hs
    · rw [List.mem_singleton.mp hs]
      exact fun i hi => by cases hi
  | insn state outputs => exact ⟨hx.states.addInsn state outputs, hx.taskCall⟩
  | lead state targets =>
    refine ⟨fun s hs i hi => ?_, hx.taskCall⟩
    rcases Rtl.mem_modify hs with hs | ⟨s', hs', rfl⟩
    · exact hx.states s hs i hi
    · -- where a transition leads is changed, not what it writes
      rcases Lower.mem_updateTransition hi with hi | ⟨k, hk, -, rfl⟩
      · exact hx.states s' hs' i hi
      · exact hx.states s' hs' k hk
  | task allowed =>
    refine ⟨hx.states, fun c hc => ?_⟩
    rcases List.mem_append.mp hc with hc | hc
    · exact hx.taskCall c hc
    · exact List.mem_singleton.mp hc ▸ allowed
  | flow => exact ⟨hx.states, hx.taskCall⟩

namespace Expand

variable {env : Env}

theorem Env.admits_clean {c : Context} (hc : Lower.Spared R c.entry c.states) :
    env.Admits (.clean R) c := by
  refine ⟨hc.1, hc.2, fun st hst i hi callee _ state => ?_⟩
  unfold Env.Allows
  split
  · exact trivial
  · split
    · exact hc.2 st hst i hi
    · exact fun _ => trivial

theorem copy_clean (henv : ∀ name c, env.contexts.lookup name = some c →
      Lower.Spared R c.entry c.states) {depth : Nat} {stack : List MethodKey} {name : String}
    {c : Context} (hc : env.contexts.lookup name = some c) {states : Nat × Nat}
    (h : (Expand.copy env depth stack c).run x = .ok (states, x')) (hx : x.Clean R) :
    x'.Clean R := by
  have hkeeps : Keeps (.clean R) (Expand.copy env depth stack c) :=
    keeps_copy (fun name c hc => Env.admits_clean (henv name c hc)) (fun _ _ => trivial) _ _
      (Env.admits_clean (henv name c hc))
  exact preserved_of_steps (P := fun y : Expansion => y.Clean R) (fun hmove => hmove.clean)
    ((hkeeps x).2 states x' h) hx

end Expand
end Synth
end MachineSynth
