import MachineSynth.Synth.Context

/-! Expansion: the states of a table, made from the contexts of its methods. A call on the same
object becomes a copy of the callee's states; other calls are recorded, to be wired later. -/
namespace MachineSynth
namespace Synth

structure TableCall where
  /-- The position of the calling state. -/
  state : Nat
  inputs : List Nat
  outputs : List Nat
  callee : Callee
deriving DecidableEq, Repr, Inhabited

structure Expansion where
  builder : Builder
  states : List Rtl.State
  taskCalls : List TableCall
  flowCalls : List TableCall
deriving Inhabited

abbrev Expand := StateT Expansion (Except Stop)

namespace Expand

/-- What expansion looks things up in. -/
structure Env where
  machine : Machine
  /-- The lowered methods of the thread. -/
  contexts : List (String × Context)
  /-- How many methods may be nested in each other. -/
  limit : Nat

def build {α : Type} (f : Builder → α × Builder) : Expand α :=
  modifyGet fun x => ((f x.builder).1, { x with builder := (f x.builder).2 })

def updateInsns (state : Nat) (f : List Rtl.Insn → List Rtl.Insn) : Expand Unit :=
  modify fun x => { x with states := x.states.modify state fun s => { s with insns := f s.insns } }

def add (state resource : Nat) (operand : String) (inputs outputs targets : List Nat) :
    Expand Unit := do
  let id ← build Builder.newInsn
  updateInsns state (· ++ [⟨id, resource, operand, inputs, outputs, targets⟩])

def addStates : List LoweredState → Expand Unit
  | [] => return
  | _ :: rest => do
    let id ← build Builder.newState
    modify fun x => { x with states := x.states ++ [⟨id, []⟩] }
    addStates rest

def isPseudo (resources : List Rtl.Resource) (i : Rtl.Insn) : Bool :=
  (resources[i.resource]?).any (·.kind = Pool.pseudoKind)

/-- Copies instructions to a state; their targets are counted from the first state of the copy. -/
def copyInsns (base state : Nat) : List Rtl.Insn → Expand Unit
  | [] => return
  | i :: rest => do
    add state i.resource i.operand i.inputs i.outputs (i.targets.map (base + ·))
    copyInsns base state rest

/-- Assigns registers to registers in a state, pair by pair. -/
def assignAll (state resource : Nat) : List (Nat × Nat) → Expand Unit
  | [] => return
  | (source, target) :: rest => do
    add state resource "" [source] [target] []
    assignAll state resource rest

/-- The targets of a state's transition, which is added if there is none. -/
def targetsOf (state : Nat) : Expand (List Nat) := do
  let x ← get
  let insns := ((x.states[state]?).map (·.insns)).getD []
  match Rtl.transition? x.builder.pool.resources insns with
  | some i => return i.targets
  | none =>
    let r ← build (·.resource Pool.transition)
    add state r "" [] [] []
    return []

def setTargets (state : Nat) (targets : List Nat) : Expand Unit := do
  let resources := (← get).builder.pool.resources
  updateInsns state (Rtl.updateTransition resources fun i => { i with targets := targets })

/-- Leads the calling state into a copy of the callee, and the last state of the copy to where the
call was going. Arguments are assigned before, results after. -/
def inline (state : Nat) (call : Rtl.Insn) (callee : Context) (first last : Nat) : Expand Unit := do
  let r ← build (·.resource Pool.assign)
  assignAll state r (call.inputs.zip callee.entry.inputs)
  assignAll last r (callee.entry.outputs.zip call.outputs)
  let targets ← targetsOf state
  let own ← targetsOf last
  setTargets last (own ++ targets)
  setTargets state [first]

def call (env : Env) (copy : Context → Expand (Nat × Nat)) (state : Nat) (i : Rtl.Insn)
    (c : Callee) : Expand Unit := do
  let tableCall : TableCall := ⟨state, i.inputs, i.outputs, c⟩
  if (Walker.calledMethod? env.machine (some c.object) c.method).any (·.marks.dataFlowEntry) then
    modify fun x => { x with flowCalls := x.flowCalls ++ [tableCall] }
  else if c.outside then modify fun x => { x with taskCalls := x.taskCalls ++ [tableCall] }
  else
    match env.contexts.lookup c.method with
    | none => throw (.fault (.notSynthesized (env.machine.name c.object) c.method))
    | some callee =>
      let (first, last) ← copy callee
      inline state i callee first last

/-- Fills the states of a copy, which are at positions from `state` on; the first of the copy is
at `base`. Placeholders are left out. -/
def fill (env : Env) (copy : Context → Expand (Nat × Nat)) (base : Nat) :
    Nat → List LoweredState → Expand Unit
  | _, [] => return
  | state, st :: rest => do
    let resources := (← get).builder.pool.resources
    copyInsns base state (st.insns.filter (!isPseudo resources ·))
    match st.callee, st.insns.find? (isPseudo resources) with
    | some c, some i => call env copy state i c
    | _, _ => pure ()
    fill env copy base (state + 1) rest

/-- Copies a context into the table, and gives the positions of its first and last state. The
methods being expanded are on the stack, none twice, so that with room for every context the
depth never runs out before a call is found to be recursive. -/
def copy (env : Env) : Nat → List MethodKey → Context → Expand (Nat × Nat)
  | 0, _, c => throw (.error (.recursiveCall (env.machine.name c.object) c.method.name))
  | depth + 1, stack, c => do
    let key : MethodKey := ⟨c.object, c.method.name⟩
    if stack.contains key then
      throw (.error (.recursiveCall (env.machine.name c.object) c.method.name))
    else if env.limit ≤ stack.length then
      throw (.error (.nestedTooDeeply (env.machine.name c.object) c.method.name env.limit))
    else
      let base := (← get).states.length
      addStates c.states
      fill env (copy env depth (key :: stack)) base base c.states
      return (base, base + c.states.length - 1)

def ofEntry (env : Env) (b : Builder) (entry : Context) : Except Stop Expansion := do
  let (_, x) ← (copy env (env.contexts.length + 1) [] entry).run ⟨b, [], [], []⟩
  return x

end Expand
end Synth
end MachineSynth
