import MachineSynth.Synth.Thread

/-! Wiring: the instructions with which the tables of a design call each other. -/
namespace MachineSynth
namespace Synth
namespace ThreadTable

def addInsn (t : ThreadTable) (state resource : Nat) (operand : String)
    (inputs outputs : List Nat) : ThreadTable :=
  let (id, b) := t.builder.newInsn
  { t with
    builder := b
    states := t.states.modify state fun s =>
      { s with insns := s.insns ++ [⟨id, resource, operand, inputs, outputs, []⟩] } }

def successor? (t : ThreadTable) (state : Nat) : Option Nat :=
  (t.states[state]?).bind fun s => Rtl.successor? t.resources s.insns

/-- Starts a task in the calling state. If the call has results, the next state waits for them. -/
def callTask (m : Machine) (t : ThreadTable) (call : TableCall) (callee : ThreadTable) :
    Except Fault ThreadTable :=
  let place := callee.plan.place
  let (r, resources) := Rtl.taskCall t.resources place callee.resources call.callee.member
  let t := (t.setResources resources).addInsn call.state r "" call.inputs []
  if call.outputs.isEmpty then .ok t
  else
    match t.successor? call.state with
    | none => .error (.noSuccessor (callee.text m) (t.text m))
    | some next =>
      match Rtl.taskReturnValue t.resources place callee.resources with
      | (none, _) => .ok t
      | (some r, resources) =>
        .ok ((t.setResources resources).addInsn next r "wait_notify" [] call.outputs)

/-- The register for a call without arguments, which passes a zero. -/
def dummyArgument (t : ThreadTable) : Nat × ThreadTable :=
  let (r, b) := t.builder.freshRegister "df_arg" (.unsigned 1) .const (some 0)
  (r, { t with builder := b })

def callDataFlow (m : Machine) (t : ThreadTable) (call : TableCall) (callee : ThreadTable) :
    Except Fault ThreadTable :=
  match Rtl.positionsOfKind callee.resources Rtl.dataFlowKind with
  | [i] =>
    match (callee.resources[i]?).bind (·.parent) with
    | none => .error .dangling
    | some register =>
      let width := ((callee.resources[register.resource]?).map (·.params.width)).getD 0
      let (r, resources) := Rtl.dataFlowCaller t.resources register width
      let t := t.setResources resources
      if call.inputs.isEmpty then
        let (argument, t) := t.dummyArgument
        .ok (t.addInsn call.state r "notify" [argument] [])
      else .ok (t.addInsn call.state r "notify" call.inputs [])
  | inputs => .error (.flowInputs (callee.text m) inputs.length)

/-- The table of the first thread of an object that meets a condition. -/
def find? (tables : List ThreadTable) (p : ThreadPlan → Bool) : Option ThreadTable :=
  tables.find? fun t => p t.plan

def wireTask (m : Machine) (plan : Plan) (tables : List ThreadTable) (t : ThreadTable)
    (call : TableCall) : Except Fault ThreadTable :=
  let c := call.callee
  if (plan.module? c.object).isNone then .error .dangling
  else
    match find? tables fun p => p.object = c.object && p.isTask && p.entry = c.method with
    | none => .error (.noTask (m.name c.object) c.method)
    | some callee => callTask m t call callee

def wireDataFlow (m : Machine) (plan : Plan) (tables : List ThreadTable) (t : ThreadTable)
    (call : TableCall) : Except Fault ThreadTable :=
  let c := call.callee
  if (plan.module? c.object).isNone then .error .dangling
  else
    match find? tables fun p => p.object = c.object && !p.isTask && p.entry = c.method with
    | none => .error (.noFlowThread (m.name c.object) c.method)
    | some callee => callDataFlow m t call callee

/-- Wires all calls of a table into the given tables. -/
def wire (m : Machine) (plan : Plan) (tables : List ThreadTable) (t : ThreadTable) :
    Except Fault ThreadTable := do
  let t ← t.taskCalls.foldlM (wireTask m plan tables) t
  t.flowCalls.foldlM (wireDataFlow m plan tables) t

end ThreadTable
end Synth
end MachineSynth
