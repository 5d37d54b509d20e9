import MachineSynth.Synth.Lower

/-! Lowering of whole methods: the entry, the code with its jumps, and the methods that have no
code of their own. -/
namespace MachineSynth
namespace Synth
namespace Lower

def argumentWidth? (d : VarDecl) : Option UInt64 :=
  match d.type with
  | .bool => some 0
  | .int => some d.width
  | _ => none

/-- New registers for the arguments from position `i` on. An imported method does not use them
itself. -/
def argumentRegisters (s : Site) : Nat → List VarDecl → Lower (List Nat)
  | _, [] => return []
  | i, d :: rest => do
    let r ← build (·.storage d.name ((argumentWidth? d).getD 0))
    if !s.method.isImported then bind (UInt64.ofNat i) r
    return r :: (← argumentRegisters s (i + 1) rest)

/-- The registers of the results. A method without results has one all the same, so that callers
can always wait for it. -/
def resultRegisters (s : Site) : Lower (List Nat) :=
  if s.method.returns.isEmpty then do return [← build (·.storage "r_" 0)]
  else registers s ((List.range s.method.returns.length).map fun i =>
    s.method.returnRegister (UInt64.ofNat i))

def entry (s : Site) : Lower Rtl.Insn := do
  let unit ← resource Pool.pseudo
  let i ← insn unit "method_entry" [] []
  let inputs ← argumentRegisters s 0 s.method.args
  let outputs ← resultRegisters s
  match s.method.args.find? (argumentWidth? · |>.isNone) with
  | some d =>
    error (.unsupportedArgument d.type.name d.name s.objectName s.method.name)
  | none => return { i with inputs := inputs, outputs := outputs }

/-- The width of all arguments together, each taking one bit at least. -/
def dataFlowWidth (types : List Rtl.ValueType) : UInt64 :=
  max (types.foldl (fun w t => w + max t.width 1) 0) 1

/-- The first state of a thread that waits to be started; it receives the arguments. -/
def wait (s : Site) (e : Rtl.Insn) : Lower Unit := do
  let regs := (← get).builder.registers
  let width := dataFlowWidth (e.inputs.filterMap fun r => (regs[r]?).map (·.type))
  let unit ←
    if s.role = .task then resource Pool.task
    else if s.method.marks.dataFlowEntry then resource (·.dataFlow width)
    else resource Pool.externalTask
  emit unit "" [] e.inputs

/-- The instruction with which a thread hands its results back, if it does. -/
def finish (s : Site) (e : Rtl.Insn) : Lower (List Rtl.Insn) := do
  if s.role = .task then
    let unit ← resource Pool.taskReturn
    return [← insn unit "" e.outputs []]
  else if s.method.marks.dataFlowEntry then return []
  else
    let unit ← resource Pool.externalTaskDone
    return [← insn unit "" e.outputs []]

/-- Lowers code, and gives the position of the first state of each instruction. Every instruction
has a state, so that it can be jumped to. -/
def code (s : Site) : List Insn → Lower (List Nat)
  | [] => return []
  | i :: rest => do
    let start := (← get).states.length
    instruction s i
    if (← get).states.length = start then push [] none none
    return start :: (← code s rest)

/-- The state at which an instruction starts. -/
def jumpTarget (s : Site) (starts : List Nat) (target : UInt64) : Lower Nat :=
  match starts[target.toNat]? with
  | some i => return i
  | none => fault (.jumpOutOfRange target s.objectName s.method.name)

/-- Gives a jump its targets. A branch whose condition does not hold goes on to the next state. -/
def resolveJump (s : Site) (starts : List Nat) (i : Nat) (st : LoweredState) :
    Lower LoweredState := do
  match st.jump with
  | some (.goto target) => addTargets [← jumpTarget s starts target] st
  | some (.branch _ target) => addTargets [← jumpTarget s starts target, i + 1] st
  | _ => return st

/-- Leads a state that goes nowhere to the next one; the last state is left as it is. -/
def linkState (last : Nat) (i : Nat) (st : LoweredState) : Lower LoweredState := do
  let resources := (← get).builder.pool.resources
  if i = last then return st
  match Rtl.transition? resources st.insns with
  | some ⟨_, _, _, _, _, _ :: _⟩ => return st
  | _ => addTargets [i + 1] st

def linkStates : Lower Unit := do
  let last := (← get).states.length - 1
  updateStates (linkState last)

/-- Leads the last state back to the first, after the results have been handed back. -/
def closeLoop (s : Site) (e : Rtl.Insn) : Lower Unit := do
  let last := (← get).states.length - 1
  updateStates fun i st =>
    if i = last then do
      let insns ← finish s e
      addTargets [0] { st with insns := st.insns ++ insns }
    else return st

/-- Lowers a method with code: a state to wait in if the method is the entry of a thread that is
started, the code, and a last state. -/
def body (s : Site) : Lower Rtl.Insn := do
  let e ← entry s
  if s.role != .inner then wait s e
  let starts ← code s s.method.code
  push [] none none
  let starts := starts ++ [(← get).states.length - 1]
  updateStates (resolveJump s starts)
  linkStates
  if s.role != .inner then closeLoop s e
  return e

def imported (s : Site) : Lower Rtl.Insn := do
  let e ← entry s
  emit (← resource (·.embedded s.method.imported)) "" e.inputs e.outputs
  push [] none none
  linkStates
  return e

def outputInsns (s : Site) (e : Rtl.Insn) : Lower (List Rtl.Insn) :=
  if s.method.marks.extOutput then
    match s.method.args with
    | [] => error (.outputWithoutArgument s.objectName s.method.name)
    | a :: _ => do
      let unit ← resource (·.port (Pool.portName s.method) true (Pool.declWidth a))
      return [← insn unit "" (e.inputs.take 1) []]
  else return []

def inputInsns (s : Site) (e : Rtl.Insn) : Lower (List Rtl.Insn) :=
  if s.method.marks.extInput then
    match s.method.returns with
    | [] => error (.inputWithoutReturn s.objectName s.method.name)
    | r :: _ => do
      let unit ← resource (·.port (Pool.portName s.method) false (Pool.declWidth r))
      return [← insn unit "" [] (e.outputs.take 1)]
  else return []

def port (s : Site) : Lower Rtl.Insn := do
  let e ← entry s
  let outputs ← outputInsns s e
  let inputs ← inputInsns s e
  push (outputs ++ inputs) none none
  push [] none none
  linkStates
  return e

/-- The entry of the method that a site is about. -/
def implementation (s : Site) : Lower Rtl.Insn :=
  if s.method.isImported then imported s
  else if s.method.marks.isPort then port s
  else body s

end Lower

namespace Site

def implementation? (o : Object) (f : Method) : Option Method :=
  if f.isNative then (o.method? f.alt).filter (·.isImported) else some f

def lower (m : Machine) (owners : OwnershipTable) (thread : ThreadId) (object : Nat)
    (slot : String) (role : Role) (b : Builder) : Except Stop (Context × Builder) :=
  match (m.object? object).bind fun o => (o.method? slot).map (o, ·) with
  | none => .error (.error (.methodNotFound (m.name object) slot))
  | some (o, f) =>
    match implementation? o f with
    | none => .error (.fault (.noImplementation (m.name object) slot))
    | some impl => do
      let s : Site := ⟨m, owners, thread, object, slot, impl, role⟩
      let lowered := if f.isNative then Lower.imported s else Lower.implementation s
      let (e, l) ← lowered.run ⟨b, Walker.start object, [], []⟩
      return (⟨object, impl, e, l.states⟩, l.builder)

end Site
end Synth
end MachineSynth
