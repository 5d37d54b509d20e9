import MachineSynth.Synth.Builder
import MachineSynth.Synth.Error
import MachineSynth.Synth.Walker

/-! Contexts: methods lowered to states that are not yet part of a table. Transitions go to
positions in the list of the method's own states. -/
namespace MachineSynth
namespace Synth

structure Callee where
  object : Nat
  method : String
  /-- Whether the callee is another object than the caller. -/
  outside : Bool
  /-- The name under which the caller knows the other object. -/
  member : String
deriving DecidableEq, Repr, Inhabited

structure LoweredState where
  id : Nat
  insns : List Rtl.Insn
  /-- The jump that the state stands for. -/
  jump : Option Insn
  callee : Option Callee
deriving DecidableEq, Repr, Inhabited

/-- A lowered method. Its entry is a placeholder: the inputs are the registers of the arguments,
the outputs those of the results. -/
structure Context where
  object : Nat
  /-- The method that was lowered; for a native method, its implementation. -/
  method : Method
  entry : Rtl.Insn
  states : List LoweredState
deriving Inhabited

/-- The part a method plays in its thread. -/
inductive Role
  | inner
  /-- The entry of a task, started by calls from other tables. -/
  | task
  /-- The entry of a thread that is started by data or from outside. -/
  | root
deriving DecidableEq, Repr

/-- What is lowered: a method of an object, on behalf of a thread. -/
structure Site where
  machine : Machine
  owners : OwnershipTable
  thread : ThreadId
  object : Nat
  /-- The name by which the method was asked for. -/
  slot : String
  method : Method
  role : Role

namespace Site

def objectName (s : Site) : String := s.machine.name s.object

end Site

structure Lowering where
  builder : Builder
  walker : Walker
  /-- The table registers of the method's registers, the last bound first. -/
  locals : List (RegisterId × Nat)
  states : List LoweredState

abbrev Lower := StateT Lowering (Except Stop)

namespace Lower

variable {α : Type}

def fault (f : Fault) : Lower α := throw (.fault f)

def error (e : SynthError) : Lower α := throw (.error e)

def ofExcept (r : Except Fault α) : Lower α :=
  match r with
  | .ok a => pure a
  | .error f => fault f

def build (f : Builder → α × Builder) : Lower α :=
  modifyGet fun l => ((f l.builder).1, { l with builder := (f l.builder).2 })

def resource (take : Pool → Nat × Pool) : Lower Nat := build (·.resource take)

def insn (resource : Nat) (operand : String) (inputs outputs : List Nat) : Lower Rtl.Insn := do
  let id ← build Builder.newInsn
  return ⟨id, resource, operand, inputs, outputs, []⟩

/-- Adds a new state at the end of the method. -/
def push (insns : List Rtl.Insn) (jump : Option Insn) (callee : Option Callee) : Lower Unit := do
  let id ← build Builder.newState
  modify fun l => { l with states := l.states ++ [⟨id, insns, jump, callee⟩] }

/-- Adds a new state with one new instruction. -/
def emit (resource : Nat) (operand : String) (inputs outputs : List Nat) : Lower Unit := do
  push [← insn resource operand inputs outputs] none none

def bind (r : RegisterId) (register : Nat) : Lower Unit :=
  modify fun l => { l with locals := (r, register) :: l.locals }

def newLocal (s : Site) (r : RegisterId) (reg : Register) : Lower Nat :=
  let width := if reg.kind = .enum then 0 else reg.width
  match reg.const with
  | some value => build (·.constant width value)
  | none => build (·.storage s!"r{r}_{s.slot}" width)

/-- The table register of a register of the method, new on first use. -/
def register (s : Site) (r : RegisterId) : Lower Nat := do
  match (← get).locals.lookup r with
  | some i => return i
  | none =>
    match s.method.register? r with
    | none => fault (.unknownRegister r s.objectName s.method.name)
    | some reg =>
      let i ← newLocal s r reg
      bind r i
      return i

def registers (s : Site) : List RegisterId → Lower (List Nat)
  | [] => return []
  | r :: rest => do
    let i ← register s r
    return i :: (← registers s rest)

def addTargets (targets : List Nat) (st : LoweredState) : Lower LoweredState := do
  let resources := (← get).builder.pool.resources
  match Rtl.transition? resources st.insns with
  | some _ =>
    let add (i : Rtl.Insn) : Rtl.Insn := { i with targets := i.targets ++ targets }
    return { st with insns := Rtl.updateTransition resources add st.insns }
  | none =>
    let r ← resource Pool.transition
    let i ← insn r "" [] []
    return { st with insns := st.insns ++ [{ i with targets := targets }] }

/-- Rewrites states one after the other, counting from position `i`. -/
def mapStates (f : Nat → LoweredState → Lower LoweredState) :
    Nat → List LoweredState → Lower (List LoweredState)
  | _, [] => return []
  | i, st :: rest => do
    let st ← f i st
    return st :: (← mapStates f (i + 1) rest)

def updateStates (f : Nat → LoweredState → Lower LoweredState) : Lower Unit := do
  let states ← mapStates f 0 (← get).states
  modify fun l => { l with states := states }

end Lower
end Synth
end MachineSynth
