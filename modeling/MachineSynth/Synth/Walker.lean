import MachineSynth.Bytecode.Machine

/-! Walkers: the objects that the registers of a method hold while its code is walked. -/
namespace MachineSynth
namespace Synth

structure Walker where
  /-- The object whose method is walked. -/
  object : Nat
  /-- The registers that hold objects, the last bound first. -/
  bindings : List (RegisterId × Nat)
deriving DecidableEq, Repr, Inhabited

namespace Walker

def start (object : Nat) : Walker := ⟨object, []⟩

def objectOf? (w : Walker) (r : RegisterId) : Option Nat :=
  if RegisterId.isUsed r then w.bindings.lookup r else some w.object

def bind (w : Walker) (r : RegisterId) (object : Nat) : Walker :=
  { w with bindings := (r, object) :: w.bindings }

def memberObject (m : Machine) (id : Nat) : Except Fault Nat :=
  match m.object? id with
  | some _ => .ok id
  | none => .error .dangling

def load (m : Machine) (w : Walker) (target object : RegisterId) (label : String) :
    Except Fault Walker :=
  match w.objectOf? object with
  | none => .error (.loadUnbound object)
  | some base =>
    if label = "" then .ok (w.bind target base)
    else
      match (m.object? base).bind (·.lookup? label) with
      | some (.object id) => do return w.bind target (← memberObject m id)
      | _ => .error (.loadNonObject (m.name base) label)

def boundObject (w : Walker) (r : RegisterId) : Except Fault Nat :=
  match w.objectOf? r with
  | some o => .ok o
  | none => .error (.notBound r)

def read (m : Machine) (w : Walker) (target object : RegisterId) (label : String) :
    Except Fault (Nat × Walker) := do
  let owner ← w.boundObject object
  match (m.object? owner).bind (·.lookup? label) with
  | some (.object id) => return (owner, w.bind target (← memberObject m id))
  | _ => return (owner, w)

def access (m : Machine) (w : Walker) : Insn → Except Fault (Nat × Walker)
  | .memberRead target object label => w.read m target object label
  | .memberWrite object _ _ => do return (← w.boundObject object, w)
  | _ => .error .notMemberAccess

def calledMethod? (m : Machine) (callee : Option Nat) (label : String) : Option Method :=
  (callee.bind m.object?).bind (·.method? label)

/-- Whether a call runs a built-in operation, one without an implementation in the machine. -/
def isNativeCall (m : Machine) (w : Walker) (object : RegisterId) (label : String) : Bool :=
  match calledMethod? m (w.objectOf? object) label with
  | some f => f.native != "" && f.alt = ""
  | none => false

def isOutsideCall (w : Walker) (object : RegisterId) : Bool :=
  match w.objectOf? object with
  | some o => o != w.object
  | none => false

end Walker
end Synth
end MachineSynth
