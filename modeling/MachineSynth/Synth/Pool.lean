import MachineSynth.Bytecode.Machine
import MachineSynth.Rtl.Call
import MachineSynth.Synth.Channels
import MachineSynth.Synth.Ownership

/-! Resource pools: the resources of one table, where requests for the same thing are answered by
the same resource. -/
namespace MachineSynth
namespace Synth

structure ResourceKey where
  kind : String
  name : String
  object : Nat
  type : Rtl.ValueType
deriving DecidableEq, Repr, Inhabited

structure Pool where
  /-- The table that the resources belong to. -/
  place : Rtl.TableRef
  resources : List Rtl.Resource
  keys : List (ResourceKey × Nat)
deriving Inhabited

namespace Pool

def empty (place : Rtl.TableRef) : Pool := ⟨place, [], []⟩

def add (p : Pool) (kind : String) : Nat × Pool :=
  (p.resources.length,
    { p with resources := p.resources ++ [.new (p.resources.length + 1) kind] })

def update (p : Pool) (i : Nat) (f : Rtl.Resource → Rtl.Resource) : Pool :=
  { p with resources := p.resources.modify i f }

def ref (p : Pool) (i : Nat) : Rtl.ResourceRef := ⟨p.place, i⟩

/-- The resource of a key; a new one is prepared first. -/
def request (p : Pool) (key : ResourceKey) (prepare : Rtl.Resource → Rtl.Resource) : Nat × Pool :=
  match p.keys.lookup key with
  | some i => (i, p)
  | none =>
    let (i, q) := p.add key.kind
    let q := q.update i prepare
    (i, { q with keys := (key, i) :: q.keys })

def ofKind (p : Pool) (kind : String) : Nat × Pool := p.request ⟨kind, "", 0, .truth⟩ id

def assign (p : Pool) : Nat × Pool := p.ofKind "set"

/-- The kind of the instructions that stand for method entries and calls until these are
expanded. -/
def pseudoKind : String := "pseudo"

def pseudo (p : Pool) : Nat × Pool := p.ofKind pseudoKind

def transition (p : Pool) : Nat × Pool :=
  match Rtl.firstOfKind? p.resources Rtl.Resource.transitionKind with
  | some i => (i, p)
  | none => p.add Rtl.Resource.transitionKind

def operatorTypes (kind : String) (t : Rtl.ValueType) : List Rtl.ValueType × List Rtl.ValueType :=
  if ["add", "sub", "mul", "and", "or", "xor"].contains kind then ([t, t], [t])
  else if ["gt", "eq"].contains kind then ([t, t], [.truth])
  else if kind = "bit-inv" then ([t], [t])
  else ([], [])

def operator (p : Pool) (kind : String) (t : Rtl.ValueType) : Nat × Pool :=
  p.request ⟨kind, "", 0, t⟩ fun r =>
    { r with inputs := (operatorTypes kind t).1, outputs := (operatorTypes kind t).2 }

/-- The kind of a resource for something shared: the thing itself for its owner, else a writer or
a reader of it. -/
def sharedKind (thing : String) (owner write : Bool) : String :=
  if owner then thing else if write then thing ++ "-writer" else thing ++ "-reader"

def sharedMember (p : Pool) (e : Entity) (owner write : Bool) : Nat × Pool :=
  p.request ⟨sharedKind "shared-reg" owner write, e.member, e.object, .truth⟩
    (·.setParam "MEMBER" e.member)

def arrayShape (o : Object) (external : Bool) : Rtl.ArrayShape :=
  ⟨o.addressWidth, .unsigned o.width, external⟩

def sharedArray (p : Pool) (id : Nat) (o : Object) (owner write : Bool) : Nat × Pool :=
  p.request ⟨sharedKind "shared-memory" owner write, "", id, .truth⟩ fun r =>
    { r.setParam "MEMBER" o.name with array := if owner then some (arrayShape o false) else none }

def privateArray (p : Pool) (id : Nat) (o : Object) : Nat × Pool :=
  p.request ⟨"array", "", id, .truth⟩ fun r =>
    { r.setParam "MEMBER" o.name with array := some (arrayShape o false) }

/-- The memory outside of the design: words of 32 bits at addresses of 32 bits. -/
def externalMemory (p : Pool) : Nat × Pool :=
  p.request ⟨"array", "$memory", 0, .truth⟩ fun r =>
    { r with array := some ⟨32, .unsigned 32, true⟩ }

def channel (p : Pool) (id : Nat) (write : Bool) (width : UInt64) : Nat × Pool :=
  p.request ⟨if write then channelWriteKind else channelReadKind, "", id, .truth⟩ fun r =>
    { r.setWidth width with
      inputs := if write then [.unsigned width] else []
      outputs := if write then [] else [.unsigned width] }

/-- The external module that implements an imported method. -/
def embedded (p : Pool) (module : String) : Nat × Pool :=
  p.request ⟨"embedded", module, 0, .truth⟩ (·.setParam "EMBEDDED-MODULE" module)

def task (p : Pool) : Nat × Pool := p.ofKind Rtl.taskKind

def taskReturn (p : Pool) : Nat × Pool := p.ofKind Rtl.taskReturnKind

/-- Where the table is told of data-flow calls, with the shared register that carries their
arguments as its parent. -/
def dataFlow (p : Pool) (width : UInt64) : Nat × Pool :=
  match p.keys.lookup ⟨Rtl.dataFlowKind, "", 0, .truth⟩ with
  | some i => (i, p)
  | none =>
    let (i, p) := p.add Rtl.dataFlowKind
    let (j, p) := p.request ⟨"shared-reg", "$dataflow", 0, .truth⟩ id
    let p := p.update j (·.setWidth width)
    let p := p.update i fun r => { r with parent := some (p.ref j) }
    (i, { p with keys := (⟨Rtl.dataFlowKind, "", 0, .truth⟩, i) :: p.keys })

/-- Where the table is started from outside the design. -/
def externalTask (p : Pool) : Nat × Pool := p.ofKind "ext-task"

def externalTaskDone (p : Pool) : Nat × Pool := p.ofKind "ext-task-done"

def port (p : Pool) (name : String) (output : Bool) (width : UInt64) : Nat × Pool :=
  p.request ⟨if output then "ext-output" else "ext-input", name, 0, .truth⟩ fun r =>
    (r.setParam "PORT-NAME" name).setWidth width

def arrayPort (p : Pool) (id : Nat) (o : Object) (master : Bool) : Nat × Pool :=
  p.request ⟨if master then "axi-master-port" else "axi-slave-port", "", id, .truth⟩ fun r =>
    { r.setParam "PORT-NAME" o.name with array := some (arrayShape o true) }

def masterPort? (p : Pool) (id : Nat) (o : Object) : Option Nat × Pool :=
  if o.axiMaster then
    let (i, p) := p.arrayPort id o true
    (some i, p)
  else (none, p)

def slavePort? (p : Pool) (id : Nat) (o : Object) : Option Nat × Pool :=
  if o.axiSlave then
    let (i, p) := p.arrayPort id o false
    (some i, p)
  else (none, p)

def declWidth (d : VarDecl) : UInt64 := if d.type = .bool then 0 else d.width

def portName (m : Method) : String := if m.marks.port = "" then m.name else m.marks.port

def methodPort? (p : Pool) (m : Method) : Option Nat × Pool :=
  match m.marks.extOutput, m.args, m.marks.extInput, m.returns with
  | true, a :: _, _, _ =>
    let (i, p) := p.port (portName m) true (declWidth a)
    (some i, p)
  | _, _, true, r :: _ =>
    let (i, p) := p.port (portName m) false (declWidth r)
    (some i, p)
  | _, _, _, _ => (none, p)

end Pool
end Synth
end MachineSynth
