import MachineSynth.Rtl.Basic

/-! Designs: modules with their tables, and the channels between them. -/
namespace MachineSynth
namespace Rtl

/-- A state machine with its registers and resources. -/
structure Table where
  id : Nat
  name : String
  registers : List Register
  resources : List Resource
  states : List State
  /-- The position of the first state to run. -/
  initial : Option Nat
  /-- The largest number given to a state so far. -/
  lastState : Nat
  /-- The largest number given to an instruction so far. -/
  lastInsn : Nat
deriving DecidableEq, Repr, Inhabited

namespace Table

def empty (id : Nat) (name : String) : Table := ⟨id, name, [], [], [], none, 0, 0⟩

/-- The number after `n`, in 64 bits. -/
def succ (n : Nat) : Nat := (n + 1) % 0x10000000000000000

/-- The number of the next state, and the table that has given it away. -/
def takeState (t : Table) : Nat × Table :=
  (succ t.lastState, { t with lastState := succ t.lastState })

/-- The number of the next instruction, and the table that has given it away. -/
def takeInsn (t : Table) : Nat × Table :=
  (succ t.lastInsn, { t with lastInsn := succ t.lastInsn })

def addRegister (t : Table) (name : String) (type : ValueType) : Table :=
  { t with registers := t.registers ++ [⟨t.registers.length + 1, name, type, .storage, none⟩] }

def addResource (t : Table) (kind : String) : Table :=
  { t with resources := t.resources ++ [.new (t.resources.length + 1) kind] }

def transition (t : Table) : Nat × Table :=
  match firstOfKind? t.resources Resource.transitionKind with
  | some i => (i, t)
  | none => (t.resources.length, t.addResource Resource.transitionKind)

end Table

structure Module where
  id : Nat
  name : String
  parent : Option Nat
  tables : List Table
deriving DecidableEq, Repr, Inhabited

/-- A channel; an end without a resource is a port of the design. -/
structure Channel where
  id : Nat
  type : ValueType
  writer : Option ResourceRef
  reader : Option ResourceRef
deriving DecidableEq, Repr, Inhabited

structure Design where
  modules : List Module
  channels : List Channel
deriving DecidableEq, Repr, Inhabited

namespace Design

def empty : Design := ⟨[], []⟩

def table? (d : Design) (t : TableRef) : Option Table :=
  (d.modules[t.module]?).bind (·.tables[t.table]?)

def resource? (d : Design) (r : ResourceRef) : Option Resource :=
  (d.table? r.owner).bind (·.resources[r.resource]?)

def updateTable (d : Design) (t : TableRef) (f : Table → Table) : Design :=
  { d with modules := d.modules.modify t.module fun m => { m with tables := m.tables.modify t.table f } }

def updateResource (d : Design) (r : ResourceRef) (f : Resource → Resource) : Design :=
  d.updateTable r.owner fun t => { t with resources := t.resources.modify r.resource f }

def addModule (d : Design) (name : String) (parent : Option Nat) : Design :=
  { d with modules := d.modules ++ [⟨d.modules.length + 1, name, parent, []⟩] }

def addTable (d : Design) (m : Nat) (name : String) : Design :=
  { d with modules := d.modules.modify m fun mod =>
      { mod with tables := mod.tables ++ [.empty (mod.tables.length + 1) name] } }

def addChannel (d : Design) (width : UInt64) (writer reader : Option ResourceRef) : Design :=
  { d with channels :=
      d.channels ++ [⟨d.channels.length + 1, .unsigned width, writer, reader⟩] }

def tableText (d : Design) (t : TableRef) : String :=
  match d.modules[t.module]?, d.table? t with
  | some m, some tab => s!"{m.name}.{tab.name}"
  | _, _ => ""

end Design
end Rtl
end MachineSynth
