import MachineSynth.Rtl.Design

/-! Images: designs in which every reference is a number, as both written forms have them. -/
namespace MachineSynth
namespace Image

structure TableRef where
  module : Nat
  table : Nat
deriving DecidableEq, Repr, Inhabited

structure ResourceRef where
  module : Nat
  table : Nat
  resource : Nat
deriving DecidableEq, Repr, Inhabited

structure Resource where
  id : Nat
  kind : String
  inputs : List Rtl.ValueType
  outputs : List Rtl.ValueType
  params : Rtl.Params
  parent : Option ResourceRef
  callee : Option TableRef
  array : Option Rtl.ArrayShape
deriving DecidableEq, Repr, Inhabited

structure Insn where
  id : Nat
  resource : Nat
  /-- The kind of the resource, for the reader; it is not needed to find the resource. -/
  kind : String
  operand : String
  targets : List Nat
  inputs : List Nat
  outputs : List Nat
deriving DecidableEq, Repr, Inhabited

structure State where
  id : Nat
  insns : List Insn
deriving DecidableEq, Repr, Inhabited

structure Table where
  id : Nat
  name : String
  initial : Option Nat
  registers : List Rtl.Register
  resources : List Resource
  states : List State
deriving DecidableEq, Repr, Inhabited

structure Module where
  id : Nat
  name : String
  parent : Option Nat
  tables : List Table
deriving DecidableEq, Repr, Inhabited

structure Channel where
  id : Nat
  type : Rtl.ValueType
  writer : Option ResourceRef
  reader : Option ResourceRef
deriving DecidableEq, Repr, Inhabited

end Image

structure Image where
  modules : List Image.Module
  channels : List Image.Channel
deriving DecidableEq, Repr, Inhabited

namespace Rtl

def Design.tableNumber (d : Design) (t : TableRef) : Image.TableRef :=
  ⟨((d.modules[t.module]?).map (·.id)).getD 0, ((d.table? t).map (·.id)).getD 0⟩

def Design.resourceNumber (d : Design) (r : ResourceRef) : Image.ResourceRef :=
  let t := d.tableNumber r.owner
  ⟨t.module, t.table, ((d.resource? r).map (·.id)).getD 0⟩

def Resource.image (d : Design) (r : Resource) : Image.Resource :=
  ⟨r.id, r.kind, r.inputs, r.outputs, r.params, r.parent.map d.resourceNumber,
    r.callee.map d.tableNumber, r.array⟩

def Insn.image (t : Table) (i : Insn) : Image.Insn :=
  let resource := (t.resources[i.resource]?).getD default
  let register (r : Nat) : Nat := ((t.registers[r]?).map (·.id)).getD 0
  let state (s : Nat) : Nat := ((t.states[s]?).map (·.id)).getD 0
  ⟨i.id, resource.id, resource.kind, i.operand, i.targets.map state, i.inputs.map register,
    i.outputs.map register⟩

def Table.image (d : Design) (t : Table) : Image.Table :=
  ⟨t.id, t.name, (t.initial.bind (t.states[·]?)).map (·.id), t.registers,
    t.resources.map (Resource.image d), t.states.map fun s => ⟨s.id, s.insns.map (Insn.image t)⟩⟩

def Module.image (d : Design) (m : Module) : Image.Module :=
  ⟨m.id, m.name, (m.parent.bind (d.modules[·]?)).map (·.id), m.tables.map (Table.image d)⟩

def Channel.image (d : Design) (c : Channel) : Image.Channel :=
  ⟨c.id, c.type, c.writer.map d.resourceNumber, c.reader.map d.resourceNumber⟩

def Design.image (d : Design) : Image :=
  ⟨d.modules.map (Module.image d), d.channels.map (Channel.image d)⟩

end Rtl
end MachineSynth
