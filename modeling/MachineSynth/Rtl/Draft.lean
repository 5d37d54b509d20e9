import MachineSynth.Fault
import MachineSynth.Rtl.Call
import MachineSynth.Rtl.Image

/-! Drafts: designs under construction. Every part has a handle, its place in the order in which the
parts of its sort were made. A state belongs to a table from the start but is listed in it only when
it is added, and an instruction may be added to any number of states. Part of the program alone: no
result is about it. -/
namespace MachineSynth
namespace Rtl

structure RegisterRef where
  owner : TableRef
  register : Nat
deriving DecidableEq, Repr, Inhabited

namespace Draft

structure State where
  id : Nat
  table : TableRef
  /-- The handles of the instructions. -/
  insns : List Nat
deriving DecidableEq, Repr, Inhabited

structure Insn where
  id : Nat
  resource : ResourceRef
  operand : String
  inputs : List RegisterRef
  outputs : List RegisterRef
  /-- The handles of the states that follow. -/
  targets : List Nat
deriving DecidableEq, Repr, Inhabited

end Draft

structure Draft where
  /-- All but the states. -/
  design : Design
  tables : List TableRef
  registers : List RegisterRef
  resources : List ResourceRef
  states : List Draft.State
  insns : List Draft.Insn
  /-- The places of the instructions that have a handle, which transitions made along the way do
  not have. -/
  handles : List Nat
  /-- The states that were added to their tables, in order. -/
  listed : List Nat
deriving DecidableEq, Repr, Inhabited

/-- A step of drafting; a step that fails keeps what it has done. -/
abbrev Drafting := ExceptT Fault (StateM Draft)

namespace Drafting

def pick {α : Type} (xs : List α) (handle : Nat) : Drafting α :=
  match xs[handle]? with
  | some x => pure x
  | none => throw .dangling

def table (t : Nat) : Drafting TableRef := do pick (← get).tables t

def state (s : Nat) : Drafting Draft.State := do pick (← get).states s

def register (r : Nat) : Drafting RegisterRef := do pick (← get).registers r

def resource (r : Nat) : Drafting ResourceRef := do pick (← get).resources r

def insn (i : Nat) : Drafting Nat := do pick (← get).handles i

def tableAt (t : TableRef) : Drafting Table := do
  match (← get).design.table? t with
  | some tab => pure tab
  | none => throw .dangling

def resourceAt (r : ResourceRef) : Drafting Resource := do
  match (← get).design.resource? r with
  | some res => pure res
  | none => throw .dangling

def registerAt (r : RegisterRef) : Drafting Register := do
  pick (← tableAt r.owner).registers r.register

def setTable (t : TableRef) (tab : Table) : Drafting Unit :=
  modify fun d => { d with design := d.design.updateTable t fun _ => tab }

def updateResource (r : Nat) (f : Resource → Resource) : Drafting Unit := do
  let ref ← resource r
  modify fun d => { d with design := d.design.updateResource ref f }

def updateRegister (r : Nat) (f : Register → Register) : Drafting Register := do
  let ref ← register r
  let reg ← registerAt ref
  modify fun d => { d with design := d.design.updateTable ref.owner fun t =>
    { t with registers := t.registers.set ref.register (f reg) } }
  return f reg

def newModule (name : String) (parent : Option Nat) : Drafting Nat := do
  let modules := (← get).design.modules
  if let some p := parent then
    let _ ← pick modules p
  modify fun d => { d with design := d.design.addModule name parent }
  return modules.length + 1

def newTable (m : Nat) (name : String) : Drafting Nat := do
  let mod ← pick (← get).design.modules m
  let place := mod.tables.length
  modify fun d => { d with design := d.design.addTable m name, tables := d.tables ++ [⟨m, place⟩] }
  return place + 1

def newState (t : Nat) : Drafting Nat := do
  let ref ← table t
  let (id, tab) := (← tableAt ref).takeState
  setTable ref tab
  modify fun d => { d with states := d.states ++ [⟨id, ref, []⟩] }
  return id

def newRegister (t : Nat) (name : String) (type : ValueType) (kind : RegisterKind)
    (initial : Option Int64) : Drafting Nat := do
  let ref ← table t
  let tab ← tableAt ref
  let place := tab.registers.length
  setTable ref { tab with registers := tab.registers ++ [⟨place + 1, name, type, kind, initial⟩] }
  modify fun d => { d with registers := d.registers ++ [⟨ref, place⟩] }
  return place + 1

def newChannel (width : UInt64) : Drafting Nat := do
  let id := (← get).design.channels.length + 1
  modify fun d => { d with design := d.design.addChannel width none none }
  return id

def updateChannel (c : Nat) (f : Channel → Channel) : Drafting Unit := do
  let _ ← pick (← get).design.channels c
  modify fun d => { d with design :=
    { d.design with channels := d.design.channels.modify c f } }

/-- The handle of a resource, which it gets when it has none, with its number. -/
def handleOf (r : ResourceRef) : Drafting (Nat × Nat) := do
  let res ← resourceAt r
  let known := (← get).resources
  match known.idxOf? r with
  | some i => return (i, res.id)
  | none =>
    modify fun d => { d with resources := known ++ [r] }
    return (known.length, res.id)

def newResource (t : Nat) (kind : String) : Drafting (Nat × Nat) := do
  let ref ← table t
  let tab ← tableAt ref
  setTable ref (tab.addResource kind)
  handleOf ⟨ref, tab.resources.length⟩

/-- Looks for a resource in a table, or adds one. -/
def seek (ref : TableRef) (f : List Resource → Option Nat × List Resource) :
    Drafting (Option (Nat × Nat)) := do
  let tab ← tableAt ref
  let (place, resources) := f tab.resources
  setTable ref { tab with resources := resources }
  match place with
  | some p => some <$> handleOf ⟨ref, p⟩
  | none => return none

def transition (t : Nat) : Drafting (Option (Nat × Nat)) := do
  let ref ← table t
  let (place, tab) := (← tableAt ref).transition
  seek ref fun _ => (some place, tab.resources)

def taskCall (caller callee : Nat) (member : String) : Drafting (Option (Nat × Nat)) := do
  let ref ← table caller
  let other ← table callee
  let theirs := (← tableAt other).resources
  seek ref fun rs => let (p, rs) := Rtl.taskCall rs other theirs member; (some p, rs)

def taskReturnValue (caller callee : Nat) : Drafting (Option (Nat × Nat)) := do
  let ref ← table caller
  let other ← table callee
  let theirs := (← tableAt other).resources
  seek ref fun rs => Rtl.taskReturnValue rs other theirs

def dataFlowCaller (caller shared : Nat) : Drafting (Option (Nat × Nat)) := do
  let ref ← table caller
  let other ← resource shared
  let width := (← resourceAt other).params.width
  seek ref fun rs => let (p, rs) := Rtl.dataFlowCaller rs other width; (some p, rs)

/-- Makes an instruction without a handle; its place is returned. -/
def addInsn (r : ResourceRef) (operand : String) : Drafting Nat := do
  let (id, tab) := (← tableAt r.owner).takeInsn
  setTable r.owner tab
  let place := (← get).insns.length
  modify fun d => { d with insns := d.insns ++ [⟨id, r, operand, [], [], []⟩] }
  return place

def insnAt (place : Nat) : Drafting Draft.Insn := do pick (← get).insns place

def newInsn (r : Nat) (operand : String) (inputs outputs : List Nat) : Drafting Nat := do
  let place ← addInsn (← resource r) operand
  let inputs ← inputs.mapM register
  let outputs ← outputs.mapM register
  modify fun d => { d with
    insns := d.insns.modify place fun i => { i with inputs := inputs, outputs := outputs }
    handles := d.handles ++ [place] }
  return (← insnAt place).id

/-- Adds instructions to a state by place; the count is returned. -/
def extend (s : Nat) (places : List Nat) : Drafting Nat := do
  let st ← state s
  let insns := st.insns ++ places
  modify fun d => { d with states := d.states.set s { st with insns := insns } }
  return insns.length

def addInsns (s : Nat) (insns : List Nat) : Drafting Nat := do
  let _ ← state s
  extend s (← insns.mapM insn)

def addState (t s : Nat) : Drafting Nat := do
  let ref ← table t
  let st ← state s
  if st.table ≠ ref then throw .foreignState
  modify fun d => { d with listed := d.listed ++ [s] }
  let d ← get
  match (d.listed.filterMap (d.states[·]?)).find? (·.table = ref) with
  | some first => return first.id
  | none => throw .dangling

def transitionOf (s : Nat) : Drafting (Option Nat) := do
  let d ← get
  return (← state s).insns.find? fun i =>
    ((d.insns[i]?).bind (d.design.resource? ·.resource)).any (·.isTransition)

def needTransition (s : Nat) : Drafting Nat := do
  match ← transitionOf s with
  | some i => return i
  | none =>
    let ref := (← state s).table
    let (r, tab) := (← tableAt ref).transition
    setTable ref tab
    let i ← addInsn ⟨ref, r⟩ ""
    let _ ← extend s [i]
    return i

/-- Lets a state follow another; the number of states that follow is returned. -/
def addNext (s next : Nat) : Drafting Nat := do
  let _ ← state s
  let _ ← state next
  let i ← needTransition s
  modify fun d => { d with
    insns := d.insns.modify i fun x => { x with targets := x.targets ++ [next] } }
  return (← insnAt i).targets.length

/-- The number of the only state that follows. -/
def nextOf (s : Nat) : Drafting (Option Nat) := do
  match ← transitionOf s with
  | none => return none
  | some i =>
    match (← insnAt i).targets with
    | [t] => return some (← state t).id
    | _ => return none

def ofKind (t : Nat) (kind : String) : Drafting (List Nat) := do
  let tab ← tableAt (← table t)
  return (tab.resources.filter (·.kind = kind)).map (·.id)

def transitionNumber (s : Nat) : Drafting (Option Nat) := do
  match ← transitionOf s with
  | some i => return some (← insnAt i).id
  | none => return none

def needTransitionNumber (s : Nat) : Drafting Nat := do return (← insnAt (← needTransition s)).id

def text (sort : String) (handle : Nat) : Drafting String := do
  match sort with
  | "module" =>
    let m ← pick (← get).design.modules handle
    return s!"{m.name}#{m.id}"
  | "table" => return (← get).design.tableText (← table handle)
  | "register" => return (← registerAt (← register handle)).text
  | _ => return (← resourceAt (← resource handle)).text

end Drafting

namespace Draft

def empty : Draft := ⟨.empty, [], [], [], [], [], [], []⟩

def insnImage (d : Draft) (i : Insn) : Image.Insn :=
  let resource := (d.design.resource? i.resource).getD default
  let register (r : RegisterRef) : Nat :=
    (((d.design.table? r.owner).bind (·.registers[r.register]?)).map (·.id)).getD 0
  ⟨i.id, resource.id, resource.kind, i.operand,
    i.targets.map fun s => ((d.states[s]?).map (·.id)).getD 0, i.inputs.map register,
    i.outputs.map register⟩

def statesOf (d : Draft) (t : TableRef) : List State :=
  (d.listed.filterMap (d.states[·]?)).filter (·.table = t)

def tableImage (d : Draft) (ref : TableRef) (t : Table) : Image.Table :=
  { t.image d.design with
    initial := (d.statesOf ref).head?.map (·.id)
    states := (d.statesOf ref).map fun s =>
      ⟨s.id, (s.insns.filterMap (d.insns[·]?)).map d.insnImage⟩ }

def image (d : Draft) : Image :=
  { d.design.image with modules := d.design.modules.mapIdx fun m mod =>
      { mod.image d.design with tables := mod.tables.mapIdx fun t tab => d.tableImage ⟨m, t⟩ tab } }

end Draft
end Rtl
end MachineSynth
