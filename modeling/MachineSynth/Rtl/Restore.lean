import MachineSynth.Rtl.Image
import MachineSynth.Fault

/-! Restoring a design from its image: numbers are resolved to positions. Of several things of one
number the last is meant, but of several resources of one number in a table the first, where
another table refers to them. -/
namespace MachineSynth
namespace Image

/-- A number that leads nowhere. -/
inductive RestoreError
  | parentModule (id : Nat)
  | channelEnd (id : Nat)
  | resourceParent (id : Nat) (table : String)
  | resourceCallee (id : Nat) (table : String)
  | resource (id : Nat) (table : String)
  | state (id : Nat) (table : String)
  | register (table : String)
  | fault (f : Fault)
deriving DecidableEq, Repr

namespace RestoreError

def message : RestoreError → String
  | parentModule id => s!"iroha: unknown parent module {id}"
  | channelEnd id => s!"iroha: unresolved endpoint of channel {id}"
  | resourceParent id table => s!"iroha: unresolved parent of resource {id} in {table}"
  | resourceCallee id table => s!"iroha: unresolved callee of resource {id} in {table}"
  | resource id table => s!"iroha: unknown resource {id} in {table}"
  | state id table => s!"iroha: unknown state {id} in {table}"
  | register table => s!"iroha: unknown register in {table}"
  | fault _ => ""

end RestoreError

abbrev Restore := Except RestoreError

def lastIndex? (id : Nat) : List Nat → Option Nat
  | [] => none
  | n :: rest =>
    match lastIndex? id rest with
    | some i => some (i + 1)
    | none => if n = id then some 0 else none

def findModule? (i : Image) (id : Nat) : Option Nat := lastIndex? id (i.modules.map (·.id))

def tableNumbers (i : Image) : List (Rtl.TableRef × TableRef × Table) :=
  (i.modules.mapIdx fun m mod => mod.tables.mapIdx fun t tab => (⟨m, t⟩, ⟨mod.id, tab.id⟩, tab)).flatten

def findTable? (i : Image) (r : TableRef) : Option (Rtl.TableRef × Table) :=
  (i.tableNumbers.reverse.find? fun (_, n, _) => n = r).map fun (p, _, t) => (p, t)

def findResource? (i : Image) (r : ResourceRef) : Option Rtl.ResourceRef :=
  (i.findTable? ⟨r.module, r.table⟩).bind fun (p, t) =>
    (t.resources.findIdx? (·.id = r.resource)).map fun k => ⟨p, k⟩

/-- The modules and tables with all that refers to nothing. -/
def skeletonTable (t : Table) : Rtl.Table :=
  { id := t.id, name := t.name, registers := t.registers,
    resources := t.resources.map fun r =>
      ⟨r.id, r.kind, r.inputs, r.outputs, r.params.foldl (fun p (k, v) => p.set k v) [], none, none,
        r.array⟩,
    states := t.states.map fun s => ⟨s.id, []⟩, initial := none,
    lastState := (t.states.map (·.id)).foldl max 0, lastInsn := 0 }

def skeleton (i : Image) : Rtl.Design :=
  ⟨i.modules.map fun m => ⟨m.id, m.name, none, m.tables.map skeletonTable⟩, []⟩

def resolveResource (i : Image) (table : String) (r : Resource) :
    Restore (Option Rtl.ResourceRef × Option Rtl.TableRef) := do
  let parent ← match r.parent with
    | none => pure none
    | some p =>
      match i.findResource? p with
      | some ref => pure (some ref)
      | none => .error (.resourceParent r.id table)
  let callee ← match r.callee with
    | none => pure none
    | some c =>
      match i.findTable? c with
      | some (ref, _) => pure (some ref)
      | none => .error (.resourceCallee r.id table)
  return (parent, callee)

def resolveAll (ids : List Nat) (missing : Nat → RestoreError) : List Nat → Restore (List Nat)
  | [] => return []
  | id :: rest =>
    match lastIndex? id ids with
    | none => .error (missing id)
    | some p => do return p :: (← resolveAll ids missing rest)

def resolveInsn (t : Rtl.Table) (table : String) (i : Insn) : Restore Rtl.Insn := do
  let registers := t.registers.map (·.id)
  match lastIndex? i.resource (t.resources.map (·.id)) with
  | none => .error (.resource i.resource table)
  | some resource =>
    let targets ← resolveAll (t.states.map (·.id)) (.state · table) i.targets
    let inputs ← resolveAll registers (fun _ => .register table) i.inputs
    let outputs ← resolveAll registers (fun _ => .register table) i.outputs
    return ⟨i.id, resource, i.operand, inputs, outputs, targets⟩

/-- Resolves the resources of a table image from position `k` on, into the table they go to. -/
def resolveResources (i : Image) (table : String) :
    Nat → List Resource → Rtl.Table → Restore Rtl.Table
  | _, [], t => return t
  | k, r :: rest, t =>
    if k < t.resources.length then do
      let (parent, callee) ← resolveResource i table r
      resolveResources i table (k + 1) rest { t with resources := t.resources.modify k fun x =>
        { x with parent := parent, callee := if callee.isSome then callee else x.callee } }
    else .error (.fault .dangling)

def resolveInsns (table : String) (k : Nat) : List Insn → Rtl.Table → Restore Rtl.Table
  | [], t => return t
  | i :: rest, t => do
    let insn ← resolveInsn t table i
    resolveInsns table k rest { t with
      states := t.states.modify k fun s => { s with insns := s.insns ++ [insn] }
      lastInsn := max t.lastInsn i.id }

def resolveStates (table : String) : Nat → List State → Rtl.Table → Restore Rtl.Table
  | _, [], t => return t
  | k, s :: rest, t =>
    if k < t.states.length then do
      resolveStates table (k + 1) rest (← resolveInsns table k s.insns t)
    else .error (.fault .dangling)

def resolveTable (i : Image) (table : String) (t : Table) (r : Rtl.Table) : Restore Rtl.Table := do
  let r ← resolveResources i table 0 t.resources r
  let r := match t.initial with
    | some id => { r with initial := lastIndex? id (r.states.map (·.id)) }
    | none => r
  resolveStates table 0 t.states r

def resolveTables (i : Image) (m : Nat) : List Table → Rtl.Design → Restore Rtl.Design
  | [], d => return d
  | t :: rest, d =>
    match (i.findTable? ⟨m, t.id⟩).bind fun (p, _) => (d.table? p).map (p, ·) with
    | none => .error (.fault .dangling)
    | some (p, r) => do
      let r ← resolveTable i (d.tableText p) t r
      resolveTables i m rest (d.updateTable p fun _ => r)

def resolveModules (i : Image) : List Module → Rtl.Design → Restore Rtl.Design
  | [], d => return d
  | m :: rest, d => do
    let d ← match m.parent with
      | none => pure d
      | some p =>
        match i.findModule? p, i.findModule? m.id with
        | some q, some k =>
          pure { d with modules := d.modules.modify k fun x => { x with parent := some q } }
        | _, _ => .error (.parentModule p)
    let d ← resolveTables i m.id m.tables d
    resolveModules i rest d

def resolveEnd (i : Image) (channel : Nat) : Option ResourceRef → Restore (Option Rtl.ResourceRef)
  | none => return none
  | some r =>
    match i.findResource? r with
    | some ref => return some ref
    | none => .error (.channelEnd channel)

def resolveChannels (i : Image) : List Channel → Restore (List Rtl.Channel)
  | [] => return []
  | c :: rest => do
    let writer ← resolveEnd i c.id c.writer
    let reader ← resolveEnd i c.id c.reader
    return ⟨c.id, c.type, writer, reader⟩ :: (← resolveChannels i rest)

/-- The design of an image, if every number in it leads somewhere. -/
def restore (i : Image) : Restore Rtl.Design := do
  let d ← resolveModules i i.modules i.skeleton
  return { d with channels := ← resolveChannels i i.channels }

end Image
end MachineSynth
