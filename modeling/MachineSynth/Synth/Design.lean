import MachineSynth.Synth.Wire

/-! Synthesis of a design: plan the threads, settle ownership, make each thread a table, link
shared resources, wire calls and connect channels. -/
namespace MachineSynth
namespace Synth

/-- How deeply calls may be nested unless it is said otherwise. -/
def defaultDepth : Nat := 32

structure Synthesis where
  plan : Plan
  tables : List ThreadTable
  design : Rtl.Design
deriving Inhabited

namespace Synthesis

/-- Makes every thread a table, counting threads from `id`. -/
def buildTables (m : Machine) (owners : OwnershipTable) (limit : Nat) :
    ThreadId → List ThreadPlan → Except Stop (List ThreadTable)
  | _, [] => return []
  | id, t :: rest => do
    let table ← ThreadTable.of m owners limit id t
    return table :: (← buildTables m owners limit (id + 1) rest)

def mergeLink (links : Links Rtl.ResourceRef) (e : Entity) (l : Link Rtl.ResourceRef) :
    Except Fault (Links Rtl.ResourceRef) := do
  let links ← match l.owner with
    | some r => links.addOwner e r
    | none => pure links
  return l.accessors.foldl (·.addAccessor e ·) links

def allLinks (tables : List ThreadTable) : Except Fault (Links Rtl.ResourceRef) :=
  (tables.flatMap (·.builder.links.entries)).foldlM (fun ls (e, l) => mergeLink ls e l) .empty

def setParent (t : ThreadTable) (link : Rtl.ResourceRef × Rtl.ResourceRef) : ThreadTable :=
  if link.1.owner = t.plan.place then
    t.setResources (t.resources.modify link.1.resource fun r => { r with parent := some link.2 })
  else t

def link (tables : List ThreadTable) : Except Stop (List ThreadTable) := do
  let links ← (allLinks tables).mapError .fault
  match links.parents with
  | (_, some error) => .error (.error error)
  | (parents, none) => return tables.map fun t => parents.foldl setParent t

def allChannels (tables : List ThreadTable) : Channels :=
  (tables.flatMap (·.builder.channels.ends)).foldl
    (fun cs (object, e) =>
      let cs := e.writers.foldl
        (fun cs r => cs.add object e.name e.width channelWriteKind r) cs
      e.readers.foldl (fun cs r => cs.add object e.name e.width channelReadKind r) cs)
    .empty

def assemble (m : Machine) (plan : Plan) (tables : List ThreadTable) : Rtl.Design :=
  ⟨plan.modules.mapIdx fun i mod =>
    ⟨i + 1, m.name mod.object, mod.parent,
      (tables.filter (·.plan.place.module = i)).map (·.table)⟩, []⟩

/-- The design of a top-level object. -/
def ofRoot (m : Machine) (root limit : Nat) : Except Stop Synthesis := do
  let plan ← Plan.ofRoot m root
  let (owners, _) ← plan.accesses.settle.mapError .fault
  let tables ← buildTables m owners limit 0 plan.threads
  let tables ← link tables
  let tables ← (tables.mapM (ThreadTable.wire m plan tables)).mapError .fault
  match (allChannels tables).resolve (assemble m plan tables) with
  | (_, some error) => .error (.error error)
  | (design, none) => return ⟨plan, tables, design⟩

end Synthesis

/-- The design of a top-level object, with calls nested up to a depth; zero means the default. -/
def synthesize (m : Machine) (root depth : Nat) : Except Stop Synthesis :=
  Synthesis.ofRoot m root (if depth = 0 then defaultDepth else depth)

end Synth
end MachineSynth
