import MachineSynth.Synth.Body
import MachineSynth.Synth.Expand
import MachineSynth.Synth.Plan

/-! Threads: the table that a planned thread becomes. It depends on the plan of that thread and on
the settled ownership alone. -/
namespace MachineSynth
namespace Synth

structure ThreadTable where
  plan : ThreadPlan
  /-- The lowered methods by the names they were asked for. -/
  contexts : List (String × Context)
  builder : Builder
  states : List Rtl.State
  /-- The calls into tasks, and those into data-flow threads. -/
  taskCalls : List TableCall
  flowCalls : List TableCall
deriving Inhabited

namespace ThreadTable

def entryRole (m : Machine) (t : ThreadPlan) : Role :=
  if t.isTask then .task
  else if (Walker.calledMethod? m (some t.object) t.entry).any Plan.isEntry then .root
  else .inner

def lowerAll (m : Machine) (owners : OwnershipTable) (id : ThreadId) (t : ThreadPlan) :
    List String → Builder → Except Stop (List (String × Context) × Builder)
  | [], b => return ([], b)
  | name :: rest, b => do
    let role := if name = t.entry then entryRole m t else .inner
    let (c, b) ← Site.lower m owners id t.object name role b
    let (cs, b) ← lowerAll m owners id t rest b
    return ((name, c) :: cs, b)

def build (m : Machine) (owners : OwnershipTable) (limit : Nat) (id : ThreadId) (t : ThreadPlan) :
    Except Stop ThreadTable := do
  let (contexts, b) ← lowerAll m owners id t t.methods (.ofPool t.pool)
  match contexts.lookup t.entry with
  | none => .error (.fault .dangling)
  | some entry =>
    let x ← Expand.ofEntry ⟨m, contexts, limit⟩ b entry
    return ⟨t, contexts, x.builder, x.states, x.taskCalls, x.flowCalls⟩

def of (m : Machine) (owners : OwnershipTable) (limit : Nat) (id : ThreadId) (t : ThreadPlan) :
    Except Stop ThreadTable :=
  (build m owners limit id t).mapError (·.mapError (.inSynthesis t.name t.entry))

def resources (t : ThreadTable) : List Rtl.Resource := t.builder.pool.resources

def text (m : Machine) (t : ThreadTable) : String := s!"{m.name t.plan.object}.{t.plan.name}"

def setResources (t : ThreadTable) (resources : List Rtl.Resource) : ThreadTable :=
  { t with builder := { t.builder with pool := { t.builder.pool with resources := resources } } }

def table (t : ThreadTable) : Rtl.Table :=
  { id := t.plan.place.table + 1, name := t.plan.name, registers := t.builder.registers,
    resources := t.resources, states := t.states,
    initial := if t.states.isEmpty then none else some 0,
    lastState := t.builder.stateCount, lastInsn := t.builder.insnCount }

end ThreadTable
end Synth
end MachineSynth
