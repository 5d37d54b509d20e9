import MachineSynth.Synth.Error
import MachineSynth.Synth.Pool
import MachineSynth.Synth.Walker

/-! Plans: the modules and threads a design will have, found by scanning code from the threads of
the top-level object on. -/
namespace MachineSynth
namespace Synth

structure ModulePlan where
  object : Nat
  /-- The position of the enclosing module. -/
  parent : Option Nat
deriving DecidableEq, Repr, Inhabited

structure ThreadPlan where
  object : Nat
  place : Rtl.TableRef
  name : String
  entry : String
  /-- Whether the thread is started by calls from other tables. -/
  isTask : Bool
  /-- The methods of the object that the thread runs, in the order in which they were met. -/
  methods : List String
  /-- The resources that the table has from the start. -/
  pool : Pool
deriving Inhabited

structure Plan where
  modules : List ModulePlan
  threads : List ThreadPlan
  accesses : Accesses
deriving Inhabited

/-- The entry of the top-level object, unless a declared thread runs it. -/
def mainMethod : String := "main"

namespace Plan

def empty : Plan := ⟨[], [], .empty⟩

def module? (p : Plan) (object : Nat) : Option Nat := p.modules.findIdx? (·.object = object)

def threadsOf (p : Plan) (module : Nat) : List ThreadPlan :=
  p.threads.filter (·.place.module = module)

def thread? (p : Plan) (object : Nat) (entry : String) : Option ThreadPlan :=
  p.threads.find? fun t => t.object = object && !t.isTask && t.entry = entry

def task? (p : Plan) (object : Nat) (method : String) : Option ThreadPlan :=
  p.threads.find? fun t => t.object = object && t.isTask && t.entry = method

def addThread (p : Plan) (module object : Nat) (name entry : String) (isTask : Bool) : Plan :=
  let place : Rtl.TableRef := ⟨module, (p.threadsOf module).length⟩
  { p with threads := p.threads ++ [⟨object, place, name, entry, isTask, [], .empty place⟩] }

def updateThread (p : Plan) (t : ThreadId) (f : ThreadPlan → ThreadPlan) : Plan :=
  { p with threads := p.threads.modify t f }

/-- Whether a method runs in a thread of its own. -/
def isEntry (f : Method) : Bool := f.marks.dataFlowEntry || f.marks.extEntry

def hasThreads (o : Object) : Bool := !o.threads.isEmpty || o.methods.any isEntry

def needsMain (o : Object) : Bool :=
  match o.method? mainMethod with
  | some f => !f.isNative && o.threads.all (·.method != mainMethod)
  | none => false

def addEntry (module object : Nat) (p : Plan) (f : Method) : Plan :=
  if isEntry f && (p.thread? object f.name).isNone then
    p.addThread module object f.name f.name false
  else p

/-- Adds the threads that an object runs whether or not it is called. -/
def prepare (p : Plan) (module object : Nat) (o : Object) (top : Bool) : Plan :=
  let p := if top && needsMain o then p.addThread module object mainMethod mainMethod false else p
  let p := o.threads.foldl (fun p d => p.addThread module object d.name d.method false) p
  o.methods.foldl (addEntry module object) p

/-- Adds the module of an object, inside that of the caller, and those of its members that have
threads. No more than `depth` of them are nested. -/
def requestObject (m : Machine) : Nat → Option Nat → Nat → Plan → Except Fault Plan
  | 0, _, _, p => .ok p
  | depth + 1, caller, id, p =>
    if (p.module? id).isSome then .ok p
    else do
      let o ← m.object id
      let module := p.modules.length
      let p : Plan := { p with modules := p.modules ++ [⟨id, caller⟩] }
      let p := p.prepare module id o caller.isNone
      let members ← m.memberObjects id
      members.foldlM
        (fun p (k, member) =>
          if member.kind = .plain && hasThreads member then
            requestObject m depth (some module) k p
          else .ok p)
        p

def callObject (m : Machine) (module id : Nat) (p : Plan) : Except Fault Plan :=
  p.requestObject m m.objects.length (some module) id

def callTask (m : Machine) (module id : Nat) (method : String) (p : Plan) : Except Fault Plan := do
  let p ← p.callObject m module id
  match p.module? id with
  | none => .error .dangling
  | some callee =>
    if (p.task? id method).isSome then return p
    else return p.addThread callee id method method true

def requestMethod (p : Plan) (t : ThreadId) (name : String) : Plan :=
  p.updateThread t fun thread =>
    if thread.methods.contains name then thread
    else { thread with methods := thread.methods ++ [name] }

end Plan

/-- What is scanned: a method of an object, on behalf of a thread. -/
structure ScanSite where
  machine : Machine
  thread : ThreadId
  /-- The module of the thread. -/
  module : Nat
  object : Nat
  method : String

namespace ScanSite

def objectName (s : ScanSite) : String := s.machine.name s.object

def faulty {α : Type} (r : Except Fault α) : Except Stop α := r.mapError .fault

def access (s : ScanSite) (w : Walker) (p : Plan) (insn : Insn) (label : String) (write : Bool) :
    Except Stop (Walker × Plan) := do
  let (owner, w) ← faulty (w.access s.machine insn)
  match (s.machine.object? owner).bind (·.lookup? label) with
  | none => .error (.error (.memberNotFound (s.machine.name owner) label))
  | some (.method _) => .error (.error (.methodAsMember (s.machine.name owner) label))
  | some (.object _) => return (w, p)
  | some (.num _ _ const) | some (.enum _ _ const) =>
    if const then return (w, p)
    else
      let accesses ← faulty (p.accesses.addMember s.thread owner label write)
      return (w, { p with accesses := accesses })

def array (s : ScanSite) (w : Walker) (p : Plan) (r : RegisterId) (write : Bool) :
    Except Stop Plan :=
  match (w.objectOf? r).bind fun id => (s.machine.object? id).map (id, ·) with
  | some (id, o) =>
    if o.isArray then do
      let accesses ← faulty (p.accesses.addObject s.thread id write o.name)
      return { p with accesses := accesses }
    else .error (.error (.arrayExpected s.objectName s.method))
  | none => .error (.error (.arrayExpected s.objectName s.method))

def call (s : ScanSite) (w : Walker) (p : Plan) (r : RegisterId) (label : String) :
    Except Stop Plan :=
  match w.objectOf? r with
  | none => .error (.error (.unresolvedCallee label s.objectName s.method))
  | some callee =>
    match Walker.calledMethod? s.machine (some callee) label with
    | none => .error (.error (.methodNotFound (s.machine.name callee) label))
    | some f =>
      if w.isNativeCall s.machine r label then
        if f.native = "load" || f.native = "store" then do
          let accesses ← faulty (p.accesses.addMover s.thread callee)
          return { p with accesses := accesses }
        else return p
      else if f.marks.dataFlowEntry then faulty (p.callObject s.machine s.module callee)
      else if w.isOutsideCall r then faulty (p.callTask s.machine s.module callee label)
      else if f.marks.isPort then do
        let (granted, accesses) ← faulty (p.accesses.claimPort s.thread ⟨callee, label⟩)
        if granted then return { p with accesses := accesses }.requestMethod s.thread label
        else .error (.error (.portShared (s.machine.name callee) label))
      else return p.requestMethod s.thread label

def insn (s : ScanSite) : Walker × Plan → Insn → Except Stop (Walker × Plan)
  | (w, p), .loadObject target object label => do
    return (← faulty (w.load s.machine target object label), p)
  | (w, p), i@(.memberRead _ _ label) => s.access w p i label false
  | (w, p), i@(.memberWrite _ label _) => s.access w p i label true
  | (w, p), .arrayRead _ object _ => do return (w, ← s.array w p object false)
  | (w, p), .arrayWrite object _ _ => do return (w, ← s.array w p object true)
  | (w, p), .call object label _ => do return (w, ← s.call w p object label)
  | (w, p), _ => return (w, p)

/-- Scans the method. A native method is not scanned, but must be implemented by an imported
one. -/
def scan (s : ScanSite) (p : Plan) : Except Stop Plan :=
  match (s.machine.object? s.object).bind fun o => (o.method? s.method).map (o, ·) with
  | none => .error (.error (.methodNotFound s.objectName s.method))
  | some (o, f) =>
    if f.alt != "" then
      if (o.method? f.alt).any (·.isImported) then return p
      else .error (.error (.notImported s.objectName s.method f.alt))
    else if f.isNative then .error (.error (.nativeMethod s.objectName s.method))
    else do
      let (_, p) ← f.code.foldlM s.insn (Walker.start s.object, p)
      return p

end ScanSite

namespace Plan

def scanMethods (m : Machine) (t : ThreadId) : Nat → Nat → Plan → Except Stop Plan
  | 0, _, p => .ok p
  | count + 1, i, p =>
    match p.threads[t]? with
    | none => .ok p
    | some thread =>
      match thread.methods[i]? with
      | none => .ok p
      | some name => do
        let site : ScanSite := ⟨m, t, thread.place.module, thread.object, name⟩
        let p ← (site.scan p).mapError (·.mapError (.inScan thread.name thread.entry))
        scanMethods m t count (i + 1) p

/-- Scans all that a thread runs. It runs no more methods than its object has slots. -/
def scanThread (m : Machine) (t : ThreadId) (p : Plan) : Except Stop Plan :=
  match p.threads[t]? with
  | none => .ok p
  | some thread =>
    let slots := ((m.object? thread.object).map (·.slots.length)).getD 0
    (p.requestMethod t thread.entry).scanMethods m t (slots + 1) 0

def scanThreads (m : Machine) : Nat → ThreadId → Plan → Except Stop Plan
  | 0, _, p => .ok p
  | count + 1, t, p =>
    if t < p.threads.length then do
      let p ← p.scanThread m t
      scanThreads m count (t + 1) p
    else .ok p

/-- A bound on the threads that the objects of a machine can have: one for the main method, those
declared, and for each method one as an entry and one as a task. -/
def threadBound (m : Machine) : Nat :=
  (m.objects.map fun o => 1 + o.threads.length + 2 * o.slots.length).foldr (· + ·) 0

def addArrayPorts (p : Plan) (t : ThreadId) (id : Nat) (o : Object) : Plan :=
  if o.isArray && !p.accesses.hasAccessor id then
    p.updateThread t fun thread =>
      { thread with pool := ((thread.pool.masterPort? id o).2.slavePort? id o).2 }
  else p

def addMethodPort (t : ThreadId) (object : Nat) (p : Plan) (f : Method) : Except Fault Plan :=
  if f.marks.isPort && !p.accesses.hasPort ⟨object, f.name⟩ then do
    let (_, accesses) ← p.accesses.claimPort t ⟨object, f.name⟩
    return { p with accesses := accesses }.updateThread t fun thread =>
      { thread with pool := (thread.pool.methodPort? f).2 }
  else return p

/-- Gives what no thread uses of an object to the first thread of its module. -/
def addPorts (m : Machine) (p : Plan) (module : Nat) : Except Fault Plan :=
  match p.modules[module]?, p.threads.findIdx? (·.place.module = module) with
  | some mod, some t => do
    let o ← m.object mod.object
    let members ← m.memberObjects mod.object
    let p := members.foldl (fun p (id, member) => p.addArrayPorts t id member) p
    o.methods.foldlM (addMethodPort t mod.object) p
  | _, _ => return p

def ofRoot (m : Machine) (root : Nat) : Except Stop Plan := do
  let top ← (m.object root).mapError .fault
  let p ← (Plan.empty.requestObject m m.objects.length none root).mapError .fault
  if p.threads.any (·.place.module = 0) then
    let p ← p.scanThreads m (threadBound m) 0
    ((List.range p.modules.length).foldlM (addPorts m) p).mapError .fault
  else .error (.error (.noThread top.name))

end Plan
end Synth
end MachineSynth
