import MachineSynth.BitSet
import MachineSynth.Fault

/-! Ownership: which threads access what, and which of them holds it. -/
namespace MachineSynth
namespace Synth

abbrev ThreadId := Nat

/-- What threads may share: a member of an object, or, with no member named, the object itself. -/
structure Entity where
  object : Nat
  member : String
deriving DecidableEq, Repr, Inhabited

namespace Entity

def whole (object : Nat) : Entity := ⟨object, ""⟩

def text (e : Entity) : String :=
  if e.member = "" then s!"obj#{e.object}" else s!"obj#{e.object}.{e.member}"

end Entity

structure MethodKey where
  object : Nat
  method : String
deriving DecidableEq, Repr, Inhabited

/-- The accesses to one entity. -/
structure Access where
  readers : BitSet
  writers : BitSet
  /-- The threads that move an array over its port. -/
  movers : BitSet
  /-- The reading and writing threads in the order of their first access. -/
  accessors : List ThreadId
  name : String
deriving Inhabited

namespace Access

def empty : Access := ⟨.empty, .empty, .empty, [], ""⟩

def add (a : Access) (thread : ThreadId) (write : Bool) : Access :=
  { a with
    readers := if write then a.readers else a.readers.insert thread
    writers := if write then a.writers.insert thread else a.writers
    accessors := if a.accessors.contains thread then a.accessors else a.accessors ++ [thread] }

/-- The first accessor that writes, else the first accessor. A thread that only moves the entity
never owns it. -/
def owner? (a : Access) : Option ThreadId :=
  match a.accessors.find? a.writers.contains with
  | some t => some t
  | none => a.accessors.head?

end Access

/-- How an entity is accessed, once this is settled. -/
structure Ownership where
  owner : Option ThreadId
  accessors : List ThreadId
  readers : List ThreadId
  writers : List ThreadId
  movers : List ThreadId
  name : String
deriving DecidableEq, Repr, Inhabited

namespace Ownership

def none : Ownership := ⟨.none, [], [], [], [], ""⟩

def of (a : Access) : Ownership :=
  ⟨a.owner?, a.accessors, a.readers.toList, a.writers.toList, a.movers.toList, a.name⟩

def isOwner (o : Ownership) (thread : ThreadId) : Bool := o.owner = some thread

def isMoved (o : Ownership) : Bool := !o.movers.isEmpty

/-- Whether more than one thread accesses the entity. -/
def isShared (o : Ownership) : Bool := 1 < o.accessors.length

end Ownership

structure OwnershipTable where
  entries : List (Entity × Ownership)
  /-- The port methods, with the thread that has each. -/
  ports : List (MethodKey × ThreadId)
deriving Inhabited

namespace OwnershipTable

def get (t : OwnershipTable) (e : Entity) : Ownership := (t.entries.lookup e).getD .none

def hasAccessor (t : OwnershipTable) (object : Nat) : Bool :=
  let o := t.get (.whole object)
  !o.accessors.isEmpty || o.isMoved

def hasPort (t : OwnershipTable) (m : MethodKey) : Bool := (t.ports.lookup m).isSome

end OwnershipTable

/-- The accesses found so far, in the order in which the entities were met. -/
structure Accesses where
  records : List (Entity × Access)
  ports : List (MethodKey × ThreadId)
  /-- Nothing may be added once ownership is settled. -/
  closed : Bool
deriving Inhabited

namespace Accesses

def empty : Accesses := ⟨[], [], false⟩

def updateRecord (e : Entity) (f : Access → Access) : List (Entity × Access) → List (Entity × Access)
  | [] => [(e, f .empty)]
  | (k, a) :: rest => if k = e then (k, f a) :: rest else (k, a) :: updateRecord e f rest

def find (s : Accesses) (e : Entity) : Access := (s.records.lookup e).getD .empty

def update (s : Accesses) (e : Entity) (f : Access → Access) : Except Fault Accesses :=
  if s.closed then .error .scanClosed else .ok { s with records := updateRecord e f s.records }

def addMember (s : Accesses) (thread : ThreadId) (object : Nat) (member : String) (write : Bool) :
    Except Fault Accesses :=
  s.update ⟨object, member⟩ (·.add thread write)

def addObject (s : Accesses) (thread : ThreadId) (object : Nat) (write : Bool) (name : String) :
    Except Fault Accesses :=
  s.update (.whole object) fun a =>
    let a := a.add thread write
    { a with name := if a.name = "" then name else a.name }

def addMover (s : Accesses) (thread : ThreadId) (object : Nat) : Except Fault Accesses :=
  s.update (.whole object) fun a => { a with movers := a.movers.insert thread }

/-- Claims a port method for a thread. The first claim stands; the answer says whether it is by
the same thread. -/
def claimPort (s : Accesses) (thread : ThreadId) (m : MethodKey) : Except Fault (Bool × Accesses) :=
  if s.closed then .error .scanClosed
  else
    match s.ports.lookup m with
    | some t => .ok (t = thread, s)
    | none => .ok (true, { s with ports := s.ports ++ [(m, thread)] })

def hasAccessor (s : Accesses) (object : Nat) : Bool :=
  let a := s.find (.whole object)
  !a.accessors.isEmpty || 0 < a.movers.count

def hasPort (s : Accesses) (m : MethodKey) : Bool := (s.ports.lookup m).isSome

/-- The number of threads that access an entity; the entity has a record from then on. -/
def count (s : Accesses) (e : Entity) : Nat × Accesses :=
  ((s.find e).accessors.length, { s with records := updateRecord e id s.records })

/-- Settles ownership, after which nothing can be added. -/
def settle (s : Accesses) : Except Fault (OwnershipTable × Accesses) :=
  if s.closed then .error .scanClosed
  else .ok (⟨s.records.map fun (e, a) => (e, .of a), s.ports⟩, { s with closed := true })

end Accesses
end Synth
end MachineSynth
