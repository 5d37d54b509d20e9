import MachineSynth.Synth.Links
import MachineSynth.Synth.Pool

/-! Builders: a table in the making, with the counters that number its parts. -/
namespace MachineSynth
namespace Synth

structure Builder where
  pool : Pool
  registers : List Rtl.Register
  /-- The names given to registers so far, and the number for the next. -/
  names : List String
  nameIndex : Nat
  /-- The registers that hold members of objects. -/
  members : List (Entity × Nat)
  /-- How many states and instructions have been numbered. -/
  stateCount : Nat
  insnCount : Nat
  /-- The resources for shared entities. -/
  links : Links Rtl.ResourceRef
  channels : Channels
deriving Inhabited

namespace Builder

def ofPool (pool : Pool) : Builder := ⟨pool, [], [], 0, [], 0, 0, .empty, .empty⟩

def resource (b : Builder) (take : Pool → Nat × Pool) : Nat × Builder :=
  let (i, pool) := take b.pool
  (i, { b with pool := pool })

def addRegister (b : Builder) (name : String) (type : Rtl.ValueType) (kind : Rtl.RegisterKind)
    (initial : Option Int64) : Nat × Builder :=
  (b.registers.length,
    { b with registers := b.registers ++ [⟨b.registers.length + 1, name, type, kind, initial⟩] })

/-- A new register with a fixed value. -/
def constant (b : Builder) (width : UInt64) (value : Int64) : Nat × Builder :=
  b.addRegister "" (.unsigned width) .const (some value)

def registerName (stem : String) (index : Nat) : String := s!"{stem}_{index}"

def freeIndex (taken : List String) (stem : String) : Nat → Nat → Nat
  | 0, index => index
  | tries + 1, index =>
    if taken.contains (registerName stem index) then freeIndex taken stem tries (index + 1)
    else index

/-- A new register whose name starts with a stem and is not yet taken. -/
def freshRegister (b : Builder) (stem : String) (type : Rtl.ValueType) (kind : Rtl.RegisterKind)
    (initial : Option Int64) : Nat × Builder :=
  let index := freeIndex b.names stem b.names.length b.nameIndex
  let name := registerName stem index
  let (r, b) := b.addRegister name type kind initial
  (r, { b with names := name :: b.names, nameIndex := index + 1 })

def storage (b : Builder) (stem : String) (width : UInt64) : Nat × Builder :=
  b.freshRegister stem (.unsigned width) .storage none

/-- The register that holds a member, new on first use and then with the member's initial value. -/
def memberRegister (b : Builder) (e : Entity) (width : UInt64) (initial : Int64) : Nat × Builder :=
  match b.members.lookup e with
  | some r => (r, b)
  | none =>
    let (r, b) := b.freshRegister ("m_" ++ e.member) (.unsigned width) .storage (some initial)
    (r, { b with members := (e, r) :: b.members })

def newState (b : Builder) : Nat × Builder :=
  (b.stateCount + 1, { b with stateCount := b.stateCount + 1 })

/-- The number of the next instruction. -/
def newInsn (b : Builder) : Nat × Builder :=
  (b.insnCount + 1, { b with insnCount := b.insnCount + 1 })

end Builder
end Synth
end MachineSynth
