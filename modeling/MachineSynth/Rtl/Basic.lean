import MachineSynth.Text.Numeral

/-! The parts of a table: typed registers, resources with their parameters, and states whose
instructions are bound to resources. Inside a table everything is referred to by position. -/
namespace MachineSynth
namespace Rtl

/-- A width of zero means a single truth value. -/
structure ValueType where
  width : UInt64
  signed : Bool
deriving DecidableEq, Repr, Inhabited

namespace ValueType

def unsigned (width : UInt64) : ValueType := ⟨width, false⟩

def truth : ValueType := ⟨0, false⟩

end ValueType

inductive RegisterKind
  /-- Holds its value from state to state. -/
  | storage
  /-- Has a fixed value. -/
  | const
  /-- Holds its value within one state. -/
  | wire
  | other (code : UInt8)
deriving DecidableEq, Repr, Inhabited

namespace RegisterKind

def ofCode (code : UInt8) : RegisterKind :=
  if code = 0 then storage
  else if code = 1 then const
  else if code = 2 then wire
  else other code

def code : RegisterKind → UInt8
  | storage => 0
  | const => 1
  | wire => 2
  | other c => c

def name : RegisterKind → String
  | const => "CONST"
  | wire => "WIRE"
  | _ => "REG"

end RegisterKind

structure Register where
  id : Nat
  name : String
  type : ValueType
  kind : RegisterKind
  /-- The value on reset. -/
  initial : Option Int64
deriving DecidableEq, Repr, Inhabited

namespace Register

def isConst (r : Register) : Bool := r.kind = .const

def text (r : Register) : String :=
  match r.kind, r.initial with
  | .const, some v => s!"#{v}"
  | _, _ => r.name

end Register

/-- Parameters in the order in which their keys were first set. -/
abbrev Params := List (String × String)

namespace Params

def set (key value : String) : Params → Params
  | [] => [(key, value)]
  | (k, v) :: rest => if k = key then (k, value) :: rest else (k, v) :: set key value rest

def get? (p : Params) (key : String) : Option String := p.lookup key

def keys (p : Params) : List String := p.map (·.1)

def setWidth (width : UInt64) (p : Params) : Params := set "WIDTH" (toString width) p

/-- The width parameter; zero where there is none, or none that is a numeral of 32 bits. -/
def width (p : Params) : UInt64 :=
  match (get? p "WIDTH").bind (Numeral.natural? 32) with
  | some w => UInt64.ofNat w
  | none => 0

end Params

structure ArrayShape where
  addressWidth : UInt64
  data : ValueType
  external : Bool
deriving DecidableEq, Repr, Inhabited

structure TableRef where
  module : Nat
  table : Nat
deriving DecidableEq, Repr, Inhabited

structure ResourceRef where
  owner : TableRef
  resource : Nat
deriving DecidableEq, Repr, Inhabited

/-- A unit that instructions are bound to. -/
structure Resource where
  id : Nat
  kind : String
  inputs : List ValueType
  outputs : List ValueType
  params : Params
  /-- The resource that this one gives access to. -/
  parent : Option ResourceRef
  /-- The table that this resource calls. -/
  callee : Option TableRef
  array : Option ArrayShape
deriving DecidableEq, Repr, Inhabited

namespace Resource

def new (id : Nat) (kind : String) : Resource := ⟨id, kind, [], [], [], none, none, none⟩

def text (r : Resource) : String := s!"{r.kind}:{r.id}"

def setParam (key value : String) (r : Resource) : Resource :=
  { r with params := r.params.set key value }

def setWidth (width : UInt64) (r : Resource) : Resource :=
  { r with params := r.params.setWidth width }

def transitionKind : String := "tr"

def isTransition (r : Resource) : Bool := r.kind = transitionKind

end Resource

/-- An instruction: a resource, the registers read and written, and, for a transition, the
states that follow. -/
structure Insn where
  id : Nat
  resource : Nat
  operand : String
  inputs : List Nat
  outputs : List Nat
  targets : List Nat
deriving DecidableEq, Repr, Inhabited

structure State where
  id : Nat
  insns : List Insn
deriving DecidableEq, Repr, Inhabited

def positionsOfKind (resources : List Resource) (kind : String) : List Nat :=
  (List.range resources.length).filter fun i => (resources[i]?).any (·.kind = kind)

def firstOfKind? (resources : List Resource) (kind : String) : Option Nat :=
  resources.findIdx? (·.kind = kind)

def Insn.isTransition (resources : List Resource) (i : Insn) : Bool :=
  (resources[i.resource]?).any (·.isTransition)

def transition? (resources : List Resource) (insns : List Insn) : Option Insn :=
  insns.find? (·.isTransition resources)

/-- The only state that follows; none if there is none or more than one. -/
def successor? (resources : List Resource) (insns : List Insn) : Option Nat :=
  match transition? resources insns with
  | some ⟨_, _, _, _, _, [t]⟩ => some t
  | _ => none

def updateTransition (resources : List Resource) (f : Insn → Insn) : List Insn → List Insn
  | [] => []
  | i :: rest =>
    if i.isTransition resources then f i :: rest
    else i :: updateTransition resources f rest

end Rtl
end MachineSynth
