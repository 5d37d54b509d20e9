import MachineSynth.Bytecode.Method
import MachineSynth.Fault

/-! Objects with their slots, and the machine that holds them. An object is known by its position
in the machine. -/
namespace MachineSynth

/-- The contents of a slot. -/
inductive Value
  | num (width : UInt64) (value : Int64) (const : Bool)
  | enum (width : UInt64) (ordinal : Int64) (const : Bool)
  | object (id : Nat)
  | method (m : Method)
deriving DecidableEq, Repr

namespace Value

instance : Inhabited Value := ⟨num 0 0 false⟩

def kind : Value → ValueKind
  | num _ _ _ => .num
  | enum _ _ _ => .enum
  | object _ => .object
  | method _ => .method

def text : Value → String
  | num width value _ => s!"{value}:{width}"
  | enum _ ordinal _ => s!"enum({ordinal})"
  | object id => s!"obj#{id}"
  | method m => s!"method({m.name})"

def textOfCode (code : UInt8) (width : UInt64) (value : Int64) (id : Nat) (m : Method) : String :=
  match ValueKind.ofCode? code with
  | some .num => text (num width value false)
  | some .enum => text (enum width value false)
  | some .object => text (object id)
  | some .method => text (method m)
  | none => "?"

end Value

inductive ObjectKind
  | plain
  | array
  | channel
deriving DecidableEq, Repr, Inhabited

namespace ObjectKind

def name : ObjectKind → String
  | plain => "object"
  | array => "array"
  | channel => "channel"

def ofCode? (code : UInt8) : Option ObjectKind := [plain, array, channel][code.toNat]?

def nameOfCode (code : UInt8) : String :=
  match ofCode? code with
  | some k => k.name
  | none => s!"kind#{code}"

end ObjectKind

structure Slot where
  name : String
  value : Value
deriving DecidableEq, Repr

structure ThreadDecl where
  name : String
  method : String
deriving DecidableEq, Repr

structure Object where
  name : String
  kind : ObjectKind
  /-- The width of an array's elements or of a channel's data. -/
  width : UInt64
  /-- The number of elements of an array. -/
  length : UInt64
  axiMaster : Bool
  axiSlave : Bool
  threads : List ThreadDecl
  slots : List Slot
deriving DecidableEq, Repr, Inhabited

namespace Object

def setSlot (name : String) (value : Value) : List Slot → List Slot
  | [] => [⟨name, value⟩]
  | s :: rest => if s.name = name then ⟨name, value⟩ :: rest else s :: setSlot name value rest

def set (o : Object) (name : String) (value : Value) : Object :=
  { o with slots := setSlot name value o.slots }

def lookup? (o : Object) (name : String) : Option Value :=
  (o.slots.find? (·.name = name)).map (·.value)

def method? (o : Object) (name : String) : Option Method :=
  match o.lookup? name with
  | some (.method m) => some m
  | _ => none

def addMethod (o : Object) (m : Method) : Object := o.set m.name (.method m)

def methods (o : Object) : List Method :=
  o.slots.filterMap fun s =>
    match s.value with
    | .method m => some m
    | _ => none

def isArray (o : Object) : Bool := o.kind = .array

def isChannel (o : Object) : Bool := o.kind = .channel

/-- The number of bits that index every element of an array. -/
def addressWidth (o : Object) : UInt64 :=
  if o.length ≤ 1 then 0 else UInt64.ofNat (Nat.log2 (o.length.toNat - 1) + 1)

/-- An object of a kind that has the given operations. -/
def withNatives (name : String) (kind : ObjectKind) (width length : UInt64) (ops : List String) :
    Object :=
  (ops.map Method.ofNative).foldl addMethod ⟨name, kind, width, length, false, false, [], []⟩

def plain (name : String) : Object := withNatives name .plain 0 0 ["print", "assert", "wait"]

def array (name : String) (width length : UInt64) : Object :=
  withNatives name .array width length ["load", "store"]

def channel (name : String) (width : UInt64) : Object := withNatives name .channel width 0 []

end Object

structure Machine where
  objects : List Object
deriving DecidableEq, Repr, Inhabited

namespace Machine

def object? (m : Machine) (id : Nat) : Option Object := m.objects[id]?

def object (m : Machine) (id : Nat) : Except Fault Object :=
  match m.object? id with
  | some o => .ok o
  | none => .error .dangling

def name (m : Machine) (id : Nat) : String := ((m.object? id).map (·.name)).getD ""

def label (m : Machine) (id : Nat) : String := s!"{m.name id}#{id}"

def update (m : Machine) (id : Nat) (f : Object → Object) : Machine := ⟨m.objects.modify id f⟩

def memberNames (m : Machine) (owner member : Nat) : List String :=
  match m.object? owner with
  | none => []
  | some o => o.slots.filterMap fun s => if s.value = .object member then some s.name else none

def members (m : Machine) (owner : Nat) : List Nat :=
  match m.object? owner with
  | none => []
  | some o => o.slots.filterMap fun s =>
    match s.value with
    | .object id => some id
    | _ => none

def memberObjects (m : Machine) (id : Nat) : Except Fault (List (Nat × Object)) :=
  (m.members id).mapM fun k => do return (k, ← m.object k)

def dump (m : Machine) : String :=
  String.join (m.objects.flatMap fun o =>
    if o.kind = .plain then
      (o.methods.filter (!·.isBuiltin)).map fun f => s!"{o.name}.{f.name}\n{f.text}"
    else [])

end Machine
end MachineSynth
