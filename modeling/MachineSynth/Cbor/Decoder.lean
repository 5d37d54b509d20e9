import MachineSynth.Cbor.Item

/-! Typed values in items. A null stands for the zero value of every type; tags that mean nothing
for the type are passed over. -/
namespace MachineSynth
namespace Cbor

/-- Reads a value out of an item. -/
abbrev Decoder (α : Type) := Cbor → Option α

def isNull : Cbor → Bool
  | .simple n => n = 22 || n = 23
  | _ => false

/-- Whether an item may follow a tag of the number: dates are text, times numbers, and large
numbers bytes. -/
def fits (number : Nat) (content : Cbor) : Bool :=
  match number, content with
  | 0, .text _ => true
  | 1, .unsigned _ => true
  | 1, .negative _ => true
  | 1, .float _ => true
  | 2, .bytes _ => true
  | 3, .bytes _ => true
  | n, _ => 4 ≤ n

/-- The item behind its tags; a number given in bytes is read as one. -/
def untag : Cbor → Option Cbor
  | .tag 2 (.bytes data) =>
    if ofBigEndian data < 0x10000000000000000 then some (.unsigned (ofBigEndian data)) else none
  | .tag 3 (.bytes data) =>
    if ofBigEndian data < 0x8000000000000000 then some (.negative (ofBigEndian data)) else none
  | .tag n c => if fits n c then untag c else none
  | i => some i

/-- A number of so many bits; a simple value stands for its number. -/
def asNat (bits : Nat) : Decoder Nat := fun i => do
  let i ← untag i
  if i.isNull then return 0
  match i with
  | .unsigned n => if n < Nat.pow 2 bits then return n else none
  | .simple n => if (n < 20 || 31 < n) && n < Nat.pow 2 bits then return n else none
  | _ => none

def asInt64 : Decoder Int64 := fun i => do
  let i ← untag i
  match i with
  | .negative n => if n < 0x8000000000000000 then return Int64.ofInt (.negSucc n) else none
  | i => return Int64.ofInt (← asNat 63 i)

def asBool : Decoder Bool := fun i => do
  let i ← untag i
  if i.isNull then return false
  match i with
  | .simple 20 => return false
  | .simple 21 => return true
  | _ => none

def textOf (chunks : List Bytes) : Option String :=
  (chunks.mapM fun c => String.fromUTF8? ⟨c.toArray⟩).map String.join

def asString : Decoder String := fun i => do
  let i ← untag i
  if i.isNull then return ""
  match i with
  | .text chunks => textOf chunks
  | _ => none

def asList {α : Type} (f : Decoder α) : Decoder (List α) := fun i => do
  let i ← untag i
  if i.isNull then return []
  match i with
  | .array items => items.mapM f
  | _ => none

/-- Two texts; missing ones are empty and more than two are not looked at. -/
def asPair : Decoder (String × String) := fun i => do
  let i ← untag i
  if i.isNull then return ("", "")
  match i with
  | .array items => return (← asString (items.getD 0 null), ← asString (items.getD 1 null))
  | _ => none

def asOption {α : Type} (f : Decoder α) : Decoder (Option α) := fun i =>
  if i.isNull then some none else (f i).map some

inductive Key
  | number (n : Int)
  | name (s : String)
deriving DecidableEq, Repr

def asKey : Cbor → Option Key
  | .unsigned n => some (.number n)
  | .negative n => if n < 0x8000000000000000 then some (.number (.negSucc n)) else none
  | .text chunks => (textOf chunks).map .name
  | _ => none

/-- The keys of a map with their values. -/
abbrev Fields := List (Key × Cbor)

def pairs : List Cbor → Option Fields
  | k :: v :: rest => do return (← asKey k, v) :: (← pairs rest)
  | [] => some []
  | [_] => none

def asFields : Decoder Fields := fun i => do
  let i ← untag i
  if i.isNull then return []
  match i with
  | .map cells => pairs cells
  | _ => none

/-- The first value with a key; a null if there is none. -/
def find (p : Key → Bool) (fs : Fields) : Cbor := ((fs.find? (p ·.1)).map (·.2)).getD null

/-- The value of a numbered field, whose number may also be spelled out. -/
def Fields.at (fs : Fields) (n : Nat) : Cbor :=
  find (fun k => k = .number n || k = .name (toString n)) fs

def Fields.named (fs : Fields) (name : String) : Cbor :=
  find (fun
    | .name s => s.toList.map Char.toLower = name.toList.map Char.toLower
    | .number _ => false) fs

end Cbor
end MachineSynth
