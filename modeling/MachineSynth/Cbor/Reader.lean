import MachineSynth.Cbor.Item

/-! Reading items. Lengths may be indefinite and numbers longer than they need be; what is nested
too deeply or holds too many elements is refused. -/
namespace MachineSynth
namespace Cbor

/-- Takes something off the front of the bytes. -/
abbrev Reader (α : Type) := Bytes → Option (α × Bytes)

def maxElements : Nat := 131072

def maxLevels : Nat := 32

/-- The number that follows the first byte. -/
inductive Argument
  | value (n : Nat)
  | indefinite
deriving DecidableEq, Repr

structure Head where
  major : Nat
  info : Nat
  argument : Argument
deriving DecidableEq, Repr

def takeBytes (n : Nat) : Reader Bytes := fun b =>
  if n ≤ b.length then some (b.take n, b.drop n) else none

def number (k : Nat) : Reader Nat := fun b =>
  (takeBytes k b).map fun (data, rest) => (ofBigEndian data, rest)

/-- The argument that five bits announce, for strings, arrays and maps perhaps none. -/
def argument (major info : Nat) : Reader Argument := fun b =>
  let sized (k : Nat) := (number k b).map fun (n, rest) => (Argument.value n, rest)
  if info < 24 then some (.value info, b)
  else if info = 24 then sized 1
  else if info = 25 then sized 2
  else if info = 26 then sized 4
  else if info = 27 then sized 8
  else if info = 31 && 2 ≤ major && major ≤ 5 then some (.indefinite, b)
  else none

def readHead : Reader Head
  | [] => none
  | first :: rest =>
    let major := first.toNat / 32
    let info := first.toNat % 32
    (argument major info rest).map fun (a, rest) => (⟨major, info, a⟩, rest)

def tagNumber : Reader Nat := fun b =>
  match readHead b with
  | some (⟨6, _, .value n⟩, rest) => some (n, rest)
  | _ => none

def exactly (one : Reader Cbor) : Nat → Reader (List Cbor)
  | 0 => fun b => some ([], b)
  | n + 1 => fun b => do
    let (i, b) ← one b
    let (is, b) ← exactly one n b
    return (i :: is, b)

/-- The byte that ends an indefinite length. -/
def stop : UInt8 := 255

def untilStop (one : Reader Cbor) : Nat → Reader (List Cbor)
  | 0 => fun _ => none
  | fuel + 1 => fun b =>
    if b.head? = some stop then some ([], b.drop 1)
    else do
      let (i, b) ← one b
      let (is, b) ← untilStop one fuel b
      return (i :: is, b)

/-- A piece of a string: of the same major type, and of a known length. -/
def chunk (major : Nat) : Reader Bytes := fun b =>
  match readHead b with
  | some (⟨m, _, .value n⟩, rest) => if m = major then takeBytes n rest else none
  | _ => none

def chunks (major : Nat) : Nat → Reader (List Bytes)
  | 0 => fun _ => none
  | fuel + 1 => fun b =>
    if b.head? = some stop then some ([], b.drop 1)
    else do
      let (c, b) ← chunk major b
      let (cs, b) ← chunks major fuel b
      return (c :: cs, b)

def string (major : Nat) (a : Argument) : Reader (List Bytes) := fun b =>
  match a with
  | .value n => (takeBytes n b).map fun (data, rest) => ([data], rest)
  | .indefinite => chunks major (b.length + 1) b

/-- The items of an array, or of a map whose pairs are two each. -/
def elements (one : Reader Cbor) (each : Nat) (a : Argument) : Reader (List Cbor) := fun b =>
  match a with
  | .value n => if n ≤ maxElements then exactly one (each * n) b else none
  | .indefinite => do
    let (is, b) ← untilStop one (b.length + 1) b
    if is.length % each = 0 && is.length / each ≤ maxElements then return (is, b) else none

def simpleValue (h : Head) : Option Cbor :=
  match h.argument with
  | .indefinite => none
  | .value n =>
    if h.info < 24 then some (.simple n)
    else if h.info = 24 then if n < 32 then none else some (.simple n)
    else some (.float (bigEndian (if h.info = 25 then 2 else if h.info = 26 then 4 else 8) n))

/-- An item that is no tag; `one` reads what it contains, if it may be an array or a map at all. -/
def plain (one : Option (Reader Cbor)) : Reader Cbor := fun b => do
  let (h, b) ← readHead b
  match h.major, h.argument with
  | 0, .value n => return (.unsigned n, b)
  | 1, .value n => return (.negative n, b)
  | 2, a => (string 2 a b).map fun (cs, b) => (.bytes cs.flatten, b)
  | 3, a => (string 3 a b).map fun (cs, b) => (.text cs, b)
  | 4, a => (elements (← one) 1 a b).map fun (is, b) => (.array is, b)
  | 5, a => (elements (← one) 2 a b).map fun (is, b) => (.map is, b)
  | 7, _ => (simpleValue h).map (·, b)
  | _, _ => none

/-- Reads a tag in front of an item. -/
def tagged (one : Reader Cbor) : Reader Cbor := fun b =>
  match tagNumber b with
  | some (n, rest) => (one rest).map fun (i, rest) => (.tag n i, rest)
  | none => one b

/-- The content of a tag, with so many levels left. An array, a map, and a tag directly in a tag
each take a level. -/
def content : Nat → Reader Cbor
  | 0 => plain none
  | levels + 1 => fun b =>
    match tagNumber b with
    | some (n, rest) => (content levels rest).map fun (i, rest) => (.tag n i, rest)
    | none => plain (some (tagged (content levels))) b

def decode (b : Bytes) : Option Cbor :=
  match tagged (content maxLevels) b with
  | some (i, []) => some i
  | _ => none

end Cbor
end MachineSynth
