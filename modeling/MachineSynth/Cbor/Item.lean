import MachineSynth.Text.Bytes

/-! Items of the binary form, and their shortest encoding. -/
namespace MachineSynth

/-- A data item. -/
inductive Cbor
  | unsigned (n : Nat)
  /-- The number `-1 - n`. -/
  | negative (n : Nat)
  | bytes (data : Bytes)
  /-- Text in UTF-8, in the pieces that it was given in. -/
  | text (chunks : List Bytes)
  | array (items : List Cbor)
  /-- Keys and values in turn. -/
  | map (cells : List Cbor)
  | tag (number : Nat) (content : Cbor)
  | simple (n : Nat)
  /-- A number in two, four or eight bytes. -/
  | float (data : Bytes)
deriving Repr, Inhabited

namespace Cbor

def null : Cbor := .simple 22

def ofBool (b : Bool) : Cbor := .simple (if b then 21 else 20)

def ofString (s : String) : Cbor := .text [s.toUTF8.data.toList]

def ofInt (n : Int) : Cbor :=
  match n with
  | .ofNat n => .unsigned n
  | .negSucc n => .negative n

/-- The last `k` bytes of a number, the highest first. -/
def bigEndian : Nat → Nat → Bytes
  | 0, _ => []
  | k + 1, n => bigEndian k (n / 256) ++ [UInt8.ofNat n]

/-- The number that bytes stand for, the highest first. -/
def ofBigEndian (data : Bytes) : Nat := data.foldl (fun n b => n * 256 + b.toNat) 0

/-- The first byte of an item: its major type and five bits more. -/
def initial (major info : Nat) : UInt8 := UInt8.ofNat (major * 32 + info)

/-- A major type with a number, in as few bytes as hold it. -/
def head (major n : Nat) : Bytes :=
  if n < 24 then [initial major n]
  else if n < 256 then initial major 24 :: bigEndian 1 n
  else if n < 0x10000 then initial major 25 :: bigEndian 2 n
  else if n < 0x100000000 then initial major 26 :: bigEndian 4 n
  else initial major 27 :: bigEndian 8 n

mutual

/-- The bytes of an item, without indefinite lengths. -/
def encode : Cbor → Bytes
  | .unsigned n => head 0 n
  | .negative n => head 1 n
  | .bytes data => head 2 data.length ++ data
  | .text chunks => head 3 chunks.flatten.length ++ chunks.flatten
  | .array items => head 4 items.length ++ encodeAll items
  | .map cells => head 5 (cells.length / 2) ++ encodeAll cells
  | .tag n content => head 6 n ++ encode content
  | .simple n => head 7 n
  | .float data => initial 7 (if data.length = 2 then 25 else if data.length = 4 then 26 else 27) :: data

def encodeAll : List Cbor → Bytes
  | [] => []
  | i :: rest => encode i ++ encodeAll rest

end

end Cbor
end MachineSynth
