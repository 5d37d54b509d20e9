/-! Settings text as it is written: tables with keys and values, before it is known whether they fit
together. Part of the program alone: no result is about it. -/
namespace MachineSynth
namespace Toml

abbrev Key := List String

inductive Value
  | string (s : String)
  | integer (n : Int64)
  /-- A truth value, a number with a fraction, or a date. -/
  | other
  | array (items : List Value)
  | table (entries : List (Key × Value))
deriving Repr, Inhabited

inductive Statement
  | table (key : Key)
  | arrayTable (key : Key)
  | assign (key : Key) (value : Value)
deriving Repr, Inhabited

def isBare (c : Char) : Bool := c.isAlphanum || c = '_' || c = '-'

/-- The escape of a character in a quoted key, if it needs one. -/
def escaped (c : Char) : List Char :=
  let n := c.toNat
  if c = '"' || c = '\\' then ['\\', c]
  else if n = 8 then ['\\', 'b']
  else if n = 9 then ['\\', 't']
  else if n = 10 then ['\\', 'n']
  else if n = 12 then ['\\', 'f']
  else if n = 13 then ['\\', 'r']
  else if n < 32 || n = 127 then
    ['\\', 'u', '0', '0'] ++ (if n < 16 then ['0'] else []) ++ Nat.toDigits 16 n
  else [c]

/-- A part of a key, in quotes unless it can stand bare. -/
def partText (s : String) : String :=
  if s ≠ "" && s.toList.all isBare then s
  else String.ofList ('"' :: s.toList.flatMap escaped ++ ['"'])

def Key.text (k : Key) : String := ".".intercalate (k.map partText)

end Toml
end MachineSynth
