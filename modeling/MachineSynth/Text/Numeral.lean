/-! Numerals, as listings and parameters write them. -/
namespace MachineSynth
namespace Numeral

/-- The value of a digit, letters standing for ten and above. -/
def digit? (c : Char) : Option Nat :=
  if '0' ≤ c ∧ c ≤ '9' then some (c.toNat - '0'.toNat)
  else if 'a' ≤ c ∧ c ≤ 'z' then some (c.toNat - 'a'.toNat + 10)
  else if 'A' ≤ c ∧ c ≤ 'Z' then some (c.toNat - 'A'.toNat + 10)
  else none

def digits? (base : Nat) (n : Nat) : List Char → Option Nat
  | [] => some n
  | c :: cs =>
    match digit? c with
    | some d => if d < base then digits? base (base * n + d) cs else none
    | none => none

/-- A natural of at most `bits` bits, in decimal digits only. -/
def natural? (bits : Nat) (s : String) : Option Nat :=
  match s.toList with
  | [] => none
  | cs =>
    match digits? 10 0 cs with
    | some n => if n < Nat.pow 2 bits then some n else none
    | none => none

/-- The base of a numeral, whether something before its digits counts as a digit, and its digits.
A leading zero means octal, unless a letter after it names the base. -/
def base : List Char → Nat × Bool × List Char
  | '0' :: p :: d :: rest =>
    if p = 'b' ∨ p = 'B' then (2, true, d :: rest)
    else if p = 'o' ∨ p = 'O' then (8, true, d :: rest)
    else if p = 'x' ∨ p = 'X' then (16, true, d :: rest)
    else (8, true, p :: d :: rest)
  | '0' :: rest => (8, true, rest)
  | cs => (10, false, cs)

/-- Whether every underscore stands between two digits. -/
def spaced (afterDigit : Bool) : List Char → Bool
  | [] => afterDigit
  | c :: cs => if c = '_' then afterDigit && spaced false cs else spaced true cs

/-- The value of an unsigned numeral in any base, underscores allowed between digits. -/
def magnitude? (cs : List Char) : Option Nat :=
  let (b, afterDigit, ds) := base cs
  if spaced afterDigit ds then digits? b 0 (ds.filter (· ≠ '_')) else none

/-- A signed numeral that fits 64 bits. -/
def integer? (s : String) : Option Int64 :=
  match s.toList with
  | '-' :: cs =>
    match magnitude? cs with
    | some n => if n ≤ 0x8000000000000000 then some (Int64.ofInt (-n)) else none
    | none => none
  | '+' :: cs => positive? cs
  | cs => positive? cs
where
  positive? (cs : List Char) : Option Int64 :=
    match magnitude? cs with
    | some n => if n < 0x8000000000000000 then some (Int64.ofNat n) else none
    | none => none

end Numeral
end MachineSynth
