import MachineSynth.Text.Printable

/-! Quoted texts, in which what cannot be printed is written by its code. Part of the program alone:
no result is about it. -/
namespace MachineSynth
namespace Quoted

def hexDigit (d : Nat) : Char := if d < 10 then Char.ofNat (48 + d) else Char.ofNat (87 + d)

def hexDigits : Nat → Nat → List Char
  | 0, _ => []
  | k + 1, n => hexDigits k (n / 16) ++ [hexDigit (n % 16)]

def letters : List (Nat × Char) :=
  [(7, 'a'), (8, 'b'), (9, 't'), (10, 'n'), (11, 'v'), (12, 'f'), (13, 'r')]

/-- A character by its code: after a letter for the number of digits, two, four or eight. -/
def code (n : Nat) : List Char :=
  if n < 0x20 || n = 0x7f then 'x' :: hexDigits 2 n
  else if n < 0x10000 then 'u' :: hexDigits 4 n
  else 'U' :: hexDigits 8 n

def encodeChar (c : Char) : List Char :=
  if c = '"' || c = '\\' then ['\\', c]
  else if isPrintable c then [c]
  else
    match letters.lookup c.toNat with
    | some l => ['\\', l]
    | none => '\\' :: code c.toNat

def encode (s : String) : String :=
  String.ofList ('"' :: s.toList.flatMap encodeChar ++ ['"'])

end Quoted
end MachineSynth
