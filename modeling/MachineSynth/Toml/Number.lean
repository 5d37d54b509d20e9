import MachineSynth.Text.Numeral
import MachineSynth.Toml.Value

/-! Numbers and dates in settings text. A number runs as far as its characters could belong to it,
and only then is it looked at closely. Part of the program alone: no result is about it. -/
namespace MachineSynth
namespace Toml

def underscoresFit (afterDigit : Bool) : List Char → Bool
  | [] => afterDigit
  | c :: cs =>
    if c = '_' then afterDigit && underscoresFit false cs
    else underscoresFit (c.isDigit || ('a' ≤ c && c ≤ 'f') || ('A' ≤ c && c ≤ 'F')) cs

/-- Whether a number has a zero in front that it does not need. -/
def hasLeadingZero : List Char → Bool
  | '0' :: c :: _ => c ≠ 'b' && c ≠ 'o' && c ≠ 'x'
  | s :: '0' :: _ :: _ => s = '-' || s = '+'
  | _ => false

def integer? (cs : List Char) : Option Value :=
  if underscoresFit false cs && !hasLeadingZero cs then
    (Numeral.integer? (String.ofList cs)).map .integer
  else none

def digits? (cs : List Char) : Option (List Char × List Char) :=
  match cs.takeWhile Char.isDigit with
  | [] => none
  | ds => some (ds, cs.dropWhile Char.isDigit)

def unsigned (cs : List Char) : List Char :=
  match cs with
  | '-' :: rest => rest
  | '+' :: rest => rest
  | _ => cs

/-- Whether `n` times ten to the power `e` is too large for a number of double precision. -/
def tooLarge (n : Nat) (e : Int) : Bool :=
  let limit := Nat.pow 2 1024 - Nat.pow 2 970
  if n = 0 then false
  else if 400 < e then true
  else if 0 ≤ e then limit ≤ n * Nat.pow 10 e.toNat
  else Nat.pow 10 308 ≤ n && limit ≤ n / Nat.pow 10 (min (-e).toNat (Nat.log2 n))

/-- The exponent that digits make. Once it has come to ten thousand, further digits do not count. -/
def exponent (ds : List Char) : Nat :=
  ds.foldl (fun e c => if e < 10000 then 10 * e + (c.toNat - '0'.toNat) else e) 0

/-- Whether digits, perhaps with a fraction and an exponent, are a number in range. -/
def isFloat (cs : List Char) : Bool :=
  match digits? (unsigned cs) with
  | none => false
  | some (whole, rest) =>
    let (fraction, rest) := match rest with
      | '.' :: r => (digits? r).getD ([], rest)
      | _ => ([], rest)
    let n := (Numeral.digits? 10 0 (whole ++ fraction)).getD 0
    let scale : Int := fraction.length
    match rest with
    | [] => !tooLarge n (-scale)
    | e :: r =>
      (e = 'e' || e = 'E') &&
        match digits? (unsigned r) with
        | some (ds, []) =>
          let x : Int := exponent ds
          !tooLarge n ((if r.head? = some '-' then -x else x) - scale)
        | _ => false

/-- The parts of a number between its points and exponent marks. -/
def floatParts (cs : List Char) : List (List Char) :=
  (cs.splitOnP fun c => c = '.' || c = 'e' || c = 'E').filter (!·.isEmpty)

def float? (cs : List Char) : Option Value :=
  let parts := floatParts cs
  if parts.all (underscoresFit false) && !(parts.head?.any hasLeadingZero) &&
      isFloat (cs.filter (· ≠ '_')) then some .other
  else none

/-- A number of exactly two digits, up to a limit. -/
def twoDigits? (least most : Nat) (cs : List Char) : Option (Nat × List Char) :=
  match cs with
  | a :: b :: rest =>
    match Numeral.digits? 10 0 [a, b] with
    | some n => if least ≤ n && n ≤ most then some (n, rest) else none
    | none => none
  | _ => none

def isLeapYear (y : Nat) : Bool := y % 4 = 0 && (y % 100 ≠ 0 || y % 400 = 0)

def daysIn (year month : Nat) : Nat :=
  if month = 2 then (if isLeapYear year then 29 else 28)
  else if month = 4 || month = 6 || month = 9 || month = 11 then 30
  else 31

def afterDate? (cs : List Char) : Option (List Char) := do
  let (ys, cs) ← digits? cs
  if ys.length ≠ 4 then none
  let year := (Numeral.digits? 10 0 ys).getD 0
  let '-' :: cs := cs | none
  let (month, cs) ← twoDigits? 1 12 cs
  let '-' :: cs := cs | none
  let (_, cs) ← twoDigits? 1 (daysIn year month) cs
  return cs

def afterTime? (cs : List Char) : Option (List Char) := do
  let (_, cs) ← twoDigits? 0 23 cs
  let ':' :: cs := cs | none
  let (_, cs) ← twoDigits? 0 59 cs
  match cs with
  | ':' :: cs =>
    let (_, cs) ← twoDigits? 0 59 cs
    match cs with
    | '.' :: rest => return ((digits? rest).map (·.2)).getD cs
    | _ => return cs
  | _ => return cs

/-- Whether nothing follows but perhaps a distance from universal time. -/
def isZone (cs : List Char) : Bool :=
  match cs with
  | [] => true
  | ['Z'] => true
  | s :: rest =>
    (s = '+' || s = '-') &&
      match twoDigits? 0 24 rest with
      | some (_, ':' :: rest) => (twoDigits? 0 60 rest).any (·.2.isEmpty)
      | _ => false

def isDate (cs : List Char) : Bool :=
  match afterDate? cs with
  | some [] => true
  | some ('T' :: rest) => (afterTime? rest).any isZone
  | some _ => false
  | none => (afterTime? cs).any (·.isEmpty)

/-- A blank between date and time is a letter, and letters are capitals. -/
def dateChar (c : Char) : Char :=
  if c = 'z' then 'Z' else if c = 't' || c = ' ' then 'T' else c

def date? (cs : List Char) : Option Value :=
  let cs := (cs.reverse.dropWhile (· = ' ')).reverse
  if isDate (cs.map dateChar) then some .other else none

/-- Splits where characters of a kind end, after what is already taken. -/
def run (taken : List Char) (p : Char → Bool) (cs : List Char) : List Char × List Char :=
  (taken ++ cs.takeWhile p, cs.dropWhile p)

def isFloatChar (c : Char) : Bool := c.isDigit || ['_', '.', '-', '+', 'e', 'E'].contains c

def isDateChar (c : Char) : Bool :=
  c.isDigit || ['-', ':', 'T', 't', ' ', '.', 'Z', 'z', '+'].contains c

/-- A number in decimal digits, some of which are taken already. -/
def decimal? (taken cs : List Char) : Option (Value × List Char) :=
  let (ds, rest) := run taken (fun c => c.isDigit || c = '_') cs
  match rest with
  | c :: _ =>
    if c = '.' || c = 'e' || c = 'E' then
      let (all, rest) := run ds isFloatChar rest
      (float? all).map (·, rest)
    else (integer? ds).map (·, rest)
  | [] => (integer? ds).map (·, rest)

/-- A number whose digits are of the given kind, after a mark such as `0x`. -/
def based? (mark : List Char) (p : Char → Bool) (cs : List Char) : Option (Value × List Char) :=
  if cs.head?.any p then
    let (all, rest) := run mark (fun c => p c || c = '_') cs
    (integer? all).map (·, rest)
  else none

def isHex (c : Char) : Bool := c.isDigit || ('a' ≤ c && c ≤ 'f') || ('A' ≤ c && c ≤ 'F')

def numberOrDate? (cs : List Char) : Option (Value × List Char) :=
  match cs with
  | '0' :: 'b' :: rest => based? ['0', 'b'] (fun c => c = '0' || c = '1') rest
  | '0' :: 'o' :: rest => based? ['0', 'o'] (fun c => '0' ≤ c && c ≤ '7') rest
  | '0' :: 'x' :: rest => based? ['0', 'x'] isHex rest
  | _ =>
    let (ds, rest) := run [] Char.isDigit cs
    match rest with
    | c :: _ =>
      if (c = '-' || c = ':') && 1 < ds.length then
        let (all, rest) := run ds isDateChar rest
        (date? all).map (·, rest)
      else decimal? ds rest
    | [] => decimal? ds rest

def signed? (sign : Char) (cs : List Char) : Option (Value × List Char) :=
  match cs with
  | 'i' :: 'n' :: 'f' :: rest => some (.other, rest)
  | 'n' :: 'a' :: 'n' :: rest => some (.other, rest)
  | c :: _ => if c.isDigit then decimal? [sign] cs else none
  | [] => none

end Toml
end MachineSynth
