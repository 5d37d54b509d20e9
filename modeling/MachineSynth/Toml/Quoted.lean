import MachineSynth.Text.Numeral

/-! Strings in settings text: on one line or on several, with escapes or without. Part of the
program alone: no result is about it. -/
namespace MachineSynth
namespace Toml

def isBlank (c : Char) : Bool := c = ' ' || c = '\t'

def isBreak (c : Char) : Bool := c = '\n' || c = '\r'

def isSpace (c : Char) : Bool := isBlank c || isBreak c

/-- The character of a code in so many hexadecimal digits, and the rest. -/
def codePoint? (count : Nat) (cs : List Char) : Option (Char × List Char) := do
  if cs.length < count then none
  let n ← Numeral.digits? 16 0 (cs.take count)
  if n.isValidChar then some (Char.ofNat n, cs.drop count) else none

/-- The character that an escape stands for, after its backslash, and the rest. -/
def unescape? (cs : List Char) : Option (Char × List Char) :=
  match cs with
  | 'b' :: rest => some (Char.ofNat 8, rest)
  | 't' :: rest => some ('\t', rest)
  | 'n' :: rest => some ('\n', rest)
  | 'f' :: rest => some (Char.ofNat 12, rest)
  | 'r' :: rest => some ('\r', rest)
  | 'e' :: rest => some (Char.ofNat 27, rest)
  | '"' :: rest => some ('"', rest)
  | '\\' :: rest => some ('\\', rest)
  | 'x' :: rest => codePoint? 2 rest
  | 'u' :: rest => codePoint? 4 rest
  | 'U' :: rest => codePoint? 8 rest
  | _ => none

/-- A string on one line, after its opening quote. -/
def basic? : Nat → List Char → Option (List Char × List Char)
  | 0, _ => none
  | _, [] => none
  | _ + 1, '"' :: rest => some ([], rest)
  | fuel + 1, '\\' :: rest => do
    let (c, rest) ← unescape? rest
    let (s, rest) ← basic? fuel rest
    return (c :: s, rest)
  | fuel + 1, c :: rest =>
    if isBreak c then none
    else do
      let (s, rest) ← basic? fuel rest
      return (c :: s, rest)

/-- A string on one line without escapes, after its opening quote. -/
def literal? : List Char → Option (List Char × List Char)
  | [] => none
  | '\'' :: rest => some ([], rest)
  | c :: rest =>
    if isBreak c then none
    else do
      let (s, rest) ← literal? rest
      return (c :: s, rest)

/-- The quotes that end a string on several lines: three, before which some more may belong to the
string. -/
def closing? (quote : Char) (more : Nat) (cs : List Char) : Option (List Char × List Char) :=
  let count := (cs.takeWhile (· = quote)).length
  if 3 ≤ count && count ≤ more + 3 then some (List.replicate (count - 3) quote, cs.drop count)
  else none

/-- A string on several lines. A backslash at the end of a line takes away all white space up to
the next character. Two quotes may stand before those that end the string, or three if a backslash
that was escaped, as `slashed` tells, comes before them. -/
def multiline? (quote : Char) (escapes : Bool) :
    Nat → Bool → List Char → Option (List Char × List Char)
  | 0, _, _ => none
  | _, _, [] => none
  | fuel + 1, slashed, c :: rest =>
    if c = quote && 3 ≤ ((c :: rest).takeWhile (· = quote)).length then
      closing? quote (if slashed then 3 else 2) (c :: rest)
    else if escapes && c = '\\' then
      if (rest.takeWhile isSpace).contains '\n' then
        multiline? quote escapes fuel false (rest.dropWhile isSpace)
      else do
        let (c, after) ← unescape? rest
        let (s, after) ← multiline? quote escapes fuel (rest.head? = some '\\') after
        return (c :: s, after)
    else do
      let (s, rest) ← multiline? quote escapes fuel false rest
      return (c :: s, rest)

/-- A line break right after the opening quotes is not part of the string. -/
def dropBreak : List Char → List Char
  | '\r' :: '\n' :: rest => rest
  | '\n' :: rest => rest
  | cs => cs

def quoted? (cs : List Char) : Option (List Char × List Char) :=
  match cs with
  | '"' :: '"' :: '"' :: rest => multiline? '"' true (rest.length + 1) false (dropBreak rest)
  | '\'' :: '\'' :: '\'' :: rest => multiline? '\'' false (rest.length + 1) false (dropBreak rest)
  | '"' :: rest => basic? (rest.length + 1) rest
  | '\'' :: rest => literal? rest
  | _ => none

end Toml
end MachineSynth
