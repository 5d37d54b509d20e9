import MachineSynth.Toml.Number
import MachineSynth.Toml.Quoted

/-! Reading settings text into statements. Part of the program alone: no result is about it. -/
namespace MachineSynth
namespace Toml

/-- Whether every character may stand in settings text: no control characters but tabs and line
breaks, and no return without a line feed. -/
def isText : List Char → Bool
  | [] => true
  | '\r' :: rest => rest.head? = some '\n' && isText rest
  | c :: rest =>
    (c = '\t' || c = '\n' || (32 ≤ c.toNat && c.toNat ≠ 127)) && isText rest

def skipBlanks (cs : List Char) : List Char := cs.dropWhile isBlank

/-- Skips white space, line breaks and comments. -/
def skipLines : Nat → List Char → List Char
  | 0, cs => cs
  | fuel + 1, cs =>
    match cs.dropWhile isSpace with
    | '#' :: rest => skipLines fuel (rest.dropWhile (!isBreak ·))
    | rest => rest

def part? (cs : List Char) : Option (String × List Char) :=
  match cs with
  | '"' :: rest => (basic? (rest.length + 1) rest).map fun (s, r) => (String.ofList s, r)
  | '\'' :: rest => (literal? rest).map fun (s, r) => (String.ofList s, r)
  | _ =>
    match cs.takeWhile isBare with
    | [] => none
    | name => some (String.ofList name, cs.dropWhile isBare)

def key? : Nat → List Char → Option (Key × List Char)
  | 0, _ => none
  | fuel + 1, cs => do
    let (p, rest) ← part? (skipBlanks cs)
    match skipBlanks rest with
    | '.' :: rest => do
      let (k, rest) ← key? fuel rest
      return (p :: k, rest)
    | rest => return ([p], rest)

mutual

def value? : Nat → List Char → Option (Value × List Char)
  | 0, _ => none
  | fuel + 1, cs =>
    match skipBlanks cs with
    | '[' :: rest => do
      let (items, rest) ← items? fuel rest
      return (.array items, rest)
    | '{' :: rest => do
      let (entries, rest) ← entries? fuel rest
      return (.table entries, rest)
    | '-' :: rest => signed? '-' rest
    | '+' :: rest => signed? '+' rest
    | 'i' :: 'n' :: 'f' :: rest => some (.other, rest)
    | 'n' :: 'a' :: 'n' :: rest => some (.other, rest)
    | c :: rest =>
      if c = '"' || c = '\'' then
        (quoted? (c :: rest)).map fun (s, r) => (.string (String.ofList s), r)
      else if c.isDigit then numberOrDate? (c :: rest)
      else
        match (c :: rest).takeWhile Char.isAlpha with
        | ['t', 'r', 'u', 'e'] => some (.other, rest.drop 3)
        | ['f', 'a', 'l', 's', 'e'] => some (.other, rest.drop 4)
        | _ => none
    | [] => none

def items? : Nat → List Char → Option (List Value × List Char)
  | 0, _ => none
  | fuel + 1, cs =>
    match skipLines (cs.length + 1) cs with
    | ']' :: rest => some ([], rest)
    | cs => do
      let (v, rest) ← value? fuel cs
      match skipLines (rest.length + 1) rest with
      | ',' :: rest => do
        let (vs, rest) ← items? fuel rest
        return (v :: vs, rest)
      | ']' :: rest => return ([v], rest)
      | _ => none

/-- The rest of a table in braces. -/
def entries? : Nat → List Char → Option (List (Key × Value) × List Char)
  | 0, _ => none
  | fuel + 1, cs =>
    match skipLines (cs.length + 1) cs with
    | '}' :: rest => some ([], rest)
    | cs => do
      let (k, rest) ← key? fuel cs
      let '=' :: rest := rest | none
      let (v, rest) ← value? fuel rest
      match skipLines (rest.length + 1) rest with
      | ',' :: rest => do
        let (es, rest) ← entries? fuel rest
        return ((k, v) :: es, rest)
      | '}' :: rest => return ([(k, v)], rest)
      | _ => none

end

def statement? (fuel : Nat) (cs : List Char) : Option (Statement × List Char) := do
  match cs with
  | '[' :: '[' :: rest =>
    let (k, rest) ← key? fuel rest
    let ']' :: ']' :: rest := rest | none
    return (.arrayTable k, rest)
  | '[' :: rest =>
    let (k, rest) ← key? fuel rest
    let ']' :: rest := rest | none
    return (.table k, rest)
  | _ =>
    let (k, rest) ← key? fuel cs
    let '=' :: rest := rest | none
    let (v, rest) ← value? fuel rest
    return (.assign k v, rest)

def lineEnds (cs : List Char) : Bool :=
  match skipBlanks cs with
  | [] => true
  | c :: _ => c = '#' || isBreak c

def statements? : Nat → List Char → Option (List Statement)
  | 0, _ => none
  | fuel + 1, cs =>
    match skipLines (cs.length + 1) cs with
    | [] => some []
    | cs => do
      let (s, rest) ← statement? (cs.length + 1) cs
      if !lineEnds rest then none
      return s :: (← statements? fuel rest)

def dropMark : List UInt8 → List UInt8
  | 0xff :: 0xfe :: rest => rest
  | 0xfe :: 0xff :: rest => rest
  | 0xef :: 0xbb :: 0xbf :: rest => rest
  | bytes => bytes

def read? (bytes : List UInt8) : Option (List Statement) := do
  let s ← String.fromUTF8? ⟨(dropMark bytes).toArray⟩
  let cs := s.toList
  if isText cs then statements? (cs.length + 1) cs else none

end Toml
end MachineSynth
