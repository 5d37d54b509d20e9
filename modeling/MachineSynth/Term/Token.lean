import MachineSynth.Term.Basic

/-! Tokens: parentheses and symbols, with the position at which each starts. -/
namespace MachineSynth

inductive Lexeme
  | opening
  | closing
  | symbol (name : List Char)
deriving DecidableEq, Repr

structure Token where
  start : Nat
  lexeme : Lexeme
deriving DecidableEq, Repr

namespace Token

def span (t : Token) : Span :=
  match t.lexeme with
  | .symbol name => Span.ofLength t.start name.length
  | _ => Span.ofLength t.start 1

def isBlank (c : Char) : Bool := c = ' ' || c = '\t' || c = '\n' || c = '\r'

/-- The code points that cannot stand in a symbol. -/
def isDelimiter (c : Char) : Bool := isBlank c || c = '(' || c = ')' || c = ';'

/-- What the scanner is inside of. The name of a symbol is kept in reverse. -/
inductive Mode
  | between
  | comment
  | symbol (start : Nat) (name : List Char)

namespace Mode

def finish : Mode → List Token
  | symbol start name => [⟨start, .symbol name.reverse⟩]
  | _ => []

/-- Reads a code point at position `i` outside symbols and comments. -/
def start (i : Nat) (c : Char) : List Token × Mode :=
  if isBlank c then ([], between)
  else if c = ';' then ([], comment)
  else if c = '(' then ([⟨i, .opening⟩], between)
  else if c = ')' then ([⟨i, .closing⟩], between)
  else ([], symbol i [c])

/-- A comment reaches up to the end of its line, a symbol up to the next delimiter. -/
def step (i : Nat) (c : Char) : Mode → List Token × Mode
  | between => Mode.start i c
  | comment => ([], if c = '\n' then between else comment)
  | symbol s name =>
    if isDelimiter c then (finish (symbol s name) ++ (Mode.start i c).1, (Mode.start i c).2)
    else ([], symbol s (c :: name))

end Mode

/-- The tokens of a text that starts at position `i`. -/
def scan (mode : Mode) (i : Nat) : List Char → List Token
  | [] => mode.finish
  | c :: cs => (mode.step i c).1 ++ scan (mode.step i c).2 (i + 1) cs

def ofText (text : List Char) : List Token := scan .between 0 text

end Token
end MachineSynth
