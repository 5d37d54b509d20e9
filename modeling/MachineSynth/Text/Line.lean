import MachineSynth.Text.Span

/-! Lines of a text, numbered from one, and the line on which a position stands. -/
namespace MachineSynth

structure Line where
  number : Nat
  /-- The position of the first code point of the line. -/
  start : Nat
  text : List Char
deriving DecidableEq, Repr, Inhabited

namespace Line

def length (l : Line) : Nat := l.text.length

/-- Walks on from index `i` until it meets the position, keeping the number and start of the
current line and the text from that start on. -/
def find (position : Int) (number start : Nat) (line : List Char) : Nat → List Char → Line
  | _, [] => ⟨number, start, line.takeWhile (· ≠ '\n')⟩
  | i, c :: rest =>
    if (i : Int) = position then ⟨number, start, line.takeWhile (· ≠ '\n')⟩
    else if c = '\n' then find position (number + 1) (i + 1) rest (i + 1) rest
    else find position number start line (i + 1) rest

/-- The line on which a position stands; the last line if the position is outside the text. -/
def enclosing (text : List Char) (position : Int) : Line := find position 1 0 text 0 text

end Line
end MachineSynth
