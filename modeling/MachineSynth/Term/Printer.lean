import MachineSynth.Term.Basic

/-! The two written forms of a term: on one line, and laid out over several. -/
namespace MachineSynth
namespace Term

mutual

/-- The form on one line: items are separated by single blanks. -/
def bytes : Term Bytes → Bytes
  | symbol name => name
  | list items => utf8 ['('] ++ bytesOf items ++ utf8 [')']

def bytesOf : List (Term Bytes) → Bytes
  | [] => []
  | [t] => t.bytes
  | t :: ts => t.bytes ++ utf8 [' '] ++ bytesOf ts

end

/-- A new line, indented by two blanks a level. -/
def newline (level : Nat) : List Char := '\n' :: List.replicate (2 * level) ' '

mutual

/-- A term of depth at most `flat` takes one line. In a deeper list the leading symbols stay on
the first line and each later item starts a line of its own. -/
def layout (flat level : Nat) : Term Bytes → Bytes
  | symbol name => name
  | list items =>
    if depths items + 1 ≤ flat then (list items).bytes
    else utf8 ['('] ++ layoutItems flat level [] true items ++ utf8 [')']

def layoutItems (flat level : Nat) (gap : List Char) (leading : Bool) : List (Term Bytes) → Bytes
  | [] => []
  | t :: ts =>
    if leading && t.isSymbol then utf8 gap ++ t.bytes ++ layoutItems flat level [' '] true ts
    else
      utf8 (newline (level + 1)) ++ layout flat (level + 1) t ++
        layoutItems flat level [' '] false ts

end

def format (flat : Nat) (t : Term Bytes) : Bytes := layout flat 0 t

end Term
end MachineSynth
