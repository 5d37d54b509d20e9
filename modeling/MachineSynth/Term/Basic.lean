import MachineSynth.Text.Bytes
import MachineSynth.Text.Span

/-! Terms: symbols and lists of terms, plain or with the span each was read from. -/
namespace MachineSynth

/-- Terms over some symbols. A term that is read has texts for symbols; one that is printed may have
any bytes. -/
inductive Term (σ : Type)
  | symbol (name : σ)
  | list (items : List (Term σ))
deriving Repr

namespace Term

variable {σ : Type}

instance : Inhabited (Term σ) := ⟨list []⟩

def isList : Term σ → Bool
  | symbol _ => false
  | list _ => true

def isSymbol : Term σ → Bool
  | symbol _ => true
  | list _ => false

/-- The symbol a sequence of terms starts with, or no bytes. -/
def head : List (Term Bytes) → Bytes
  | symbol name :: _ => name
  | _ => []

/-- Whether every wanted name is the symbol at its position. -/
def startsWith : List Bytes → List (Term Bytes) → Bool
  | [], _ => true
  | w :: ws, symbol name :: rest => w = name && startsWith ws rest
  | _, _ => false

/-- Whether a list has at least `n` items and starts with the wanted symbols, no more than `n`. -/
def matchesSymbols (items : List (Term Bytes)) (n : Int) (wanted : List Bytes) : Bool :=
  n ≤ items.length && wanted.length ≤ n && startsWith wanted items

mutual

/-- How deeply lists nest: a symbol has depth zero, a list of symbols depth one. -/
def depth : Term σ → Nat
  | symbol _ => 0
  | list items => depths items + 1

def depths : List (Term σ) → Nat
  | [] => 0
  | t :: ts => max t.depth (depths ts)

end

mutual

def encode : Term String → Term Bytes
  | symbol name => symbol (utf8 name.toList)
  | list items => list (encodeAll items)

def encodeAll : List (Term String) → List (Term Bytes)
  | [] => []
  | t :: ts => t.encode :: encodeAll ts

end

end Term

/-- A term in which every node knows its span. -/
inductive Located
  | symbol (span : Span) (name : String)
  | list (span : Span) (items : List Located)
deriving Repr

namespace Located

instance : Inhabited Located := ⟨list default []⟩

def span : Located → Span
  | symbol s _ => s
  | list s _ => s

mutual

def term : Located → Term String
  | symbol _ name => .symbol name
  | list _ items => .list (terms items)

def terms : List Located → List (Term String)
  | [] => []
  | t :: ts => t.term :: terms ts

end

/-- The symbol a sequence of terms starts with, or the empty text. -/
def head : List Located → String
  | symbol _ name :: _ => name
  | _ => ""

end Located
end MachineSynth
