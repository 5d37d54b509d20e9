import MachineSynth.Fault

/-! Spans of a source text: the code points from `start` up to, not including, `stop`. -/
namespace MachineSynth

/-- How far `b` is behind `a`. Positions before the text are 64-bit numbers, and distances from or
to them wrap around. -/
def distance (a b : Int) : Int :=
  if 0 ≤ a ∧ 0 ≤ b then b - a else (b - a).bmod 18446744073709551616

theorem distance_of_nonneg {a b : Int} (ha : 0 ≤ a) (hb : 0 ≤ b) : distance a b = b - a := by
  simp [distance, ha, hb]

structure Span where
  start : Int
  stop : Int
  ordered : start ≤ stop
deriving DecidableEq, Repr

namespace Span

/-- The span of the given ends, which must be in order. -/
def between (start stop : Int) : Except Fault Span :=
  if h : start ≤ stop then .ok ⟨start, stop, h⟩ else .error .invalidSpan

def ofLength (start length : Nat) : Span := ⟨start, start + length, by omega⟩

/-- The smallest span that covers two spans. -/
def hull (a b : Span) : Span :=
  ⟨min a.start b.start, max a.stop b.stop, by have := a.ordered; omega⟩

def length (s : Span) : Int := distance s.start s.stop

instance : Inhabited Span := ⟨ofLength 0 0⟩

end Span

/-- Spans recorded under keys, each key once. -/
structure SpanMap where
  entries : List (String × Span)
deriving Inhabited

namespace SpanMap

def empty : SpanMap := ⟨[]⟩

def find? (m : SpanMap) (key : String) : Option Span := m.entries.lookup key

def has (m : SpanMap) (key : String) : Bool := (m.find? key).isSome

def get (m : SpanMap) (key : String) : Except Fault Span :=
  match m.find? key with
  | some s => .ok s
  | none => .error (.unknownKey key)

def put (m : SpanMap) (key : String) (s : Span) : Except Fault SpanMap :=
  if m.has key then .error (.duplicateKey key) else .ok ⟨(key, s) :: m.entries⟩

end SpanMap
end MachineSynth
