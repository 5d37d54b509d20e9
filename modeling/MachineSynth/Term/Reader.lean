import MachineSynth.Term.Token
import MachineSynth.Text.Report

/-! Reading terms: tokens are fed one by one to a stack of the lists that are still open. -/
namespace MachineSynth

/-- Why a text is not a sequence of terms. -/
inductive ReadError
  /-- A closing parenthesis with no list open. -/
  | endOfList (position : Nat)
  /-- The text ends inside a list. -/
  | endOfFile
  /-- More text follows the one term that was asked for. -/
  | remainder (position : Nat)
deriving DecidableEq, Repr

namespace ReadError

def message : ReadError → String
  | endOfList _ => "unexpected end-of-list"
  | endOfFile => "unexpected end-of-file"
  | remainder _ => "unexpected remainder"

/-- One code point, or the empty span at the end of a text of the given length. -/
def span (length : Nat) : ReadError → Span
  | endOfList i => Span.ofLength i 1
  | endOfFile => Span.ofLength length 0
  | remainder i => Span.ofLength i 1

def report (source : Source) (e : ReadError) : SyntaxError :=
  ⟨source, e.span source.length, e.message⟩

end ReadError

namespace Reader

/-- A list that is still open: its opening parenthesis and, last first, its items so far. -/
structure Frame where
  opening : Token
  items : List Located

/-- Puts a finished term into the innermost open list; outside of lists it is complete. -/
def place (t : Located) : List Frame → Option Located × List Frame
  | [] => (some t, [])
  | f :: fs => (none, { f with items := t :: f.items } :: fs)

/-- Takes one token, and gives the top-level term that it completes, if any. -/
def feed (frames : List Frame) (t : Token) : Except ReadError (Option Located × List Frame) :=
  match t.lexeme, frames with
  | .opening, fs => .ok (none, ⟨t, []⟩ :: fs)
  | .closing, [] => .error (.endOfList t.start)
  | .closing, f :: fs => .ok (place (.list (f.opening.span.hull t.span) f.items.reverse) fs)
  | .symbol name, fs => .ok (place (.symbol t.span (String.ofList name)) fs)

/-- The terms read before the end of the text or the first fault. -/
structure Reading where
  terms : List Located
  error : Option ReadError

def readAll (frames : List Frame) : List Token → Reading
  | [] => ⟨[], if frames.isEmpty then none else some .endOfFile⟩
  | t :: ts =>
    match feed frames t with
    | .error e => ⟨[], some e⟩
    | .ok (none, fs) => readAll fs ts
    | .ok (some d, fs) => { readAll fs ts with terms := d :: (readAll fs ts).terms }

def readFirst (frames : List Frame) :
    List Token → Except ReadError (Option Located × List Token)
  | [] => if frames.isEmpty then .ok (none, []) else .error .endOfFile
  | t :: ts =>
    match feed frames t with
    | .error e => .error e
    | .ok (none, fs) => readFirst fs ts
    | .ok (some d, _) => .ok (some d, ts)

/-- The one term of a token sequence; none if the sequence is empty. -/
def readOne (tokens : List Token) : Except ReadError (Option Located) :=
  match readFirst [] tokens with
  | .error e => .error e
  | .ok (t, []) => .ok t
  | .ok (_, next :: _) => .error (.remainder next.start)

end Reader

namespace Source

def terms (s : Source) : List Located × Option SyntaxError :=
  let r := Reader.readAll [] (Token.ofText s.text)
  (r.terms, r.error.map (·.report s))

def term (s : Source) : Except SyntaxError (Option Located) :=
  (Reader.readOne (Token.ofText s.text)).mapError (·.report s)

end Source
end MachineSynth
