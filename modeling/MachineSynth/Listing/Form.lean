import MachineSynth.Text.Numeral
import MachineSynth.Term.Dispatch

/-! Forms: the lists a listing is made of, and what can be wrong with them. -/
namespace MachineSynth
namespace Listing

inductive Cause
  | expectedObject
  | expectedMember
  | duplicateMember (name : String)
  | unknownMember (kind : String)
  | expectedChannel
  | expectedThread
  | expectedClause
  | unknownClause (kind : String)
  | expectedDeclaration
  | unknownType (name : String)
  | expectedKeyValue
  | unknownMark (key : String)
  | expectedRegister
  | unknownRegisterKind (kind : String)
  | duplicateRegister (name : String)
  | unknownRegister (name : String)
  | jumpOutOfRange (target : UInt64)
  | expectedLoadObject
  | expectedCall
  | missingArgument (i : Nat)
  | expectedSymbol
  | expectedName (head : String)
  | invalidNumber (text : String)
  | invalidInteger (text : String)
  | unknownFlag (name : String)
  | mismatch (m : Mismatch)
deriving DecidableEq, Repr

namespace Cause

def message : Cause → String
  | expectedObject => "expected (object NAME ...)"
  | expectedMember => "expected member declaration"
  | duplicateMember name => s!"duplicate member {name}"
  | unknownMember kind => s!"unknown member kind {kind}"
  | expectedChannel => "expected (channel NAME WIDTH)"
  | expectedThread => "expected (thread NAME METHOD)"
  | expectedClause => "expected method clause"
  | unknownClause kind => s!"unknown method clause {kind}"
  | expectedDeclaration => "expected declaration"
  | unknownType name => s!"unknown type {name}"
  | expectedKeyValue => "expected (KEY VALUE)"
  | unknownMark key => s!"unknown annotation {key}"
  | expectedRegister => "expected (NAME KIND ...)"
  | unknownRegisterKind kind => s!"unknown register kind {kind}"
  | duplicateRegister name => s!"duplicate register {name}"
  | unknownRegister name => s!"unknown register {name}"
  | jumpOutOfRange target => s!"jump target {target} out of range"
  | expectedLoadObject => "expected (load-obj DST OBJ [LABEL])"
  | expectedCall => "expected (call OBJ LABEL ARG*)"
  | missingArgument i => s!"missing argument {i}"
  | expectedSymbol => "expected symbol"
  | expectedName head => s!"expected ({head} NAME)"
  | invalidNumber text => s!"invalid number {text}"
  | invalidInteger text => s!"invalid integer {text}"
  | unknownFlag name => s!"unknown flag {name}"
  | mismatch m => m.message

end Cause

abbrev Read := Except (Complaint Cause)

def complain {α : Type} (span : Span) (cause : Cause) : Read α := .error ⟨span, cause⟩

structure Form where
  span : Span
  items : List Located

namespace Form

def head (f : Form) : String := Located.head f.items

def spanAt (f : Form) (i : Nat) : Span := ((f.items[i]?).map (·.span)).getD f.span

def symbol (f : Form) (i : Nat) : Read String :=
  match f.items[i]? with
  | none => complain f.span (.missingArgument i)
  | some (.symbol _ name) => .ok name
  | some (.list span _) => complain span .expectedSymbol

/-- The natural of at most `bits` bits at a position. -/
def number (f : Form) (i bits : Nat) : Read Nat := do
  let s ← f.symbol i
  match Numeral.natural? bits s with
  | some n => .ok n
  | none => complain (f.spanAt i) (.invalidNumber s)

def word (f : Form) (i bits : Nat) : Read UInt64 := do return UInt64.ofNat (← f.number i bits)

def integer (f : Form) (i : Nat) : Read Int64 := do
  let s ← f.symbol i
  match Numeral.integer? s with
  | some n => .ok n
  | none => complain (f.spanAt i) (.invalidInteger s)

/-- The only argument of a form, a symbol. -/
def name (f : Form) : Read String :=
  if f.items.length = 2 then f.symbol 1 else complain f.span (.expectedName f.head)

/-- Symbols that are all among the allowed ones. -/
def readFlags (allowed : List String) : List Located → Read (List String)
  | [] => .ok []
  | .list span _ :: _ => complain span .expectedSymbol
  | .symbol span name :: rest =>
    if allowed.contains name then do return name :: (← readFlags allowed rest)
    else complain span (.unknownFlag name)

def flags (f : Form) (start : Nat) (allowed : List String) : Read (List String) :=
  readFlags allowed (f.items.drop start)

end Form
end Listing
end MachineSynth
