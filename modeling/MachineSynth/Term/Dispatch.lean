import MachineSynth.Term.Reader

/-! Dispatch: reading a list by the rule for the symbol it starts with. -/
namespace MachineSynth

/-- Why no rule applies to a term. -/
inductive Mismatch
  | expectedList
  | invalidList
  | unknown (name : String)
  | arity (expected found : Int)
deriving DecidableEq, Repr

def Mismatch.message : Mismatch → String
  | expectedList => "expected list"
  | invalidList => "invalid list"
  | unknown name => s!"unknown {name}"
  | arity expected found =>
    s!"incorrect number of arguments (expected {expected}, found {found})"

structure Complaint (ε : Type) where
  span : Span
  cause : ε
deriving Repr

/-- Why a rule gave no value: a complaint about the list as a whole, or about some span. -/
inductive Refusal (ε : Type)
  | here (cause : ε)
  | at (complaint : Complaint ε)
deriving Repr

/-- The value of a list, given with its items. -/
abbrev Rule (ε α : Type) := Located → List Located → Except (Refusal ε) α

/-- Rules by symbol. The first of a symbol counts. -/
structure Dispatch (ε α : Type) where
  /-- The span under which a term is reported. -/
  spanOf : Located → Span
  mismatch : Mismatch → ε
  rules : List (String × Rule ε α)

namespace Dispatch

variable {ε α : Type}

def add (d : Dispatch ε α) (name : String) (rule : Rule ε α) : Dispatch ε α :=
  { d with rules := (name, rule) :: d.rules }

/-- A rule for lists of exactly `n` items after the symbol. -/
def addArity (d : Dispatch ε α) (name : String) (n : Int) (rule : Rule ε α) : Dispatch ε α :=
  d.add name fun t items =>
    if (items.length : Int) = n + 1 then rule t items
    else .error (.here (d.mismatch (.arity n (items.length - 1))))

/-- The value of a term by the rule for its symbol; a complaint about the list itself is about
the span of that list. -/
def apply (d : Dispatch ε α) : Located → Except (Complaint ε) α
  | t@(.symbol _ _) => .error ⟨d.spanOf t, d.mismatch .expectedList⟩
  | t@(.list _ items) =>
    match items with
    | first@(.symbol _ name) :: _ =>
      if name = "" then .error ⟨d.spanOf t, d.mismatch .invalidList⟩
      else
        match d.rules.lookup name with
        | none => .error ⟨d.spanOf first, d.mismatch (.unknown name)⟩
        | some rule =>
          match rule t items with
          | .ok a => .ok a
          | .error (.here cause) => .error ⟨d.spanOf t, cause⟩
          | .error (.at complaint) => .error complaint
    | _ => .error ⟨d.spanOf t, d.mismatch .invalidList⟩

end Dispatch
end MachineSynth
