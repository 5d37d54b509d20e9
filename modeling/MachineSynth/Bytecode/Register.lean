/-! Registers of a method: what each holds, and how instructions name them. -/
namespace MachineSynth

/-- What a register or an object's slot holds. -/
inductive ValueKind
  | num
  | enum
  | object
  | method
deriving DecidableEq, Repr, Inhabited

namespace ValueKind

def name : ValueKind → String
  | num => "num"
  | enum => "enum"
  | object => "object"
  | method => "method"

def ofCode? (code : UInt8) : Option ValueKind := [num, enum, object, method][code.toNat]?

/-- The name of a numbered kind; a number without a kind is written as it is. -/
def nameOfCode (code : UInt8) : String :=
  match ofCode? code with
  | some k => k.name
  | none => s!"kind#{code}"

end ValueKind

abbrev RegisterId := UInt64

namespace RegisterId

/-- Stands for no register at all; as the object of an instruction it means `this`. -/
def unused : RegisterId := 0xFFFFFFFFFFFFFFFF

def isUsed (r : RegisterId) : Bool := r != unused

/-- The register alone, or nothing if it is unused. -/
def ifUsed (r : RegisterId) : List RegisterId := if isUsed r then [r] else []

end RegisterId

structure Register where
  name : String
  kind : ValueKind
  width : UInt64
  isConst : Bool
  /-- The value of a constant register, or the one another starts with. -/
  initial : Int64
deriving DecidableEq, Repr, Inhabited

namespace Register

def const (r : Register) : Option Int64 := if r.isConst then some r.initial else none

def constText (value : Option Int64) : String :=
  match value with
  | some v => s!" const={v}"
  | none => ""

def text (r : Register) : String :=
  match r.kind with
  | .num => s!"{r.name} num:{r.width}{constText r.const}"
  | k => s!"{r.name} {k.name}{constText r.const}"

def textOfCode (code : UInt8) (r : Register) : String :=
  match ValueKind.ofCode? code with
  | some kind => text { r with kind }
  | none => s!"{r.name} {ValueKind.nameOfCode code}{constText r.const}"

def nameIn (file : List Register) (r : RegisterId) : String :=
  match if RegisterId.isUsed r then file[r.toNat]? else none with
  | some reg => if reg.name = "" then s!"r{r}" else reg.name
  | none => s!"r{r}"

def objectNameIn (file : List Register) (r : RegisterId) : String :=
  if RegisterId.isUsed r then nameIn file r else "this"

def namesIn (file : List Register) (rs : List RegisterId) : String :=
  ",".intercalate (rs.map (nameIn file))

end Register
end MachineSynth
