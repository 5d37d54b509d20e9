import MachineSynth.Cbor.Decoder
import MachineSynth.Cbor.Reader
import MachineSynth.Rtl.Image

/-! The binary form of an image. Parts are maps with numbered fields, of which the optional ones
are left out when they are zero or empty; value types and arrays are maps with named fields. -/
namespace MachineSynth
namespace Image

open Cbor (Decoder Fields)

def numbered (fields : List (Nat × Cbor)) : Cbor :=
  .map (fields.flatMap fun (n, v) => [.unsigned n, v])

def named (fields : List (String × Cbor)) : Cbor :=
  .map (fields.flatMap fun (n, v) => [.ofString n, v])

def numberField (n : Nat) (v : Option Nat) : List (Nat × Cbor) :=
  match v with
  | none => []
  | some v => if v = 0 then [] else [(n, .unsigned v)]

def textField (n : Nat) (s : String) : List (Nat × Cbor) :=
  if s = "" then [] else [(n, .ofString s)]

def listField {α : Type} (n : Nat) (f : α → Cbor) (xs : List α) : List (Nat × Cbor) :=
  if xs.isEmpty then [] else [(n, .array (xs.map f))]

/-- A list that is never left out; an empty one is a null. -/
def fullList {α : Type} (f : α → Cbor) (xs : List α) : Cbor :=
  if xs.isEmpty then .null else .array (xs.map f)

def optionField {α : Type} (n : Nat) (f : α → Cbor) (v : Option α) : List (Nat × Cbor) :=
  match v with
  | none => []
  | some v => [(n, f v)]

def typeItem (t : Rtl.ValueType) : Cbor :=
  named [("Width", .unsigned t.width.toNat), ("Signed", .ofBool t.signed)]

def arrayItem (a : Rtl.ArrayShape) : Cbor :=
  named [("Data", typeItem a.data), ("External", .ofBool a.external),
    ("AddressWidth", .unsigned a.addressWidth.toNat)]

def tableRefItem (r : TableRef) : Cbor := numbered [(1, .unsigned r.module), (2, .unsigned r.table)]

def resourceRefItem (r : ResourceRef) : Cbor :=
  numbered [(1, .unsigned r.module), (2, .unsigned r.table), (3, .unsigned r.resource)]

def paramItem (p : String × String) : Cbor := .array [.ofString p.1, .ofString p.2]

def registerItem (r : Rtl.Register) : Cbor :=
  numbered ([(1, .unsigned r.id)] ++ textField 2 r.name ++
    [(3, typeItem r.type), (4, .unsigned r.kind.code.toNat)] ++
    optionField 5 (fun v => .ofInt v.toInt) r.initial)

def resourceItem (r : Resource) : Cbor :=
  numbered ([(1, .unsigned r.id), (2, .ofString r.kind)] ++ listField 3 typeItem r.inputs ++
    listField 4 typeItem r.outputs ++ listField 5 paramItem r.params ++
    optionField 6 resourceRefItem r.parent ++ optionField 7 tableRefItem r.callee ++
    optionField 8 arrayItem r.array)

def insnItem (i : Insn) : Cbor :=
  numbered ([(1, .unsigned i.id), (2, .unsigned i.resource)] ++ textField 3 i.operand ++
    listField 4 .unsigned i.targets ++ listField 5 .unsigned i.inputs ++
    listField 6 .unsigned i.outputs)

def stateItem (s : State) : Cbor := numbered ((1, .unsigned s.id) :: listField 2 insnItem s.insns)

def tableItem (t : Table) : Cbor :=
  numbered ([(1, .unsigned t.id), (2, .ofString t.name)] ++ numberField 3 t.initial ++
    listField 4 registerItem t.registers ++ listField 5 resourceItem t.resources ++
    listField 6 stateItem t.states)

def moduleItem (m : Module) : Cbor :=
  numbered ([(1, .unsigned m.id), (2, .ofString m.name)] ++ numberField 3 m.parent ++
    [(4, fullList tableItem m.tables)])

def channelItem (c : Channel) : Cbor :=
  numbered ([(1, .unsigned c.id), (2, typeItem c.type)] ++
    optionField 3 resourceRefItem c.writer ++ optionField 4 resourceRefItem c.reader)

def item (i : Image) : Cbor :=
  numbered ((1, fullList moduleItem i.modules) :: listField 2 channelItem i.channels)

def bytes (i : Image) : Bytes := i.item.encode

def asId : Decoder Nat := Cbor.asNat 64

def asWord : Decoder UInt64 := fun i => (Cbor.asNat 64 i).map UInt64.ofNat

/-- A number other than zero. -/
def asPositive : Decoder (Option Nat) := fun i =>
  (asId i).map fun n => if n = 0 then none else some n

def asType : Decoder Rtl.ValueType := fun i => do
  let fs ← Cbor.asFields i
  return ⟨← asWord (fs.named "Width"), ← Cbor.asBool (fs.named "Signed")⟩

def asArray : Decoder Rtl.ArrayShape := fun i => do
  let fs ← Cbor.asFields i
  return ⟨← asWord (fs.named "AddressWidth"), ← asType (fs.named "Data"),
    ← Cbor.asBool (fs.named "External")⟩

def asTableRef : Decoder TableRef := fun i => do
  let fs ← Cbor.asFields i
  return ⟨← asId (fs.at 1), ← asId (fs.at 2)⟩

def asResourceRef : Decoder ResourceRef := fun i => do
  let fs ← Cbor.asFields i
  return ⟨← asId (fs.at 1), ← asId (fs.at 2), ← asId (fs.at 3)⟩

def asRegister : Decoder Rtl.Register := fun i => do
  let fs ← Cbor.asFields i
  return ⟨← asId (fs.at 1), ← Cbor.asString (fs.at 2), ← asType (fs.at 3),
    .ofCode (UInt8.ofNat (← Cbor.asNat 8 (fs.at 4))), ← Cbor.asOption Cbor.asInt64 (fs.at 5)⟩

def asResource : Decoder Resource := fun i => do
  let fs ← Cbor.asFields i
  return ⟨← asId (fs.at 1), ← Cbor.asString (fs.at 2), ← Cbor.asList asType (fs.at 3),
    ← Cbor.asList asType (fs.at 4), ← Cbor.asList Cbor.asPair (fs.at 5),
    ← Cbor.asOption asResourceRef (fs.at 6), ← Cbor.asOption asTableRef (fs.at 7),
    ← Cbor.asOption asArray (fs.at 8)⟩

/-- The kind of the resource is not written, and so not known yet. -/
def asInsn : Decoder Insn := fun i => do
  let fs ← Cbor.asFields i
  return ⟨← asId (fs.at 1), ← asId (fs.at 2), "", ← Cbor.asString (fs.at 3),
    ← Cbor.asList asId (fs.at 4), ← Cbor.asList asId (fs.at 5), ← Cbor.asList asId (fs.at 6)⟩

def asState : Decoder State := fun i => do
  let fs ← Cbor.asFields i
  return ⟨← asId (fs.at 1), ← Cbor.asList asInsn (fs.at 2)⟩

def asTable : Decoder Table := fun i => do
  let fs ← Cbor.asFields i
  return ⟨← asId (fs.at 1), ← Cbor.asString (fs.at 2), ← asPositive (fs.at 3),
    ← Cbor.asList asRegister (fs.at 4), ← Cbor.asList asResource (fs.at 5),
    ← Cbor.asList asState (fs.at 6)⟩

def asModule : Decoder Module := fun i => do
  let fs ← Cbor.asFields i
  return ⟨← asId (fs.at 1), ← Cbor.asString (fs.at 2), ← asPositive (fs.at 3),
    ← Cbor.asList asTable (fs.at 4)⟩

def asChannel : Decoder Channel := fun i => do
  let fs ← Cbor.asFields i
  return ⟨← asId (fs.at 1), ← asType (fs.at 2), ← Cbor.asOption asResourceRef (fs.at 3),
    ← Cbor.asOption asResourceRef (fs.at 4)⟩

def ofItem : Decoder Image := fun i => do
  let fs ← Cbor.asFields i
  return ⟨← Cbor.asList asModule (fs.at 1), ← Cbor.asList asChannel (fs.at 2)⟩

def ofBytes? (b : Bytes) : Option Image := (Cbor.decode b).bind ofItem

end Image
end MachineSynth
