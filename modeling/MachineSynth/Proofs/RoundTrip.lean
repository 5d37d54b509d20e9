import Mathlib
import MachineSynth.Rtl.Codec
import MachineSynth.Rtl.Text
import MachineSynth.Proofs.Encoding
import MachineSynth.Proofs.Restoring

/-! Round trips: the image of a closed design leads back to a design with the same image, the same
text and fresh numbers to give away, and so do the bytes of the image. -/
namespace MachineSynth
namespace Image

open Cbor (Readable maxElements word)

section Limits

/-- A text whose length fits into eight bytes. -/
def Short (s : String) : Prop := s.toUTF8.data.toList.length < word

instance (s : String) : Decidable (Short s) := inferInstanceAs (Decidable (_ < _))

/-- A list that the reader does not refuse. -/
def Few {α : Type} (p : α → Prop) (xs : List α) : Prop :=
  xs.length ≤ maxElements ∧ ∀ x ∈ xs, p x

instance {α : Type} (p : α → Prop) [DecidablePred p] (xs : List α) : Decidable (Few p xs) :=
  inferInstanceAs (Decidable (_ ∧ _))

@[mk_iff] structure TableRef.Writable (r : TableRef) : Prop where
  module : r.module < word
  table : r.table < word

instance (r : TableRef) : Decidable r.Writable := decidable_of_iff _ (TableRef.writable_iff r).symm

@[mk_iff] structure ResourceRef.Writable (r : ResourceRef) : Prop where
  module : r.module < word
  table : r.table < word
  resource : r.resource < word

instance (r : ResourceRef) : Decidable r.Writable := decidable_of_iff _ (ResourceRef.writable_iff r).symm

/-- The code of a kind that has a name is not given as another one. -/
@[mk_iff] structure RegisterWritable (r : Rtl.Register) : Prop where
  id : r.id < word
  name : Short r.name
  kind : Rtl.RegisterKind.ofCode r.kind.code = r.kind

instance (r : Rtl.Register) : Decidable (RegisterWritable r) := decidable_of_iff _ (registerWritable_iff r).symm

@[mk_iff] structure Resource.Writable (r : Resource) : Prop where
  id : r.id < word
  kind : Short r.kind
  inputs : Few (fun _ => True) r.inputs
  outputs : Few (fun _ => True) r.outputs
  params : Few (fun p => Short p.1 ∧ Short p.2) r.params
  parent : ∀ p ∈ r.parent, p.Writable
  callee : ∀ c ∈ r.callee, c.Writable

instance (r : Resource) : Decidable r.Writable := decidable_of_iff _ (Resource.writable_iff r).symm

@[mk_iff] structure Insn.Writable (i : Insn) : Prop where
  id : i.id < word
  resource : i.resource < word
  operand : Short i.operand
  targets : Few (· < word) i.targets
  inputs : Few (· < word) i.inputs
  outputs : Few (· < word) i.outputs

instance (i : Insn) : Decidable i.Writable := decidable_of_iff _ (Insn.writable_iff i).symm

@[mk_iff] structure State.Writable (s : State) : Prop where
  id : s.id < word
  insns : Few Insn.Writable s.insns

instance (s : State) : Decidable s.Writable := decidable_of_iff _ (State.writable_iff s).symm

/-- A zero stands for no initial state. -/
@[mk_iff] structure Table.Writable (t : Table) : Prop where
  id : t.id < word
  name : Short t.name
  initial : ∀ k ∈ t.initial, 0 < k ∧ k < word
  registers : Few RegisterWritable t.registers
  resources : Few Resource.Writable t.resources
  states : Few State.Writable t.states

instance (t : Table) : Decidable t.Writable := decidable_of_iff _ (Table.writable_iff t).symm

/-- A zero stands for no parent. -/
@[mk_iff] structure Module.Writable (m : Module) : Prop where
  id : m.id < word
  name : Short m.name
  parent : ∀ p ∈ m.parent, 0 < p ∧ p < word
  tables : Few Table.Writable m.tables

instance (m : Module) : Decidable m.Writable := decidable_of_iff _ (Module.writable_iff m).symm

@[mk_iff] structure Channel.Writable (c : Channel) : Prop where
  id : c.id < word
  writer : ∀ r ∈ c.writer, r.Writable
  reader : ∀ r ∈ c.reader, r.Writable

instance (c : Channel) : Decidable c.Writable := decidable_of_iff _ (Channel.writable_iff c).symm

/-- An image within the limits of the binary form: numbers of 64 bits, and lists that are not too
long. -/
@[mk_iff] structure Writable (i : Image) : Prop where
  modules : Few Module.Writable i.modules
  channels : Few Channel.Writable i.channels

instance (i : Image) : Decidable i.Writable := decidable_of_iff _ (writable_iff i).symm

end Limits

section Fields

/-- At most `k` fields with small numbers, each of which can be read back. -/
structure Sound (levels k : Nat) (fields : List (Nat × Cbor)) : Prop where
  few : fields.length ≤ k
  number : ∀ f ∈ fields, f.1 < word
  value : ∀ f ∈ fields, Readable levels f.2

theorem Sound.append {levels k l : Nat} {fs gs : List (Nat × Cbor)} (hf : Sound levels k fs)
    (hg : Sound levels l gs) : Sound levels (k + l) (fs ++ gs) where
  few := by simpa using Nat.add_le_add hf.few hg.few
  number f hf' := (List.mem_append.mp hf').elim (hf.number f) (hg.number f)
  value f hf' := (List.mem_append.mp hf').elim (hf.value f) (hg.value f)

theorem Sound.nil (levels : Nat) : Sound levels 0 [] := ⟨le_rfl, by simp, by simp⟩

theorem Sound.cons {levels k n : Nat} {v : Cbor} {fs : List (Nat × Cbor)} (hn : n < word)
    (hv : Readable levels v) (h : Sound levels k fs) : Sound levels (k + 1) ((n, v) :: fs) where
  few := by simpa using h.few
  number f hf := (List.mem_cons.mp hf).elim (fun he => he ▸ hn) (h.number f)
  value f hf := (List.mem_cons.mp hf).elim (fun he => he ▸ hv) (h.value f)

theorem readable_cells {levels : Nat} {α : Type} (key : α → Cbor) {fs : List (α × Cbor)}
    (hfew : fs.length ≤ maxElements) (hkey : ∀ f ∈ fs, Readable levels (key f.1))
    (hvalue : ∀ f ∈ fs, Readable levels f.2) :
    Readable (levels + 1) (.map (fs.flatMap fun f => [key f.1, f.2])) := by
  have hlength : (fs.flatMap fun f => [key f.1, f.2]).length = fs.length * 2 := by
    simp [List.length_flatMap]
  refine .map (by omega) (by omega) fun i hi => ?_
  obtain ⟨f, hf, hi⟩ := List.mem_flatMap.mp hi
  obtain rfl | rfl : i = key f.1 ∨ i = f.2 := by simpa using hi
  · exact hkey f hf
  · exact hvalue f hf

theorem Sound.readable {levels k : Nat} {fs : List (Nat × Cbor)} (h : Sound levels k fs)
    (hk : k ≤ maxElements) : Readable (levels + 1) (numbered fs) :=
  readable_cells Cbor.unsigned (h.few.trans hk) (fun f hf => .unsigned (h.number f hf)) h.value

theorem readable_ofString {s : String} (h : Short s) (levels : Nat) :
    Readable levels (.ofString s) := .text h

theorem Few.readable_array {α : Type} {p : α → Prop} {xs : List α} {g : α → Cbor} {levels : Nat}
    (h : Few p xs) (hg : ∀ x, p x → Readable levels (g x)) :
    Readable (levels + 1) (.array (xs.map g)) := by
  refine .array (by simpa using h.1) fun i hi => ?_
  obtain ⟨x, hx, rfl⟩ := List.mem_map.mp hi
  exact hg x (h.2 x hx)

theorem sound_textField {n : Nat} {s : String} (hn : n < word) (h : Short s) (levels : Nat) :
    Sound levels 1 (textField n s) := by
  unfold textField
  split
  · exact ⟨by simp, by simp, by simp⟩
  · exact .cons hn (readable_ofString h levels) (.nil levels)

theorem sound_listField {α : Type} {p : α → Prop} {xs : List α} {g : α → Cbor} {levels n : Nat}
    (hn : n < word) (h : Few p xs) (hg : ∀ x, p x → Readable levels (g x)) :
    Sound (levels + 1) 1 (listField n g xs) := by
  unfold listField
  split
  · exact ⟨by simp, by simp, by simp⟩
  · exact .cons hn (h.readable_array hg) (.nil _)

theorem sound_optionField {α : Type} {v : Option α} {g : α → Cbor} {levels n : Nat}
    (hn : n < word) (hg : ∀ x ∈ v, Readable levels (g x)) :
    Sound levels 1 (optionField n g v) := by
  cases v with
  | none => exact ⟨by simp [optionField], by simp [optionField], by simp [optionField]⟩
  | some x => exact .cons hn (hg x rfl) (.nil levels)

theorem sound_numberField {v : Option Nat} {levels n : Nat} (hn : n < word)
    (hv : ∀ x ∈ v, 0 < x ∧ x < word) : Sound levels 1 (numberField n v) := by
  cases v with
  | none => exact ⟨by simp [numberField], by simp [numberField], by simp [numberField]⟩
  | some x =>
    obtain ⟨hpos, hlt⟩ := hv x rfl
    rw [numberField, if_neg (by omega)]
    exact .cons hn (.unsigned hlt) (.nil levels)

theorem readable_fullList {α : Type} {p : α → Prop} {xs : List α} {g : α → Cbor} {levels : Nat}
    (h : Few p xs) (hg : ∀ x, p x → Readable levels (g x)) :
    Readable (levels + 1) (fullList g xs) := by
  unfold fullList
  split
  · exact .simple (by decide)
  · exact h.readable_array hg

def keyed (fs : List (Nat × Cbor)) : Cbor.Fields := fs.map fun f => (.number f.1, f.2)

@[simp] theorem asFields_numbered (fs : List (Nat × Cbor)) :
    Cbor.asFields (numbered fs) = some (keyed fs) := by
  have hpairs : Cbor.pairs (fs.flatMap fun f => [.unsigned f.1, f.2]) = some (keyed fs) := by
    induction fs with
    | nil => rfl
    | cons f rest ih => simp [Cbor.pairs, Cbor.asKey, ih, keyed]
  simpa [Cbor.asFields, numbered, Cbor.untag, Cbor.isNull] using hpairs

@[simp] theorem at_keyed (fs : List (Nat × Cbor)) (n : Nat) :
    (keyed fs).at n = (fs.lookup n).getD .null := by
  induction fs with
  | nil => rfl
  | cons f rest ih =>
    by_cases h : n = f.1
    · simp [keyed, Cbor.Fields.at, Cbor.find, h, List.lookup]
    · have hne : ¬ f.1 = n := fun he => h he.symm
      have hbeq : (n == f.1) = false := beq_eq_false_iff_ne.mpr h
      simpa [keyed, Cbor.Fields.at, Cbor.find, List.lookup, hbeq, hne] using ih

variable {α β : Type} {k n : Nat}

theorem lookup_singleton_of_ne (h : k ≠ n) (v : Cbor) : [(n, v)].lookup k = none := by
  simp [List.lookup, beq_eq_false_iff_ne.mpr h]

@[simp] theorem lookup_textField_of_ne (h : k ≠ n) (s : String) :
    (textField n s).lookup k = none := by
  unfold textField
  split
  · rfl
  · exact lookup_singleton_of_ne h _

@[simp] theorem lookup_listField_of_ne (h : k ≠ n) (g : α → Cbor) (xs : List α) :
    (listField n g xs).lookup k = none := by
  unfold listField
  split
  · rfl
  · exact lookup_singleton_of_ne h _

@[simp] theorem lookup_optionField_of_ne (h : k ≠ n) (g : α → Cbor) (v : Option α) :
    (optionField n g v).lookup k = none := by
  cases v with
  | none => rfl
  | some x => exact lookup_singleton_of_ne h _

@[simp] theorem lookup_numberField_of_ne (h : k ≠ n) (v : Option Nat) :
    (numberField n v).lookup k = none := by
  cases v with
  | none => rfl
  | some x =>
    by_cases hx : x = 0
    · simp [numberField, hx]
    · simpa [numberField, hx] using lookup_singleton_of_ne h (.unsigned x)

@[simp] theorem asString_textField (n : Nat) (s : String) :
    Cbor.asString (((textField n s).lookup n).getD .null) = some s := by
  unfold textField
  split
  · rename_i h
    simp [h]
  · simp [List.lookup]

theorem asList_listField {f : Cbor.Decoder β} {g : α → Cbor} {e : α → β} (xs : List α)
    (h : ∀ x ∈ xs, f (g x) = some (e x)) (n : Nat) :
    Cbor.asList f (((listField n g xs).lookup n).getD .null) = some (xs.map e) := by
  unfold listField
  split
  · rename_i hempty
    simp [List.isEmpty_iff.mp hempty]
  · simpa [List.lookup] using Cbor.asList_array h

theorem asList_fullList {f : Cbor.Decoder β} {g : α → Cbor} {e : α → β} {xs : List α}
    (h : ∀ x ∈ xs, f (g x) = some (e x)) : Cbor.asList f (fullList g xs) = some (xs.map e) := by
  unfold fullList
  split
  · rename_i hempty
    simp [List.isEmpty_iff.mp hempty]
  · exact Cbor.asList_array h

theorem asOption_optionField {f : Cbor.Decoder α} {g : α → Cbor} {v : Option α}
    (h : ∀ x ∈ v, (g x).isNull = false ∧ f (g x) = some x) (n : Nat) :
    Cbor.asOption f (((optionField n g v).lookup n).getD .null) = some v := by
  cases v with
  | none => rfl
  | some x => simp [optionField, Cbor.asOption, h x rfl]

theorem asPositive_numberField {v : Option Nat} (h : ∀ x ∈ v, 0 < x ∧ x < word) (n : Nat) :
    asPositive (((numberField n v).lookup n).getD .null) = some v := by
  cases v with
  | none => rfl
  | some x =>
    obtain ⟨hpos, hlt⟩ := h x rfl
    have hne : x ≠ 0 := by omega
    have hread : Cbor.asNat 64 (.unsigned x) = some x := Cbor.asNat_unsigned hlt
    simp [numberField, hne, asPositive, asId, hread]

end Fields

section Records

theorem asId_unsigned {n : Nat} (h : n < word) : asId (.unsigned n) = some n := Cbor.asNat_unsigned h

theorem asWord_toNat (w : UInt64) : asWord (.unsigned w.toNat) = some w := by
  have hread : Cbor.asNat 64 (.unsigned w.toNat) = some w.toNat :=
    Cbor.asNat_unsigned w.toNat_lt
  simp [asWord, hread]

theorem asFields_named (fs : List (String × Cbor)) :
    Cbor.asFields (named fs) = some (fs.map fun f => (.name f.1, f.2)) := by
  have hkey : ∀ s : String, Cbor.asKey (.ofString s) = some (.name s) := by
    intro s
    simp only [Cbor.asKey, Cbor.ofString, Cbor.textOf_ofString, Option.map_some]
  have hpairs : Cbor.pairs (fs.flatMap fun f => [.ofString f.1, f.2]) =
      some (fs.map fun f => (Cbor.Key.name f.1, f.2)) := by
    induction fs with
    | nil => rfl
    | cons f rest ih => simp [Cbor.pairs, hkey, ih]
  simpa [Cbor.asFields, named, Cbor.untag, Cbor.isNull] using hpairs

theorem asType_typeItem (t : Rtl.ValueType) : asType (typeItem t) = some t := by
  simp [asType, typeItem, asFields_named, Cbor.Fields.named, Cbor.find, asWord_toNat]

theorem asArray_arrayItem (a : Rtl.ArrayShape) : asArray (arrayItem a) = some a := by
  simp [asArray, arrayItem, asFields_named, Cbor.Fields.named, Cbor.find, asWord_toNat,
    asType_typeItem]

theorem asTableRef_tableRefItem {r : TableRef} (h : r.Writable) :
    asTableRef (tableRefItem r) = some r := by
  simp [asTableRef, tableRefItem, List.lookup, asId_unsigned h.module, asId_unsigned h.table]

theorem asResourceRef_resourceRefItem {r : ResourceRef} (h : r.Writable) :
    asResourceRef (resourceRefItem r) = some r := by
  simp [asResourceRef, resourceRefItem, List.lookup, asId_unsigned h.module,
    asId_unsigned h.table, asId_unsigned h.resource]

theorem asPair_paramItem (p : String × String) : Cbor.asPair (paramItem p) = some p := by
  simp [Cbor.asPair, paramItem, Cbor.untag, Cbor.isNull]

theorem asRegister_registerItem {r : Rtl.Register} (h : RegisterWritable r) :
    asRegister (registerItem r) = some r := by
  have hcode : Cbor.asNat 8 (.unsigned r.kind.code.toNat) = some r.kind.code.toNat :=
    Cbor.asNat_unsigned r.kind.code.toNat_lt
  have hinitial := asOption_optionField (f := Cbor.asInt64) (g := fun v => .ofInt v.toInt)
    (v := r.initial) (fun x _ => ⟨by cases hx : x.toInt <;> rfl, Cbor.asInt64_ofInt x⟩) 5
  simp [asRegister, registerItem, List.lookup, List.lookup_append, asId_unsigned h.id,
    asType_typeItem, hcode, hinitial, h.kind]

theorem asResource_resourceItem {r : Resource} (h : r.Writable) :
    asResource (resourceItem r) = some r := by
  have htypes : ∀ (ts : List Rtl.ValueType) (n : Nat),
      Cbor.asList asType (((listField n typeItem ts).lookup n).getD .null) = some ts := by
    intro ts n
    simpa using asList_listField (e := id) ts (fun t _ => asType_typeItem t) n
  have hparams : Cbor.asList Cbor.asPair (((listField 5 paramItem r.params).lookup 5).getD .null) =
      some r.params := by
    simpa using asList_listField (e := id) r.params (fun p _ => asPair_paramItem p) 5
  have hparent := asOption_optionField (v := r.parent)
    (fun p hp => ⟨rfl, asResourceRef_resourceRefItem (h.parent p hp)⟩) 6
  have hcallee := asOption_optionField (v := r.callee)
    (fun c hc => ⟨rfl, asTableRef_tableRefItem (h.callee c hc)⟩) 7
  have harray := asOption_optionField (v := r.array) (fun a _ => ⟨rfl, asArray_arrayItem a⟩) 8
  simp [asResource, resourceItem, List.lookup, List.lookup_append, asId_unsigned h.id, htypes,
    hparams, hparent, hcallee, harray]

theorem asList_asId {ids : List Nat} (h : Few (· < word) ids) (n : Nat) :
    Cbor.asList asId (((listField n .unsigned ids).lookup n).getD .null) = some ids := by
  simpa using asList_listField (e := id) ids (fun k hk => asId_unsigned (h.2 k hk)) n

/-- The instruction as it is read back, without the kind of its resource. -/
def Insn.plain (i : Insn) : Insn := { i with kind := "" }

def State.plain (s : State) : State := { s with insns := s.insns.map Insn.plain }

def Table.plain (t : Table) : Table := { t with states := t.states.map State.plain }

def Module.plain (m : Module) : Module := { m with tables := m.tables.map Table.plain }

/-- The image without what the bytes leave out. -/
def plain (i : Image) : Image := { i with modules := i.modules.map Module.plain }

theorem asInsn_insnItem {i : Insn} (h : i.Writable) : asInsn (insnItem i) = some i.plain := by
  simp [asInsn, insnItem, List.lookup, List.lookup_append, asId_unsigned h.id,
    asId_unsigned h.resource, asList_asId h.targets, asList_asId h.inputs, asList_asId h.outputs,
    Insn.plain]

theorem asState_stateItem {s : State} (h : s.Writable) : asState (stateItem s) = some s.plain := by
  have hinsns := asList_listField _ (fun i hi => asInsn_insnItem (h.insns.2 i hi)) 2
  simp [asState, stateItem, List.lookup, asId_unsigned h.id, hinsns, State.plain]

theorem asTable_tableItem {t : Table} (h : t.Writable) : asTable (tableItem t) = some t.plain := by
  have hregisters : Cbor.asList asRegister
      (((listField 4 registerItem t.registers).lookup 4).getD .null) = some t.registers := by
    simpa using asList_listField (e := id) t.registers
      (fun r hr => asRegister_registerItem (h.registers.2 r hr)) 4
  have hresources : Cbor.asList asResource
      (((listField 5 resourceItem t.resources).lookup 5).getD .null) = some t.resources := by
    simpa using asList_listField (e := id) t.resources
      (fun r hr => asResource_resourceItem (h.resources.2 r hr)) 5
  have hstates := asList_listField _ (fun s hs => asState_stateItem (h.states.2 s hs)) 6
  simp [asTable, tableItem, List.lookup, List.lookup_append, asId_unsigned h.id,
    asPositive_numberField h.initial, hregisters, hresources, hstates, Table.plain]

theorem asModule_moduleItem {m : Module} (h : m.Writable) :
    asModule (moduleItem m) = some m.plain := by
  have htables := asList_fullList fun t ht => asTable_tableItem (h.tables.2 t ht)
  simp [asModule, moduleItem, List.lookup, List.lookup_append, asId_unsigned h.id,
    asPositive_numberField h.parent, htables, Module.plain]

theorem asChannel_channelItem {c : Channel} (h : c.Writable) :
    asChannel (channelItem c) = some c := by
  have hwriter := asOption_optionField (v := c.writer)
    (fun r hr => ⟨rfl, asResourceRef_resourceRefItem (h.writer r hr)⟩) 3
  have hreader := asOption_optionField (v := c.reader)
    (fun r hr => ⟨rfl, asResourceRef_resourceRefItem (h.reader r hr)⟩) 4
  simp [asChannel, channelItem, List.lookup, List.lookup_append, asId_unsigned h.id,
    asType_typeItem, hwriter, hreader]

theorem ofItem_item {i : Image} (h : i.Writable) : ofItem i.item = some i.plain := by
  have hmodules := asList_fullList fun m hm => asModule_moduleItem (h.modules.2 m hm)
  have hchannels : Cbor.asList asChannel
      (((listField 2 channelItem i.channels).lookup 2).getD .null) = some i.channels := by
    simpa using asList_listField (e := id) i.channels
      (fun c hc => asChannel_channelItem (h.channels.2 c hc)) 2
  simp [ofItem, item, List.lookup, hmodules, hchannels, plain]

end Records

section Nesting

theorem readable_typeItem (t : Rtl.ValueType) (levels : Nat) :
    Readable (levels + 1) (typeItem t) := by
  have hnames : ∀ s ∈ ["Width", "Signed"], Short s := by decide
  refine readable_cells Cbor.ofString (by simp [maxElements]) (fun f hf => ?_)
    fun f hf => ?_
  · exact readable_ofString (hnames f.1 (by fin_cases hf <;> simp)) levels
  · fin_cases hf
    · exact .unsigned t.width.toNat_lt
    · exact .simple (by split <;> decide)

theorem readable_arrayItem (a : Rtl.ArrayShape) (levels : Nat) :
    Readable (levels + 2) (arrayItem a) := by
  have hnames : ∀ s ∈ ["Data", "External", "AddressWidth"], Short s := by decide
  refine readable_cells Cbor.ofString (by simp [maxElements]) (fun f hf => ?_)
    fun f hf => ?_
  · exact readable_ofString (hnames f.1 (by fin_cases hf <;> simp)) _
  · fin_cases hf
    · exact readable_typeItem a.data levels
    · exact .simple (by split <;> decide)
    · exact .unsigned a.addressWidth.toNat_lt

theorem TableRef.Writable.readable {r : TableRef} (h : r.Writable) (levels : Nat) :
    Readable (levels + 1) (tableRefItem r) :=
  ((Sound.nil levels).cons (by decide) (.unsigned h.table)
    |>.cons (by decide) (.unsigned h.module)).readable (by decide)

theorem ResourceRef.Writable.readable {r : ResourceRef} (h : r.Writable) (levels : Nat) :
    Readable (levels + 1) (resourceRefItem r) :=
  ((Sound.nil levels).cons (by decide) (.unsigned h.resource)
    |>.cons (by decide) (.unsigned h.table)
    |>.cons (by decide) (.unsigned h.module)).readable (by decide)

theorem RegisterWritable.readable {r : Rtl.Register} (h : RegisterWritable r) (levels : Nat) :
    Readable (levels + 2) (registerItem r) := by
  have hcode : r.kind.code.toNat < word := r.kind.code.toNat_lt.trans (by decide)
  have hinitial : ∀ v : Int64, Readable (levels + 1) (.ofInt v.toInt) := by
    intro v
    have hlow := v.le_toInt
    have hhigh := v.toInt_lt
    cases hv : v.toInt with
    | ofNat n =>
      rw [hv] at hhigh
      have hn : (n : Int) < 2 ^ 63 := hhigh
      exact .unsigned (by unfold word; omega)
    | negSucc n => exact .negative (by unfold word; omega)
  have hkind := (Sound.nil (levels + 1)).cons (n := 4) (by decide) (.unsigned hcode)
  have hid := (Sound.nil (levels + 1)).cons (n := 1) (by decide) (.unsigned h.id)
  exact ((hid.append (sound_textField (by decide) h.name _)).append
      (hkind.cons (by decide) (readable_typeItem r.type _))
    |>.append (sound_optionField (by decide) fun v _ => hinitial v)).readable (by decide)

theorem Resource.Writable.readable {r : Resource} (h : r.Writable) (levels : Nat) :
    Readable (levels + 3) (resourceItem r) := by
  have hhead := (Sound.nil (levels + 2)).cons (n := 2) (by decide) (readable_ofString h.kind _)
    |>.cons (n := 1) (by decide) (.unsigned h.id)
  have htypes : ∀ t : Rtl.ValueType, True → Readable (levels + 1) (typeItem t) :=
    fun t _ => readable_typeItem t levels
  have hparam : ∀ p : String × String, Short p.1 ∧ Short p.2 →
      Readable (levels + 1) (paramItem p) := by
    intro p hp
    refine .array (by simp [maxElements]) fun i hi => ?_
    obtain rfl | rfl : i = .ofString p.1 ∨ i = .ofString p.2 := by simpa using hi
    · exact readable_ofString hp.1 levels
    · exact readable_ofString hp.2 levels
  exact (hhead.append (sound_listField (by decide) h.inputs htypes)
    |>.append (sound_listField (by decide) h.outputs htypes)
    |>.append (sound_listField (by decide) h.params hparam)
    |>.append (sound_optionField (by decide) fun p hp => (h.parent p hp).readable _)
    |>.append (sound_optionField (by decide) fun c hc => (h.callee c hc).readable _)
    |>.append (sound_optionField (by decide) fun a _ => readable_arrayItem a _)).readable
      (by decide)

theorem Insn.Writable.readable {i : Insn} (h : i.Writable) (levels : Nat) :
    Readable (levels + 2) (insnItem i) := by
  have hhead := (Sound.nil (levels + 1)).cons (n := 2) (by decide) (.unsigned h.resource)
    |>.cons (n := 1) (by decide) (.unsigned h.id)
  have hids : ∀ n, n < word → Readable levels (.unsigned n) := fun n hn => .unsigned hn
  exact (hhead.append (sound_textField (by decide) h.operand _)
    |>.append (sound_listField (by decide) h.targets hids)
    |>.append (sound_listField (by decide) h.inputs hids)
    |>.append (sound_listField (by decide) h.outputs hids)).readable (by decide)

theorem State.Writable.readable {s : State} (h : s.Writable) (levels : Nat) :
    Readable (levels + 4) (stateItem s) :=
  ((sound_listField (by decide) h.insns fun _ hi => hi.readable levels).cons (by decide)
    (.unsigned h.id)).readable (by decide)

theorem Table.Writable.readable {t : Table} (h : t.Writable) (levels : Nat) :
    Readable (levels + 6) (tableItem t) := by
  have hhead := (Sound.nil (levels + 5)).cons (n := 2) (by decide) (readable_ofString h.name _)
    |>.cons (n := 1) (by decide) (.unsigned h.id)
  exact (hhead.append (sound_numberField (by decide) h.initial)
    |>.append (sound_listField (by decide) h.registers fun _ hr => hr.readable (levels + 2))
    |>.append (sound_listField (by decide) h.resources fun _ hr => hr.readable (levels + 1))
    |>.append (sound_listField (by decide) h.states fun _ hs => hs.readable levels)).readable
      (by decide)

theorem Module.Writable.readable {m : Module} (h : m.Writable) (levels : Nat) :
    Readable (levels + 8) (moduleItem m) := by
  have hhead := (Sound.nil (levels + 7)).cons (n := 2) (by decide) (readable_ofString h.name _)
    |>.cons (n := 1) (by decide) (.unsigned h.id)
  have htables := readable_fullList h.tables fun _ ht => ht.readable levels
  exact (hhead.append (sound_numberField (by decide) h.parent)
    |>.append ((Sound.nil _).cons (by decide) htables)).readable (by decide)

theorem Channel.Writable.readable {c : Channel} (h : c.Writable) (levels : Nat) :
    Readable (levels + 2) (channelItem c) := by
  have hhead := (Sound.nil (levels + 1)).cons (n := 2) (by decide) (readable_typeItem c.type _)
    |>.cons (n := 1) (by decide) (.unsigned h.id)
  exact (hhead.append (sound_optionField (by decide) fun r hr => (h.writer r hr).readable _)
    |>.append (sound_optionField (by decide) fun r hr => (h.reader r hr).readable _)).readable
      (by decide)

/-- An image nests ten deep at most. -/
theorem Writable.readable {i : Image} (h : i.Writable) (levels : Nat) :
    Readable (levels + 10) i.item := by
  have hmodules := readable_fullList h.modules fun _ hm => hm.readable levels
  exact ((sound_listField (by decide) h.channels fun _ hc => hc.readable (levels + 6)).cons
    (by decide) hmodules).readable (by decide)

/-- The bytes of an image are read back, up to what they leave out. -/
theorem ofBytes?_bytes {i : Image} (h : i.Writable) : ofBytes? i.bytes = some i.plain := by
  have hdecode : Cbor.decode i.bytes = some i.item := (h.readable 22).decode_encode
  rw [ofBytes?, hdecode, Option.bind_some, ofItem_item h]

end Nesting

section Plain

/-- The kinds of resources that instructions carry are not looked at. -/
theorem skeleton_plain (i : Image) : i.plain.skeleton = i.skeleton := by
  simp [skeleton, plain, skeletonTable, Module.plain, Table.plain, State.plain, Function.comp_def]

theorem findModule?_plain (i : Image) : i.plain.findModule? = i.findModule? := by
  funext id
  simp [findModule?, plain, Module.plain, Function.comp_def]

theorem findTable?_plain (i : Image) (r : TableRef) :
    i.plain.findTable? r = (i.findTable? r).map fun (p, t) => (p, t.plain) := by
  have hnumbers : i.plain.tableNumbers = i.tableNumbers.map fun x => (x.1, x.2.1, x.2.2.plain) := by
    rw [tableNumbers, tableNumbers, List.map_flatten]
    congr 1
    refine List.ext_getElem? fun k => ?_
    simp only [plain, List.getElem?_mapIdx, List.getElem?_map, Option.map_map]
    congr 1
    funext m
    refine List.ext_getElem? fun l => ?_
    simp [Module.plain, Table.plain, Function.comp_def]
  rw [findTable?, findTable?, hnumbers, ← List.map_reverse, List.find?_map]
  simp [Function.comp_def]

theorem findResource?_plain (i : Image) : i.plain.findResource? = i.findResource? := by
  funext r
  simp only [findResource?, findTable?_plain]
  cases i.findTable? ⟨r.module, r.table⟩ <;> rfl

theorem resolveResources_plain (i : Image) (table : String) (k : Nat) (rs : List Resource)
    (t : Rtl.Table) :
    i.plain.resolveResources table k rs t = i.resolveResources table k rs t := by
  have hone : i.plain.resolveResource = i.resolveResource := by
    funext table r
    have htable : ∀ c, (i.plain.findTable? c).map (·.1) = (i.findTable? c).map (·.1) := by
      intro c
      rw [findTable?_plain, Option.map_map]
      rfl
    simp only [resolveResource, findResource?_plain]
    cases r.callee with
    | none => rfl
    | some c =>
      have hc := htable c
      cases h : i.findTable? c <;> cases h' : i.plain.findTable? c <;> simp_all
  induction rs generalizing k t with
  | nil => rfl
  | cons r rest ih => simp only [resolveResources, hone, ih]

theorem resolveStates_plain (table : String) (k : Nat) (ss : List State) (t : Rtl.Table) :
    resolveStates table k (ss.map State.plain) t = resolveStates table k ss t := by
  have hinsns : ∀ (k : Nat) (is : List Insn) (t : Rtl.Table),
      resolveInsns table k (is.map Insn.plain) t = resolveInsns table k is t := by
    intro k is t
    induction is generalizing t with
    | nil => rfl
    | cons i rest ih => simp only [List.map_cons, resolveInsns, ih, Insn.plain, resolveInsn]
  induction ss generalizing k t with
  | nil => rfl
  | cons s rest ih => simp only [List.map_cons, resolveStates, ih, State.plain, hinsns]

theorem resolveTables_plain (i : Image) (m : Nat) (ts : List Table) (d : Rtl.Design) :
    i.plain.resolveTables m (ts.map Table.plain) d = i.resolveTables m ts d := by
  have hone : ∀ (table : String) (t : Table) (r : Rtl.Table),
      i.plain.resolveTable table t.plain r = i.resolveTable table t r := by
    intro table t r
    simp only [resolveTable, Table.plain, resolveResources_plain, resolveStates_plain]
  induction ts generalizing d with
  | nil => rfl
  | cons t rest ih =>
    have hid : t.plain.id = t.id := rfl
    simp only [List.map_cons, resolveTables, findTable?_plain, hone, ih, hid]
    cases i.findTable? ⟨m, t.id⟩ <;> rfl

theorem resolveModules_plain (i : Image) (ms : List Module) (d : Rtl.Design) :
    i.plain.resolveModules (ms.map Module.plain) d = i.resolveModules ms d := by
  induction ms generalizing d with
  | nil => rfl
  | cons m rest ih =>
    simp only [List.map_cons, resolveModules, Module.plain, findModule?_plain,
      resolveTables_plain, ih]

/-- What the bytes leave out is not needed to restore the design. -/
theorem restore_plain (i : Image) : i.plain.restore = i.restore := by
  have hchannels : ∀ cs, i.plain.resolveChannels cs = i.resolveChannels cs := by
    intro cs
    induction cs with
    | nil => rfl
    | cons c rest ih =>
      have hend : ∀ n r, i.plain.resolveEnd n r = i.resolveEnd n r := by
        intro n r
        cases r <;> simp only [resolveEnd, findResource?_plain]
      simp only [resolveChannels, hend, ih]
  have hmodules : i.plain.resolveModules i.plain.modules i.skeleton =
      i.resolveModules i.modules i.skeleton := resolveModules_plain i i.modules i.skeleton
  have hplain : i.plain.channels = i.channels := rfl
  simp only [restore, skeleton_plain, hmodules, hplain, hchannels]

theorem plain_plain (i : Image) : i.plain.plain = i.plain := by
  simp [plain, Module.plain, Table.plain, State.plain, Insn.plain, Function.comp_def]

end Plain

end Image
namespace Rtl

/-- A number that something can have: zero stands for nothing. -/
def IsNumber (id : Nat) : Prop := 0 < id ∧ id < Cbor.word

instance (id : Nat) : Decidable (IsNumber id) := inferInstanceAs (Decidable (_ ∧ _))

structure Table.Numbered (t : Table) : Prop where
  registers : ∀ r ∈ t.registers, IsNumber r.id
  resources : ∀ r ∈ t.resources, IsNumber r.id
  states : ∀ s ∈ t.states, IsNumber s.id
  insns : ∀ id ∈ t.insnIds, IsNumber id

structure Design.Numbered (d : Design) : Prop where
  modules : ∀ m ∈ d.modules, IsNumber m.id
  tables : ∀ m ∈ d.modules, ∀ t ∈ m.tables, IsNumber t.id
  table : ∀ m ∈ d.modules, ∀ t ∈ m.tables, t.Numbered

/-- A design that shows the same as another, and whose tables give away numbers not in use. -/
structure Design.Restores (d' d : Design) : Prop where
  image : d'.image = d.image
  text : d'.text = d.text
  state : ∀ m ∈ d'.modules, ∀ t ∈ m.tables, t.takeState.1 ∉ t.states.map (·.id)
  insn : ∀ m ∈ d'.modules, ∀ t ∈ m.tables, t.takeInsn.1 ∉ t.insnIds

theorem Design.Numbered.recounted_restores {d : Design} (hn : d.Numbered) :
    d.recounted.Restores d := by
  have htable : ∀ m' ∈ d.recounted.modules, ∀ t' ∈ m'.tables,
      ∃ t : Table, t.Numbered ∧ t' = t.recounted := by
    intro m' hm' t' ht'
    obtain ⟨m, hm, rfl⟩ := List.mem_map.mp hm'
    obtain ⟨t, ht, rfl⟩ := List.mem_map.mp ht'
    exact ⟨t, hn.table m hm t ht, rfl⟩
  refine ⟨d.image_recounted, by simp only [Design.text, d.image_recounted], fun m' hm' t' ht' => ?_,
    fun m' hm' t' ht' => ?_⟩
  · obtain ⟨t, ht, rfl⟩ := htable m' hm' t' ht'
    refine succ_largest_notMem (fun id hid => ?_) fun id hid => ?_ <;>
      obtain ⟨s, hs, rfl⟩ := List.mem_map.mp hid
    · exact (ht.states s hs).1
    · exact (ht.states s hs).2
  · obtain ⟨t, ht, rfl⟩ := htable m' hm' t' ht'
    exact succ_largest_notMem (fun id hid => (ht.insns id hid).1) fun id hid => (ht.insns id hid).2

/-- An image that is written and read again leads back to a design that shows the same and is written
in the same way, if reading gives back the image, up to what is not needed to restore it. -/
theorem Design.Numbered.decoded_restores {d : Design} {β : Type} {encode : Image → β}
    {decode : β → Option Image} (hd : d.Closed) (hn : d.Numbered)
    (hcodec : (decode (encode d.image)).map Image.plain = some d.image.plain) :
    ∃ i d', decode (encode d.image) = some i ∧ i.restore = .ok d' ∧ d'.Restores d ∧
      encode d'.image = encode d.image := by
  have hsame := hn.recounted_restores
  obtain ⟨i, hi, hplain⟩ := Option.map_eq_some_iff.mp hcodec
  refine ⟨i, d.recounted, hi, ?_, hsame, by rw [hsame.image]⟩
  rw [← Image.restore_plain i, hplain, Image.restore_plain, Image.restore_image hd]

def clientServer : Design where
  modules := [
    { id := 1, name := "client", parent := none, tables := [
      { id := 1, name := "main",
        registers := [⟨1, "", ⟨8, false⟩, .storage, none⟩, ⟨2, "c", ⟨0, false⟩, .const, some (-1)⟩],
        resources := [
          ⟨1, "tr", [], [], [], none, none, none⟩,
          ⟨2, "sub-module-task-call", [⟨8, false⟩], [], [("NAME", "add")], some ⟨⟨1, 0⟩, 1⟩,
            some ⟨1, 0⟩, none⟩,
          ⟨3, "fifo-writer", [⟨8, false⟩], [], [], none, none, some ⟨4, ⟨8, true⟩, true⟩⟩],
        states := [
          ⟨1, [⟨1, 1, "", [0], [], []⟩, ⟨2, 0, "", [1], [], [1, 0]⟩]⟩,
          ⟨2, [⟨3, 2, "write", [0], [0], []⟩]⟩],
        initial := some 0, lastState := 9, lastInsn := 0 }] },
    { id := 2, name := "server", parent := some 0, tables := [
      { id := 1, name := "add", registers := [],
        resources := [⟨1, "tr", [], [], [], none, none, none⟩,
          ⟨2, "sub-module-task", [], [], [], none, none, none⟩],
        states := [], initial := none, lastState := 0, lastInsn := 0 }] }]
  channels := [⟨1, ⟨8, false⟩, some ⟨⟨0, 0⟩, 2⟩, none⟩]

end Rtl
end MachineSynth
