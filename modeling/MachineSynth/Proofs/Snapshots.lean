import Mathlib
import MachineSynth.Proofs.Legibility
import MachineSynth.Proofs.RoundTrip

/-! Snapshots: the text of a design and its binary form say the same. -/
namespace MachineSynth
namespace Image

section Fields

variable {α γ : Type} {n : Nat} {g : α → Cbor}

/-- What is read from an item is written nowhere else. -/
theorem eq_of_decoded {f : Cbor.Decoder α} {a b : Cbor} {x y : α} (hx : f a = some x)
    (hy : f b = some y) (h : a = b) : x = y := by
  rw [h, hy] at hx
  exact (Option.some.inj hx).symm

theorem lookup_eq_of_numbered_eq {fs gs : List (Nat × Cbor)} (h : numbered fs = numbered gs)
    (n : Nat) : fs.lookup n = gs.lookup n := by
  have hkeyed : keyed fs = keyed gs :=
    eq_of_decoded (asFields_numbered fs) (asFields_numbered gs) h
  have hfields : fs = gs :=
    List.map_injective_iff.mpr (fun f g hfg => by simpa [Prod.ext_iff] using hfg) hkeyed
  rw [hfields]

theorem ofString_inj {s s' : String} (h : Cbor.ofString s = Cbor.ofString s') : s = s' :=
  eq_of_decoded (Cbor.asString_ofString s) (Cbor.asString_ofString s') h

theorem textField_inj {s s' : String}
    (h : (textField n s).lookup n = (textField n s').lookup n) : s = s' :=
  eq_of_decoded (asString_textField n s) (asString_textField n s') (by rw [h])

theorem listField_inj {e : α → γ} {xs ys : List α}
    (hg : ∀ x ∈ xs, ∀ y ∈ ys, g x = g y → e x = e y)
    (h : (listField n g xs).lookup n = (listField n g ys).lookup n) : xs.map e = ys.map e := by
  have hlookup : ∀ xs : List α, ((listField n g xs).lookup n).getD (.array []) =
      .array (xs.map g) := by
    intro xs
    cases xs <;> simp [listField]
  have harray := hlookup xs
  rw [h, hlookup, Cbor.array.injEq] at harray
  exact map_eq_map_of_map_eq hg harray.symm

theorem eq_of_listField_eq {xs ys : List α} (hg : ∀ x ∈ xs, ∀ y ∈ ys, g x = g y → x = y)
    (h : (listField n g xs).lookup n = (listField n g ys).lookup n) : xs = ys := by
  simpa using listField_inj (e := id) hg h

theorem fullList_inj {e : α → γ} {xs ys : List α}
    (hg : ∀ x ∈ xs, ∀ y ∈ ys, g x = g y → e x = e y) (h : fullList g xs = fullList g ys) :
    xs.map e = ys.map e := by
  refine map_eq_map_of_map_eq hg ?_
  cases xs <;> cases ys <;> simp_all [fullList, Cbor.null]

@[simp] theorem lookup_optionField (g : α → Cbor) (v : Option α) :
    (optionField n g v).lookup n = v.map g := by
  cases v <;> simp [optionField]

theorem numberField_inj {v w : Option Nat} (hv : ∀ k ∈ v, 0 < k) (hw : ∀ k ∈ w, 0 < k)
    (h : (numberField n v).lookup n = (numberField n w).lookup n) : v = w := by
  have hlookup : ∀ {v : Option Nat}, (∀ k ∈ v, 0 < k) →
      (numberField n v).lookup n = v.map Cbor.unsigned := by
    intro v hv
    cases v with
    | none => rfl
    | some k => simp [numberField, (hv k rfl).ne']
  rw [hlookup hv, hlookup hw] at h
  exact Option.map_injective (fun _ _ => Cbor.unsigned.inj) h

end Fields

section Items

theorem typeItem_inj {t u : Rtl.ValueType} (h : typeItem t = typeItem u) : t = u :=
  eq_of_decoded (asType_typeItem t) (asType_typeItem u) h

theorem tableRefItem_inj {r s : TableRef} (h : tableRefItem r = tableRefItem s) : r = s := by
  obtain ⟨m, t⟩ := r
  obtain ⟨m', t'⟩ := s
  simpa [tableRefItem, numbered] using h

theorem resourceRefItem_inj {r s : ResourceRef} (h : resourceRefItem r = resourceRefItem s) :
    r = s := by
  obtain ⟨m, t, k⟩ := r
  obtain ⟨m', t', k'⟩ := s
  simpa [resourceRefItem, numbered] using h

theorem registerItem_inj {r s : Rtl.Register} (hr : r.Legible) (hs : s.Legible)
    (h : registerItem r = registerItem s) : r = s := by
  have hat := lookup_eq_of_numbered_eq h
  simp only [List.lookup_append] at hat
  have hid : r.id = s.id := by simpa [List.lookup] using hat 1
  have hname := textField_inj (n := 2) (by simpa [List.lookup] using hat 2)
  have htype := typeItem_inj (by simpa [List.lookup] using hat 3)
  have hcode : r.kind.code = s.kind.code := by
    simpa [List.lookup, UInt8.toNat_inj] using hat 4
  have hkind : r.kind = s.kind := by
    obtain hr | hr | hr := hr.kind <;> obtain hs | hs | hs := hs.kind <;>
      simp [hr, hs, Rtl.RegisterKind.code] at hcode ⊢
  have hinitial : r.initial = s.initial := by
    refine Option.map_injective (fun v w hvw => ?_) (by simpa [List.lookup] using hat 5)
    exact eq_of_decoded (Cbor.asInt64_ofInt v) (Cbor.asInt64_ofInt w) hvw
  obtain ⟨id, name, type, kind, initial⟩ := r
  obtain ⟨id', name', type', kind', initial'⟩ := s
  cases hid
  cases hname
  cases htype
  cases hkind
  cases hinitial
  rfl

theorem resourceItem_inj {r s : Resource} (h : resourceItem r = resourceItem s) : r = s := by
  have hat := lookup_eq_of_numbered_eq h
  simp only [List.lookup_append] at hat
  have hid : r.id = s.id := by simpa [List.lookup] using hat 1
  have hkind := ofString_inj (by simpa [List.lookup] using hat 2)
  have hinputs := eq_of_listField_eq (n := 3) (fun _ _ _ _ => typeItem_inj)
    (by simpa [List.lookup] using hat 3)
  have houtputs := eq_of_listField_eq (n := 4) (fun _ _ _ _ => typeItem_inj)
    (by simpa [List.lookup] using hat 4)
  have hparams := eq_of_listField_eq (n := 5)
    (fun p _ q _ => eq_of_decoded (asPair_paramItem p) (asPair_paramItem q))
    (by simpa [List.lookup] using hat 5)
  have hparent := Option.map_injective (fun _ _ => resourceRefItem_inj)
    (by simpa [List.lookup] using hat 6)
  have hcallee := Option.map_injective (fun _ _ => tableRefItem_inj)
    (by simpa [List.lookup] using hat 7)
  have harray := Option.map_injective
    (fun a b => eq_of_decoded (asArray_arrayItem a) (asArray_arrayItem b))
    (by simpa [List.lookup] using hat 8)
  obtain ⟨id, kind, inputs, outputs, params, parent, callee, array⟩ := r
  obtain ⟨id', kind', inputs', outputs', params', parent', callee', array'⟩ := s
  cases hid
  cases hkind
  cases hinputs
  cases houtputs
  cases hparams
  cases hparent
  cases hcallee
  cases harray
  rfl

theorem insnItem_inj {i j : Insn} (h : insnItem i = insnItem j) : i.plain = j.plain := by
  have hat := lookup_eq_of_numbered_eq h
  simp only [List.lookup_append] at hat
  have hid : i.id = j.id := by simpa [List.lookup] using hat 1
  have hresource : i.resource = j.resource := by simpa [List.lookup] using hat 2
  have hoperand := textField_inj (n := 3) (by simpa [List.lookup] using hat 3)
  have hids : ∀ {n : Nat} {ks ls : List Nat}, (listField n .unsigned ks).lookup n =
      (listField n .unsigned ls).lookup n → ks = ls :=
    eq_of_listField_eq (fun _ _ _ _ => Cbor.unsigned.inj)
  have htargets := hids (n := 4) (by simpa [List.lookup] using hat 4)
  have hinputs := hids (n := 5) (by simpa [List.lookup] using hat 5)
  have houtputs := hids (n := 6) (by simpa [List.lookup] using hat 6)
  simp only [Insn.plain, hid, hresource, hoperand, htargets, hinputs, houtputs]

theorem stateItem_inj {s u : State} (h : stateItem s = stateItem u) : s.plain = u.plain := by
  have hat := lookup_eq_of_numbered_eq h
  have hid : s.id = u.id := by simpa [List.lookup] using hat 1
  have hinsns := listField_inj (n := 2) (fun _ _ _ _ => insnItem_inj)
    (by simpa [List.lookup] using hat 2)
  simp only [State.plain, hid, hinsns]

theorem tableItem_inj {t u : Table} (ht : ∀ k ∈ t.initial, 0 < k) (hu : ∀ k ∈ u.initial, 0 < k)
    (htr : ∀ r ∈ t.registers, r.Legible) (hur : ∀ r ∈ u.registers, r.Legible)
    (h : tableItem t = tableItem u) : t.plain = u.plain := by
  have hat := lookup_eq_of_numbered_eq h
  simp only [List.lookup_append] at hat
  have hid : t.id = u.id := by simpa [List.lookup] using hat 1
  have hname := ofString_inj (by simpa [List.lookup] using hat 2)
  have hinitial := numberField_inj (n := 3) ht hu (by simpa [List.lookup] using hat 3)
  have hregisters := eq_of_listField_eq (n := 4)
    (fun r hr s hs => registerItem_inj (htr r hr) (hur s hs)) (by simpa [List.lookup] using hat 4)
  have hresources := eq_of_listField_eq (n := 5) (fun _ _ _ _ => resourceItem_inj)
    (by simpa [List.lookup] using hat 5)
  have hstates := listField_inj (n := 6) (fun _ _ _ _ => stateItem_inj)
    (by simpa [List.lookup] using hat 6)
  simp only [Table.plain, hid, hname, hinitial, hregisters, hresources, hstates]

/-- No number is zero where a zero would stand for nothing. -/
structure Module.Positive (m : Module) : Prop where
  parent : ∀ k ∈ m.parent, 0 < k
  initial : ∀ t ∈ m.tables, ∀ k ∈ t.initial, 0 < k

theorem moduleItem_inj {m n : Module} (hm : m.Positive) (hn : n.Positive) (hml : m.Legible)
    (hnl : n.Legible) (h : moduleItem m = moduleItem n) : m.plain = n.plain := by
  have hat := lookup_eq_of_numbered_eq h
  simp only [List.lookup_append] at hat
  have hid : m.id = n.id := by simpa [List.lookup] using hat 1
  have hname := ofString_inj (by simpa [List.lookup] using hat 2)
  have hparent := numberField_inj (n := 3) hm.parent hn.parent (by simpa [List.lookup] using hat 3)
  have htables := fullList_inj
    (fun t ht u hu => tableItem_inj (hm.initial t ht) (hn.initial u hu) (hml.tables t ht).registers
      (hnl.tables u hu).registers) (by simpa [List.lookup] using hat 4)
  simp only [Module.plain, hid, hname, hparent, htables]

theorem channelItem_inj {c e : Channel} (h : channelItem c = channelItem e) : c = e := by
  have hat := lookup_eq_of_numbered_eq h
  simp only [List.lookup_append] at hat
  have hid : c.id = e.id := by simpa [List.lookup] using hat 1
  have htype := typeItem_inj (by simpa [List.lookup] using hat 2)
  have hwriter := Option.map_injective (fun _ _ => resourceRefItem_inj)
    (by simpa [List.lookup] using hat 3)
  have hreader := Option.map_injective (fun _ _ => resourceRefItem_inj)
    (by simpa [List.lookup] using hat 4)
  obtain ⟨id, type, writer, reader⟩ := c
  obtain ⟨id', type', writer', reader'⟩ := e
  cases hid
  cases htype
  cases hwriter
  cases hreader
  rfl

theorem item_inj {i j : Image} (hi : ∀ m ∈ i.modules, m.Positive) (hj : ∀ m ∈ j.modules, m.Positive)
    (hil : ∀ m ∈ i.modules, m.Legible) (hjl : ∀ m ∈ j.modules, m.Legible) (h : i.item = j.item) :
    i.plain = j.plain := by
  have hat := lookup_eq_of_numbered_eq h
  have hmodules := fullList_inj
    (fun m hm n hn => moduleItem_inj (hi m hm) (hj n hn) (hil m hm) (hjl n hn))
    (by simpa [List.lookup] using hat 1)
  have hchannels := eq_of_listField_eq (n := 2) (fun _ _ _ _ => channelItem_inj)
    (by simpa [List.lookup] using hat 2)
  simp only [plain, hmodules, hchannels]

/-- The kinds that instructions carry are not written. -/
theorem item_plain (i : Image) : i.plain.item = i.item := by
  have hlist : ∀ {α : Type} {f : α → α} {g : α → Cbor} (n : Nat) (xs : List α),
      (∀ x, g (f x) = g x) → listField n g (xs.map f) = listField n g xs := by
    intro α f g n xs h
    simp [listField, Function.comp_def, h]
  have hfull : ∀ {α : Type} {f : α → α} {g : α → Cbor} (xs : List α),
      (∀ x, g (f x) = g x) → fullList g (xs.map f) = fullList g xs := by
    intro α f g xs h
    simp [fullList, Function.comp_def, h]
  have hinsn : ∀ j : Insn, insnItem j.plain = insnItem j := fun _ => rfl
  have hstate : ∀ s : State, stateItem s.plain = stateItem s := fun s => by
    simp only [stateItem, State.plain, hlist 2 s.insns hinsn]
  have htable : ∀ t : Table, tableItem t.plain = tableItem t := fun t => by
    simp only [tableItem, Table.plain, hlist 6 t.states hstate]
  have hmodule : ∀ m : Module, moduleItem m.plain = moduleItem m := fun m => by
    simp only [moduleItem, Module.plain, hfull m.tables htable]
  simp only [item, plain, hfull i.modules hmodule]

end Items

section Labels

/-- The kind an instruction carries is that of the resource with the number it gives. -/
structure Table.Labelled (t : Table) : Prop where
  ids : (t.resources.map (·.id)).Nodup
  kind : ∀ s ∈ t.states, ∀ i ∈ s.insns, ∃ r ∈ t.resources, r.id = i.resource ∧ r.kind = i.kind

theorem Insn.eq_of_plain_eq {i j : Insn} (h : i.plain = j.plain) (hkind : i.kind = j.kind) :
    i = j := by
  obtain ⟨id, resource, kind, operand, targets, inputs, outputs⟩ := i
  obtain ⟨id', resource', kind', operand', targets', inputs', outputs'⟩ := j
  simp_all [Insn.plain]

theorem State.eq_of_plain_eq {s u : State} (hkind : ∀ i ∈ s.insns, ∀ j ∈ u.insns,
    i.resource = j.resource → i.kind = j.kind) (h : s.plain = u.plain) : s = u := by
  obtain ⟨id, insns⟩ := s
  obtain ⟨id', insns'⟩ := u
  simp only [State.plain, State.mk.injEq] at h
  obtain ⟨rfl, hinsns⟩ := h
  have hinsns : insns = insns' := eq_of_map_eq (fun i hi j hj hij =>
    Insn.eq_of_plain_eq hij (hkind i hi j hj (congrArg Insn.resource hij :))) hinsns
  rw [hinsns]

theorem Table.Labelled.eq_of_plain_eq {t u : Table} (ht : t.Labelled) (hu : u.Labelled)
    (h : t.plain = u.plain) : t = u := by
  have hresources : t.plain.resources = u.plain.resources := congrArg Table.resources h
  change t.resources = u.resources at hresources
  have hkind : ∀ s ∈ t.states, ∀ i ∈ s.insns, ∀ v ∈ u.states, ∀ j ∈ v.insns,
      i.resource = j.resource → i.kind = j.kind := by
    intro s hs i hi v hv j hj hij
    obtain ⟨r, hr, hri, hrk⟩ := ht.kind s hs i hi
    obtain ⟨r', hr', hrj, hrk'⟩ := hu.kind v hv j hj
    rw [← hresources] at hr'
    have hsame : r = r' :=
      List.inj_on_of_nodup_map ht.ids hr hr' (by rw [hri, hrj, hij])
    rw [← hrk, ← hrk', hsame]
  have hstates : t.states = u.states := eq_of_map_eq
    (fun s hs v hv => State.eq_of_plain_eq fun i hi j hj => hkind s hs i hi v hv j hj)
    (congrArg Table.states h)
  obtain ⟨id, name, initial, registers, resources, states⟩ := t
  obtain ⟨id', name', initial', registers', resources', states'⟩ := u
  simp_all [Table.plain]

theorem eq_of_plain_eq {i j : Image} (hi : ∀ m ∈ i.modules, ∀ t ∈ m.tables, t.Labelled)
    (hj : ∀ m ∈ j.modules, ∀ t ∈ m.tables, t.Labelled) (h : i.plain = j.plain) : i = j := by
  have hmodules : i.modules = j.modules := by
    refine eq_of_map_eq (fun m hm n hn hmn => ?_) (congrArg Image.modules h)
    have htables : m.tables = n.tables := eq_of_map_eq
      (fun t ht u hu => (hi m hm t ht).eq_of_plain_eq (hj n hn u hu)) (congrArg Module.tables hmn)
    obtain ⟨id, name, parent, tables⟩ := m
    obtain ⟨id', name', parent', tables'⟩ := n
    simp_all [Module.plain]
  obtain ⟨modules, channels⟩ := i
  obtain ⟨modules', channels'⟩ := j
  simp_all [plain]

end Labels

end Image

namespace Rtl

open Token (IsName)

structure Table.Legible (t : Table) : Prop where
  name : IsName t.name
  registers : ∀ r ∈ t.registers, r.Legible
  kind : ∀ r ∈ t.resources, IsName r.kind
  params : ∀ r ∈ t.resources, ∀ p ∈ r.params, IsName p.1 ∧ IsName p.2
  operand : ∀ s ∈ t.states, ∀ i ∈ s.insns, i.operand = "" ∨ IsName i.operand

/-- All names can be read as symbols; only registers and operands may be empty. -/
structure Design.Legible (d : Design) : Prop where
  name : ∀ m ∈ d.modules, IsName m.name
  table : ∀ m ∈ d.modules, ∀ t ∈ m.tables, t.Legible

section Images

variable {d : Design} {t : Table}

theorem Table.Closed.exists_resource (ht : t.Closed) {s : State} (hs : s ∈ t.states) {i : Insn}
    (hi : i ∈ s.insns) :
    ∃ r ∈ t.resources, r.id = (i.image t).resource ∧ r.kind = (i.image t).kind := by
  have hlt := ht.resource s hs i hi
  refine ⟨t.resources.get ⟨i.resource, hlt⟩, List.get_mem _ _, ?_, ?_⟩ <;>
    simp [Insn.image, hlt]

theorem Table.Closed.labelled (ht : t.Closed) : (t.image d).Labelled := by
  refine ⟨?_, ?_⟩
  · simpa [Table.image, Resource.image, Function.comp_def] using ht.resources
  · simp only [Table.image, List.forall_mem_map]
    intro s hs i hi
    obtain ⟨r, hr, hid, hkind⟩ := ht.exists_resource hs hi
    exact ⟨r.image d, List.mem_map_of_mem hr, hid, hkind⟩

theorem Table.Legible.image (hl : t.Legible) (ht : t.Closed) : (t.image d).Legible := by
  refine ⟨hl.name, hl.registers, ?_, ?_⟩ <;> simp only [Table.image, List.forall_mem_map]
  · exact fun r hr => ⟨hl.kind r hr, hl.params r hr⟩
  · intro s hs i hi
    obtain ⟨r, hr, -, hkind⟩ := ht.exists_resource hs hi
    exact ⟨hkind ▸ hl.kind r hr, hl.operand s hs i hi⟩

theorem Design.Closed.labelled (hd : d.Closed) :
    ∀ m ∈ d.image.modules, ∀ t ∈ m.tables, t.Labelled := by
  simp only [Design.image, Module.image, List.forall_mem_map]
  exact fun m hm t ht => (hd.table m hm t ht).labelled

theorem Design.Legible.image (hl : d.Legible) (hd : d.Closed) :
    ∀ m ∈ d.image.modules, m.Legible := by
  simp only [Design.image, List.forall_mem_map]
  refine fun m hm => ⟨hl.name m hm, ?_⟩
  simp only [Module.image, List.forall_mem_map]
  exact fun t ht => (hl.table m hm t ht).image (hd.table m hm t ht)

theorem Design.Numbered.positive (hn : d.Numbered) : ∀ m ∈ d.image.modules, m.Positive := by
  simp only [Design.image, List.forall_mem_map]
  refine fun m hm => ⟨fun k hk => ?_, ?_⟩
  · obtain ⟨p, hp, rfl⟩ := Option.mem_map.mp hk
    obtain ⟨q, -, hq⟩ := Option.mem_bind_iff.mp hp
    exact (hn.modules p (List.mem_of_getElem? hq)).1
  · simp only [Module.image, List.forall_mem_map]
    intro t ht k hk
    obtain ⟨s, hs, rfl⟩ := Option.mem_map.mp hk
    obtain ⟨q, -, hq⟩ := Option.mem_bind_iff.mp hs
    exact ((hn.table m hm t ht).states s (List.mem_of_getElem? hq)).1

end Images

/-- A table that adds to a register of some name again and again. -/
def accumulator (name : String) : Design where
  modules := [
    { id := 1, name := "top", parent := none, tables := [
      { id := 1, name := "main",
        registers := [
          ⟨1, name, ⟨8, false⟩, .storage, some (-1)⟩,
          ⟨2, "one", ⟨8, false⟩, .const, some 1⟩],
        resources := [
          ⟨1, "tr", [], [], [], none, none, none⟩,
          ⟨2, "add", [⟨8, false⟩, ⟨8, false⟩], [⟨8, false⟩], [("WIDTH", "8")], none, none, none⟩],
        states := [⟨1, [⟨1, 1, "", [0, 1], [0], []⟩, ⟨2, 0, "", [], [], [0]⟩]⟩],
        initial := some 0, lastState := 1, lastInsn := 2 }] }]
  channels := []

theorem accumulator_closed (name : String) : (accumulator name).Closed := by
  refine ⟨by simp [accumulator], by simp [accumulator], ?_, by simp [accumulator],
    by simp [accumulator],
    by simp [accumulator], by simp [accumulator], by simp [accumulator]⟩
  simp only [accumulator, List.forall_mem_singleton]
  constructor <;> simp [Params.keys]

theorem accumulator_numbered (name : String) : (accumulator name).Numbered := by
  refine ⟨by simp [accumulator, IsNumber, Cbor.word], by simp [accumulator, IsNumber, Cbor.word],
    ?_⟩
  simp only [accumulator, List.forall_mem_singleton]
  constructor <;> simp [IsNumber, Cbor.word, Table.insnIds]

theorem accumulator_legible {name : String} (h : name = "" ∨ IsName name) :
    (accumulator name).Legible := by
  refine ⟨by simp [accumulator, IsName, Token.isDelimiter, Token.isBlank], ?_⟩
  simp only [accumulator, List.forall_mem_singleton]
  have hone : IsName "one" := by simp [IsName, Token.isDelimiter, Token.isBlank]
  refine ⟨?_, ?_, ?_, ?_, by simp⟩
  · simp [IsName, Token.isDelimiter, Token.isBlank]
  · simp only [List.forall_mem_cons]
    exact ⟨⟨h, .inl rfl⟩, ⟨.inr hone, .inr (.inl rfl)⟩, List.forall_mem_nil _⟩
  all_goals simp [IsName, Token.isDelimiter, Token.isBlank]

end Rtl
end MachineSynth
