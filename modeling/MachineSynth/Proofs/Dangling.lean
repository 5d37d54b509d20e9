import Mathlib
import MachineSynth.Proofs.Troubles

/-! Dangling references: which images are not restored. Where numbers identify tables an image is
refused just for its dangling references, those to initial states apart, at which nobody looks.
Where they do not, a table may run out of places, and that is a fault. -/
namespace MachineSynth
namespace Image

/-! ### References -/

/-- What a number in an image can stand for. -/
inductive Reference
  | module (id : Nat)
  | table (n : TableRef)
  | resource (n : ResourceRef)
  | state (n : TableRef) (id : Nat)
  | register (n : TableRef) (id : Nat)
deriving DecidableEq, Repr

def Holds (i : Image) (n : TableRef) (t : Table) : Prop :=
  ∃ m ∈ i.modules, t ∈ m.tables ∧ n = ⟨m.id, t.id⟩

def Has (i : Image) : Reference → Prop
  | .module id => ∃ m ∈ i.modules, m.id = id
  | .table n => ∃ t, i.Holds n t
  | .resource n => ∃ t, i.Holds ⟨n.module, n.table⟩ t ∧ ∃ r ∈ t.resources, r.id = n.resource
  | .state n id => ∃ t, i.Holds n t ∧ ∃ s ∈ t.states, s.id = id
  | .register n id => ∃ t, i.Holds n t ∧ ∃ r ∈ t.registers, r.id = id

/-- The references in an image, but for those to initial states. -/
inductive Refers (i : Image) : Reference → Prop
  | moduleParent {m : Module} {p : Nat} (module : m ∈ i.modules) (parent : m.parent = some p) :
      Refers i (.module p)
  | parent {n : TableRef} {t : Table} {r : Resource} {p : ResourceRef} (table : i.Holds n t)
      (resource : r ∈ t.resources) (parent : r.parent = some p) : Refers i (.resource p)
  | callee {n : TableRef} {t : Table} {r : Resource} {c : TableRef} (table : i.Holds n t)
      (resource : r ∈ t.resources) (callee : r.callee = some c) : Refers i (.table c)
  | resource {n : TableRef} {t : Table} {s : State} {x : Insn} (table : i.Holds n t)
      (state : s ∈ t.states) (insn : x ∈ s.insns) :
      Refers i (.resource ⟨n.module, n.table, x.resource⟩)
  | target {n : TableRef} {t : Table} {s : State} {x : Insn} {id : Nat} (table : i.Holds n t)
      (state : s ∈ t.states) (insn : x ∈ s.insns) (target : id ∈ x.targets) : Refers i (.state n id)
  | input {n : TableRef} {t : Table} {s : State} {x : Insn} {id : Nat} (table : i.Holds n t)
      (state : s ∈ t.states) (insn : x ∈ s.insns) (input : id ∈ x.inputs) :
      Refers i (.register n id)
  | output {n : TableRef} {t : Table} {s : State} {x : Insn} {id : Nat} (table : i.Holds n t)
      (state : s ∈ t.states) (insn : x ∈ s.insns) (output : id ∈ x.outputs) :
      Refers i (.register n id)
  | writer {c : Channel} {r : ResourceRef} (channel : c ∈ i.channels) (writer : c.writer = some r) :
      Refers i (.resource r)
  | reader {c : Channel} {r : ResourceRef} (channel : c ∈ i.channels) (reader : c.reader = some r) :
      Refers i (.resource r)

def Starts (i : Image) (r : Reference) : Prop :=
  ∃ n t id, i.Holds n t ∧ t.initial = some id ∧ r = .state n id

/-- Whether numbers identify modules, and tables within a module. -/
structure Unambiguous (i : Image) : Prop where
  modules : (i.modules.map (·.id)).Nodup
  tables : ∀ m ∈ i.modules, (m.tables.map (·.id)).Nodup

section References

variable {i : Image} {n : TableRef} {t : Table} {α β : Type}

theorem lost_eq_nil_iff {find : α → Option β} {trouble : α → RestoreError} {r : Option α} :
    lost find trouble r = [] ↔ ∀ x, r = some x → (find x).isSome := by
  simp [lost, Option.isSome_iff_ne_none]

theorem spread_eq_nil_iff {places : Nat} {troubles : α → List RestoreError} {xs : List α} :
    spread places troubles xs = [] ↔ xs.length ≤ places ∧ ∀ x ∈ xs, troubles x = [] := by
  simp only [spread, List.append_eq_nil_iff, List.flatMap_eq_nil_iff, ite_eq_right_iff,
    List.cons_ne_nil, imp_false, not_lt]
  constructor
  · rintro ⟨h, hle⟩
    rw [List.take_of_length_le hle] at h
    exact ⟨hle, h⟩
  · rintro ⟨hle, h⟩
    rw [List.take_of_length_le hle]
    exact ⟨h, hle⟩

theorem unknown_eq_nil_iff {known ids : List Nat} : unknown known ids = [] ↔ ids ⊆ known := by
  simp [unknown, List.subset_def]

theorem findModule?_isSome_iff {id : Nat} : (i.findModule? id).isSome ↔ i.Has (.module id) := by
  rw [Option.isSome_iff_ne_none, findModule?, ne_eq, lastIndex?_eq_none_iff, not_not]
  simp [Has]

theorem Unambiguous.holds_iff (h : i.Unambiguous) :
    i.Holds n t ↔ ∃ p, i.findTable? n = some (p, t) := by
  constructor
  · rintro ⟨m, hm, ht, rfl⟩
    obtain ⟨p, u, hfind⟩ := findTable?_isSome hm ht
    obtain ⟨m', hm', hu, heq⟩ := findTable?_eq_some hfind
    obtain ⟨hmid, htid⟩ : m.id = m'.id ∧ t.id = u.id := by simpa using heq
    obtain rfl := List.inj_on_of_nodup_map h.modules hm (List.mem_of_getElem? hm') hmid
    obtain rfl := List.inj_on_of_nodup_map (h.tables m hm) ht (List.mem_of_getElem? hu) htid
    exact ⟨p, hfind⟩
  · rintro ⟨p, hfind⟩
    obtain ⟨m, hm, ht, hn⟩ := findTable?_eq_some hfind
    exact ⟨m, List.mem_of_getElem? hm, List.mem_of_getElem? ht, hn⟩

theorem Unambiguous.unique (h : i.Unambiguous) {u : Table} (ht : i.Holds n t) (hu : i.Holds n u) :
    t = u := by
  obtain ⟨p, hp⟩ := h.holds_iff.mp ht
  obtain ⟨q, hq⟩ := h.holds_iff.mp hu
  cases hp.symm.trans hq
  rfl

theorem Unambiguous.findTable?_isSome_iff (h : i.Unambiguous) :
    (i.findTable? n).isSome ↔ i.Has (.table n) := by
  simp only [Option.isSome_iff_exists, Prod.exists, Has, h.holds_iff]
  exact exists_comm

theorem Unambiguous.findResource?_isSome_iff (h : i.Unambiguous) {r : ResourceRef} :
    (i.findResource? r).isSome ↔ i.Has (.resource r) := by
  simp only [findResource?, Has, h.holds_iff]
  cases hfind : i.findTable? ⟨r.module, r.table⟩ with
  | none => simp
  | some found =>
    obtain ⟨p, t⟩ := found
    simp

theorem Unambiguous.has_iff (h : i.Unambiguous) (ht : i.Holds n t) (id : Nat) :
    (i.Has (.resource ⟨n.module, n.table, id⟩) ↔ id ∈ t.resources.map (·.id)) ∧
    (i.Has (.state n id) ↔ id ∈ t.states.map (·.id)) ∧
    (i.Has (.register n id) ↔ id ∈ t.registers.map (·.id)) := by
  have hone : ∀ {P : Table → Prop}, (∃ u, i.Holds n u ∧ P u) ↔ P t :=
    ⟨fun ⟨_, hu, hP⟩ => h.unique ht hu ▸ hP, fun hP => ⟨t, ht, hP⟩⟩
  simp only [Has, hone, List.mem_map, and_self]

/-- Whether all references in a table lead somewhere. -/
structure Anchored (i : Image) (n : TableRef) (t : Table) : Prop where
  parent : ∀ r ∈ t.resources, ∀ p, r.parent = some p → i.Has (.resource p)
  callee : ∀ r ∈ t.resources, ∀ c, r.callee = some c → i.Has (.table c)
  resource : ∀ s ∈ t.states, ∀ x ∈ s.insns, i.Has (.resource ⟨n.module, n.table, x.resource⟩)
  target : ∀ s ∈ t.states, ∀ x ∈ s.insns, ∀ id ∈ x.targets, i.Has (.state n id)
  register : ∀ s ∈ t.states, ∀ x ∈ s.insns, ∀ id ∈ x.inputs ++ x.outputs, i.Has (.register n id)

theorem Unambiguous.table_troubles_eq_nil_iff (h : i.Unambiguous) (ht : i.Holds n t)
    (table : String) : Table.troubles i table t t = [] ↔ i.Anchored n t := by
  simp only [Table.troubles, List.append_eq_nil_iff, spread_eq_nil_iff, le_refl, true_and,
    Resource.troubles, lost_eq_nil_iff, h.findResource?_isSome_iff, h.findTable?_isSome_iff,
    List.flatMap_eq_nil_iff, Insn.troubles, List.map_eq_nil_iff, unknown_eq_nil_iff,
    List.cons_subset, List.nil_subset, and_true]
  constructor
  · rintro ⟨hresources, hstates⟩
    refine ⟨fun r hr => (hresources r hr).1, fun r hr => (hresources r hr).2, ?_, ?_, ?_⟩
    · exact fun s hs x hx => (h.has_iff ht _).1.mpr (hstates s hs x hx).1
    · exact fun s hs x hx id hid => (h.has_iff ht id).2.1.mpr ((hstates s hs x hx).2.1 hid)
    · exact fun s hs x hx id hid => (h.has_iff ht id).2.2.mpr ((hstates s hs x hx).2.2 hid)
  · intro hanchored
    refine ⟨fun r hr => ⟨hanchored.parent r hr, hanchored.callee r hr⟩,
      fun s hs x hx => ⟨?_, ?_, ?_⟩⟩
    · exact (h.has_iff ht _).1.mp (hanchored.resource s hs x hx)
    · exact fun id hid => (h.has_iff ht id).2.1.mp (hanchored.target s hs x hx id hid)
    · exact fun id hid => (h.has_iff ht id).2.2.mp (hanchored.register s hs x hx id hid)

/-- There is no trouble with an image just if each of its references leads somewhere. -/
theorem Unambiguous.troubles_eq_nil_iff (h : i.Unambiguous) :
    i.troubles = [] ↔ ∀ r, i.Refers r → i.Has r := by
  have htable : ∀ m ∈ i.modules, ∀ t ∈ m.tables,
      (∀ x ∈ (i.findTable? ⟨m.id, t.id⟩).toList,
        Table.troubles i (i.skeleton.tableText x.1) x.2 t = []) ↔ i.Anchored ⟨m.id, t.id⟩ t := by
    intro m hm t ht
    have hholds : i.Holds ⟨m.id, t.id⟩ t := ⟨m, hm, ht, rfl⟩
    obtain ⟨p, hp⟩ := h.holds_iff.mp hholds
    simp only [hp, Option.toList_some, List.forall_mem_singleton,
      h.table_troubles_eq_nil_iff hholds]
  have hall : i.troubles = [] ↔
      (∀ m ∈ i.modules, (∀ p, m.parent = some p → i.Has (.module p)) ∧
        ∀ t ∈ m.tables, i.Anchored ⟨m.id, t.id⟩ t) ∧
      ∀ c ∈ i.channels, (∀ r, c.writer = some r → i.Has (.resource r)) ∧
        ∀ r, c.reader = some r → i.Has (.resource r) := by
    simp only [troubles, List.append_eq_nil_iff, List.flatMap_eq_nil_iff, Module.troubles,
      Channel.troubles, lost_eq_nil_iff, findModule?_isSome_iff, h.findResource?_isSome_iff]
    refine and_congr_left' (forall₂_congr fun m hm =>
      and_congr_right' (forall₂_congr fun t ht => ?_))
    exact htable m hm t ht
  rw [hall]
  constructor
  · rintro ⟨hmodules, hchannels⟩ r hr
    have hanchored : ∀ {n t}, i.Holds n t → i.Anchored n t := by
      rintro n t ⟨m, hm, ht, rfl⟩
      exact (hmodules m hm).2 t ht
    cases hr with
    | moduleParent hm hp => exact (hmodules _ hm).1 _ hp
    | parent ht hr hp => exact (hanchored ht).parent _ hr _ hp
    | callee ht hr hc => exact (hanchored ht).callee _ hr _ hc
    | resource ht hs hx => exact (hanchored ht).resource _ hs _ hx
    | target ht hs hx hid => exact (hanchored ht).target _ hs _ hx _ hid
    | input ht hs hx hid =>
      exact (hanchored ht).register _ hs _ hx _ (List.mem_append_left _ hid)
    | output ht hs hx hid =>
      exact (hanchored ht).register _ hs _ hx _ (List.mem_append_right _ hid)
    | writer hc hr => exact (hchannels _ hc).1 _ hr
    | reader hc hr => exact (hchannels _ hc).2 _ hr
  · intro hrefs
    refine ⟨fun m hm => ⟨fun p hp => hrefs _ (.moduleParent hm hp), fun t ht => ?_⟩,
      fun c hc => ⟨fun r hr => hrefs _ (.writer hc hr), fun r hr => hrefs _ (.reader hc hr)⟩⟩
    have hholds : i.Holds ⟨m.id, t.id⟩ t := ⟨m, hm, ht, rfl⟩
    refine ⟨fun r hr p hp => hrefs _ (.parent hholds hr hp),
      fun r hr c hc => hrefs _ (.callee hholds hr hc),
      fun s hs x hx => hrefs _ (.resource hholds hs hx),
      fun s hs x hx id hid => hrefs _ (.target hholds hs hx hid), fun s hs x hx id hid => ?_⟩
    exact (List.mem_append.mp hid).elim (fun hid => hrefs _ (.input hholds hs hx hid))
      fun hid => hrefs _ (.output hholds hs hx hid)

end References

/-! ### Tables of one number -/

/-- Whether a table of an image has more resources or states than the last one of its number. -/
def Overruns (i : Image) : Prop :=
  ∃ n t p u, i.Holds n t ∧ i.findTable? n = some (p, u) ∧
    (u.resources.length < t.resources.length ∨ u.states.length < t.states.length)

section Overruns

variable {i : Image} {α β : Type} {f : Fault}

theorem fault_notMem_lost {find : α → Option β} {trouble : α → RestoreError} {r : Option α}
    (h : ∀ x, trouble x ≠ .fault f) : .fault f ∉ lost find trouble r := by
  simp only [lost, List.mem_map, not_exists, not_and]
  exact fun x _ => h x

theorem fault_mem_spread {places : Nat} {troubles : α → List RestoreError} {xs : List α}
    (h : ∀ x, .fault f ∉ troubles x) :
    .fault f ∈ spread places troubles xs ↔ f = .dangling ∧ places < xs.length := by
  have hnone : .fault f ∉ (xs.take places).flatMap troubles := by
    simp only [List.mem_flatMap, not_exists, not_and]
    exact fun x _ => h x
  simp only [spread, List.mem_append, hnone, false_or]
  split <;> simp_all

theorem fault_mem_table_troubles {table : String} {u t : Table} :
    .fault f ∈ Table.troubles i table u t ↔ f = .dangling ∧
      (u.resources.length < t.resources.length ∨ u.states.length < t.states.length) := by
  have hresource : ∀ r : Resource, .fault f ∉ r.troubles i table := by
    intro r
    rw [Resource.troubles, List.mem_append, not_or]
    exact ⟨fault_notMem_lost (by simp), fault_notMem_lost (by simp)⟩
  have hstate : ∀ s : State, .fault f ∉ s.insns.flatMap (Insn.troubles table u) := by
    simp [Insn.troubles]
  rw [Table.troubles, List.mem_append, fault_mem_spread hresource, fault_mem_spread hstate]
  exact and_or_left.symm

theorem fault_mem_troubles : .fault f ∈ i.troubles ↔ f = .dangling ∧ i.Overruns := by
  have hchannels : .fault f ∉ i.channels.flatMap (Channel.troubles i) := by
    simp only [List.mem_flatMap, Channel.troubles, List.mem_append, not_exists, not_and, not_or]
    exact fun c _ => ⟨fault_notMem_lost (by simp), fault_notMem_lost (by simp)⟩
  have hparent : ∀ m : Module, .fault f ∉ lost i.findModule? RestoreError.parentModule m.parent :=
    fun m => fault_notMem_lost (by simp)
  simp only [troubles, List.mem_append, hchannels, or_false, List.mem_flatMap, Module.troubles,
    hparent, false_or, Option.mem_toList, Prod.exists, fault_mem_table_troubles, Overruns, Holds]
  constructor
  · rintro ⟨m, hm, t, ht, p, u, hfind, rfl, hover⟩
    exact ⟨rfl, _, t, p, u, ⟨m, hm, ht, rfl⟩, hfind, hover⟩
  · rintro ⟨rfl, _, t, p, u, ⟨m, hm, ht, rfl⟩, hfind, hover⟩
    exact ⟨m, hm, t, ht, p, u, hfind, rfl, hover⟩

theorem Unambiguous.not_overruns (h : i.Unambiguous) : ¬ i.Overruns := by
  rintro ⟨n, t, p, u, ht, hfind, hover⟩
  obtain rfl := h.unique ht (h.holds_iff.mpr ⟨p, hfind⟩)
  omega

end Overruns

/-! ### What restoring does -/

def Refused (i : Image) : Prop := ∃ e, i.restore = .error e ∧ ∀ f, e ≠ .fault f

section Refused

variable {i : Image}

theorem restored_iff : (∃ d, i.restore = .ok d) ↔ i.troubles = [] :=
  (restore_reports i).exists_ok_iff

theorem refused_iff (h : ¬ i.Overruns) : i.Refused ↔ i.troubles ≠ [] := by
  constructor
  · rintro ⟨e, he, -⟩ hnil
    have hhead := (restore_reports i).error_iff.mp he
    rw [hnil] at hhead
    cases hhead
  · intro hne
    obtain ⟨e, rest, htroubles⟩ := List.exists_cons_of_ne_nil hne
    refine ⟨e, (restore_reports i).error_iff.mpr (by rw [htroubles]; rfl), ?_⟩
    rintro f rfl
    have hfault : .fault f ∈ i.troubles := htroubles ▸ List.mem_cons_self
    exact h (fault_mem_troubles.mp hfault).2

/-- Where numbers identify tables, an image is refused just for a reference that leads nowhere, and
else restored. References to initial states do not count. -/
theorem refused_iff_dangling (h : i.Unambiguous) :
    (i.Refused ↔ ∃ r, i.Refers r ∧ ¬ i.Has r) ∧
      ((∃ d, i.restore = .ok d) ↔ ∀ r, i.Refers r → i.Has r) := by
  rw [refused_iff h.not_overruns, restored_iff, ne_eq, h.troubles_eq_nil_iff]
  push Not
  exact ⟨Iff.rfl, Iff.rfl⟩

def missingReader : Image where
  modules := [
    ⟨1, "source", none,
      [⟨1, "main", none, [], [⟨1, "channel-write", [], [], [], none, none, none⟩], []⟩]⟩,
    ⟨2, "sink", some 1, [⟨1, "main", none, [], [], []⟩]⟩]
  channels := [⟨1, ⟨8, false⟩, some ⟨1, 1, 1⟩, some ⟨2, 1, 1⟩⟩]

theorem missingReader_refused : missingReader.Unambiguous ∧
    missingReader.Refers (.resource ⟨2, 1, 1⟩) ∧
    ¬ missingReader.Has (.resource ⟨2, 1, 1⟩) ∧ missingReader.Refused := by
  have hunambiguous : missingReader.Unambiguous := ⟨by decide, by decide⟩
  have hrefers : missingReader.Refers (.resource ⟨2, 1, 1⟩) := .reader List.mem_cons_self rfl
  have hlost : ¬ missingReader.Has (.resource ⟨2, 1, 1⟩) := by
    simp [Has, Holds, missingReader]
  exact ⟨hunambiguous, hrefers, hlost,
    (refused_iff_dangling hunambiguous).1.mpr ⟨_, hrefers, hlost⟩⟩

/-- A table that is to start in a state it does not have. -/
def missingInitial : Image where
  modules := [⟨1, "top", none, [⟨1, "main", some 5, [], [], [⟨1, []⟩]⟩]⟩]
  channels := []

/-- The reference to the initial state is lost, and nothing is said about it. -/
theorem missingInitial_restored : missingInitial.Unambiguous ∧
    missingInitial.Starts (.state ⟨1, 1⟩ 5) ∧
    ¬ missingInitial.Has (.state ⟨1, 1⟩ 5) ∧ ¬ missingInitial.Refused ∧
    missingInitial.restore =
      .ok ⟨[⟨1, "top", none, [⟨1, "main", [], [], [⟨1, []⟩], none, 1, 0⟩]⟩], []⟩ := by
  have hrestore : missingInitial.restore =
      .ok ⟨[⟨1, "top", none, [⟨1, "main", [], [], [⟨1, []⟩], none, 1, 0⟩]⟩], []⟩ := rfl
  refine ⟨⟨by decide, by decide⟩, ?_, by simp [Has, Holds, missingInitial], ?_, hrestore⟩
  · exact ⟨⟨1, 1⟩, _, 5, ⟨_, List.mem_cons_self, List.mem_cons_self, rfl⟩, rfl, rfl⟩
  · rintro ⟨e, he, -⟩
    rw [hrestore] at he
    cases he

/-- A design or an error is the answer unless a table has more resources or states than the last
one of its number, and then it is never a design. The answer is a fault just if this is the first
trouble that is met. -/
theorem restore_safe (i : Image) :
    (¬ i.Overruns → (∃ d, i.restore = .ok d) ∨ i.Refused) ∧
    (i.Overruns → ∀ d, i.restore ≠ .ok d) ∧
    ∀ f, i.restore = .error (.fault f) ↔ i.troubles.head? = some (.fault f) := by
  refine ⟨fun h => ?_, fun h d hd => ?_, fun f => (restore_reports i).error_iff⟩
  · rw [restored_iff, refused_iff h]
    exact em _
  · have hfault : .fault .dangling ∈ i.troubles := fault_mem_troubles.mpr ⟨rfl, h⟩
    rw [restored_iff.mp ⟨d, hd⟩] at hfault
    cases hfault

/-- Two tables of one number, of which the first has a resource and the second none. -/
def repeatedTable : Image where
  modules := [⟨1, "top", none, [
    ⟨1, "main", none, [], [⟨1, "tr", [], [], [], none, none, none⟩], []⟩,
    ⟨1, "main", none, [], [], []⟩]⟩]
  channels := []

theorem repeatedTable_fault : repeatedTable.restore = .error (.fault .dangling) := rfl

end Refused

end Image
end MachineSynth
