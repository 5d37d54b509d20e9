import Mathlib
import MachineSynth.Rtl.Restore

/-! Restoring: the image of a design leads back to the design. What refers to something by position
is written with its number, and numbers that are unique in their scope lead back to the same
positions. Only the counters of a table are not written; they are counted anew. -/
namespace MachineSynth

theorem modify_append_cons {α : Type} (as bs : List α) (x : α) (f : α → α) :
    (as ++ x :: bs).modify as.length f = as ++ f x :: bs := by
  induction as with
  | nil => simp
  | cons a as ih => simpa using ih

theorem find?_eq_of_unique {α : Type} {p : α → Bool} {l : List α} {x : α} (hx : x ∈ l)
    (hp : p x = true) (h : ∀ y ∈ l, p y = true → y = x) : l.find? p = some x := by
  cases hfind : l.find? p with
  | none => exact absurd hp (by simpa using List.find?_eq_none.mp hfind x hx)
  | some y => rw [h y (List.mem_of_find?_eq_some hfind) (List.find?_some hfind)]

namespace Rtl

def largest (ids : List Nat) : Nat := ids.foldl max 0

theorem foldl_max_le {ids : List Nat} {n m : Nat} : ids.foldl max n ≤ m ↔ n ≤ m ∧ ∀ id ∈ ids, id ≤ m := by
  induction ids generalizing n with
  | nil => simp
  | cons id rest ih =>
    rw [List.foldl_cons, ih, max_le_iff]
    simp [and_assoc]

theorem le_largest {ids : List Nat} {id : Nat} (h : id ∈ ids) : id ≤ largest ids :=
  (foldl_max_le.mp (le_refl (largest ids))).2 id h

theorem largest_le {ids : List Nat} {m : Nat} (h : ∀ id ∈ ids, id ≤ m) : largest ids ≤ m :=
  foldl_max_le.mpr ⟨Nat.zero_le _, h⟩

theorem largest_append (as bs : List Nat) :
    largest (as ++ bs) = bs.foldl max (largest as) := by
  simp [largest]

namespace Table

def insnIds (t : Table) : List Nat := t.states.flatMap fun s => s.insns.map (·.id)

/-- The table with its counters at the largest numbers in use. -/
def recounted (t : Table) : Table :=
  { t with lastState := largest (t.states.map (·.id)), lastInsn := largest t.insnIds }

/-- Numbers are unique, and all that a table refers to inside itself is there. -/
structure Closed (t : Table) : Prop where
  registers : (t.registers.map (·.id)).Nodup
  resources : (t.resources.map (·.id)).Nodup
  states : (t.states.map (·.id)).Nodup
  resource : ∀ s ∈ t.states, ∀ i ∈ s.insns, i.resource < t.resources.length
  inputs : ∀ s ∈ t.states, ∀ i ∈ s.insns, ∀ r ∈ i.inputs, r < t.registers.length
  outputs : ∀ s ∈ t.states, ∀ i ∈ s.insns, ∀ r ∈ i.outputs, r < t.registers.length
  targets : ∀ s ∈ t.states, ∀ i ∈ s.insns, ∀ k ∈ i.targets, k < t.states.length
  initial : ∀ k ∈ t.initial, k < t.states.length
  params : ∀ r ∈ t.resources, r.params.keys.Nodup

end Table

namespace Design

/-- The design with the counters of its tables at the largest numbers in use. -/
def recounted (d : Design) : Design :=
  { d with modules := d.modules.map fun m => { m with tables := m.tables.map Table.recounted } }

/-- Numbers are unique in their scope, and all references stay in the design. -/
structure Closed (d : Design) : Prop where
  modules : (d.modules.map (·.id)).Nodup
  tables : ∀ m ∈ d.modules, (m.tables.map (·.id)).Nodup
  table : ∀ m ∈ d.modules, ∀ t ∈ m.tables, t.Closed
  moduleParent : ∀ m ∈ d.modules, ∀ p ∈ m.parent, p < d.modules.length
  parent : ∀ m ∈ d.modules, ∀ t ∈ m.tables, ∀ r ∈ t.resources, ∀ p ∈ r.parent,
    (d.resource? p).isSome
  callee : ∀ m ∈ d.modules, ∀ t ∈ m.tables, ∀ r ∈ t.resources, ∀ c ∈ r.callee,
    (d.table? c).isSome
  writer : ∀ c ∈ d.channels, ∀ r ∈ c.writer, (d.resource? r).isSome
  reader : ∀ c ∈ d.channels, ∀ r ∈ c.reader, (d.resource? r).isSome

end Design

/-- Setting parameters one by one makes the same list of them, if no key is set twice. -/
theorem Params.foldl_set {p q : Params} (h : (q.keys ++ p.keys).Nodup) :
    p.foldl (fun p (k, v) => p.set k v) q = q ++ p := by
  have hset : ∀ {q : Params} {k v : String}, k ∉ q.keys → q.set k v = q ++ [(k, v)] := by
    intro q k v hk
    induction q with
    | nil => rfl
    | cons x rest ih =>
      have hne : x.1 ≠ k := by rintro rfl; exact hk (by simp [keys])
      simp only [set, hne, if_false, List.cons_append]
      rw [ih fun h => hk (by simp only [keys, List.map_cons]; exact List.mem_cons_of_mem _ h)]
  induction p generalizing q with
  | nil => simp
  | cons x rest ih =>
    obtain ⟨k, v⟩ := x
    have hk : k ∉ q.keys := fun hk =>
      (List.nodup_append.mp h).2.2 k hk k (by simp [keys]) rfl
    have hstep : q.set k v = q ++ [(k, v)] := hset hk
    rw [List.foldl_cons]
    simp only [hstep]
    rw [ih (by simpa [keys] using h), List.append_assoc, List.singleton_append]

end Rtl

namespace Image

open Rtl (largest)

theorem lastIndex?_of_not_mem {ids : List Nat} {id : Nat} (h : id ∉ ids) :
    lastIndex? id ids = none := by
  induction ids with
  | nil => rfl
  | cons n rest ih =>
    rw [List.mem_cons, not_or] at h
    simp [lastIndex?, ih h.2, Ne.symm h.1]

/-- In a list without repetitions a number stands at one position. -/
theorem lastIndex?_eq {ids : List Nat} (h : ids.Nodup) {k id : Nat} (hk : ids[k]? = some id) :
    lastIndex? id ids = some k := by
  induction ids generalizing k with
  | nil => simp at hk
  | cons n rest ih =>
    rw [List.nodup_cons] at h
    cases k with
    | zero =>
      cases Option.some.inj hk
      simp [lastIndex?, lastIndex?_of_not_mem h.1]
    | succ k => simp [lastIndex?, ih h.2 hk]

/-- The numbers of what positions refer to lead back to the positions. -/
theorem resolveAll_image {α : Type} {xs : List α} {id : α → Nat} (h : (xs.map id).Nodup)
    (missing : Nat → RestoreError) {ks : List Nat} (hks : ∀ k ∈ ks, k < xs.length) :
    resolveAll (xs.map id) missing (ks.map fun k => ((xs[k]?).map id).getD 0) = .ok ks := by
  induction ks with
  | nil => rfl
  | cons k rest ih =>
    have hlt := hks k (by simp)
    have hk : (xs.map id)[k]? = some (id xs[k]) := by simp [hlt]
    have hrest := ih fun j hj => hks j (by simp [hj])
    simp only [List.map_cons, resolveAll, List.getElem?_eq_getElem hlt, Option.map_some,
      Option.getD_some, lastIndex?_eq h hk, hrest]
    rfl

section Numbers

variable {d : Rtl.Design}

theorem mem_tableNumbers {i : Image} {p : Rtl.TableRef} {n : TableRef} {t : Table} :
    (p, n, t) ∈ i.tableNumbers ↔ ∃ m, i.modules[p.module]? = some m ∧
      m.tables[p.table]? = some t ∧ n = ⟨m.id, t.id⟩ := by
  obtain ⟨pm, pt⟩ := p
  simp only [tableNumbers, List.mem_flatten, List.mem_mapIdx]
  constructor
  · rintro ⟨l, ⟨a, ha, rfl⟩, hl⟩
    obtain ⟨b, hb, heq⟩ := List.mem_mapIdx.mp hl
    simp only [Prod.mk.injEq, Rtl.TableRef.mk.injEq] at heq
    obtain ⟨⟨rfl, rfl⟩, rfl, rfl⟩ := heq
    exact ⟨_, List.getElem?_eq_getElem ha, List.getElem?_eq_getElem hb, rfl⟩
  · rintro ⟨m, hm, ht, rfl⟩
    obtain ⟨hlt, rfl⟩ := List.getElem?_eq_some_iff.mp hm
    obtain ⟨hlt', rfl⟩ := List.getElem?_eq_some_iff.mp ht
    exact ⟨_, ⟨pm, hlt, rfl⟩, List.mem_mapIdx.mpr ⟨pt, hlt', rfl⟩⟩

/-- Two positions with one number are the same, if numbers are unique. -/
theorem eq_of_ids {α : Type} {xs : List α} {id : α → Nat} (h : (xs.map id).Nodup) {i j : Nat}
    {x y : α} (hi : xs[i]? = some x) (hj : xs[j]? = some y) (hid : id x = id y) : i = j := by
  have hi' : (xs.map id)[i]? = some (id x) := by simp [hi]
  have hj' : (xs.map id)[j]? = some (id x) := by simp [hj, hid]
  exact Option.some.inj ((lastIndex?_eq h hi').symm.trans (lastIndex?_eq h hj'))

theorem findTable?_number (hd : d.Closed) {p : Rtl.TableRef} {m : Rtl.Module} {t : Rtl.Table}
    (hm : d.modules[p.module]? = some m) (ht : m.tables[p.table]? = some t) :
    d.image.findTable? ⟨m.id, t.id⟩ = some (p, t.image d) := by
  have hmem : (p, ⟨m.id, t.id⟩, t.image d) ∈ d.image.tableNumbers := by
    refine mem_tableNumbers.mpr ⟨m.image d, ?_, ?_, rfl⟩
    · simp [Rtl.Design.image, hm]
    · simp [Rtl.Module.image, ht]
  have hunique : ∀ y ∈ d.image.tableNumbers, decide (y.2.1 = ⟨m.id, t.id⟩) = true →
      y = (p, ⟨m.id, t.id⟩, t.image d) := by
    rintro ⟨q, n, t'⟩ hy hn
    obtain ⟨m', hm', ht', rfl⟩ := mem_tableNumbers.mp hy
    simp only [Rtl.Design.image, List.getElem?_map] at hm'
    obtain ⟨m₁, hm₁, rfl⟩ := Option.map_eq_some_iff.mp hm'
    simp only [Rtl.Module.image, List.getElem?_map] at ht'
    obtain ⟨t₁, ht₁, rfl⟩ := Option.map_eq_some_iff.mp ht'
    have hids : m₁.id = m.id ∧ t₁.id = t.id := by simpa [Rtl.Module.image, Rtl.Table.image] using hn
    obtain ⟨qm, qt⟩ := q
    obtain rfl : qm = p.module := eq_of_ids hd.modules hm₁ hm hids.1
    cases hm₁.symm.trans hm
    obtain rfl : qt = p.table :=
      eq_of_ids (hd.tables m (List.mem_of_getElem? hm)) ht₁ ht hids.2
    cases ht₁.symm.trans ht
    rfl
  have hfind := find?_eq_of_unique (List.mem_reverse.mpr hmem)
    (p := fun y => decide (y.2.1 = ⟨m.id, t.id⟩)) (by simp)
    fun y hy => hunique y (List.mem_reverse.mp hy)
  simp only [findTable?]
  exact congrArg (Option.map _) hfind

theorem findTable?_image (hd : d.Closed) {p : Rtl.TableRef} (h : (d.table? p).isSome) :
    ∃ x, d.image.findTable? (d.tableNumber p) = some (p, x) := by
  obtain ⟨t, ht⟩ := Option.isSome_iff_exists.mp h
  obtain ⟨m, hm, ht'⟩ := Option.bind_eq_some_iff.mp ht
  refine ⟨t.image d, ?_⟩
  simpa [Rtl.Design.tableNumber, hm, ht] using findTable?_number hd hm ht'

theorem findResource?_image (hd : d.Closed) {p : Rtl.ResourceRef} (h : (d.resource? p).isSome) :
    d.image.findResource? (d.resourceNumber p) = some p := by
  obtain ⟨r, hr⟩ := Option.isSome_iff_exists.mp h
  obtain ⟨t, ht, hr'⟩ := Option.bind_eq_some_iff.mp hr
  obtain ⟨m, hm, ht'⟩ := Option.bind_eq_some_iff.mp ht
  have htable := findTable?_number hd hm ht'
  have hnodup := (hd.table m (List.mem_of_getElem? hm) t (List.mem_of_getElem? ht')).resources
  have hindex : (t.image d).resources.findIdx? (·.id = r.id) = some p.resource := by
    obtain ⟨hlt, hget⟩ := List.getElem?_eq_some_iff.mp hr'
    refine List.findIdx?_eq_some_iff_getElem.mpr ⟨by simpa [Rtl.Table.image] using hlt, ?_, ?_⟩
    · simp [Rtl.Table.image, Rtl.Resource.image, hget]
    · intro j hj
      have hj' : j < t.resources.length := by omega
      have hne : (t.resources[j]).id ≠ r.id := fun heq =>
        absurd (eq_of_ids hnodup (List.getElem?_eq_getElem hj') hr' heq) (by omega)
      simpa [Rtl.Table.image, Rtl.Resource.image] using hne
  simp only [findResource?, Rtl.Design.resourceNumber, Rtl.Design.tableNumber, hm, ht, hr,
    Option.map_some, Option.getD_some, htable, Option.bind_some, hindex]

end Numbers

section Tables

variable {d : Rtl.Design} {t : Rtl.Table}

theorem resolveInsn_image (ht : t.Closed) {r : Rtl.Table}
    (hregisters : r.registers.map (·.id) = t.registers.map (·.id))
    (hresources : r.resources.map (·.id) = t.resources.map (·.id))
    (hstates : r.states.map (·.id) = t.states.map (·.id)) (table : String) {s : Rtl.State}
    (hs : s ∈ t.states) {i : Rtl.Insn} (hi : i ∈ s.insns) :
    resolveInsn r table (i.image t) = .ok i := by
  have hresource : lastIndex? (i.image t).resource (t.resources.map (·.id)) = some i.resource := by
    have hlt := ht.resource s hs i hi
    refine lastIndex?_eq ht.resources ?_
    simp [Rtl.Insn.image, hlt]
  simp only [resolveInsn, hregisters, hresources, hstates, hresource]
  have htargets := resolveAll_image ht.states (.state · table) (ht.targets s hs i hi)
  have hinputs := resolveAll_image ht.registers (fun _ => .register table) (ht.inputs s hs i hi)
  have houtputs := resolveAll_image ht.registers (fun _ => .register table) (ht.outputs s hs i hi)
  simp only [Rtl.Insn.image, htargets, hinputs, houtputs]
  rfl

def partTable (t : Rtl.Table) (done rest : List Rtl.State) (part : List Rtl.State) : Rtl.Table :=
  { t with
    states := done ++ part ++ rest.map fun s => ⟨s.id, []⟩
    lastState := largest (t.states.map (·.id))
    lastInsn := largest ((done ++ part).flatMap fun s => s.insns.map (·.id)) }

theorem resolveInsns_image (ht : t.Closed) (table : String) {done rest : List Rtl.State}
    {s : Rtl.State} (hstates : t.states = done ++ s :: rest) (is js : List Rtl.Insn)
    (hs : s.insns = is ++ js) :
    resolveInsns table done.length (js.map (Rtl.Insn.image t)) (partTable t done rest [⟨s.id, is⟩]) =
      .ok (partTable t done rest [s]) := by
  induction js generalizing is with
  | nil =>
    have hs' : s = ⟨s.id, is⟩ := by cases s; simp_all
    rw [← hs']
    rfl
  | cons j js ih =>
    have hinsn : resolveInsn (partTable t done rest [⟨s.id, is⟩]) table (j.image t) = .ok j := by
      refine resolveInsn_image (r := partTable t done rest [⟨s.id, is⟩]) ht rfl rfl ?_ table
        (s := s) (by simp [hstates])
        (hs ▸ List.mem_append_right _ List.mem_cons_self)
      simp [partTable, hstates]
    simp only [List.map_cons, resolveInsns, hinsn]
    have hnext : ({ partTable t done rest [⟨s.id, is⟩] with
        states := (partTable t done rest [⟨s.id, is⟩]).states.modify done.length
          fun s => { s with insns := s.insns ++ [j] }
        lastInsn := max (partTable t done rest [⟨s.id, is⟩]).lastInsn (j.image t).id } : Rtl.Table) =
        partTable t done rest [⟨s.id, is ++ [j]⟩] := by
      simp only [partTable, List.append_assoc, List.singleton_append, modify_append_cons]
      congr 1
      simp [Rtl.largest_append, Rtl.Insn.image]
    exact (congrArg _ hnext).trans (ih _ (by simp [hs]))

theorem resolveStates_image (ht : t.Closed) (table : String) (done rest : List Rtl.State)
    (hstates : t.states = done ++ rest) :
    resolveStates table done.length (rest.map fun s => ⟨s.id, s.insns.map (Rtl.Insn.image t)⟩)
      (partTable t done rest []) = .ok t.recounted := by
  induction rest generalizing done with
  | nil =>
    rw [List.append_nil] at hstates
    simp [resolveStates, partTable, ← hstates, Rtl.Table.recounted, Rtl.Table.insnIds]
    rfl
  | cons s rest ih =>
    have hlt : done.length < (partTable t done (s :: rest) []).states.length := by
      simp [partTable]
    have hfirst : partTable t done (s :: rest) [] = partTable t done rest [⟨s.id, []⟩] := by
      simp [partTable]
    have hnext : partTable t done rest [s] = partTable t (done ++ [s]) rest [] := by
      simp [partTable]
    have hinsns := resolveInsns_image ht table hstates [] s.insns rfl
    have hrest := ih (done ++ [s]) (by simp [hstates])
    rw [List.length_append, List.length_singleton] at hrest
    simp only [List.map_cons, resolveStates, if_pos hlt]
    rw [hfirst, hinsns, hnext]
    exact hrest

theorem resolveResource_image (hd : d.Closed) {m : Rtl.Module} (hm : m ∈ d.modules)
    (ht : t ∈ m.tables) (table : String) {r : Rtl.Resource} (hr : r ∈ t.resources) :
    resolveResource d.image table (r.image d) = .ok (r.parent, r.callee) := by
  have hparent : ∀ p ∈ r.parent, d.image.findResource? (d.resourceNumber p) = some p :=
    fun p hp => findResource?_image hd (hd.parent m hm t ht r hr p hp)
  have hcallee : ∀ c ∈ r.callee, ∃ x, d.image.findTable? (d.tableNumber c) = some (c, x) :=
    fun c hc => findTable?_image hd (hd.callee m hm t ht r hr c hc)
  simp only [resolveResource, Rtl.Resource.image]
  cases hp : r.parent with
  | none =>
    cases hc : r.callee with
    | none => rfl
    | some c =>
      obtain ⟨x, hx⟩ := hcallee c hc
      simp [hx]
      rfl
  | some p =>
    cases hc : r.callee with
    | none =>
      simp [hparent p hp]
      rfl
    | some c =>
      obtain ⟨x, hx⟩ := hcallee c hc
      simp [hparent p hp, hx]
      rfl

/-- A table without states, whose resources from `done` on refer to nothing yet. -/
def skeletonWith (t : Rtl.Table) (done rest : List Rtl.Resource) : Rtl.Table :=
  { t with
    resources := done ++ rest.map fun r => { r with parent := none, callee := none }
    states := t.states.map fun s => ⟨s.id, []⟩
    initial := none
    lastState := largest (t.states.map (·.id))
    lastInsn := 0 }

theorem skeletonTable_image (ht : t.Closed) :
    skeletonTable (t.image d) = skeletonWith t [] t.resources := by
  have hresources : ∀ r ∈ t.resources,
      r.params.foldl (fun (p : Rtl.Params) (k, v) => p.set k v) [] = r.params := fun r hr => by
    simpa using Rtl.Params.foldl_set (q := []) (by simpa [Rtl.Params.keys] using ht.params r hr)
  simp only [skeletonTable, skeletonWith, Rtl.Table.image, List.map_map, List.nil_append]
  congr 1
  refine List.map_congr_left fun r hr => ?_
  simp only [Function.comp, Rtl.Resource.image]
  rw [hresources r hr]

theorem resolveResources_image (hd : d.Closed) {m : Rtl.Module} (hm : m ∈ d.modules)
    (ht : t ∈ m.tables) (table : String) (done rest : List Rtl.Resource)
    (hresources : t.resources = done ++ rest) :
    resolveResources d.image table done.length (rest.map (Rtl.Resource.image d))
      (skeletonWith t done rest) = .ok (skeletonWith t t.resources []) := by
  induction rest generalizing done with
  | nil =>
    rw [List.append_nil] at hresources
    rw [← hresources]
    rfl
  | cons r rest ih =>
    have hlt : done.length < (skeletonWith t done (r :: rest)).resources.length := by
      simp [skeletonWith]
    have hr := resolveResource_image hd hm ht table (r := r) (by simp [hresources])
    have hrest := ih (done ++ [r]) (by simp [hresources])
    rw [List.length_append, List.length_singleton] at hrest
    simp only [List.map_cons, resolveResources, if_pos hlt, hr]
    have hnext : ({ skeletonWith t done (r :: rest) with
        resources := (skeletonWith t done (r :: rest)).resources.modify done.length fun x =>
          { x with parent := r.parent, callee := if r.callee.isSome then r.callee else x.callee } } :
          Rtl.Table) = skeletonWith t (done ++ [r]) rest := by
      simp only [skeletonWith, List.map_cons, modify_append_cons]
      have hcallee : (if r.callee.isSome then r.callee else none) = r.callee := by
        cases r.callee <;> rfl
      simp [hcallee]
    exact (congrArg _ hnext).trans hrest

theorem resolveTable_image (hd : d.Closed) {m : Rtl.Module} (hm : m ∈ d.modules)
    (ht : t ∈ m.tables) (table : String) :
    resolveTable d.image table (t.image d) (skeletonTable (t.image d)) = .ok t.recounted := by
  have hclosed := hd.table m hm t ht
  have hstates := resolveStates_image hclosed table [] t.states rfl
  have hresources := resolveResources_image hd hm ht table [] t.resources rfl
  rw [skeletonTable_image hclosed]
  simp only [resolveTable, Rtl.Table.image]
  have hbind : (resolveResources d.image table 0 (t.resources.map (Rtl.Resource.image d))
      (skeletonWith t [] t.resources) : Restore Rtl.Table) = .ok (skeletonWith t t.resources []) :=
    hresources
  rw [hbind]
  refine (congrArg (resolveStates table 0 _) ?_).trans hstates
  cases hi : t.initial with
  | none => simp [skeletonWith, partTable, hi, largest]
  | some k =>
    have hlt := hclosed.initial k (by simp [hi])
    have hk : (t.states.map (·.id))[k]? = some (t.states[k]).id := by simp [hlt]
    simp [skeletonWith, partTable, hi, hlt, Function.comp_def, lastIndex?_eq hclosed.states hk,
      largest]

end Tables

section Designs

variable {d : Rtl.Design}

/-- A module in which the tables from `done` on hold nothing that refers to anything. -/
def partModule (d : Rtl.Design) (m : Rtl.Module) (done rest : List Rtl.Table) : Rtl.Module :=
  { m with tables := done.map Rtl.Table.recounted ++ rest.map fun t => skeletonTable (t.image d) }

def partDesign (d : Rtl.Design) (before after : List Rtl.Module) (m : Rtl.Module) : Rtl.Design :=
  ⟨before.map (fun m => partModule d m m.tables []) ++ m ::
    after.map fun m => { partModule d m [] m.tables with parent := none }, []⟩

theorem resolveTables_image (hd : d.Closed) {before after : List Rtl.Module} {m : Rtl.Module}
    (hmodules : d.modules = before ++ m :: after) (done rest : List Rtl.Table)
    (htables : m.tables = done ++ rest) :
    resolveTables d.image m.id (rest.map (Rtl.Table.image d))
      (partDesign d before after (partModule d m done rest)) =
        .ok (partDesign d before after (partModule d m m.tables [])) := by
  induction rest generalizing done with
  | nil =>
    rw [List.append_nil] at htables
    rw [← htables]
    rfl
  | cons t rest ih =>
    have hm : d.modules[before.length]? = some m := by simp [hmodules]
    have ht : m.tables[done.length]? = some t := by simp [htables]
    have hfind := findTable?_number hd (p := ⟨before.length, done.length⟩) hm ht
    have htable : (partDesign d before after (partModule d m done (t :: rest))).table?
        ⟨before.length, done.length⟩ = some (skeletonTable (t.image d)) := by
      simp [Rtl.Design.table?, partDesign, partModule]
    have hrest := ih (done ++ [t]) (by simp [htables])
    have hresolve := fun name => resolveTable_image hd (List.mem_of_getElem? hm)
      (List.mem_of_getElem? ht) name
    have hnext : (partDesign d before after (partModule d m done (t :: rest))).updateTable
        ⟨before.length, done.length⟩ (fun _ => t.recounted) =
          partDesign d before after (partModule d m (done ++ [t]) rest) := by
      have hlen : before.length = (before.map fun m => partModule d m m.tables []).length := by simp
      have hlen' : done.length = (done.map Rtl.Table.recounted).length := by simp
      simp only [Rtl.Design.updateTable, partDesign]
      rw [hlen, modify_append_cons]
      simp only [partModule, List.map_cons]
      rw [hlen', modify_append_cons]
      simp
    have hid : (t.image d).id = t.id := rfl
    simp only [List.map_cons, resolveTables, hid, hfind, Option.bind_some, htable, Option.map_some,
      hresolve]
    exact (congrArg _ hnext).trans hrest

theorem resolveModules_image (hd : d.Closed) (before after : List Rtl.Module)
    (hmodules : d.modules = before ++ after) :
    resolveModules d.image (after.map (Rtl.Module.image d))
      ⟨before.map (fun m => partModule d m m.tables []) ++
        after.map (fun m => { partModule d m [] m.tables with parent := none }), []⟩ =
      .ok ⟨d.recounted.modules, []⟩ := by
  induction after generalizing before with
  | nil =>
    rw [List.append_nil] at hmodules
    simp [resolveModules, Rtl.Design.recounted, partModule, hmodules]
    rfl
  | cons m after ih =>
    have hm : d.modules[before.length]? = some m := by simp [hmodules]
    have hrest := ih (before ++ [m]) (by simp [hmodules])
    have hfind : ∀ {k : Nat} {x : Rtl.Module}, d.modules[k]? = some x →
        d.image.findModule? x.id = some k := by
      intro k x hx
      refine lastIndex?_eq ?_ ?_
      · simpa [Rtl.Design.image, Rtl.Module.image, Function.comp_def] using hd.modules
      · simp [Rtl.Design.image, Rtl.Module.image, hx]
    have htables := resolveTables_image hd hmodules [] m.tables rfl
    have hlast : partDesign d before after (partModule d m m.tables []) =
        ⟨(before ++ [m]).map (fun m => partModule d m m.tables []) ++
          after.map (fun m => { partModule d m [] m.tables with parent := none }), []⟩ := by
      simp [partDesign]
    -- Once the parent is set, the tables of the module are restored, and then the other modules.
    have hmodule : (resolveTables d.image m.id (m.tables.map (Rtl.Table.image d))
        (partDesign d before after (partModule d m [] m.tables)) >>=
          resolveModules d.image (after.map (Rtl.Module.image d))) =
        .ok ⟨d.recounted.modules, []⟩ := by
      rw [htables, hlast]
      exact hrest
    simp only [List.map_cons, resolveModules]
    cases hp : m.parent with
    | none =>
      have hfirst : (⟨before.map (fun m => partModule d m m.tables []) ++
          { partModule d m [] m.tables with parent := none } ::
            after.map (fun m => { partModule d m [] m.tables with parent := none }), []⟩ :
          Rtl.Design) = partDesign d before after (partModule d m [] m.tables) := by
        simp [partDesign, partModule, hp]
      rw [hfirst]
      simpa [Rtl.Module.image, hp] using hmodule
    | some p =>
      have hlt := hd.moduleParent m (List.mem_of_getElem? hm) p (by simp [hp])
      have hlen : before.length = (before.map fun m => partModule d m m.tables []).length := by
        simp
      have hfirst : ({ partModule d m [] m.tables with parent := some p } : Rtl.Module) =
          partModule d m [] m.tables := by
        simp [partModule, hp]
      simp only [Rtl.Module.image, hp, Option.bind_some, List.getElem?_eq_getElem hlt,
        Option.map_some, hfind (List.getElem?_eq_getElem hlt), hfind hm]
      rw [hlen, modify_append_cons, hfirst]
      exact hmodule

theorem resolveEnd_image (hd : d.Closed) (channel : Nat) {r : Option Rtl.ResourceRef}
    (hr : ∀ x ∈ r, (d.resource? x).isSome) :
    resolveEnd d.image channel (r.map d.resourceNumber) = .ok r := by
  cases r with
  | none => rfl
  | some x =>
    simp only [Option.map_some, resolveEnd, findResource?_image hd (hr x rfl)]
    rfl

theorem resolveChannels_image (hd : d.Closed) {channels : List Rtl.Channel}
    (h : ∀ c ∈ channels, c ∈ d.channels) :
    resolveChannels d.image (channels.map (Rtl.Channel.image d)) = .ok channels := by
  induction channels with
  | nil => rfl
  | cons c rest ih =>
    have hc := h c (by simp)
    have hrest := ih fun c hc => h c (List.mem_cons_of_mem _ hc)
    simp only [List.map_cons, resolveChannels, Rtl.Channel.image,
      resolveEnd_image hd c.id (hd.writer c hc), resolveEnd_image hd c.id (hd.reader c hc), hrest]
    rfl

/-- The image of a closed design leads back to it, with its counters counted anew. -/
theorem restore_image (hd : d.Closed) : d.image.restore = .ok d.recounted := by
  have hskeleton : d.image.skeleton =
      ⟨d.modules.map (fun m => { partModule d m [] m.tables with parent := none }), []⟩ := by
    simp [skeleton, Rtl.Design.image, Rtl.Module.image, partModule, Function.comp_def]
  have hmodules := resolveModules_image hd [] d.modules rfl
  have hchannels := resolveChannels_image hd fun c hc => hc
  rw [List.map_nil, List.nil_append, ← hskeleton] at hmodules
  simp only [restore]
  have hmods : d.image.modules = d.modules.map (Rtl.Module.image d) := rfl
  have hchans : d.image.channels = d.channels.map (Rtl.Channel.image d) := rfl
  rw [hmods, hmodules, hchans]
  simp only [Bind.bind, Except.bind, hchannels]
  rfl

end Designs

end Image

namespace Rtl

/-- Images do not show the counters of tables. -/
theorem Design.image_recounted (d : Design) : d.recounted.image = d.image := by
  have htable : ∀ p, d.recounted.table? p = (d.table? p).map Table.recounted := by
    intro p
    simp only [Design.table?, Design.recounted, List.getElem?_map]
    cases d.modules[p.module]? <;> simp
  have hnumber : d.recounted.tableNumber = d.tableNumber := by
    funext p
    have hmodule : (d.recounted.modules[p.module]?).map (·.id) = (d.modules[p.module]?).map (·.id) := by
      simp [Design.recounted, Function.comp_def]
    simp only [Design.tableNumber, htable, hmodule, Option.map_map]
    rfl
  have hresource : d.recounted.resourceNumber = d.resourceNumber := by
    funext p
    have : d.recounted.resource? p = d.resource? p := by
      simp only [Design.resource?, htable]
      cases d.table? p.owner <;> rfl
    simp [Design.resourceNumber, hnumber, this]
  have htables : ∀ t : Table, t.recounted.image d.recounted = t.image d := by
    intro t
    have hres : Resource.image d.recounted = Resource.image d := by
      funext r
      simp [Resource.image, hresource, hnumber]
    simp only [Table.image, hres]
    rfl
  have hmodule : ∀ m : Module,
      Module.image d.recounted { m with tables := m.tables.map Table.recounted } = m.image d := by
    intro m
    have hparent : (m.parent.bind (d.recounted.modules[·]?)).map (·.id) =
        (m.parent.bind (d.modules[·]?)).map (·.id) := by
      cases m.parent <;> simp [Design.recounted, Function.comp_def]
    simp [Module.image, hparent, htables]
  have hchannel : Channel.image d.recounted = Channel.image d := by
    funext c
    simp [Channel.image, hresource]
  simp only [Design.image, hchannel]
  simp only [Design.recounted, List.map_map, Function.comp_def]
  congr 1
  exact List.map_congr_left fun m _ => hmodule m

/-- The number after the largest of some positive numbers is none of them, also where it wraps
around to zero. -/
theorem succ_largest_notMem {ids : List Nat} (hpos : ∀ id ∈ ids, 0 < id)
    (hlt : ∀ id ∈ ids, id < 0x10000000000000000) : Table.succ (largest ids) ∉ ids := by
  intro h
  have hle := le_largest h
  have hbound : largest ids ≤ 0xffffffffffffffff := largest_le fun id hid => by
    have := hlt id hid
    omega
  have hzero := hpos _ h
  unfold Table.succ at hle hzero
  omega

end Rtl
end MachineSynth
