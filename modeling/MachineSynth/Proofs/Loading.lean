import Mathlib
import MachineSynth.Listing.Object
import MachineSynth.Proofs.Resolving

/-! Loading: a listing is refused with an error in its text, or it gives a closed machine. In it
every object but the first has its place in one slot of an earlier object, and methods refer to
nothing but what is theirs. -/
namespace MachineSynth

open Synth (except_bind_eq_ok mapError_eq_error)

def Slot.object? (s : Slot) : Option Nat :=
  match s.value with
  | .object k => some k
  | _ => none

theorem Slot.object?_eq_some {s : Slot} {k : Nat} : s.object? = some k ↔ s.value = .object k := by
  unfold object?
  split <;> simp_all

def Slot.Closed (s : Slot) : Prop := ∀ f, s.value = .method f → f.name = s.name ∧ f.Closed

structure Object.Closed (o : Object) : Prop where
  names : (o.slots.map (·.name)).Nodup
  methods : ∀ s ∈ o.slots, s.Closed

structure Machine.Closed (m : Machine) : Prop where
  objects : ∀ o ∈ m.objects, o.Closed
  /-- The objects that an object holds come after it. -/
  later : ∀ i o, m.object? i = some o → ∀ s ∈ o.slots, ∀ k, s.value = .object k →
    i < k ∧ k < m.objects.length
  /-- Every object but the first is held in one slot of one object. -/
  held : ∀ k, 0 < k → k < m.objects.length → ∃! p : Nat × Slot,
    ∃ o, m.object? p.1 = some o ∧ p.2 ∈ o.slots ∧ p.2.value = .object k

namespace Object

variable {o : Object} {name : String} {v old : Value} {f : Method}

def objectIds (o : Object) : List Nat := o.slots.filterMap Slot.object?

theorem setSlot_of_new {slots : List Slot} (h : ∀ s ∈ slots, s.name ≠ name) :
    setSlot name v slots = slots ++ [⟨name, v⟩] := by
  induction slots with
  | nil => rfl
  | cons s slots ih =>
    obtain ⟨hs, hslots⟩ := List.forall_mem_cons.mp h
    rw [setSlot, if_neg hs, ih hslots, List.cons_append]

theorem setSlot_of_old {before after : List Slot} (h : ∀ s ∈ before, s.name ≠ name) :
    setSlot name v (before ++ ⟨name, old⟩ :: after) = before ++ ⟨name, v⟩ :: after := by
  induction before with
  | nil => exact if_pos rfl
  | cons s before ih =>
    obtain ⟨hs, hbefore⟩ := List.forall_mem_cons.mp h
    rw [List.cons_append, setSlot, if_neg hs, ih hbefore, List.cons_append]

theorem slots_set_of_none (h : o.lookup? name = none) :
    (∀ s ∈ o.slots, s.name ≠ name) ∧ (o.set name v).slots = o.slots ++ [⟨name, v⟩] := by
  have hnew : ∀ s ∈ o.slots, s.name ≠ name := by simpa [lookup?] using h
  exact ⟨hnew, setSlot_of_new hnew⟩

/-- A value with a name in use takes the place of the old one. -/
theorem slots_set_of_some (h : o.lookup? name = some old) :
    ∃ before after, o.slots = before ++ ⟨name, old⟩ :: after ∧
      (o.set name v).slots = before ++ ⟨name, v⟩ :: after := by
  obtain ⟨⟨name', old'⟩, hfind, hold⟩ := Option.map_eq_some_iff.mp h
  obtain ⟨hname, before, after, hslots, hbefore⟩ := List.find?_eq_some_iff_append.mp hfind
  cases hold
  cases of_decide_eq_true hname
  refine ⟨before, after, hslots, ?_⟩
  rw [set, hslots]
  exact setSlot_of_old fun s hs => by simpa using hbefore s hs

theorem forall_slots_set {P : Slot → Prop} (h : ∀ s ∈ o.slots, P s) (hv : P ⟨name, v⟩) :
    ∀ s ∈ (o.set name v).slots, P s := by
  intro s hs
  cases hlookup : o.lookup? name with
  | none =>
    rw [(slots_set_of_none hlookup).2, List.mem_append, List.mem_singleton] at hs
    obtain hs | rfl := hs
    · exact h s hs
    · exact hv
  | some old =>
    obtain ⟨before, after, hold, hslots⟩ := slots_set_of_some (v := v) hlookup
    rw [hold] at h
    simp only [hslots, List.mem_append, List.mem_cons] at h hs
    obtain hs | rfl | hs := hs
    · exact h s (.inl hs)
    · exact hv
    · exact h s (.inr (.inr hs))

theorem names_set (h : (o.slots.map (·.name)).Nodup) :
    ((o.set name v).slots.map (·.name)).Nodup := by
  cases hlookup : o.lookup? name with
  | none =>
    obtain ⟨hnew, hslots⟩ := slots_set_of_none (v := v) hlookup
    rw [hslots, List.map_append, List.map_singleton, ← List.concat_eq_append, List.nodup_concat]
    refine ⟨fun hmem => ?_, h⟩
    obtain ⟨s, hs, hname⟩ := List.mem_map.mp hmem
    exact hnew s hs hname
  | some old =>
    obtain ⟨before, after, hold, hslots⟩ := slots_set_of_some (v := v) hlookup
    rw [hold] at h
    simpa [hslots] using h

theorem Closed.set (h : o.Closed) (hv : Slot.Closed ⟨name, v⟩) : (o.set name v).Closed :=
  ⟨names_set h.names, forall_slots_set h.methods hv⟩

theorem objectIds_set_of_none (h : o.lookup? name = none) :
    (o.set name v).objectIds = o.objectIds ++ (Slot.object? ⟨name, v⟩).toList := by
  rw [objectIds, (slots_set_of_none h).2, List.filterMap_append]
  cases hv : Slot.object? ⟨name, v⟩ <;> simp [objectIds, hv]

theorem objectIds_addMethod
    (h : ∀ old, o.lookup? f.name = some old → Slot.object? ⟨f.name, old⟩ = none) :
    (o.addMethod f).objectIds = o.objectIds := by
  rw [addMethod]
  cases hlookup : o.lookup? f.name with
  | none =>
    rw [objectIds_set_of_none hlookup]
    exact List.append_nil _
  | some old =>
    obtain ⟨before, after, hold, hslots⟩ := slots_set_of_some (v := .method f) hlookup
    rw [objectIds, objectIds, hslots, hold, List.filterMap_append, List.filterMap_append,
      List.filterMap_cons_none (h old hlookup)]
    rfl

theorem Closed.addMethod (h : o.Closed) (hf : f.Closed) : (o.addMethod f).Closed :=
  h.set fun g hg => by
    cases hg
    exact ⟨rfl, hf⟩

/-- An object that has no slots but those of its built-in operations is closed, and holds none. -/
theorem withNatives_closed (name : String) (kind : ObjectKind) (width length : UInt64)
    (ops : List String) : (withNatives name kind width length ops).Closed ∧
      (withNatives name kind width length ops).objectIds = [] := by
  have hadd : ∀ (fs : List Method) (o : Object), (∀ f ∈ fs, f.Closed) → o.Closed →
      o.objectIds = [] → (fs.foldl Object.addMethod o).Closed ∧
        (fs.foldl Object.addMethod o).objectIds = [] := by
    intro fs
    induction fs with
    | nil => exact fun o _ ho hids => ⟨ho, hids⟩
    | cons f fs ih =>
      intro o hfs ho hids
      obtain ⟨hf, hfs⟩ := List.forall_mem_cons.mp hfs
      refine ih _ hfs (ho.addMethod hf) ((objectIds_addMethod fun old hold => ?_).trans hids)
      obtain ⟨before, after, hslots, -⟩ := slots_set_of_some (v := old) hold
      exact List.filterMap_eq_nil_iff.mp hids _ (by simp [hslots])
  refine hadd _ _ (fun f hf => ?_) ⟨List.nodup_nil, by simp⟩ rfl
  obtain ⟨op, -, rfl⟩ := List.mem_map.mp hf
  exact ⟨⟨[], [], rfl, .nil⟩, by simp [Method.ofNative], by simp [Method.ofNative]⟩

end Object

namespace Listing

/-- A family whose objects are closed, and whose members are each held in one slot of an earlier
object. The first object has the given number. -/
structure Family.Closed (id : Nat) (c : Family) : Prop where
  objects : ∀ o ∈ c.objects, o.Closed
  held : (c.objects.flatMap Object.objectIds).Perm (List.range' (id + 1) c.below.length)
  later : ∀ i o, c.objects[i]? = some o → ∀ k ∈ o.objectIds, id + i < k

namespace Family

variable {id : Nat} {c member : Family} {o : Object} {name : String}

theorem closed_of_object (ho : o.Closed) (hids : o.objectIds = []) : Closed id ⟨o, []⟩ where
  objects := by simpa [objects] using ho
  held := by simp [objects, hids]
  later := by
    intro i o' hi k hk
    obtain rfl : o' = o := by simpa [objects] using List.mem_of_getElem? hi
    simp [hids] at hk

/-- The first object may change, as long as it holds the same objects. -/
theorem Closed.update (h : c.Closed id) (ho : o.Closed) (hids : o.objectIds = c.object.objectIds) :
    Closed id { c with object := o } := by
  obtain ⟨hobjects, hheld, hlater⟩ := h
  refine ⟨List.forall_mem_cons.mpr ⟨ho, (List.forall_mem_cons.mp hobjects).2⟩, ?_, ?_⟩
  · rw [Family.objects, List.flatMap_cons] at hheld ⊢
    rwa [hids]
  · intro i o' hi k hk
    cases i with
    | zero =>
      cases hi
      exact hlater 0 c.object rfl k (hids ▸ hk)
    | succ i => exact hlater (i + 1) o' hi k hk

/-- A number or an item of an enumeration takes a new slot. -/
theorem Closed.declare {v : Value} (h : c.Closed id) (hnew : c.object.lookup? name = none)
    (hobject : ∀ k, v ≠ .object k) (hmethod : ∀ f, v ≠ .method f) :
    Closed id { c with object := c.object.set name v } := by
  refine h.update ((List.forall_mem_cons.mp h.objects).1.set fun f hf => absurd hf (hmethod f)) ?_
  have hnone : Slot.object? ⟨name, v⟩ = none :=
    Option.eq_none_iff_forall_ne_some.mpr fun k hk => hobject k (Slot.object?_eq_some.mp hk)
  rw [Object.objectIds_set_of_none hnew, hnone, Option.toList_none, List.append_nil]

theorem Closed.addMethod {f : Method} (h : c.Closed id) (hf : f.Closed)
    (hold : ∀ v, c.object.lookup? f.name = some v → ∃ g, v = .method g) :
    Closed id { c with object := c.object.addMethod f } := by
  refine h.update ((List.forall_mem_cons.mp h.objects).1.addMethod hf)
    (Object.objectIds_addMethod fun v hv => ?_)
  obtain ⟨g, rfl⟩ := hold v hv
  rfl

/-- A member takes the number after all there are, and its own members those after that. -/
theorem Closed.adopt (h : c.Closed id) (hnew : c.object.lookup? name = none)
    (hmember : member.Closed (id + 1 + c.below.length)) : (c.adopt id name member).Closed id := by
  obtain ⟨hobjects, hheld, hlater⟩ := h
  obtain ⟨hobjects', hheld', hlater'⟩ := hmember
  obtain ⟨hobject, hbelow⟩ := List.forall_mem_cons.mp hobjects
  have hids : (c.object.set name (.object (id + 1 + c.below.length))).objectIds =
      c.object.objectIds ++ [id + 1 + c.below.length] := Object.objectIds_set_of_none hnew
  constructor
  case objects =>
    refine List.forall_mem_cons.mpr ⟨hobject.set (fun f hf => nomatch hf), ?_⟩
    exact List.forall_mem_append.mpr ⟨hbelow, hobjects'⟩
  case held =>
    have hrange : List.range' (id + 1) (c.adopt id name member).below.length =
        List.range' (id + 1) c.below.length ++ (id + 1 + c.below.length) ::
          List.range' (id + 1 + c.below.length + 1) member.below.length := by
      rw [← List.range'_succ, List.range'_append_1]
      simp [Family.adopt]
    have hids : ((c.adopt id name member).objects.flatMap Object.objectIds).Perm
        (c.objects.flatMap Object.objectIds ++ (id + 1 + c.below.length) ::
          member.objects.flatMap Object.objectIds) := by
      simp only [Family.adopt, Family.objects, List.flatMap_cons, List.flatMap_append, hids,
        List.append_assoc, List.singleton_append]
      exact List.perm_middle.symm.append_left _
    rw [hrange]
    exact hids.trans (hheld.append (hheld'.cons _))
  case later =>
    intro i o hi k hk
    cases i with
    | zero =>
      cases hi
      obtain hk | hk := List.mem_append.mp (hids ▸ hk)
      · exact hlater 0 c.object rfl k hk
      · rw [List.mem_singleton.mp hk]
        omega
    | succ i =>
      rw [Family.objects, List.getElem?_cons_succ, Family.adopt, List.getElem?_append] at hi
      split at hi
      · exact hlater (i + 1) o hi k hk
      · have := hlater' (i - c.below.length) o hi k hk
        omega

end Family

section Members

variable {o : Object} {f : Form} {name : String} {u : Unit} {v : Value}

theorem lookup?_of_checkName (h : checkName o f name = .ok u) (hthread : f.head ≠ "thread")
    (hmethod : f.head ≠ "method") : o.lookup? name = none := by
  unfold checkName at h
  split at h
  · assumption
  · split at h
    · rename_i hredeclare
      unfold mayRedeclare at hredeclare
      split at hredeclare
      · exact absurd ‹_› hthread
      · exact absurd ‹_› hmethod
      · cases hredeclare
    · cases h

theorem method_of_checkName (h : checkName o f name = .ok u) (hmethod : f.head = "method")
    (hv : o.lookup? name = some v) : ∃ g, v = .method g := by
  simp only [checkName, hv] at h
  split at h
  · rename_i hredeclare
    rw [hmethod] at hredeclare
    cases v with
    | method g => exact ⟨g, rfl⟩
    | num => cases hredeclare
    | enum => cases hredeclare
    | object => cases hredeclare
  · cases h

theorem readNum_eq_num (h : readNum f = .ok v) :
    ∃ width value const, v = .num width value const := by
  simp only [readNum, except_bind_eq_ok] at h
  obtain ⟨width, -, h⟩ := h
  split at h
  all_goals
    simp only [except_bind_eq_ok] at h
    obtain ⟨flags, -, h⟩ := h
    cases h
    exact ⟨_, _, _, rfl⟩

theorem readEnum_eq_enum (h : readEnum f = .ok v) :
    ∃ width value const, v = .enum width value const := by
  simp only [readEnum, except_bind_eq_ok] at h
  obtain ⟨ordinal, -, flags, -, h⟩ := h
  cases h
  exact ⟨_, _, _, rfl⟩

theorem readArray_closed (h : readArray name f = .ok o) : o.Closed ∧ o.objectIds = [] := by
  simp only [readArray, except_bind_eq_ok] at h
  obtain ⟨width, -, length, -, flags, -, h⟩ := h
  cases h
  obtain ⟨hclosed, hids⟩ := Object.withNatives_closed name .array width length ["load", "store"]
  exact ⟨⟨hclosed.names, hclosed.methods⟩, hids⟩

theorem readChannel_closed (h : readChannel name f = .ok o) : o.Closed ∧ o.objectIds = [] := by
  unfold readChannel at h
  split at h
  · simp only [except_bind_eq_ok] at h
    obtain ⟨width, -, h⟩ := h
    cases h
    exact Object.withNatives_closed name .channel width 0 []
  · cases h

theorem plain_closed (name : String) (id : Nat) : Family.Closed id ⟨.plain name, []⟩ :=
  have h := Object.withNatives_closed name .plain 0 0 ["print", "assert", "wait"]
  Family.closed_of_object h.1 h.2

end Members

mutual

theorem readMembers_closed : ∀ {ts : List Located} {id : Nat} {c c' : Family}, c.Closed id →
    readMembers id c ts = .ok c' → c'.Closed id ∧ c'.object.name = c.object.name
  | [], _, _, _, hc, h => by
    rw [readMembers] at h
    cases h
    exact ⟨hc, rfl⟩
  | t :: ts, _, _, _, hc, h => by
    simp only [readMembers, except_bind_eq_ok] at h
    obtain ⟨c₁, hc₁, h⟩ := h
    obtain ⟨hclosed, hname⟩ := readMember_closed hc hc₁
    obtain ⟨hclosed', hname'⟩ := readMembers_closed hclosed h
    exact ⟨hclosed', hname'.trans hname⟩

theorem readMember_closed : ∀ {t : Located} {id : Nat} {c c' : Family}, c.Closed id →
    readMember id c t = .ok c' → c'.Closed id ∧ c'.object.name = c.object.name
  | .symbol _ _, _, _, _, _, h => nomatch h
  | .list _ [], _, _, _, _, h => nomatch h
  | .list _ [.symbol _ _], _, _, _, _, h => nomatch h
  | .list _ (.list _ _ :: _), _, _, _, _, h => nomatch h
  | .list span (.symbol s kind :: second :: rest), _, c, c', hc, h => by
    simp only [readMember, except_bind_eq_ok] at h
    obtain ⟨name, -, u, hcheck, h⟩ := h
    have hnew (hthread : kind ≠ "thread") (hmethod : kind ≠ "method") :
        c.object.lookup? name = none := lookup?_of_checkName hcheck hthread hmethod
    split at h
    case h_1 =>
      obtain ⟨v, hv, h⟩ := except_bind_eq_ok.mp h
      cases h
      obtain ⟨_, _, _, rfl⟩ := readNum_eq_num hv
      exact ⟨hc.declare (hnew (by simp) (by simp)) nofun nofun, rfl⟩
    case h_2 =>
      obtain ⟨v, hv, h⟩ := except_bind_eq_ok.mp h
      cases h
      obtain ⟨_, _, _, rfl⟩ := readEnum_eq_enum hv
      exact ⟨hc.declare (hnew (by simp) (by simp)) nofun nofun, rfl⟩
    case h_3 =>
      obtain ⟨o, ho, h⟩ := except_bind_eq_ok.mp h
      cases h
      obtain ⟨hclosed, hids⟩ := readArray_closed ho
      exact ⟨hc.adopt (hnew (by simp) (by simp)) (Family.closed_of_object hclosed hids), rfl⟩
    case h_4 =>
      obtain ⟨o, ho, h⟩ := except_bind_eq_ok.mp h
      cases h
      obtain ⟨hclosed, hids⟩ := readChannel_closed ho
      exact ⟨hc.adopt (hnew (by simp) (by simp)) (Family.closed_of_object hclosed hids), rfl⟩
    case h_5 =>
      obtain ⟨member, hmember, h⟩ := except_bind_eq_ok.mp h
      cases h
      obtain ⟨hclosed, -⟩ := readMembers_closed (plain_closed name _) hmember
      exact ⟨hc.adopt (hnew (by simp) (by simp)) hclosed, rfl⟩
    case h_6 =>
      obtain ⟨thread, -, h⟩ := except_bind_eq_ok.mp h
      cases h
      have hobject := (List.forall_mem_cons.mp hc.objects).1
      exact ⟨hc.update ⟨hobject.names, hobject.methods⟩ rfl, rfl⟩
    case h_7 =>
      obtain ⟨f, hf, h⟩ := except_bind_eq_ok.mp h
      cases h
      obtain ⟨rfl, hclosed⟩ := readMethod_closed hf
      exact ⟨hc.addMethod hclosed fun v hv => method_of_checkName hcheck rfl hv, rfl⟩
    case h_8 => cases h

end

theorem slot_unique {o : Object} (h : o.objectIds.Nodup) {s s' : Slot} {k : Nat} (hs : s ∈ o.slots)
    (hs' : s' ∈ o.slots) (hk : s.object? = some k) (hk' : s'.object? = some k) : s = s' := by
  by_contra hne
  have hpairs := List.pairwise_filterMap.mp h
  have hsymm : Std.Symm fun a b : Slot => ∀ i, a.object? = some i → ∀ j, b.object? = some j →
      i ≠ j := ⟨fun a b hab i hi j hj => (hab j hj i hi).symm⟩
  exact hpairs.forall hs hs' hne k hk k hk' rfl

theorem index_unique {os : List Object}
    (h : os.Pairwise (Function.onFun List.Disjoint Object.objectIds)) {i i' k : Nat}
    {o o' : Object} (hi : os[i]? = some o) (hi' : os[i']? = some o') (hk : k ∈ o.objectIds)
    (hk' : k ∈ o'.objectIds) : i = i' := by
  obtain ⟨hbound, rfl⟩ := List.getElem?_eq_some_iff.mp hi
  obtain ⟨hbound', rfl⟩ := List.getElem?_eq_some_iff.mp hi'
  have hpairs := List.pairwise_iff_getElem.mp h
  rcases Nat.lt_trichotomy i i' with hlt | heq | hgt
  · exact absurd hk' (hpairs i i' hbound hbound' hlt hk)
  · exact heq
  · exact absurd hk (hpairs i' i hbound' hbound hgt hk')

theorem Family.Closed.machine {c : Family} (h : c.Closed 0) : Machine.Closed ⟨c.objects⟩ := by
  obtain ⟨hobjects, hheld, hlater⟩ := h
  have hmem : ∀ {o : Object} {k}, k ∈ o.objectIds ↔ ∃ s ∈ o.slots, s.object? = some k := by
    simp [Object.objectIds]
  have hids : ∀ {k}, (∃ o ∈ c.objects, k ∈ o.objectIds) ↔ 0 < k ∧ k < c.objects.length := by
    intro k
    rw [← List.mem_flatMap, hheld.mem_iff, List.mem_range'_1, Family.objects, List.length_cons]
    omega
  obtain ⟨honce, hapart⟩ := List.nodup_flatMap.mp (hheld.nodup_iff.mpr List.nodup_range')
  refine ⟨hobjects, fun i o hi s hs k hk => ?_, fun k hpos hlt => ?_⟩
  · have hko : k ∈ o.objectIds := hmem.mpr ⟨s, hs, Slot.object?_eq_some.mpr hk⟩
    have hik := hlater i o hi k hko
    exact ⟨by omega, (hids.mp ⟨o, List.mem_of_getElem? hi, hko⟩).2⟩
  · obtain ⟨o, ho, hko⟩ := hids.mpr ⟨hpos, hlt⟩
    obtain ⟨i, hi⟩ := List.mem_iff_getElem?.mp ho
    obtain ⟨s, hs, hk⟩ := hmem.mp hko
    refine ⟨(i, s), ⟨o, hi, hs, Slot.object?_eq_some.mp hk⟩, ?_⟩
    rintro ⟨i', s'⟩ ⟨o', hi', hs', hk'⟩
    have hk' := Slot.object?_eq_some.mpr hk'
    have hko' : k ∈ o'.objectIds := hmem.mpr ⟨s', hs', hk'⟩
    obtain rfl : i' = i := index_unique hapart hi' hi hko' hko
    obtain rfl : o' = o := Option.some.inj (hi'.symm.trans hi)
    exact Prod.ext rfl (slot_unique (honce o' ho) hs' hs hk' hk)

def Declares (source : Source) (name : String) : Prop := ∃ span s s' members,
  source.term = .ok (some (.list span (.symbol s "object" :: .symbol s' name :: members)))

theorem readTop_closed {t : Located} {c : Family} (h : readTop t = .ok c) :
    c.Closed 0 ∧ ∃ span s s' members,
      t = .list span (.symbol s "object" :: .symbol s' c.object.name :: members) := by
  unfold readTop at h
  split at h
  · split at h
    · rename_i span s head name members hhead
      simp only [except_bind_eq_ok] at h
      obtain ⟨n, hn, h⟩ := h
      obtain ⟨hclosed, hname⟩ := readMembers_closed (plain_closed n 0) h
      have hn : name = .symbol name.span n := by
        unfold Form.symbol at hn
        cases name with
        | symbol s' n' =>
          cases hn
          rfl
        | list => cases hn
      rw [hhead, hn, hname]
      exact ⟨hclosed, span, s, name.span, members, rfl⟩
    · cases h
  · cases h

theorem load_closed {source : Source} {m : Machine} (h : load source = .ok m) :
    m.Closed := by
  simp only [load, except_bind_eq_ok] at h
  obtain ⟨t, -, h⟩ := h
  cases t with
  | none => cases h
  | some t =>
    simp only at h
    split at h
    · rename_i c hc
      cases h
      exact (readTop_closed hc).1.machine
    · cases h

/-- Loading gives an error about the text, or the closed machine that the text declares. -/
theorem loaded_machine_is_closed (source : Source) :
    (∃ e, load source = .error e ∧ e.source = source) ∨
    ∃ m root, load source = .ok m ∧ m.object? 0 = some root ∧ Declares source root.name ∧
      m.Closed := by
  cases hterm : source.term with
  | error e =>
    obtain ⟨e', -, rfl⟩ := mapError_eq_error.mp hterm
    exact .inl ⟨_, by rw [load, hterm]; rfl, rfl⟩
  | ok t =>
    cases t with
    | none => exact .inl ⟨_, by rw [load, hterm]; rfl, rfl⟩
    | some t =>
      cases htop : readTop t with
      | error e =>
        refine .inl ⟨⟨source, e.span, e.cause.message⟩, ?_, rfl⟩
        simp only [load, hterm, Bind.bind, Except.bind, htop]
      | ok c =>
        obtain ⟨hclosed, span, s, s', members, rfl⟩ := readTop_closed htop
        refine .inr ⟨⟨c.objects⟩, c.object, ?_, rfl, ⟨span, s, s', members, hterm⟩, hclosed.machine⟩
        simp only [load, hterm, Bind.bind, Except.bind, htop]
        rfl

end Listing
end MachineSynth
