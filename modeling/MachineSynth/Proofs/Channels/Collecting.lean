import Mathlib
import MachineSynth.Proofs.FirstOccurrences
import MachineSynth.Synth.Design

/-! Collecting channels: the uses of channel objects, of one table or of all, come to one entry for
each object, in the order of first use and with each resource once. -/
namespace MachineSynth

def Machine.width (m : Machine) (id : Nat) : UInt64 := ((m.object? id).map (·.width)).getD 0

namespace Synth

structure ChannelUse where
  object : Nat
  write : Bool
  resource : Rtl.ResourceRef
deriving DecidableEq

def channelKind (write : Bool) : String := if write then channelWriteKind else channelReadKind

namespace Channels

variable {m : Machine} {uses uses' : List ChannelUse} {u : ChannelUse} {id : Nat} {write : Bool}
  {r : Rtl.ResourceRef}

def note (m : Machine) (c : Channels) (u : ChannelUse) : Channels :=
  c.add u.object (m.name u.object) (m.width u.object) (channelKind u.write) u.resource

/-- The channels that have been used in some order. -/
def ofUses (m : Machine) (uses : List ChannelUse) : Channels := uses.foldl (note m) .empty

/-- The resources that write or read a channel object, in the order in which they are used first. -/
def users (uses : List ChannelUse) (id : Nat) (write : Bool) : List Rtl.ResourceRef :=
  ((uses.filter fun u => u.object = id && u.write = write).map (·.resource)).eraseDups

theorem mem_users : r ∈ users uses id write ↔ ⟨id, write, r⟩ ∈ uses := by
  simp only [users, List.mem_eraseDups, List.mem_map, List.mem_filter, Bool.and_eq_true,
    decide_eq_true_eq]
  constructor
  · rintro ⟨u, ⟨hu, rfl, rfl⟩, rfl⟩
    exact hu
  · intro h
    exact ⟨_, ⟨h, rfl, rfl⟩, rfl⟩

/-- What is known of a channel object after some uses. -/
def endsOf (m : Machine) (uses : List ChannelUse) (id : Nat) : ChannelEnds :=
  ⟨m.name id, m.width id, users uses id true, users uses id false⟩

theorem users_concat : users (uses ++ [u]) id write =
    if u.object = id ∧ u.write = write then
      if (users uses id write).contains u.resource then users uses id write
      else users uses id write ++ [u.resource]
    else users uses id write := by
  by_cases h : u.object = id ∧ u.write = write
  · obtain ⟨rfl, rfl⟩ := h
    have hcontains : (users uses u.object u.write).contains u.resource =
        ((uses.filter fun v => v.object = u.object && v.write = u.write).map
          (·.resource)).contains u.resource := by
      rw [Bool.eq_iff_iff, List.contains_iff_mem, List.contains_iff_mem, users, List.mem_eraseDups]
    simp only [and_self, if_true, hcontains]
    simp [users, List.filter_append, eraseDups_concat]
  · rw [if_neg h]
    have hnone : [u].filter (fun u => u.object = id && u.write = write) = [] := by
      simpa [List.filter_cons] using fun ho hw => h ⟨ho, hw⟩
    simp only [users, List.filter_append, hnone, List.append_nil]

theorem endsOf_concat : endsOf m (uses ++ [u]) id =
    if id = u.object then use (channelKind u.write) u.resource (endsOf m uses id)
    else endsOf m uses id := by
  split
  · rename_i h
    subst h
    have hkinds : channelReadKind ≠ channelWriteKind := by decide
    cases hw : u.write <;> simp [endsOf, users_concat, use, channelKind, hw, hkinds]
  · rename_i h
    simp [endsOf, users_concat, Ne.symm h]

/-- Nothing is known of a channel object without uses, but what it is. -/
theorem endsOf_of_not_mem (h : id ∉ uses.map (·.object)) :
    endsOf m uses id = ⟨m.name id, m.width id, [], []⟩ := by
  have hnone : ∀ write, users uses id write = [] := by
    intro write
    refine List.eq_nil_iff_forall_not_mem.mpr fun r hr => h ?_
    exact List.mem_map.mpr ⟨_, mem_users.mp hr, rfl⟩
  simp [endsOf, hnone]

theorem updateEnds_map {ids : List Nat} (hids : ids.Nodup) (E : Nat → ChannelEnds)
    (new : ChannelEnds) (f : ChannelEnds → ChannelEnds) (hnew : id ∉ ids → E id = new) :
    updateEnds id new f (ids.map fun j => (j, E j)) =
      (if ids.contains id then ids else ids ++ [id]).map fun j =>
        (j, if j = id then f (E j) else E j) := by
  induction ids with
  | nil => simp [updateEnds, hnew]
  | cons j rest ih =>
    obtain ⟨hj, hrest⟩ := List.nodup_cons.mp hids
    by_cases h : j = id
    · subst h
      have hsame : ∀ k ∈ rest, (k, E k) = (k, if k = j then f (E k) else E k) := by
        intro k hk
        have hne : k ≠ j := fun heq => hj (heq ▸ hk)
        rw [if_neg hne]
      simp [updateEnds, List.map_congr_left hsame]
    · have hrest' := ih hrest fun hmem => hnew fun hmem' =>
        (List.mem_cons.mp hmem').elim (fun heq => h heq.symm) hmem
      by_cases hmem : id ∈ rest <;> simp_all [updateEnds, Ne.symm h]

/-- The entries of the channels that have been used: one for each object, in the order of first
use. -/
theorem ends_ofUses : (ofUses m uses).ends =
    (uses.map (·.object)).eraseDups.map fun id => (id, endsOf m uses id) := by
  induction uses using List.reverseRecOn with
  | nil => rfl
  | append_singleton uses u ih =>
    have hnote : ofUses m (uses ++ [u]) = note m (ofUses m uses) u := by simp [ofUses]
    have hcontains : (uses.map (·.object)).eraseDups.contains u.object =
        (uses.map (·.object)).contains u.object := by
      rw [Bool.eq_iff_iff, List.contains_iff_mem, List.contains_iff_mem, List.mem_eraseDups]
    rw [hnote, note, add, ih, updateEnds_map (nodup_eraseDups _) _ _ _ fun h =>
      endsOf_of_not_mem (mt List.mem_eraseDups.mpr h), hcontains, List.map_append, List.map_singleton,
      eraseDups_concat]
    exact List.map_congr_left fun id _ => by rw [endsOf_concat]

def listed (c : Channels) : List ChannelUse :=
  c.ends.flatMap fun x => x.2.writers.map (⟨x.1, true, ·⟩) ++ x.2.readers.map (⟨x.1, false, ·⟩)

theorem mem_listed_ofUses : u ∈ (ofUses m uses).listed ↔ u ∈ uses := by
  obtain ⟨id, write, r⟩ := u
  simp only [listed, ends_ofUses, List.mem_flatMap, List.mem_map, List.mem_append]
  constructor
  · rintro ⟨_, ⟨id', -, rfl⟩, ⟨r', hr, h⟩ | ⟨r', hr, h⟩⟩ <;> cases h <;> exact mem_users.mp hr
  · intro h
    refine ⟨_, ⟨id, List.mem_eraseDups.mpr (List.mem_map.mpr ⟨_, h, rfl⟩), rfl⟩, ?_⟩
    cases write with
    | true => exact .inl ⟨r, mem_users.mpr h, rfl⟩
    | false => exact .inr ⟨r, mem_users.mpr h, rfl⟩

theorem eraseDups_listed_ofUses :
    ((ofUses m uses).listed.map (·.object)).eraseDups = (uses.map (·.object)).eraseDups := by
  have hgroups : (ofUses m uses).listed.map (·.object) = (uses.map (·.object)).eraseDups.flatMap
      fun id => (users uses id true).map (fun _ => id) ++ (users uses id false).map fun _ => id := by
    simp only [listed, ends_ofUses, List.map_flatMap, List.flatMap_map, List.map_append,
      List.map_map]
    rfl
  rw [hgroups]
  calc (_ : List Nat) = ((uses.map (·.object)).eraseDups.flatMap fun id => [id]).eraseDups := by
        refine eraseDups_flatMap_congr fun id hid => ?_
        obtain ⟨u, hu, rfl⟩ := List.mem_map.mp (List.mem_eraseDups.mp hid)
        refine eraseDups_of_constant (fun hnil => ?_) fun x hx => ?_
        · have hmem : u.resource ∈ users uses u.object u.write := mem_users.mpr hu
          obtain ⟨htrue, hfalse⟩ := List.append_eq_nil_iff.mp hnil
          rw [List.map_eq_nil_iff] at htrue hfalse
          cases hw : u.write <;> simp [hw, htrue, hfalse] at hmem
        · simp only [List.mem_append, List.mem_map] at hx
          tauto
    _ = (uses.map (·.object)).eraseDups := by
        rw [List.flatMap_singleton', eraseDups_of_nodup (nodup_eraseDups _)]

/-- Whether no channel object is written or read by more than one resource. -/
def Agree (uses : List ChannelUse) : Prop :=
  ∀ u ∈ uses, ∀ u' ∈ uses, u.object = u'.object → u.write = u'.write → u.resource = u'.resource

theorem length_users_le_one : (users uses id write).length ≤ 1 ↔
    ∀ u ∈ uses, ∀ u' ∈ uses, u.object = id → u.write = write → u'.object = id → u'.write = write →
      u.resource = u'.resource := by
  simp only [users, length_eraseDups_le_one, List.mem_map, List.mem_filter, Bool.and_eq_true,
    decide_eq_true_eq]
  constructor
  · intro h u hu u' hu' ho hw ho' hw'
    exact h _ ⟨u, ⟨hu, ho, hw⟩, rfl⟩ _ ⟨u', ⟨hu', ho', hw'⟩, rfl⟩
  · rintro h _ ⟨u, ⟨hu, ho, hw⟩, rfl⟩ _ ⟨u', ⟨hu', ho', hw'⟩, rfl⟩
    exact h u hu u' hu' ho hw ho' hw'

theorem conflict?_endsOf : conflict? (endsOf m uses id) = none ↔
    ∀ write, (users uses id write).length ≤ 1 := by
  simp only [conflict?, endsOf, Bool.forall_bool]
  by_cases hw : 1 < (users uses id true).length
  · simp [hw]
  · by_cases hr : 1 < (users uses id false).length
    · simp [hw, hr]
    · simp [hw, hr, not_lt.mp hw, not_lt.mp hr]

theorem connectAll_eq_none {ends : List (Nat × ChannelEnds)} {d : Rtl.Design} :
    (connectAll ends d).2 = none ↔ ∀ x ∈ ends, conflict? x.2 = none := by
  induction ends generalizing d with
  | nil => simp [connectAll]
  | cons x rest ih =>
    obtain ⟨object, e⟩ := x
    simp only [connectAll, List.forall_mem_cons]
    cases he : conflict? e with
    | some error => simp
    | none => simpa using ih

/-- Channels can be connected unless two resources write, or read, one object. -/
theorem resolve_eq_none {d : Rtl.Design} : ((ofUses m uses).resolve d).2 = none ↔ Agree uses := by
  rw [resolve, connectAll_eq_none, ends_ofUses]
  simp only [List.forall_mem_map, List.mem_eraseDups, conflict?_endsOf, length_users_le_one]
  constructor
  · intro h u hu u' hu' ho hw
    exact h u hu u.write u hu u' hu' rfl rfl ho.symm hw.symm
  · intro h v _ write u hu u' hu' ho hw ho' hw'
    exact h u hu u' hu' (ho.trans ho'.symm) (hw.trans hw'.symm)

/-- What is collected once can be collected again, object by object. -/
theorem foldl_note_listed {c : Channels} :
    (ofUses m uses).ends.foldl (fun c x =>
        let c := x.2.writers.foldl
          (fun c r => c.add x.1 x.2.name x.2.width channelWriteKind r) c
        x.2.readers.foldl (fun c r => c.add x.1 x.2.name x.2.width channelReadKind r) c) c =
      (ofUses m uses).listed.foldl (note m) c := by
  rw [listed, List.foldl_flatMap]
  refine List.foldl_ext _ _ _ fun c x hx => ?_
  rw [ends_ofUses] at hx
  obtain ⟨id, -, rfl⟩ := List.mem_map.mp hx
  rw [List.foldl_append, List.foldl_map, List.foldl_map]
  rfl

end Channels

theorem Synthesis.allChannels_eq {m : Machine} {tables : List ThreadTable}
    (h : ∀ t ∈ tables, ∃ uses, t.builder.channels = .ofUses m uses) :
    allChannels tables = .ofUses m (tables.flatMap (·.builder.channels.listed)) := by
  rw [allChannels, Channels.ofUses, List.foldl_flatMap, List.foldl_flatMap]
  refine List.foldl_ext _ _ _ fun c t ht => ?_
  obtain ⟨uses, huses⟩ := h t ht
  rw [huses]
  exact Channels.foldl_note_listed

end Synth
end MachineSynth
