import Mathlib
import MachineSynth.Proofs.Modules
import MachineSynth.Proofs.Scanning
import MachineSynth.Proofs.Slots
import MachineSynth.Proofs.Tables.Assembly
import MachineSynth.Proofs.Tables.Obedience

/-! Building: tables are built from what is on record about entities, and what they touch is what is
on record. -/
namespace MachineSynth

/-- Whether every slot has a name, as those of a listing have: a memory goes under no member's name,
so that a member without one would be taken for it. -/
def Machine.Named (m : Machine) : Prop := ∀ o ∈ m.objects, ∀ slot ∈ o.slots, slot.name ≠ ""

instance (m : Machine) : Decidable m.Named := inferInstanceAs (Decidable (∀ o ∈ m.objects, _))

theorem Listing.named_of_load {source : Source} {m : Machine} (h : load source = .ok m) : m.Named :=
  fun _ ho _ hs => name_ne_of_load h ho hs

theorem Machine.Named.label_ne {m : Machine} (h : m.Named) {id : Nat} {label : String} {v : Value}
    (hv : (m.object? id).bind (·.lookup? label) = some v) : label ≠ "" := by
  obtain ⟨o, ho, hv⟩ := Option.bind_eq_some_iff.mp hv
  obtain ⟨slot, hslot, -⟩ := Option.map_eq_some_iff.mp hv
  have hname : slot.name = label := by simpa using List.find?_some hslot
  exact hname ▸ h o (List.mem_of_getElem? ho) slot (List.mem_of_find?_eq_some hslot)

namespace Synth

/-- The kind of the resource that holds an entity for all: a memory for an array, a register for a
member. -/
def Entity.heldAs (e : Entity) : String := if e.member = "" then "shared-memory" else "shared-reg"

namespace Walker

variable {m : Machine} {w : Walker} {i : Insn} {e : Entity} {write : Bool}

theorem member_of_array? {r : RegisterId} (h : w.array? m r = some e) : e.member = "" := by
  obtain ⟨id, -, h⟩ := Option.bind_eq_some_iff.mp h
  split at h
  · cases h
    rfl
  · cases h

theorem member_of_storedMember? (hm : m.Named) {object : Nat} {label : String}
    (h : storedMember? m object label = some e) : e.member ≠ "" := by
  unfold storedMember? at h
  split at h
  · rename_i hv
    cases h
    exact hm.label_ne hv
  · rename_i hv
    cases h
    exact hm.label_ne hv
  · cases h

theorem onArray_of_accessed? (hm : m.Named) (h : w.accessed? m i = some (e, write)) :
    onArray i = true ↔ e.member = "" := by
  have hmember : ∀ {object label : _} {write' : Bool},
      ((w.objectOf? object).bind (storedMember? m · label)).map (·, write') = some (e, write) →
      e.member ≠ "" := by
    intro object label write' h
    obtain ⟨e', he', heq⟩ := Option.map_eq_some_iff.mp h
    obtain ⟨id, -, hstored⟩ := Option.bind_eq_some_iff.mp he'
    cases heq
    exact member_of_storedMember? hm hstored
  have harray : ∀ {r : RegisterId} {write' : Bool},
      (w.array? m r).map (·, write') = some (e, write) → e.member = "" := by
    intro r write' h
    obtain ⟨e', he', heq⟩ := Option.map_eq_some_iff.mp h
    cases heq
    exact member_of_array? he'
  cases i with
  | memberRead target object label => simpa [onArray] using hmember h
  | memberWrite object label source => simpa [onArray] using hmember h
  | arrayRead target object index => simpa [onArray] using harray h
  | arrayWrite object index source => simpa [onArray] using harray h
  | _ => cases h

theorem thing_of_accessed? (hm : m.Named) (h : w.accessed? m i = some (e, write)) :
    thing i = e.heldAs := by
  have hiff := onArray_of_accessed? hm h
  by_cases he : e.member = "" <;> simp [thing, Entity.heldAs, hiff, he]

theorem member_of_moved? (h : w.moved? m i = some e) : e.member = "" := by
  unfold moved? at h
  split at h
  · split at h
    · split at h
      · obtain ⟨id, -, rfl⟩ := Option.map_eq_some_iff.mp h
        rfl
      · cases h
    · cases h
  · cases h

end Walker

namespace Accesses

theorem get_of_settle {s s' : Accesses} {owners : OwnershipTable}
    (h : s.settle = .ok (owners, s')) (e : Entity) : owners.get e = .of (s.find e) := by
  have hlookup : ∀ records : List (Entity × Access),
      (records.map fun x => (x.1, Ownership.of x.2)).lookup e = (records.lookup e).map .of := by
    intro records
    induction records with
    | nil => rfl
    | cons x rest ih =>
      obtain ⟨e', a⟩ := x
      simp only [List.map_cons, lookup_cons_eq, ih]
      split <;> rfl
  unfold settle at h
  split at h
  · cases h
  · cases h
    have hget := hlookup s.records
    simp only [OwnershipTable.get, find]
    cases ha : s.records.lookup e with
    | none =>
      rw [ha] at hget
      exact congrArg (Option.getD · Ownership.none) hget
    | some a =>
      rw [ha] at hget
      exact congrArg (Option.getD · Ownership.none) hget

end Accesses

theorem Access.mem_of_owner? {a : Access} {k : ThreadId} (h : a.owner? = some k) :
    k ∈ a.accessors := by
  unfold owner? at h
  split at h
  · rename_i hfind
    cases h
    exact List.mem_of_find?_eq_some hfind
  · exact List.mem_of_mem_head? h

namespace Ownership

variable {a : Access} {j k : ThreadId}

theorem isShared_of (hj : j ∈ a.accessors) (hk : k ∈ a.accessors) (hne : j ≠ k) :
    (of a).isShared = true := by
  obtain ⟨x, hx⟩ | hlt : (∃ x, a.accessors = [x]) ∨ 1 < a.accessors.length := by
    rcases hlen : a.accessors with _ | ⟨x, _ | ⟨y, rest⟩⟩
    · simp [hlen] at hj
    · exact .inl ⟨x, rfl⟩
    · exact .inr (by simp)
  · rw [hx, List.mem_singleton] at hj hk
    exact absurd (hj.trans hk.symm) hne
  · exact decide_eq_true hlt

theorem isMoved_of (h : a.movers.contains k = true) : (of a).isMoved = true := by
  have hmem := BitSet.mem_toList.mpr h
  cases hlist : a.movers.toList with
  | nil => simp [hlist] at hmem
  | cons x rest => simp [isMoved, of, hlist]

theorem owner_isSome_of (h : k ∈ a.accessors) : (of a).owner.isSome = true := by
  simp only [of, Access.owner?]
  split
  · rfl
  · cases hlist : a.accessors with
    | nil => simp [hlist] at h
    | cons x rest => rfl

end Ownership

namespace ThreadTable.Grows

variable {m : Machine} {t t' : ThreadTable} {e : Entity}

/-- Wiring leaves the methods of a table as they are. -/
theorem lowers (h : t.Grows t') {w : Walker} {i : Insn} {st : LoweredState} :
    t'.Lowers m w i st ↔ t.Lowers m w i st := by
  simp only [Lowers, h.contexts, h.plan]

theorem accesses_iff (h : t.Grows t') : t'.Accesses m e ↔ t.Accesses m e := by
  simp only [Accesses, h.lowers]

theorem moves_iff (h : t.Grows t') : t'.Moves m e ↔ t.Moves m e := by
  simp only [Moves, h.lowers]

theorem keeps_iff (h : t.Grows t') : t'.Keeps e ↔ t.Keeps e := by
  simp only [Keeps, h.members, h.keys]

end ThreadTable.Grows

namespace Synthesis

variable {m : Machine} {root : Nat} {plan : Plan} {owners : OwnershipTable} {limit : Nat}
  {built : List ThreadTable}

def Holder (built : List ThreadTable) (e : Entity) (o : Rtl.ResourceRef) : Prop :=
  ∃ b ∈ built, (b.builder.links.find e).owner = some o

/-- The tables of a plan, built with what is settled about its entities. -/
structure Built (m : Machine) (root : Nat) (plan : Plan) (owners : OwnershipTable) (limit : Nat)
    (built : List ThreadTable) : Prop where
  plans : Plan.ofRoot m root = .ok plan
  settles : ∃ closed, plan.accesses.settle = .ok (owners, closed)
  builds : buildTables m owners limit 0 plan.threads = .ok built

namespace Built

variable {k : Nat} {b : ThreadTable}

theorem get_eq (h : Built m root plan owners limit built) (e : Entity) :
    owners.get e = .of (plan.accesses.find e) := by
  obtain ⟨closed, hsettle⟩ := h.settles
  exact Accesses.get_of_settle hsettle e

theorem thread (h : Built m root plan owners limit built) (hb : built[k]? = some b) :
    plan.threads[k]? = some b.plan ∧ ThreadTable.build m owners limit k b.plan = .ok b := by
  have hlt := (List.getElem?_eq_some_iff.mp hb).1
  rw [(buildTables_eq_ok h.builds).1] at hlt
  have ht := List.getElem?_eq_getElem hlt
  obtain ⟨b', hb', hbuild⟩ := (buildTables_eq_ok h.builds).2 k _ ht
  cases Option.some.inj (hb.symm.trans hb')
  rw [Nat.zero_add] at hbuild
  rw [ThreadTable.plan_of_build hbuild]
  exact ⟨ht, hbuild⟩

theorem sound_plan (h : Built m root plan owners limit built) (hb : built[k]? = some b) :
    b.plan.Sound m :=
  (Plan.ofRoot_spec h.plans).1.threads _ (List.mem_of_getElem? (h.thread hb).1)

theorem obeys (h : Built m root plan owners limit built) (hb : built[k]? = some b) :
    b.Obeys m owners k :=
  ThreadTable.build_obeys (h.sound_plan hb) (h.thread hb).2

theorem sound (h : Built m root plan owners limit built) (hb : built[k]? = some b) :
    b.builder.Sound ∧ b.builder.pool.place = b.plan.place := by
  have hpool := (Plan.ofRoot_housed h.plans).pool _ (List.mem_of_getElem? (h.thread hb).1)
  obtain ⟨-, -, hsound, -, hplace⟩ := ThreadTable.build_tidy hpool.toTidy (h.thread hb).2
  exact ⟨hsound, hplace.trans (h.sound_plan hb).place⟩

theorem recorded (h : Built m root plan owners limit built) (hb : built[k]? = some b)
    {v : Walker} {i : Insn} {st : LoweredState} (hi : b.Lowers m v i st) :
    Recorded m plan.accesses k v i := by
  obtain ⟨hthread, hbuild⟩ := h.thread hb
  have hpool := (h.sound_plan hb).pool
  obtain ⟨_, _, _, hlower, -⟩ := ThreadTable.build_spec hpool hbuild
  obtain ⟨-, -, -, hall⟩ := ThreadTable.lowerAll_spec (Builder.sound_ofPool hpool) hlower
  obtain ⟨name, c, n, hc, hinsn, hwalk, -⟩ := hi
  obtain ⟨hname, b₁, b₂, hb₁, -, hlowered, -⟩ := hall name c hc
  obtain ⟨-, -, hobject, -⟩ := Site.lower_spec hb₁ hlowered
  rw [hobject] at hwalk
  -- only a method with a body of its own is lowered to code, and that code was scanned
  obtain ⟨o, f, e, l, ho, hf, himpl, -, -, hcases⟩ := Site.lower_cases hlowered
  rcases hcases with ⟨himported, -⟩ | ⟨-, hport, -⟩ | ⟨hnative, himported, hport, -⟩
  · simp [Context.code, himported] at hinsn
  · simp [Context.code, hport] at hinsn
  · have hmethod : f = c.method := by simpa [Site.implementation?, hnative] using himpl
    have hcode : c.code = f.code := by simp [Context.code, himported, hport, hmethod]
    rw [hcode] at hinsn hwalk
    exact (Plan.ofRoot_spec h.plans).2 k b.plan hthread name hname f
      (by simp [Walker.calledMethod?, ho, hf]) hnative n i v hinsn hwalk

theorem accessor_of_accesses (h : Built m root plan owners limit built) (hb : built[k]? = some b)
    {e : Entity} (he : b.Accesses m e) : k ∈ (plan.accesses.find e).accessors := by
  obtain ⟨v, i, st, write, hi, haccess⟩ := he
  exact (h.recorded hb hi).accessed haccess

theorem mover_of_moves (h : Built m root plan owners limit built) (hb : built[k]? = some b)
    {e : Entity} (he : b.Moves m e) : (plan.accesses.find e).movers.contains k = true := by
  obtain ⟨v, i, st, hi, hmove⟩ := he
  exact (h.recorded hb hi).moved hmove

theorem distinct (h : Built m root plan owners limit built) :
    ∀ b ∈ built, b.builder.links.Distinct := by
  intro b hb
  obtain ⟨k, hk⟩ := List.mem_iff_getElem?.mp hb
  exact (h.sound hk).1.distinct

theorem holder_unique (h : Built m root plan owners limit built) {e : Entity}
    {o o' : Rtl.ResourceRef} (ho : Holder built e o) (ho' : Holder built e o') : o = o' := by
  obtain ⟨b, hb, howner⟩ := ho
  obtain ⟨b', hb', howner'⟩ := ho'
  obtain ⟨k, hk⟩ := List.mem_iff_getElem?.mp hb
  obtain ⟨k', hk'⟩ := List.mem_iff_getElem?.mp hb'
  have hsettled := ((h.obeys hk).holds howner).1
  have hsettled' := ((h.obeys hk').holds howner').1
  simp only [Ownership.isOwner, decide_eq_true_eq] at hsettled hsettled'
  cases Option.some.inj (hsettled.symm.trans hsettled')
  cases Option.some.inj (hk.symm.trans hk')
  exact Option.some.inj (howner.symm.trans howner')

end Built

namespace Staged

variable {s : Synthesis} {ps : List (Rtl.ResourceRef × Rtl.ResourceRef)}

/-- What a table was when it was built. -/
structure Origin (m : Machine) (owners : OwnershipTable)
    (ps : List (Rtl.ResourceRef × Rtl.ResourceRef)) (k : Nat) (b w : ThreadTable) : Prop where
  obeys : b.Obeys m owners k
  sound : b.builder.Sound
  place : b.builder.pool.place = w.plan.place
  grows : (linked ps b).Grows w

theorem toBuilt (h : Staged m root s owners limit built ps) :
    Built m root s.plan owners limit built := ⟨h.plan, h.settles, h.builds⟩

theorem origin (h : Staged m root s owners limit built ps) {k : Nat} {w : ThreadTable}
    (hw : s.tables[k]? = some w) : ∃ b, built[k]? = some b ∧ Origin m owners ps k b w := by
  obtain ⟨b, w', hb, hw', -, -, -, hgrows, -⟩ := h.thread (h.table hw)
  cases Option.some.inj (hw.symm.trans hw')
  obtain ⟨hsound, hplace⟩ := h.toBuilt.sound hb
  exact ⟨b, hb, h.toBuilt.obeys hb, hsound, hplace.trans (congrArg _ hgrows.plan.symm), hgrows⟩

theorem became (h : Staged m root s owners limit built ps) {b : ThreadTable} (hb : b ∈ built) :
    ∃ k w, built[k]? = some b ∧ s.tables[k]? = some w ∧ Origin m owners ps k b w := by
  obtain ⟨k, hk⟩ := List.mem_iff_getElem?.mp hb
  have hlt := (List.getElem?_eq_some_iff.mp hk).1
  rw [(buildTables_eq_ok h.builds).1] at hlt
  obtain ⟨-, w, -, hw, -⟩ := h.thread (List.getElem?_eq_getElem hlt)
  obtain ⟨b', hb', horigin⟩ := h.origin hw
  cases Option.some.inj (hk.symm.trans hb')
  exact ⟨k, w, hk, hw, horigin⟩

theorem eq_of_place (h : Staged m root s owners limit built ps) {j k : Nat} {a b : ThreadTable}
    (ha : s.tables[j]? = some a) (hb : s.tables[k]? = some b) (hplace : a.plan.place = b.plan.place) :
    j = k :=
  h.ranked.injective (r := a.plan.place) (by simp [ha]) (by simp [hb, hplace])

end Staged
end Synthesis
end Synth
end MachineSynth
