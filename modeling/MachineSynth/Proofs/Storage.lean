import Mathlib
import MachineSynth.Proofs.Journal.Storage
import MachineSynth.Proofs.Tables.Provenance

/-! Storage: where a design stores the members of objects, and what it records about them. -/
namespace MachineSynth

namespace Synth

theorem LoweredState.DoneBy.unique {st : LoweredState} {resources resources' : List Rtl.Resource}
    {a b : Nat} (ha : st.DoneBy resources a) (hb : st.DoneBy resources' b) : a = b := by
  obtain ⟨x, j, hinsns, rfl, -⟩ := ha
  obtain ⟨y, j', hinsns', rfl, -⟩ := hb
  cases hinsns.symm.trans hinsns'
  rfl

def LoweredState.worker? (resources : List Rtl.Resource) (st : LoweredState) : Option Nat :=
  match st.insns with
  | [x, j] =>
    if Rtl.kindAt resources j.resource = some Rtl.Resource.transitionKind then some x.resource
    else none
  | _ => none

theorem LoweredState.worker?_eq_some {st : LoweredState} {resources : List Rtl.Resource} {k : Nat} :
    st.worker? resources = some k ↔ st.DoneBy resources k := by
  unfold worker?
  split
  · rename_i x j hinsns
    simp only [Option.ite_none_right_eq_some, Option.some.injEq]
    constructor
    · rintro ⟨hkind, rfl⟩
      exact ⟨x, j, hinsns, rfl, hkind⟩
    · rintro ⟨x', j', hinsns', rfl, hkind⟩
      cases hinsns.symm.trans hinsns'
      exact ⟨hkind, rfl⟩
  · rename_i hne
    constructor
    · intro h
      cases h
    · rintro ⟨x, j, hinsns, -⟩
      exact absurd hinsns (hne x j)

namespace ThreadTable

variable {m : Machine} {t : ThreadTable}

/-- Whether some instruction of the methods of a table and its state meet a condition. -/
def lowersSome (m : Machine) (table : ThreadTable) (p : Walker → Insn → LoweredState → Bool) :
    Bool :=
  table.contexts.any fun x => (List.range x.2.code.length).any fun k =>
    match x.2.code[k]?, (Walker.start x.2.object).walk m (x.2.code.take k),
      x.2.states[Lower.firstState (roleOf m table.plan x.1) + Lower.offset (x.2.code.take k)]? with
    | some i, .ok w, some st => p w i st
    | _, _, _ => false

theorem lowersSome_iff {p : Walker → Insn → LoweredState → Bool} :
    t.lowersSome m p = true ↔ ∃ w i st, t.Lowers m w i st ∧ p w i st = true := by
  simp only [lowersSome, List.any_eq_true, List.mem_range]
  constructor
  · rintro ⟨⟨name, c⟩, hc, k, -, h⟩
    split at h
    · rename_i i w st hi hw hst
      exact ⟨w, i, st, ⟨name, c, k, hc, hi, hw, hst⟩, h⟩
    · cases h
  · rintro ⟨w, i, st, ⟨name, c, k, hc, hi, hw, hst⟩, h⟩
    exact ⟨(name, c), hc, k, (List.getElem?_eq_some_iff.mp hi).1, by simpa [hi, hw, hst] using h⟩

theorem build_keeps {m : Machine} {owners : OwnershipTable} {limit : Nat} {id : ThreadId}
    {t : ThreadPlan} {table : ThreadTable} (hpool : t.pool.Sound)
    (h : build m owners limit id t = .ok table) {w : Walker} {i : Insn} {st : LoweredState}
    {e : Entity} {write : Bool} (hi : table.Lowers m w i st)
    (haccess : w.accessed? m i = some (e, write)) (hmember : Walker.onArray i = false)
    (hprivate : owners.isPrivate i e = true) :
    ∃ unit k, st.DoneBy table.resources unit ∧
      Rtl.kindAt table.resources unit = some "set" ∧ table.builder.members.lookup e = some k := by
  obtain ⟨name, c, a, a', -, ha, rfl, hrun, hext, hdone⟩ := build_at hpool h hi
  obtain ⟨unit, k, hemits, hkind, hk⟩ := Lower.instruction_keeps ha haccess hmember hprivate hrun
  exact ⟨unit, k, hdone unit hemits, hext.pool.kindAt hkind, hext.member hk⟩

end ThreadTable

namespace Synthesis

/-- Whether accesses to a member are the work of a shared register, or of readers and writers of
it. -/
def Stores (m : Machine) (s : Synthesis) (e : Entity) (o : Rtl.ResourceRef) : Prop :=
  ∃ w ∈ s.tables, ∃ v i st write k r, w.Lowers m v i st ∧ v.accessed? m i = some (e, write) ∧
    Walker.onArray i = false ∧ st.DoneBy w.resources k ∧
    s.design.resource? ⟨w.plan.place, k⟩ = some r ∧
    (r.kind = "shared-reg" ∧ o = ⟨w.plan.place, k⟩ ∨
      r.kind ∈ ["shared-reg-reader", "shared-reg-writer"] ∧ r.parent = some o)

def Feeds (s : Synthesis) (o : Rtl.ResourceRef) : Prop :=
  ∃ w ∈ s.tables, ∃ k r, s.design.resource? ⟨w.plan.place, k⟩ = some r ∧
    r.kind = Rtl.dataFlowKind ∧ r.parent = some o

instance (m : Machine) (s : Synthesis) (e : Entity) (o : Rtl.ResourceRef) :
    Decidable (Stores m s e o) :=
  decidable_of_iff (∃ w ∈ s.tables, w.lowersSome m fun v i st =>
      (v.accessed? m i).any (·.1 = e) && !Walker.onArray i &&
        (st.worker? w.resources).any fun k => (s.design.resource? ⟨w.plan.place, k⟩).any fun r =>
          decide (r.kind = "shared-reg" ∧ o = ⟨w.plan.place, k⟩ ∨
            r.kind ∈ ["shared-reg-reader", "shared-reg-writer"] ∧ r.parent = some o)) (by
    simp only [ThreadTable.lowersSome_iff, Stores, Bool.and_eq_true, Option.any_eq_true,
      decide_eq_true_eq, Bool.not_eq_true', LoweredState.worker?_eq_some]
    constructor
    · rintro ⟨w, hw, v, i, st, hi, ⟨⟨⟨_, write⟩, haccess, rfl⟩, hmember⟩, k, hk, r, hr, hcases⟩
      exact ⟨w, hw, v, i, st, write, k, r, hi, haccess, hmember, hk, hr, hcases⟩
    · rintro ⟨w, hw, v, i, st, write, k, r, hi, haccess, hmember, hk, hr, hcases⟩
      exact ⟨w, hw, v, i, st, hi, ⟨⟨_, haccess, rfl⟩, hmember⟩, k, hk, r, hr, hcases⟩)

instance (s : Synthesis) (o : Rtl.ResourceRef) : Decidable (Feeds s o) :=
  decidable_of_iff (∃ w ∈ s.tables, (s.design.table? w.plan.place).any fun t =>
      t.resources.any fun r => r.kind = Rtl.dataFlowKind && r.parent = some o) (by
    simp only [Feeds, Rtl.Design.resource?, Option.any_eq_true, List.any_eq_true,
      Bool.and_eq_true, decide_eq_true_eq, Option.bind_eq_some_iff]
    constructor
    · rintro ⟨w, hw, t, ht, r, hr, hkind, hparent⟩
      obtain ⟨k, hk⟩ := List.mem_iff_getElem?.mp hr
      exact ⟨w, hw, k, r, ⟨t, ht, hk⟩, hkind, hparent⟩
    · rintro ⟨w, hw, k, r, ⟨t, ht, hk⟩, hkind, hparent⟩
      exact ⟨w, hw, t, ht, r, List.mem_of_getElem? hk, hkind, hparent⟩)

namespace Staged

variable {m : Machine} {root : Nat} {s : Synthesis} {owners : OwnershipTable} {limit : Nat}
  {built : List ThreadTable} {ps : List (Rtl.ResourceRef × Rtl.ResourceRef)} {b w : ThreadTable}
  {e : Entity} {o : Rtl.ResourceRef} {k : Nat} {r : Rtl.Resource}

theorem stored (h : Staged m root s owners limit built ps) (hb : b ∈ built) :
    b.builder.Stored m := by
  obtain ⟨n, hn⟩ := List.mem_iff_getElem?.mp hb
  exact ThreadTable.build_stored
    ((Plan.ofRoot_housed h.plan).pool _ (List.mem_of_getElem? (h.toBuilt.thread hn).1))
    (h.toBuilt.thread hn).2

/-- The register that feeds a data-flow input has the key of one member alone. -/
theorem backs_of_feeds (h : Staged m root s owners limit built ps) (ho : Feeds s o) :
    ∃ b ∈ built, b.builder.pool.Backs Pool.ownerKinds .flow o := by
  obtain ⟨w, hw, k, r, hr, hkind, hparent⟩ := ho
  obtain ⟨b, hb, hplace, r₀, hr₀, hkind₀, hparent₀⟩ :=
    h.built_of_resource? hw hr (by rw [hkind]; decide)
  obtain ⟨j, hj, hfed⟩ := (h.stored hb).pool.fed k r₀ hr₀ (hkind₀.trans hkind)
  have hnone : ps.reverse.lookup ⟨w.plan.place, k⟩ = none := by
    refine Option.eq_none_iff_forall_ne_some.mpr fun o' ho' => ?_
    rw [← hplace] at ho'
    have haccess := h.kind_of_lookup hb hr₀ ho'
    rw [hkind₀, hkind] at haccess
    exact absurd haccess (by decide)
  rw [hnone, Option.none_or, hfed, hparent] at hparent₀
  cases hparent₀
  exact ⟨b, hb, rfl, "shared-reg", by decide, hj⟩

/-- An access to a member that is not private is the work of the register that holds the member, or
of a reader or a writer of it. -/
theorem exists_storage (h : Staged m root s owners limit built ps) (hw : w ∈ s.tables) {v : Walker}
    {i : Insn} {st : LoweredState} {write : Bool} (hi : w.Lowers m v i st)
    (haccess : v.accessed? m i = some (e, write)) (hmember : Walker.onArray i = false)
    (hprivate : owners.isPrivate i e = false) :
    ∃ unit o r, st.DoneBy w.resources unit ∧ Holder built e o ∧
      s.design.resource? ⟨w.plan.place, unit⟩ = some r ∧
      (r.kind = "shared-reg" ∧ o = ⟨w.plan.place, unit⟩ ∨
        r.kind ∈ ["shared-reg-reader", "shared-reg-writer"] ∧ r.parent = some o) := by
  obtain ⟨n, hn⟩ := List.mem_iff_getElem?.mp hw
  obtain ⟨b, hb, horigin⟩ := h.origin hn
  obtain ⟨unit, hdone, hserves⟩ :=
    horigin.obeys.accesses (horigin.grows.lowers.mp hi) haccess hprivate
  rw [show Walker.thing i = "shared-reg" by simp [Walker.thing, hmember]] at hserves
  cases howner : (owners.get e).isOwner n with
  | true =>
    rw [howner] at hserves
    obtain ⟨r, hr, hkind, -⟩ := Origin.resource? h hn horigin hserves.kind
    have hplace : b.builder.pool.ref unit = ⟨w.plan.place, unit⟩ := by rw [Pool.ref, horigin.place]
    exact ⟨unit, _, r, horigin.doneBy hdone,
      ⟨b, List.mem_of_getElem? hb, hplace ▸ hserves.registered⟩, hr, .inl ⟨hkind, rfl⟩⟩
  | false =>
    rw [howner] at hserves
    obtain ⟨o, ho, -⟩ := h.parents_iff.1 ⟨b, List.mem_of_getElem? hb, hserves.registered⟩
    obtain ⟨r, hr, hkind, hparent⟩ := Origin.reaches h hn hb horigin ho hserves
    refine ⟨unit, o, r, horigin.doneBy hdone, ho, hr, .inr ⟨?_, hparent⟩⟩
    rw [hkind]
    cases write <;> simp [Pool.sharedKind]

theorem holder_of_stores (h : Staged m root s owners limit built ps) (ho : Stores m s e o) :
    Holder built e o := by
  obtain ⟨w, hw, v, i, st, write, k, r, hi, haccess, hmember, hdone, hr, hcases⟩ := ho
  cases hprivate : owners.isPrivate i e with
  | true =>
    -- a private member is kept in a register of the table, and no resource stores it
    obtain ⟨n, hn⟩ := List.mem_iff_getElem?.mp hw
    obtain ⟨b, hb, horigin⟩ := h.origin hn
    obtain ⟨unit, -, hdone₀, hset, -⟩ := ThreadTable.build_keeps (h.toBuilt.sound_plan hb).pool
      (h.toBuilt.thread hb).2 (horigin.grows.lowers.mp hi) haccess hmember hprivate
    cases hdone.unique hdone₀
    obtain ⟨r', hr', hkind, -⟩ := Origin.resource? h hn horigin hset
    cases Option.some.inj (hr.symm.trans hr')
    rw [hkind] at hcases
    simp at hcases
  | false =>
    obtain ⟨unit, o', r', hdone', ho', hr', hcases'⟩ :=
      h.exists_storage hw hi haccess hmember hprivate
    cases hdone.unique hdone'
    cases Option.some.inj (hr.symm.trans hr')
    obtain ⟨hkind, rfl⟩ | ⟨hkind, hparent⟩ := hcases
    · obtain ⟨-, rfl⟩ | ⟨hreader, -⟩ := hcases'
      · exact ho'
      · simp [hkind] at hreader
    · obtain ⟨hself, -⟩ | ⟨-, hparent'⟩ := hcases'
      · simp [hself] at hkind
      · cases Option.some.inj (hparent.symm.trans hparent')
        exact ho'

/-- A member that several threads access is stored in a shared register. -/
theorem exists_stores (h : Staged m root s owners limit built ps) (hw : w ∈ s.tables) {v : Walker}
    {i : Insn} {st : LoweredState} {write : Bool} (hi : w.Lowers m v i st)
    (haccess : v.accessed? m i = some (e, write)) (hmember : Walker.onArray i = false)
    (hshared : (owners.get e).isShared = true) : ∃ o, Stores m s e o := by
  obtain ⟨unit, o, r, hdone, -, hr, hcases⟩ := h.exists_storage hw hi haccess hmember
    (by simp [OwnershipTable.isPrivate, hshared])
  exact ⟨o, w, hw, v, i, st, write, unit, r, hi, haccess, hmember, hdone, hr, hcases⟩

/-- The register that holds a member for all records its width, and nothing else. -/
theorem held_of_holder (h : Staged m root s owners limit built ps) (hm : m.Named)
    (he : e.member ≠ "") (hflow : e ≠ .flow) (hshared : (owners.get e).isShared = true)
    (ho : Holder built e o) : ∃ r, s.design.resource? o = some r ∧ r.kind = "shared-reg" ∧
      e.HeldBy m (r.params.filter (·.1 ≠ "CHANNEL")) := by
  obtain ⟨b, hb, howner⟩ := ho
  obtain ⟨n, w, hn, hw, horigin⟩ := h.became hb
  obtain ⟨hown, v, i, st, write, hi, haccess⟩ := horigin.obeys.holds howner
  obtain ⟨unit, -, hserves⟩ := horigin.obeys.accesses hi haccess
    (by simp [OwnershipTable.isPrivate, hshared])
  rw [hown, Walker.thing_of_accessed? hm haccess] at hserves
  have hkindAt : Rtl.kindAt b.builder.pool.resources unit = some "shared-reg" := by
    simpa [Pool.sharedKind, Entity.heldAs, he] using hserves.kind
  cases Option.some.inj (howner.symm.trans hserves.registered)
  obtain ⟨-, kind, -, hkey⟩ := horigin.sound.owner howner
  obtain rfl : "shared-reg" = kind :=
    Option.some.inj (hkindAt.symm.trans (horigin.sound.pool.kind hkey))
  obtain ⟨r₀, hr₀, hheld⟩ := (h.stored hb).pool.held e unit hflow hkey
  obtain ⟨r, hr, hkind, -⟩ := Origin.resource? h hw horigin hkindAt
  have hlinked : (linked ps b).resources[unit]? =
      some { r₀ with parent := (ps.reverse.lookup ⟨b.plan.place, unit⟩).or r₀.parent } := by
    simp [linked, ThreadTable.setResources, ThreadTable.resources, hr₀]
  have hsame := h.resource?_iff (k := unit) (List.mem_of_getElem? hw)
  rw [hr, getElem?_of_isPrefix horigin.grows.resources hlinked, Option.map_some,
    Option.map_some] at hsame
  obtain ⟨-, -, hparams⟩ := Rtl.Resource.eq_of_unnumbered (Option.some.inj hsame)
  refine ⟨r, by rw [Pool.ref, horigin.place]; exact hr, hkind, ?_⟩
  obtain ⟨width, initial, hdeclared, hparams₀⟩ := hheld
  refine ⟨width, initial, hdeclared, hparams.trans ?_⟩
  simp [hparams₀]

/-- A member that one thread accesses is kept in a register that records all of its declaration. -/
theorem kept_of_private (h : Staged m root s owners limit built ps) (hw : w ∈ s.tables) {v : Walker}
    {i : Insn} {st : LoweredState} {write : Bool} (hi : w.Lowers m v i st)
    (haccess : v.accessed? m i = some (e, write)) (hmember : Walker.onArray i = false)
    (hprivate : (owners.get e).isShared = false) :
    ∃ k t r, w.builder.members.lookup e = some k ∧ s.design.table? w.plan.place = some t ∧
      t.registers[k]? = some r ∧ e.KeptBy m r := by
  obtain ⟨n, hn⟩ := List.mem_iff_getElem?.mp hw
  obtain ⟨b, hb, horigin⟩ := h.origin hn
  obtain ⟨-, k, -, -, hk⟩ := ThreadTable.build_keeps (h.toBuilt.sound_plan hb).pool
    (h.toBuilt.thread hb).2 (horigin.grows.lowers.mp hi) haccess hmember
    (by simp [OwnershipTable.isPrivate, hprivate, hmember])
  obtain ⟨r, hr, hkept⟩ := (h.stored (List.mem_of_getElem? hb)).kept hk
  obtain ⟨t, ht, hstripped⟩ := h.table?_design hw
  refine ⟨k, t, r, horigin.grows.members.symm ▸ hk, ht, ?_, hkept⟩
  rw [(Rtl.Table.eq_of_stripped hstripped).1]
  exact getElem?_of_isPrefix horigin.grows.registers hr

end Staged

/-- A shared register stores one member at most, and one that feeds a data-flow input none but the
member of the first object that has the name of such registers. -/
theorem stores_unique {m : Machine} {root depth : Nat} {s : Synthesis}
    (h : synthesize m root depth = .ok s) {e : Entity} {o : Rtl.ResourceRef}
    (he : Stores m s e o) :
    (∀ e', Stores m s e' o → e' = e) ∧ (Feeds s o → e = .flow) := by
  obtain ⟨owners, limit, built, ps, h⟩ := staged_of_ok h
  obtain ⟨b, hb, howner⟩ := h.holder_of_stores he
  have hbacks := h.toBuilt.owner_backs hb howner
  refine ⟨fun e' he' => ?_, fun hfeeds => ?_⟩
  · obtain ⟨b', hb', howner'⟩ := h.holder_of_stores he'
    exact (h.toBuilt.backs_unique hb' hb (h.toBuilt.owner_backs hb' howner') hbacks).2
  · obtain ⟨b', hb', hflow⟩ := h.backs_of_feeds hfeeds
    exact (h.toBuilt.backs_unique hb hb' hbacks hflow).2

/-- A machine whose main thread reads a member that a data-flow thread writes. -/
def flowMember (name : String) : Machine :=
  let method (name : String) (code : List Insn) (flow : Bool) : Slot :=
    ⟨name, .method ⟨name, [], [], [⟨"v", .num, 8, false, 0⟩], code, "", "", "",
      { Marks.none with dataFlowEntry := flow }⟩⟩
  let this := RegisterId.unused
  ⟨[⟨"top", .plain, 0, 0, false, false, [],
      [⟨name, .num 8 0 false⟩, method "main" [.memberRead 0 this name] false,
        method "f" [.memberWrite this name 0] true]⟩]⟩

/-- The member and the data-flow input have registers of their own. -/
theorem flowMember_separates : ∃ s, synthesize (flowMember "x") 0 0 = .ok s ∧
    Stores (flowMember "x") s ⟨0, "x"⟩ ⟨⟨0, 1⟩, 3⟩ ∧ Feeds s ⟨⟨0, 1⟩, 2⟩ ∧
    (∀ e, Stores (flowMember "x") s e ⟨⟨0, 1⟩, 3⟩ → e = ⟨0, "x"⟩) ∧ ¬ Feeds s ⟨⟨0, 1⟩, 3⟩ := by
  have h : (synthesize (flowMember "x") 0 0).toOption.any (fun s => decide
      (Stores (flowMember "x") s ⟨0, "x"⟩ ⟨⟨0, 1⟩, 3⟩ ∧ Feeds s ⟨⟨0, 1⟩, 2⟩)) = true := by
    decide +kernel
  obtain ⟨s, hs, h⟩ := exists_ok_of_any h
  obtain ⟨hstores, hfeeds⟩ := of_decide_eq_true h
  obtain ⟨honly, hflow⟩ := stores_unique hs hstores
  exact ⟨s, hs, hstores, hfeeds, honly, fun hfeeds' => absurd (hflow hfeeds') (by decide)⟩

/-- A member with the name of the registers that feed data-flow inputs is stored in one of them. -/
theorem flowMember_confuses : ∃ s, synthesize (flowMember "$dataflow") 0 0 = .ok s ∧
    Stores (flowMember "$dataflow") s ⟨0, "$dataflow"⟩ ⟨⟨0, 1⟩, 2⟩ ∧ Feeds s ⟨⟨0, 1⟩, 2⟩ := by
  have h : (synthesize (flowMember "$dataflow") 0 0).toOption.any (fun s => decide
      (Stores (flowMember "$dataflow") s ⟨0, "$dataflow"⟩ ⟨⟨0, 1⟩, 2⟩ ∧
      Feeds s ⟨⟨0, 1⟩, 2⟩)) = true := by
    decide +kernel
  obtain ⟨s, hs, h⟩ := exists_ok_of_any h
  exact ⟨s, hs, of_decide_eq_true h⟩

/-- A member that one thread accesses is kept in a register with its width and its initial value. A
member that several threads access is stored in a shared register, with its width alone. Slots have
names, as `Listing.named_of_load` says of listings. -/
theorem storage_declared {m : Machine} {root depth : Nat} {s : Synthesis} (hm : m.Named)
    (h : synthesize m root depth = .ok s) {w : ThreadTable} (hw : w ∈ s.tables) {v : Walker}
    {i : Insn} {st : LoweredState} {e : Entity} {write : Bool} (hi : w.Lowers m v i st)
    (haccess : v.accessed? m i = some (e, write)) (hmember : Walker.onArray i = false)
    (hflow : e ≠ .flow) :
    if 1 < (s.plan.accesses.find e).accessors.length then
      ∃ o r, Stores m s e o ∧ s.design.resource? o = some r ∧ r.kind = "shared-reg" ∧
        e.HeldBy m (r.params.filter (·.1 ≠ "CHANNEL"))
    else
      ∃ k t r, w.builder.members.lookup e = some k ∧ s.design.table? w.plan.place = some t ∧
        t.registers[k]? = some r ∧ e.KeptBy m r := by
  obtain ⟨owners, limit, built, ps, h⟩ := staged_of_ok h
  have hisShared : (owners.get e).isShared =
      decide (1 < (s.plan.accesses.find e).accessors.length) := by
    rw [h.toBuilt.get_eq]
    rfl
  split
  · rename_i hshared
    rw [decide_eq_true hshared] at hisShared
    have he : e.member ≠ "" := fun he => by
      rw [(Walker.onArray_of_accessed? hm haccess).mpr he] at hmember
      cases hmember
    obtain ⟨o, ho⟩ := h.exists_stores hw hi haccess hmember hisShared
    obtain ⟨r, hr, hkind, hheld⟩ := h.held_of_holder hm he hflow hisShared (h.holder_of_stores ho)
    exact ⟨o, r, ho, hr, hkind, hheld⟩
  · rename_i hprivate
    rw [decide_eq_false hprivate] at hisShared
    exact h.kept_of_private hw hi haccess hmember hisShared

/-- A machine whose main thread writes a member, which another thread reads if the member is to be
shared. -/
def initialValue (shared : Bool) (initial : Int64) : Machine :=
  let method (name : String) (code : List Insn) : Slot :=
    ⟨name, .method ⟨name, [], [], [⟨"v", .num, 8, false, 0⟩], code, "", "", "", .none⟩⟩
  let this := RegisterId.unused
  ⟨[⟨"top", .plain, 0, 0, false, false, if shared then [⟨"t", "g"⟩] else [],
      [⟨"x", .num 8 initial false⟩, method "main" [.memberWrite this "x" 0],
        method "g" [.memberRead 0 this "x"]]⟩]⟩

theorem initialValue_declared : (initialValue false 5).Named ∧ (initialValue true 5).Named ∧
    (∃ s w k t r, synthesize (initialValue false 5) 0 0 = .ok s ∧ w ∈ s.tables ∧
      w.builder.members.lookup ⟨0, "x"⟩ = some k ∧ s.design.table? w.plan.place = some t ∧
      t.registers[k]? = some r ∧ Entity.KeptBy (initialValue false 5) ⟨0, "x"⟩ r) ∧
    ∃ s o r, synthesize (initialValue true 5) 0 0 = .ok s ∧
    Stores (initialValue true 5) s ⟨0, "x"⟩ o ∧
      s.design.resource? o = some r ∧ r.kind = "shared-reg" ∧
      Entity.HeldBy (initialValue true 5) ⟨0, "x"⟩ (r.params.filter (·.1 ≠ "CHANNEL")) := by
  have hnamed : ∀ shared, (initialValue shared 5).Named := by decide +kernel
  have h : ∀ shared, (synthesize (initialValue shared 5) 0 0).toOption.any (fun s =>
      (decide (1 < (s.plan.accesses.find ⟨0, "x"⟩).accessors.length) = shared) &&
      s.tables.any fun w => w.lowersSome (initialValue shared 5) fun v i _ =>
        v.accessed? (initialValue shared 5) i = some (⟨0, "x"⟩, true) &&
          !Walker.onArray i) = true := by
    decide +kernel
  have hlowered : ∀ shared, ∃ s w v i st, synthesize (initialValue shared 5) 0 0 = .ok s ∧
      decide (1 < (s.plan.accesses.find ⟨0, "x"⟩).accessors.length) = shared ∧ w ∈ s.tables ∧
      w.Lowers (initialValue shared 5) v i st ∧
      v.accessed? (initialValue shared 5) i = some (⟨0, "x"⟩, true) ∧ Walker.onArray i = false := by
    intro shared
    obtain ⟨s, hs, h⟩ := exists_ok_of_any (h shared)
    obtain ⟨hshared, h⟩ := Bool.and_eq_true_iff.mp h
    obtain ⟨w, hw, h⟩ := List.any_eq_true.mp h
    obtain ⟨v, i, st, hi, h⟩ := ThreadTable.lowersSome_iff.mp h
    obtain ⟨haccess, hmember⟩ := Bool.and_eq_true_iff.mp h
    exact ⟨s, w, v, i, st, hs, of_decide_eq_true hshared, hw, hi, of_decide_eq_true haccess,
      by simpa using hmember⟩
  refine ⟨hnamed false, hnamed true, ?_, ?_⟩
  · obtain ⟨s, w, v, i, st, hs, hshared, hw, hi, haccess, hmember⟩ := hlowered false
    have hstored := storage_declared (hnamed false) hs hw hi haccess hmember (by decide)
    rw [if_neg (of_decide_eq_false hshared)] at hstored
    obtain ⟨k, t, r, hstored⟩ := hstored
    exact ⟨s, w, k, t, r, hs, hw, hstored⟩
  · obtain ⟨s, w, v, i, st, hs, hshared, hw, hi, haccess, hmember⟩ := hlowered true
    have hstored := storage_declared (hnamed true) hs hw hi haccess hmember (by decide)
    rw [if_pos (of_decide_eq_true hshared)] at hstored
    obtain ⟨o, r, hstored⟩ := hstored
    exact ⟨s, o, r, hs, hstored⟩

/-- Whatever a shared member is declared to start with, its design is the same. -/
theorem initialValue_forgets : Entity.declared? (initialValue true 5) ⟨0, "x"⟩ = some (8, 5) ∧
    Entity.declared? (initialValue true 0) ⟨0, "x"⟩ = some (8, 0) ∧
    ∃ s s', synthesize (initialValue true 5) 0 0 = .ok s ∧
    synthesize (initialValue true 0) 0 0 = .ok s' ∧
      s.design = s'.design := by
  have h : (synthesize (initialValue true 5) 0 0).toOption.any (fun s =>
      (synthesize (initialValue true 0) 0 0).toOption.any fun s' => s.design = s'.design) = true := by
    decide +kernel
  obtain ⟨s, hs, h⟩ := exists_ok_of_any h
  obtain ⟨s', hs', h⟩ := exists_ok_of_any h
  exact ⟨by decide +kernel, by decide +kernel, s, s', hs, hs', of_decide_eq_true h⟩

end Synthesis

end Synth
end MachineSynth
