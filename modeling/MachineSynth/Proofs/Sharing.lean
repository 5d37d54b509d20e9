import Mathlib
import MachineSynth.Proofs.Tables.Assembly
import MachineSynth.Proofs.Tables.Gathering

/-! Sharing: what several threads touch, one of them holds, and the others reach it through the
resource that holds it. -/
namespace MachineSynth
namespace Synth

namespace Synthesis

/-- How a design gives access to an entity that is shared: one resource holds it. In the table of
that resource, every access is the work of the resource itself; in the other tables, that of
readers and writers which have it as their parent, as ports that move the entity have. -/
structure Arbitrates (m : Machine) (s : Synthesis) (e : Entity) (owner : Rtl.ResourceRef) :
    Prop where
  holder : ∃ r, s.design.resource? owner = some r ∧ r.kind = e.heldAs
  accesses : ∀ w ∈ s.tables, ∀ {v : Walker} {i : Insn} {st : LoweredState} {write : Bool},
    w.Lowers m v i st → v.accessed? m i = some (e, write) →
    ∃ k, st.DoneBy w.resources k ∧
      if w.plan.place = owner.owner then k = owner.resource
      else ∃ r, s.design.resource? ⟨w.plan.place, k⟩ = some r ∧
        r.kind = (if write then e.heldAs ++ "-writer" else e.heldAs ++ "-reader") ∧
        r.parent = some owner
  moves : ∀ w ∈ s.tables, ∀ {v : Walker} {i : Insn} {st : LoweredState},
    w.Lowers m v i st → v.moved? m i = some e →
    ∃ k r, st.DoneBy w.resources k ∧ s.design.resource? ⟨w.plan.place, k⟩ = some r ∧
      r.kind = "axi-master-port" ∧ r.parent = some owner

def Contested (m : Machine) (s : Synthesis) (e : Entity) : Prop :=
  (∃ (j k : Nat) (a b : ThreadTable), j ≠ k ∧ s.tables[j]? = some a ∧ s.tables[k]? = some b ∧
    a.Accesses m e ∧ b.Accesses m e) ∨
  (∃ a ∈ s.tables, a.Accesses m e) ∧ ∃ b ∈ s.tables, b.Moves m e

namespace Staged

variable {m : Machine} {root : Nat} {s : Synthesis} {owners : OwnershipTable} {limit : Nat}
  {built : List ThreadTable} {ps : List (Rtl.ResourceRef × Rtl.ResourceRef)}

theorem accessor_of_accesses (h : Staged m root s owners limit built ps) {k : Nat} {w : ThreadTable}
    (hw : s.tables[k]? = some w) {e : Entity} (he : w.Accesses m e) :
    k ∈ (s.plan.accesses.find e).accessors := by
  obtain ⟨b, hb, horigin⟩ := h.origin hw
  exact h.toBuilt.accessor_of_accesses hb (horigin.grows.accesses_iff.mp he)

theorem mover_of_moves (h : Staged m root s owners limit built ps) {k : Nat} {w : ThreadTable}
    (hw : s.tables[k]? = some w) {e : Entity} (he : w.Moves m e) :
    (s.plan.accesses.find e).movers.contains k = true := by
  obtain ⟨b, hb, horigin⟩ := h.origin hw
  exact h.toBuilt.mover_of_moves hb (horigin.grows.moves_iff.mp he)

section Links

/-- Whatever accesses an entity, there is a resource that holds it, and this is the parent that
the accessing resource is given. -/
theorem parents_iff (h : Staged m root s owners limit built ps) :
    (∀ {e : Entity} {r : Rtl.ResourceRef}, (∃ b ∈ built, r ∈ (b.builder.links.find e).accessors) →
      ∃ o, Holder built e o ∧ (r ≠ o → (r, o) ∈ ps)) ∧
    ∀ {r o : Rtl.ResourceRef}, (r, o) ∈ ps →
      ∃ e, (∃ b ∈ built, r ∈ (b.builder.links.find e).accessors) ∧ Holder built e o := by
  obtain ⟨links, hlinks, hps⟩ := h.parents
  have hdistinct := h.toBuilt.distinct
  obtain ⟨hgiven, hback⟩ := Links.parents_spec (allLinks_collects hlinks).distinct hps
  refine ⟨fun {e r} hr => ?_, fun {r o} hmem => ?_⟩
  · obtain ⟨o, ho, hmem⟩ := hgiven e r ((allLinks_find hdistinct hlinks e r).2.mpr hr)
    exact ⟨o, (allLinks_find hdistinct hlinks e o).1.mp ho, hmem⟩
  · obtain ⟨e, hr, ho⟩ := hback r o hmem
    exact ⟨e, (allLinks_find hdistinct hlinks e r).2.mp hr,
      (allLinks_find hdistinct hlinks e o).1.mp ho⟩

theorem lookup_parent_iff (h : Staged m root s owners limit built ps) {r o : Rtl.ResourceRef} :
    ps.reverse.lookup r = some o ↔ ∃ e, Reacher built e r ∧ Holder built e o := by
  obtain ⟨links, hlinks, hps⟩ := h.parents
  exact h.toBuilt.lookup_parents (gathers_allLinks h.toBuilt.distinct hlinks) hps

theorem lookup_parent (h : Staged m root s owners limit built ps) {b : ThreadTable} (hb : b ∈ built)
    {e : Entity} {r o : Rtl.ResourceRef} (hr : r ∈ (b.builder.links.find e).accessors)
    (ho : Holder built e o) : ps.reverse.lookup r = some o :=
  h.lookup_parent_iff.mpr ⟨e, ⟨b, hb, hr⟩, ho⟩

end Links

theorem Origin.resource? (h : Staged m root s owners limit built ps) {k : Nat} {b w : ThreadTable}
    (hw : s.tables[k]? = some w) (horigin : Origin m owners ps k b w) {n : Nat} {kind : String}
    (hkind : Rtl.kindAt b.resources n = some kind) :
    ∃ r, s.design.resource? ⟨w.plan.place, n⟩ = some r ∧ r.kind = kind ∧
      ∀ o, ps.reverse.lookup ⟨w.plan.place, n⟩ = some o → r.parent = some o := by
  have hplan : w.plan = b.plan := horigin.grows.plan
  obtain ⟨r₀, hr₀, rfl⟩ := Option.map_eq_some_iff.mp hkind
  have hlinked : (linked ps b).resources[n]? =
      some { r₀ with parent := (ps.reverse.lookup ⟨b.plan.place, n⟩).or r₀.parent } := by
    have hat : b.builder.pool.resources[n]? = some r₀ := hr₀
    simp [linked, ThreadTable.setResources, ThreadTable.resources, hat]
  obtain ⟨r, hr, hstripped⟩ := h.resource?_design (List.mem_of_getElem? hw)
    (getElem?_of_isPrefix horigin.grows.resources hlinked)
  obtain ⟨-, hkind', hparent, -⟩ := Rtl.Resource.eq_of_stripped hstripped
  refine ⟨r, hr, hkind', fun o ho => ?_⟩
  rw [hparent, ← hplan, ho, Option.some_or]

theorem Origin.doneBy {k : Nat} {b w : ThreadTable} (horigin : Origin m owners ps k b w)
    {st : LoweredState} {n : Nat} (h : st.DoneBy b.resources n) : st.DoneBy w.resources n := by
  have hextends : b.builder.pool.Extends (linked ps b).builder.pool := linked_extends
  obtain ⟨x, j, hinsns, hx, hj⟩ := h.mono hextends
  exact ⟨x, j, hinsns, hx, Rtl.kindAt_of_isPrefix horigin.grows.resources hj⟩

/-- A resource that is registered as accessing an entity has the holder of the entity as its
parent. -/
theorem Origin.reaches (h : Staged m root s owners limit built ps) {k : Nat} {b w : ThreadTable}
    (hw : s.tables[k]? = some w) (hb : built[k]? = some b) (horigin : Origin m owners ps k b w)
    {e : Entity} {o : Rtl.ResourceRef} (ho : Holder built e o) {kind : String} {n : Nat}
    (hserves : b.builder.Serves false kind e n) :
    ∃ r, s.design.resource? ⟨w.plan.place, n⟩ = some r ∧ r.kind = kind ∧ r.parent = some o := by
  obtain ⟨r, hr, hkind, hparent⟩ := Origin.resource? h hw horigin hserves.kind
  refine ⟨r, hr, hkind, hparent o ?_⟩
  rw [← horigin.place]
  exact h.lookup_parent (List.mem_of_getElem? hb) hserves.registered ho

/-- An entity that no access keeps private, and that some resource is registered as accessing, is
arbitrated. -/
theorem arbitrates (h : Staged m root s owners limit built ps) (hm : m.Named) {e : Entity}
    (hprivate : ∀ {v : Walker} {i : Insn} {write : Bool}, v.accessed? m i = some (e, write) →
      owners.isPrivate i e = false)
    (hreached : ∃ b ∈ built, ∃ r, r ∈ (b.builder.links.find e).accessors) :
    ∃ owner, Arbitrates m s e owner := by
  obtain ⟨b, hb, r, hr⟩ := hreached
  obtain ⟨o, ho, -⟩ := h.parents_iff.1 ⟨b, hb, hr⟩
  obtain ⟨b₀, hb₀, howner⟩ := id ho
  obtain ⟨k₀, w₀, hk₀, hw₀, horigin₀⟩ := h.became hb₀
  have hplace : o.owner = w₀.plan.place :=
    (horigin₀.sound.owner howner).1.trans horigin₀.place
  obtain ⟨hisOwner, haccesses₀⟩ := horigin₀.obeys.holds howner
  have hsettled : (owners.get e).owner = some k₀ := by simpa [Ownership.isOwner] using hisOwner
  -- in the table of the holder, the holder does all the work
  have hself : ∀ {kind : String} {n : Nat}, b₀.builder.Serves true kind e n → n = o.resource := by
    intro kind n hserves
    cases h.toBuilt.holder_unique ho ⟨b₀, hb₀, hserves.registered⟩
    rfl
  refine ⟨o, ?_, fun w hw {v i st write} hi haccess => ?_, fun w hw {v i st} hi hmove => ?_⟩
  · obtain ⟨v, i, st, write, hi, haccess⟩ := haccesses₀
    obtain ⟨n, -, hserves⟩ := horigin₀.obeys.accesses hi haccess (hprivate haccess)
    rw [hisOwner] at hserves
    obtain ⟨r', hr', hkind, -⟩ := Origin.resource? h hw₀ horigin₀ hserves.kind
    refine ⟨r', ?_, hkind.trans ?_⟩
    · rw [← hr', ← hplace, hself hserves]
    · simp [Pool.sharedKind, Walker.thing_of_accessed? hm haccess]
  · obtain ⟨k, hk⟩ := List.mem_iff_getElem?.mp hw
    obtain ⟨b₁, hb₁, horigin⟩ := h.origin hk
    obtain ⟨n, hdone, hserves⟩ := horigin.obeys.accesses (horigin.grows.lowers.mp hi) haccess
      (hprivate haccess)
    refine ⟨n, horigin.doneBy hdone, ?_⟩
    by_cases hkk : k = k₀
    · subst hkk
      cases Option.some.inj (hk.symm.trans hw₀)
      cases Option.some.inj (hb₁.symm.trans hk₀)
      rw [hisOwner] at hserves
      rw [if_pos hplace.symm]
      exact hself hserves
    · have hother : (owners.get e).isOwner k = false := by
        simp [Ownership.isOwner, hsettled, Ne.symm hkk]
      have hne : w.plan.place ≠ o.owner := fun heq =>
        hkk (h.eq_of_place hk hw₀ (heq.trans hplace))
      rw [hother] at hserves
      rw [if_neg hne]
      simpa [Pool.sharedKind, Walker.thing_of_accessed? hm haccess] using
        Origin.reaches h hk hb₁ horigin ho hserves
  · obtain ⟨k, hk⟩ := List.mem_iff_getElem?.mp hw
    obtain ⟨b₁, hb₁, horigin⟩ := h.origin hk
    obtain ⟨n, hdone, hserves⟩ := horigin.obeys.moves (horigin.grows.lowers.mp hi) hmove
      (by rw [hsettled, Option.isSome_some])
    obtain ⟨r', hr', hkind, hparent⟩ := Origin.reaches h hk hb₁ horigin ho hserves
    exact ⟨n, r', horigin.doneBy hdone, hr', hkind, hparent⟩

theorem reached_of_contested (h : Staged m root s owners limit built ps) (hm : m.Named) {e : Entity}
    (hcontested : Contested m s e) :
    (∀ {v : Walker} {i : Insn} {write : Bool}, v.accessed? m i = some (e, write) →
      owners.isPrivate i e = false) ∧
    ∃ b ∈ built, ∃ r, r ∈ (b.builder.links.find e).accessors := by
  rcases hcontested with ⟨j, k, a, b, hne, ha, hb, hja, hkb⟩ | ⟨⟨a, ha, haccess⟩, b, hb, hmoves⟩
  · have hshared : (owners.get e).isShared = true := by
      rw [h.toBuilt.get_eq]
      exact Ownership.isShared_of (h.accessor_of_accesses ha hja) (h.accessor_of_accesses hb hkb) hne
    have hprivate : ∀ i, owners.isPrivate i e = false := fun i => by
      simp [OwnershipTable.isPrivate, hshared]
    -- of two tables that access the entity, one is not its owner
    have hreach : ∀ {n : Nat} {w : ThreadTable}, s.tables[n]? = some w → w.Accesses m e →
        (owners.get e).isOwner n = false →
        ∃ b ∈ built, ∃ r, r ∈ (b.builder.links.find e).accessors := by
      rintro n w hw ⟨v, i, st, write, hi, haccess⟩ hother
      obtain ⟨b₁, hb₁, horigin⟩ := h.origin hw
      obtain ⟨r, -, hserves⟩ := horigin.obeys.accesses (horigin.grows.lowers.mp hi) haccess
        (hprivate i)
      rw [hother] at hserves
      exact ⟨b₁, List.mem_of_getElem? hb₁, _, hserves.registered⟩
    refine ⟨fun _ => hprivate _, ?_⟩
    cases hj : (owners.get e).isOwner j with
    | false => exact hreach ha hja hj
    | true =>
      refine hreach hb hkb ?_
      simp only [Ownership.isOwner, decide_eq_true_eq] at hj
      simpa [Ownership.isOwner, hj] using hne
  · obtain ⟨j, hj⟩ := List.mem_iff_getElem?.mp ha
    obtain ⟨k, hk⟩ := List.mem_iff_getElem?.mp hb
    have hmoved : (owners.get e).isMoved = true := by
      rw [h.toBuilt.get_eq]
      exact Ownership.isMoved_of (h.mover_of_moves hk hmoves)
    have howner : (owners.get e).owner.isSome = true := by
      rw [h.toBuilt.get_eq]
      exact Ownership.owner_isSome_of (h.accessor_of_accesses hj haccess)
    obtain ⟨v, i, st, hi, hmove⟩ := hmoves
    refine ⟨fun haccess' => ?_, ?_⟩
    · have harray := (Walker.onArray_of_accessed? hm haccess').mpr (Walker.member_of_moved? hmove)
      simp [OwnershipTable.isPrivate, hmoved, harray]
    · obtain ⟨b₁, hb₁, horigin⟩ := h.origin hk
      obtain ⟨r, -, hserves⟩ := horigin.obeys.moves (horigin.grows.lowers.mp hi) hmove howner
      exact ⟨b₁, List.mem_of_getElem? hb₁, _, hserves.registered⟩

theorem access_of_keeps (h : Staged m root s owners limit built ps) {k : Nat} {w : ThreadTable}
    (hw : s.tables[k]? = some w) {e : Entity} (hkeeps : w.Keeps e) : ∃ v i st write,
      w.Lowers m v i st ∧ v.accessed? m i = some (e, write) ∧ owners.isPrivate i e = true := by
  obtain ⟨b, -, horigin⟩ := h.origin hw
  have hkeeps₀ : b.Keeps e := horigin.grows.keeps_iff.mp hkeeps
  obtain ⟨v, i, st, write, hi, haccess⟩ := horigin.obeys.keeps hkeeps₀
  exact ⟨v, i, st, write, horigin.grows.lowers.mpr hi, haccess⟩

theorem untouched_of_keeps (h : Staged m root s owners limit built ps) (hm : m.Named) {e : Entity}
    {j k : Nat} {a b : ThreadTable} (ha : s.tables[j]? = some a) (hb : s.tables[k]? = some b)
    (hkeeps : a.Keeps e) : (b.Accesses m e → k = j) ∧ ¬ b.Moves m e := by
  obtain ⟨v, i, st, write, hi, haccess, hprivate⟩ := h.access_of_keeps ha hkeeps
  have hj := h.accessor_of_accesses ha ⟨v, i, st, write, hi, haccess⟩
  simp only [OwnershipTable.isPrivate, h.toBuilt.get_eq, Bool.and_eq_true, Bool.not_eq_true'] at hprivate
  refine ⟨fun haccess' => ?_, fun hmoves => ?_⟩
  · by_contra hne
    have hshared := Ownership.isShared_of (h.accessor_of_accesses hb haccess') hj hne
    rw [hprivate.1] at hshared
    cases hshared
  · have hmoved := Ownership.isMoved_of (h.mover_of_moves hb hmoves)
    obtain ⟨v', i', st', -, hmove⟩ := hmoves
    have harray := (Walker.onArray_of_accessed? hm haccess).mpr (Walker.member_of_moved? hmove)
    simp [hmoved, harray] at hprivate

end Staged

/-- What several threads touch is arbitrated, so that what a table keeps to itself no other table
keeps, accesses or moves. Slots have names, as `Listing.named_of_load` says of listings. -/
theorem sharing_arbitrated {m : Machine} {root depth : Nat} {s : Synthesis} (hm : m.Named)
    (h : synthesize m root depth = .ok s) (e : Entity) :
    (Contested m s e → ∃ owner, Arbitrates m s e owner) ∧
      ∀ (j k : Nat) (a b : ThreadTable), s.tables[j]? = some a → s.tables[k]? = some b → j ≠ k →
        a.Keeps e → ¬ b.Keeps e ∧ ¬ b.Accesses m e ∧ ¬ b.Moves m e := by
  obtain ⟨owners, limit, built, ps, h⟩ := staged_of_ok h
  refine ⟨fun hcontested => ?_, fun j k a b ha hb hne hkeeps => ?_⟩
  · obtain ⟨hprivate, hreached⟩ := h.reached_of_contested hm hcontested
    exact h.arbitrates hm hprivate hreached
  · obtain ⟨haccesses, hmoves⟩ := h.untouched_of_keeps hm ha hb hkeeps
    refine ⟨fun hkeeps' => hne ?_, fun haccess => hne (haccesses haccess).symm, hmoves⟩
    obtain ⟨v, i, st, write, hi, haccess, -⟩ := h.access_of_keeps hb hkeeps'
    exact (haccesses ⟨v, i, st, write, hi, haccess⟩).symm

/-- A machine of two threads that share a member and an array, which one of them moves. The other
has a member to itself. -/
def movedArray : Machine :=
  let method (name : String) (code : List Insn) : Slot :=
    ⟨name, .method ⟨name, [], [], [⟨"a", .num, 8, false, 0⟩, ⟨"b", .num, 8, false, 0⟩, ⟨"o", .object, 0, false, 0⟩],
      code, "", "", "", .none⟩⟩
  let this := RegisterId.unused
  ⟨[⟨"top", .plain, 0, 0, false, false, [⟨"feed", "write"⟩],
      [⟨"x", .num 8 0 false⟩, ⟨"y", .num 8 0 false⟩, ⟨"data", .object 1⟩,
        method "main" [.loadObject 2 this "data", .memberRead 0 this "x", .memberWrite this "y" 0,
          .arrayWrite 2 0 1, .goto 0],
        method "write" [.loadObject 2 this "data", .call 2 "load" [0], .memberWrite this "x" 1,
          .goto 0]]⟩,
    { Object.array "data" 8 16 with axiMaster := true }]⟩

theorem movedArray_arbitrated : movedArray.Named ∧ ∃ s a b, synthesize movedArray 0 0 = .ok s ∧
    s.tables[0]? = some a ∧ s.tables[1]? = some b ∧ Contested movedArray s ⟨0, "x"⟩ ∧
    Contested movedArray s (.whole 1) ∧ a.Keeps ⟨0, "y"⟩ ∧
    (∃ owner, Arbitrates movedArray s ⟨0, "x"⟩ owner) ∧
    (∃ owner, Arbitrates movedArray s (.whole 1) owner) ∧
    ¬ b.Keeps ⟨0, "y"⟩ ∧ ¬ b.Accesses movedArray ⟨0, "y"⟩ ∧ ¬ b.Moves movedArray ⟨0, "y"⟩ := by
  have hm : movedArray.Named := by decide +kernel
  have h : (synthesize movedArray 0 0).toOption.any (fun s => (s.tables[0]?).any fun a =>
      (s.tables[1]?).any fun b => decide (a.Accesses movedArray ⟨0, "x"⟩ ∧
        b.Accesses movedArray ⟨0, "x"⟩ ∧ a.Accesses movedArray (.whole 1) ∧
        b.Moves movedArray (.whole 1) ∧ a.Keeps ⟨0, "y"⟩)) = true := by decide +kernel
  obtain ⟨s, hs, h⟩ := exists_ok_of_any h
  obtain ⟨a, ha, h⟩ := (Option.any_eq_true _ _).mp h
  obtain ⟨b, hb, h⟩ := (Option.any_eq_true _ _).mp h
  obtain ⟨hax, hbx, haw, hbw, hay⟩ := of_decide_eq_true h
  have hx : Contested movedArray s ⟨0, "x"⟩ := .inl ⟨0, 1, a, b, by decide, ha, hb, hax, hbx⟩
  have hw : Contested movedArray s (.whole 1) :=
    .inr ⟨⟨a, List.mem_of_getElem? ha, haw⟩, b, List.mem_of_getElem? hb, hbw⟩
  exact ⟨hm, s, a, b, hs, ha, hb, hx, hw, hay, (sharing_arbitrated hm hs _).1 hx,
    (sharing_arbitrated hm hs _).1 hw, (sharing_arbitrated hm hs _).2 0 1 a b ha hb (by decide) hay⟩

end Synthesis
end Synth
end MachineSynth
