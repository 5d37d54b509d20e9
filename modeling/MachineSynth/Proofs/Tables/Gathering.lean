import Mathlib
import MachineSynth.Proofs.Tables.Building

/-! Gathering: links that say what those of the tables say give every resource the parent that it
has to have, whatever the order in which they were put together. -/
namespace MachineSynth
namespace Synth
namespace Synthesis

/-- Whether some table has a resource that is registered as accessing an entity. -/
def Reacher (built : List ThreadTable) (e : Entity) (r : Rtl.ResourceRef) : Prop :=
  ∃ b ∈ built, r ∈ (b.builder.links.find e).accessors

/-- Links that say what those of the tables say. -/
structure Gathers (tables : List ThreadTable) (l : Links Rtl.ResourceRef) : Prop where
  distinct : l.Distinct
  owner : ∀ e o, (l.find e).owner = some o ↔ Holder tables e o
  accessor : ∀ e r, r ∈ (l.find e).accessors ↔ Reacher tables e r

theorem gathers_allLinks {tables : List ThreadTable} {links : Links Rtl.ResourceRef}
    (hdistinct : ∀ t ∈ tables, t.builder.links.Distinct) (h : allLinks tables = .ok links) :
    Gathers tables links :=
  ⟨(allLinks_collects h).distinct, fun e o => (allLinks_find hdistinct h e o).1,
    fun e r => (allLinks_find hdistinct h e r).2⟩

namespace Built

variable {m : Machine} {root : Nat} {plan : Plan} {owners : OwnershipTable} {limit : Nat}
  {built : List ThreadTable} {l : Links Rtl.ResourceRef}
  {ps : List (Rtl.ResourceRef × Rtl.ResourceRef)} {b b' : ThreadTable} {e e' : Entity}
  {r o : Rtl.ResourceRef}

/-- Tables are known by their places. -/
theorem eq_of_place (h : Built m root plan owners limit built) (hb : b ∈ built) (hb' : b' ∈ built)
    (hplace : b.plan.place = b'.plan.place) : b = b' := by
  obtain ⟨k, hk⟩ := List.mem_iff_getElem?.mp hb
  obtain ⟨k', hk'⟩ := List.mem_iff_getElem?.mp hb'
  have hranked := (Plan.ofRoot_spec h.plans).1.ranked
  have hsame : k = k' := hranked.injective (r := b.plan.place) (by simp [(h.thread hk).1])
    (by simp [(h.thread hk').1, hplace])
  subst hsame
  exact Option.some.inj (hk.symm.trans hk')

theorem backs_unique (h : Built m root plan owners limit built) (hb : b ∈ built) (hb' : b' ∈ built)
    {kinds kinds' : List String} (hr : b.builder.pool.Backs kinds e r)
    (hr' : b'.builder.pool.Backs kinds' e' r) : b = b' ∧ e = e' := by
  obtain ⟨k, hk⟩ := List.mem_iff_getElem?.mp hb
  obtain ⟨k', hk'⟩ := List.mem_iff_getElem?.mp hb'
  have hplace : b.plan.place = b'.plan.place := by
    rw [← (h.sound hk).2, ← (h.sound hk').2, ← hr.1, ← hr'.1]
  obtain rfl := h.eq_of_place hb hb' hplace
  exact ⟨rfl, hr.entity_eq (h.sound hk).1.pool hr'⟩

theorem accessor_backs (h : Built m root plan owners limit built) (hb : b ∈ built)
    (hr : r ∈ (b.builder.links.find e).accessors) : b.builder.pool.Backs Pool.accessorKinds e r := by
  obtain ⟨k, hk⟩ := List.mem_iff_getElem?.mp hb
  exact (h.sound hk).1.accessor hr

theorem owner_backs (h : Built m root plan owners limit built) (hb : b ∈ built)
    (ho : (b.builder.links.find e).owner = some o) : b.builder.pool.Backs Pool.ownerKinds e o := by
  obtain ⟨k, hk⟩ := List.mem_iff_getElem?.mp hb
  exact (h.sound hk).1.owner ho

theorem reacher_unique (h : Built m root plan owners limit built) (hr : Reacher built e r)
    (hr' : Reacher built e' r) : e = e' := by
  obtain ⟨b, hb, hr⟩ := hr
  obtain ⟨b', hb', hr'⟩ := hr'
  exact (h.backs_unique hb hb' (h.accessor_backs hb hr) (h.accessor_backs hb' hr')).2

theorem reacher_ne_holder (h : Built m root plan owners limit built) (hr : Reacher built e r)
    (ho : Holder built e o) : r ≠ o := by
  rintro rfl
  obtain ⟨b, hb, hr⟩ := hr
  obtain ⟨b', hb', ho⟩ := ho
  have hbacks := h.accessor_backs hb hr
  have hbacks' := h.owner_backs hb' ho
  obtain ⟨rfl, -⟩ := h.backs_unique hb hb' hbacks hbacks'
  obtain ⟨k, hk⟩ := List.mem_iff_getElem?.mp hb
  obtain ⟨-, kind, hkind, hkey⟩ := hbacks
  obtain ⟨-, kind', hkind', hkey'⟩ := hbacks'
  have hsame : kind = kind' := congrArg ResourceKey.kind ((h.sound hk).1.pool.unique hkey hkey')
  subst hsame
  have hapart : ∀ kind ∈ Pool.accessorKinds, kind ∉ Pool.ownerKinds := by decide
  exact hapart kind hkind hkind'

theorem lookup_parents (h : Built m root plan owners limit built) (hl : Gathers built l)
    (hps : l.parents = (ps, none)) :
    ps.reverse.lookup r = some o ↔ ∃ e, Reacher built e r ∧ Holder built e o := by
  obtain ⟨hgiven, hback⟩ := Links.parents_spec hl.distinct hps
  have hmem : ∀ {o}, (r, o) ∈ ps → ∃ e, Reacher built e r ∧ Holder built e o := by
    intro o hmem
    obtain ⟨e, hr, ho⟩ := hback r o hmem
    exact ⟨e, (hl.accessor e r).mp hr, (hl.owner e o).mp ho⟩
  constructor
  · exact fun hlookup => hmem (List.mem_reverse.mp (mem_of_lookup hlookup))
  · rintro ⟨e, hr, ho⟩
    obtain ⟨o', ho', hgiven⟩ := hgiven e r ((hl.accessor e r).mpr hr)
    cases h.holder_unique ho ((hl.owner e o').mp ho')
    have hin := hgiven (h.reacher_ne_holder hr ho)
    cases hlookup : ps.reverse.lookup r with
    | none =>
      have hnone := List.lookup_eq_none_iff.mp hlookup (r, o) (List.mem_reverse.mpr hin)
      simp at hnone
    | some o' =>
      obtain ⟨e', hr', ho'⟩ := hmem (List.mem_reverse.mp (mem_of_lookup hlookup))
      cases h.reacher_unique hr hr'
      rw [h.holder_unique ho ho']

theorem kind_of_lookup (h : Built m root plan owners limit built) (hl : Gathers built l)
    (hps : l.parents = (ps, none)) (hb : b ∈ built) {k : Nat} {x : Rtl.Resource}
    (hx : b.resources[k]? = some x) (ho : ps.reverse.lookup ⟨b.plan.place, k⟩ = some o) :
    x.kind ∈ Pool.accessorKinds := by
  obtain ⟨e, ⟨b', hb', haccessor⟩, -⟩ := (h.lookup_parents hl hps).mp ho
  obtain ⟨hplace, kind, hkind, hkey⟩ := h.accessor_backs hb' haccessor
  obtain ⟨n, hn⟩ := List.mem_iff_getElem?.mp hb'
  obtain rfl := h.eq_of_place hb hb' (hplace.trans (h.sound hn).2)
  obtain ⟨x', hx', rfl⟩ := Option.map_eq_some_iff.mp ((h.sound hn).1.pool.kind hkey)
  cases Option.some.inj (hx.symm.trans hx')
  exact hkind

end Built
end Synthesis
end Synth
end MachineSynth
