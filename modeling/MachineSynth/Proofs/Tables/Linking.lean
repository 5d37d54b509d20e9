import Mathlib
import MachineSynth.Proofs.Builder
import MachineSynth.Proofs.Planning
import MachineSynth.Synth.Design

/-! Linking: the links of all tables are put together, and every resource that accesses a shared
entity gets the resource that holds it as its parent. -/
namespace MachineSynth
namespace Synth

namespace Links

variable {ρ : Type} [DecidableEq ρ] {l l' : Links ρ}

theorem mem_accessors_addAccessor (l : Links ρ) (e e' : Entity) (r r' : ρ) :
    r' ∈ ((l.addAccessor e r).find e').accessors ↔
      r' ∈ (l.find e').accessors ∨ e' = e ∧ r' = r := by
  rw [find_addAccessor]
  by_cases he : e' = e
  · subst he
    by_cases hr : r ∈ (l.find e').accessors
    · simp only [if_true, List.contains_iff_mem, hr, true_and]
      exact ⟨.inl, fun h => h.elim id fun h => h ▸ hr⟩
    · simp [hr]
  · simp [he]

theorem owner_addAccessor (l : Links ρ) (e e' : Entity) (r : ρ) :
    ((l.addAccessor e r).find e').owner = (l.find e').owner := by
  rw [find_addAccessor]
  split
  · subst_vars
    rfl
  · rfl

theorem owner_addOwner {l l' : Links ρ} {e e' : Entity} {r o : ρ} (h : l.addOwner e r = .ok l') :
    (l'.find e').owner = some o ↔ (l.find e').owner = some o ∨ e' = e ∧ r = o := by
  rw [find_addOwner h]
  by_cases he : e' = e
  · subst he
    simp only [if_true, true_and, Option.some.injEq]
    exact ⟨.inr, fun ho => ho.elim (fun ho => (owner_of_addOwner h ho).symm) id⟩
  · simp [he]

theorem accessors_addOwner {l l' : Links ρ} {e : Entity} {r : ρ} (h : l.addOwner e r = .ok l')
    (e' : Entity) : (l'.find e').accessors = (l.find e').accessors := by
  rw [find_addOwner h]
  split
  · subst_vars
    rfl
  · rfl

theorem foldl_addAccessor (e : Entity) (rs : List ρ) (l : Links ρ) :
    (l.Distinct → (rs.foldl (·.addAccessor e ·) l).Distinct) ∧
      (∀ e', ((rs.foldl (·.addAccessor e ·) l).find e').owner = (l.find e').owner) ∧
      ∀ e' r, r ∈ ((rs.foldl (·.addAccessor e ·) l).find e').accessors ↔
        r ∈ (l.find e').accessors ∨ e' = e ∧ r ∈ rs := by
  induction rs generalizing l with
  | nil => exact ⟨id, fun _ => rfl, fun _ _ => by simp⟩
  | cons r rest ih =>
    obtain ⟨hdistinct, howner, hmem⟩ := ih (l.addAccessor e r)
    refine ⟨fun hl => hdistinct (hl.addAccessor e r), fun e' => ?_, fun e' r' => ?_⟩
    · rw [List.foldl_cons, howner, owner_addAccessor]
    · rw [List.foldl_cons, hmem, mem_accessors_addAccessor, List.mem_cons]
      tauto

structure Collects (l : Links ρ) (entries : List (Entity × Link ρ)) : Prop where
  distinct : l.Distinct
  owner : ∀ e r, (l.find e).owner = some r ↔ ∃ k, (e, k) ∈ entries ∧ k.owner = some r
  accessor : ∀ e r, r ∈ (l.find e).accessors ↔ ∃ k, (e, k) ∈ entries ∧ r ∈ k.accessors

theorem collects_empty {ρ : Type} : Collects (empty : Links ρ) [] :=
  ⟨distinct_empty, fun e r => by simp [find, empty], fun e r => by simp [find, empty]⟩

omit [DecidableEq ρ] in
theorem exists_mem_concat {entries : List (Entity × Link ρ)} {e e' : Entity} {k : Link ρ}
    {Q : Link ρ → Prop} : (∃ k', (e', k') ∈ entries ++ [(e, k)] ∧ Q k') ↔
      (∃ k', (e', k') ∈ entries ∧ Q k') ∨ e' = e ∧ Q k := by
  simp [or_and_right, exists_or, and_assoc]

theorem Collects.addAccessors {l l₁ : Links ρ} {entries : List (Entity × Link ρ)} {e : Entity}
    {k : Link ρ} (hl : l.Collects entries) (hdistinct : l₁.Distinct)
    (howner : ∀ e' r, (l₁.find e').owner = some r ↔
      (l.find e').owner = some r ∨ e' = e ∧ k.owner = some r)
    (haccessors : ∀ e', (l₁.find e').accessors = (l.find e').accessors) :
    (k.accessors.foldl (·.addAccessor e ·) l₁).Collects (entries ++ [(e, k)]) := by
  obtain ⟨hd, ho, ha⟩ := foldl_addAccessor e k.accessors l₁
  refine ⟨hd hdistinct, fun e' r => ?_, fun e' r => ?_⟩
  · rw [ho, howner, hl.owner, exists_mem_concat]
  · rw [ha, haccessors, hl.accessor, exists_mem_concat]

theorem parentsOf_spec {entries : List (Entity × Link ρ)} {ps : List (ρ × ρ)}
    (h : parentsOf entries = (ps, none)) :
    (∀ e k, (e, k) ∈ entries → ∀ r ∈ k.accessors, ∃ o, k.owner = some o ∧ (r ≠ o → (r, o) ∈ ps)) ∧
      ∀ r o, (r, o) ∈ ps → ∃ e k, (e, k) ∈ entries ∧ r ∈ k.accessors ∧ k.owner = some o := by
  induction entries generalizing ps with
  | nil =>
    cases h
    simp
  | cons entry rest ih =>
    obtain ⟨e, k⟩ := entry
    simp only [parentsOf] at h
    split at h
    · rename_i hnone
      obtain ⟨hall, hback⟩ := ih h
      refine ⟨fun e' k' hmem r hr => ?_, fun r o hmem => ?_⟩
      · rcases List.mem_cons.mp hmem with heq | hmem
        · cases heq
          rw [hnone] at hr
          cases hr
        · exact hall e' k' hmem r hr
      · obtain ⟨e', k', hmem', hr, ho⟩ := hback r o hmem
        exact ⟨e', k', List.mem_cons_of_mem _ hmem', hr, ho⟩
    · cases h
    · rename_i o ho _
      obtain ⟨ps', hps'⟩ : ∃ ps', parentsOf rest = (ps', none) :=
        ⟨(parentsOf rest).1, Prod.ext rfl (Prod.mk.inj h).2⟩
      obtain ⟨hall, hback⟩ := ih hps'
      simp only [hps', Prod.mk.injEq, and_true] at h
      subst h
      refine ⟨fun e' k' hmem r hr => ?_, fun r o' hmem => ?_⟩
      · rcases List.mem_cons.mp hmem with heq | hmem
        · cases heq
          refine ⟨o, ho, fun hne => List.mem_append_left _ ?_⟩
          simpa [hne] using hr
        · obtain ⟨o', ho', hin⟩ := hall e' k' hmem r hr
          exact ⟨o', ho', fun hne => List.mem_append_right _ (hin hne)⟩
      · rcases List.mem_append.mp hmem with hmem | hmem
        · obtain ⟨r', hr', heq⟩ := List.mem_map.mp hmem
          cases heq
          exact ⟨e, k, by simp, (List.mem_filter.mp hr').1, ho⟩
        · obtain ⟨e', k', hmem', hr, ho'⟩ := hback r o' hmem
          exact ⟨e', k', List.mem_cons_of_mem _ hmem', hr, ho'⟩

/-- Every accessor is given the owner of its entity, and nothing else is given a parent. -/
theorem parents_spec (hl : l.Distinct) {ps : List (ρ × ρ)} (h : l.parents = (ps, none)) :
    (∀ e, ∀ r ∈ (l.find e).accessors, ∃ o, (l.find e).owner = some o ∧ (r ≠ o → (r, o) ∈ ps)) ∧
      ∀ r o, (r, o) ∈ ps → ∃ e, r ∈ (l.find e).accessors ∧ (l.find e).owner = some o := by
  obtain ⟨hall, hback⟩ := parentsOf_spec h
  refine ⟨fun e r hr => ?_, fun r o hmem => ?_⟩
  · have hne : l.find e ≠ ⟨none, []⟩ := fun heq => by simp [heq] at hr
    exact hall e _ (mem_of_find hne) r hr
  · obtain ⟨e, k, hk, hr, ho⟩ := hback r o hmem
    refine ⟨e, ?_, ?_⟩ <;> rw [find_of_mem hl hk] <;> assumption

end Links

namespace Synthesis

open Links (Collects)

theorem mergeLink_collects {links links' : Links Rtl.ResourceRef} {e : Entity}
    {k : Link Rtl.ResourceRef} {entries : List (Entity × Link Rtl.ResourceRef)}
    (hl : Collects links entries) (h : mergeLink links e k = .ok links') :
    Collects links' (entries ++ [(e, k)]) := by
  cases hk : k.owner with
  | none =>
    simp only [mergeLink, hk] at h
    cases h
    exact hl.addAccessors hl.distinct (fun e' r => by simp [hk]) fun _ => rfl
  | some o =>
    simp only [mergeLink, hk, except_bind_eq_ok] at h
    obtain ⟨links₁, howner, h⟩ := h
    cases h
    refine hl.addAccessors (hl.distinct.addOwner howner) (fun e' r => ?_)
      (Links.accessors_addOwner howner)
    rw [Links.owner_addOwner howner, hk, Option.some.injEq]

theorem allLinks_collects {tables : List ThreadTable} {links : Links Rtl.ResourceRef}
    (h : allLinks tables = .ok links) :
    Collects links (tables.flatMap (·.builder.links.entries)) := by
  have hall : ∀ (entries done : List (Entity × Link Rtl.ResourceRef)) {l l' : Links Rtl.ResourceRef},
      Collects l done → entries.foldlM (fun ls x => mergeLink ls x.1 x.2) l = .ok l' →
      Collects l' (done ++ entries) := by
    intro entries
    induction entries with
    | nil =>
      intro done l l' hl h
      cases h
      simpa using hl
    | cons entry rest ih =>
      intro done l l' hl h
      obtain ⟨e, k⟩ := entry
      rw [List.foldlM_cons, except_bind_eq_ok] at h
      obtain ⟨l₁, hmerge, h⟩ := h
      have := ih (done ++ [(e, k)]) (mergeLink_collects hl hmerge) h
      rwa [List.append_assoc] at this
  simpa using hall _ [] Links.collects_empty h

theorem exists_entry_iff {tables : List ThreadTable}
    (hdistinct : ∀ t ∈ tables, t.builder.links.Distinct) {e : Entity}
    {Q : Link Rtl.ResourceRef → Prop} (hQ : ¬ Q ⟨none, []⟩) :
    (∃ k, (e, k) ∈ tables.flatMap (·.builder.links.entries) ∧ Q k) ↔
      ∃ t ∈ tables, Q (t.builder.links.find e) := by
  constructor
  · rintro ⟨k, hk, hQk⟩
    obtain ⟨t, ht, hk⟩ := List.mem_flatMap.mp hk
    exact ⟨t, ht, by rwa [Links.find_of_mem (hdistinct t ht) hk]⟩
  · rintro ⟨t, ht, hQt⟩
    have hne : t.builder.links.find e ≠ ⟨none, []⟩ := fun heq => hQ (heq ▸ hQt)
    exact ⟨_, List.mem_flatMap.mpr ⟨t, ht, Links.mem_of_find hne⟩, hQt⟩

theorem allLinks_find {tables : List ThreadTable} {links : Links Rtl.ResourceRef}
    (hdistinct : ∀ t ∈ tables, t.builder.links.Distinct) (h : allLinks tables = .ok links)
    (e : Entity) (r : Rtl.ResourceRef) :
    ((links.find e).owner = some r ↔ ∃ t ∈ tables, (t.builder.links.find e).owner = some r) ∧
      (r ∈ (links.find e).accessors ↔ ∃ t ∈ tables, r ∈ (t.builder.links.find e).accessors) := by
  have hcollects := allLinks_collects h
  rw [hcollects.owner, hcollects.accessor]
  exact ⟨exists_entry_iff hdistinct (Q := (·.owner = some r)) (by simp),
    exists_entry_iff hdistinct (Q := (r ∈ ·.accessors)) (by simp)⟩

def linked (ps : List (Rtl.ResourceRef × Rtl.ResourceRef)) (t : ThreadTable) : ThreadTable :=
  t.setResources (t.resources.mapIdx fun k r =>
    { r with parent := (ps.reverse.lookup ⟨t.plan.place, k⟩).or r.parent })

theorem foldl_setParent (ps : List (Rtl.ResourceRef × Rtl.ResourceRef)) (t : ThreadTable) :
    ps.foldl setParent t = linked ps t := by
  induction ps using List.reverseRecOn with
  | nil =>
    have hresources : (t.resources.mapIdx fun k r => { r with
        parent := (([] : List (Rtl.ResourceRef × Rtl.ResourceRef)).reverse.lookup
          ⟨t.plan.place, k⟩).or r.parent }) = t.resources :=
      List.ext_getElem? fun k => by simp
    rw [linked, hresources]
    rfl
  | append_singleton ps p ih =>
    rw [List.foldl_append, List.foldl_cons, List.foldl_nil, ih]
    obtain ⟨⟨place, j⟩, o⟩ := p
    have hplan : (linked ps t).plan = t.plan := rfl
    simp only [setParent, hplan]
    split
    · rename_i hplace
      subst hplace
      simp only [linked, ThreadTable.setResources, ThreadTable.resources, ThreadTable.mk.injEq,
        Builder.mk.injEq, Pool.mk.injEq, true_and, and_true]
      refine List.ext_getElem? fun k => ?_
      simp only [List.reverse_append, List.reverse_cons, List.reverse_nil, List.nil_append,
        List.singleton_append, lookup_cons_eq, Rtl.ResourceRef.mk.injEq, true_and,
        List.getElem?_mapIdx, List.getElem?_modify]
      by_cases hk : k = j
      · subst hk
        cases t.builder.pool.resources[k]? <;> simp
      · have hjk : ¬ j = k := fun h => hk h.symm
        cases t.builder.pool.resources[k]? <;> simp [hk, hjk]
    · rename_i hplace
      simp only [linked, List.reverse_append, List.reverse_cons, List.reverse_nil, List.nil_append,
        List.singleton_append, lookup_cons_eq, Rtl.ResourceRef.mk.injEq]
      have hne : ¬ t.plan.place = place := fun h => hplace h.symm
      simp [hne]

theorem link_spec {tables tables' : List ThreadTable} (h : link tables = .ok tables') :
    ∃ links ps, allLinks tables = .ok links ∧ links.parents = (ps, none) ∧
      tables' = tables.map (linked ps) := by
  simp only [link, except_bind_eq_ok, mapError_eq_ok] at h
  obtain ⟨links, hlinks, h⟩ := h
  split at h
  · cases h
  · rename_i ps hps
    cases h
    exact ⟨links, ps, hlinks, hps, List.map_congr_left fun t _ => foldl_setParent ps t⟩

end Synthesis
end Synth
end MachineSynth
