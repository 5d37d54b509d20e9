import Mathlib
import MachineSynth.Proofs.Journal.Tables
import MachineSynth.Proofs.Tables.Linking

/-! Joining: acts that are performed after other threads have registered what they share register
what they would have registered alone, besides what was there. -/
namespace MachineSynth
namespace Synth

namespace Links

variable {ρ : Type} [DecidableEq ρ] {l₀ l l' l₁ l₁' : Links ρ} {e : Entity} {r : ρ}

/-- Links that say what two others say. -/
structure Joins (l₀ l l' : Links ρ) : Prop where
  distinct : l'.Distinct
  owner : ∀ e o, (l'.find e).owner = some o ↔
    (l₀.find e).owner = some o ∨ (l.find e).owner = some o
  accessor : ∀ e r, r ∈ (l'.find e).accessors ↔
    r ∈ (l₀.find e).accessors ∨ r ∈ (l.find e).accessors

omit [DecidableEq ρ] in
theorem joins_empty (h : l.Distinct) : Joins l empty l :=
  ⟨h, fun e o => by simp [find, empty], fun e r => by simp [find, empty]⟩

theorem exists_addOwner (h : ∀ o, (l.find e).owner = some o → o = r) :
    ∃ l', l.addOwner e r = .ok l' := by
  unfold addOwner
  split
  · rename_i o ho
    exact ⟨l, if_pos (h o ho)⟩
  · exact ⟨_, rfl⟩

theorem Joins.addOwner (h : Joins l₀ l l') (hl : l.addOwner e r = .ok l₁)
    (hl' : l'.addOwner e r = .ok l₁') : Joins l₀ l₁ l₁' := by
  refine ⟨h.distinct.addOwner hl', fun e' o => ?_, fun e' r' => ?_⟩
  · rw [owner_addOwner hl, owner_addOwner hl', h.owner, or_assoc]
  · rw [accessors_addOwner hl, accessors_addOwner hl']
    exact h.accessor e' r'

theorem Joins.addAccessor (h : Joins l₀ l l') (e : Entity) (r : ρ) :
    Joins l₀ (l.addAccessor e r) (l'.addAccessor e r) := by
  refine ⟨h.distinct.addAccessor e r, fun e' o => ?_, fun e' r' => ?_⟩
  · rw [owner_addAccessor, owner_addAccessor]
    exact h.owner e' o
  · rw [mem_accessors_addAccessor, mem_accessors_addAccessor, h.accessor, or_assoc]

end Links

namespace Builder

open Links (Joins)

variable {b b' c : Builder} {R : Registry} {act : Act} {acts : List Act}
  {l₀ : Links Rtl.ResourceRef}

theorem Act.run_links (h : act.run b = .ok b') :
    b'.links = b.links ∨ (∃ e r, act = .accessor e r ∧
      b'.links = b.links.addAccessor e (b.pool.ref r)) ∨
    ∃ e r, act = .owner e r ∧ b.links.addOwner e (b.pool.ref r) = .ok b'.links := by
  cases act with
  | owner e r =>
    obtain ⟨links, hlinks, rfl⟩ := run_owner.mp h
    exact .inr (.inr ⟨e, r, rfl, hlinks⟩)
  | accessor e r =>
    cases h
    exact .inr (.inl ⟨e, r, rfl, rfl⟩)
  | member e width initial =>
    cases h
    rw [memberRegister_eq]
    split <;> exact .inl rfl
  | _ =>
    cases h
    exact .inl rfl

theorem Act.exists_run (h : ∀ e r, act = .owner e r → ∀ o, (b.links.find e).owner = some o →
    o = b.pool.ref r) : ∃ b', act.run b = .ok b' := by
  cases act with
  | owner e r =>
    obtain ⟨links, hlinks⟩ := Links.exists_addOwner (h e r rfl)
    exact ⟨_, run_owner.mpr ⟨links, hlinks, rfl⟩⟩
  | _ => exact ⟨_, rfl⟩

theorem Act.run_joins (hj : Joins l₀ b.links R.links) (h : act.run b = .ok b')
    (h' : act.run (b.setRegistry R) = .ok c) : Joins l₀ b'.links c.links := by
  rcases run_links h with hb | ⟨e, r, rfl, hb⟩ | ⟨e, r, rfl, hb⟩ <;>
    rcases run_links h' with hc | ⟨e', r', heq, hc⟩ | ⟨e', r', heq, hc⟩
  · rw [hb, hc]
    exact hj
  · subst heq
    cases h
    rw [hc]
    exact hj.addAccessor e' _
  · subst heq
    obtain ⟨links, hlinks, rfl⟩ := run_owner.mp h
    exact hj.addOwner hlinks hc
  · cases h'
    rw [hb]
    exact hj.addAccessor e _
  · cases heq
    rw [hb, hc]
    exact hj.addAccessor e _
  · cases heq
  · obtain ⟨links, hlinks, rfl⟩ := run_owner.mp h'
    exact hj.addOwner hb hlinks
  · cases heq
  · cases heq
    exact hj.addOwner hb hc

theorem perform_of_joins (hj : Joins l₀ b.links R.links)
    (h : perform acts (b.setRegistry R) = .ok c) : ∃ b' R', perform acts b = .ok b' ∧
      c = b'.setRegistry R' ∧ Joins l₀ b'.links R'.links := by
  induction acts generalizing b R with
  | nil =>
    cases h
    exact ⟨b, R, rfl, rfl, hj⟩
  | cons act rest ih =>
    obtain ⟨c₁, hc₁, h⟩ := perform_cons.mp h
    obtain ⟨b₁, hb₁⟩ : ∃ b₁, act.run b = .ok b₁ := by
      refine Act.exists_run fun e r heq o ho => ?_
      subst heq
      obtain ⟨links, hlinks, -⟩ := Act.run_owner.mp hc₁
      exact Links.owner_of_addOwner hlinks ((hj.owner e o).mpr (.inr ho))
    have hj₁ := Act.run_joins hj hb₁ hc₁
    obtain ⟨R₁, rfl⟩ := Act.run_setRegistry hb₁ hc₁
    obtain ⟨b', R', hperform, hc, hj'⟩ := ih hj₁ h
    exact ⟨b', R', perform_cons.mpr ⟨b₁, hb₁, hperform⟩, hc, hj'⟩

theorem perform_joins (hj : Joins l₀ b.links R.links)
    (hfree : ∀ e r, .owner e r ∈ acts → (l₀.find e).owner = none) (h : perform acts b = .ok b') :
    ∃ R', perform acts (b.setRegistry R) = .ok (b'.setRegistry R') ∧
      Joins l₀ b'.links R'.links := by
  induction acts generalizing b R with
  | nil =>
    cases h
    exact ⟨R, rfl, hj⟩
  | cons act rest ih =>
    obtain ⟨b₁, hb₁, h⟩ := perform_cons.mp h
    obtain ⟨c₁, hc₁⟩ : ∃ c₁, act.run (b.setRegistry R) = .ok c₁ := by
      refine Act.exists_run fun e r heq o ho => ?_
      subst heq
      obtain ⟨links, hlinks, -⟩ := Act.run_owner.mp hb₁
      rcases (hj.owner e o).mp ho with ho | ho
      · rw [hfree e r List.mem_cons_self] at ho
        cases ho
      · exact Links.owner_of_addOwner hlinks ho
    have hj₁ := Act.run_joins hj hb₁ hc₁
    obtain ⟨R₁, rfl⟩ := Act.run_setRegistry hb₁ hc₁
    obtain ⟨R', hperform, hj'⟩ := ih hj₁ (fun e r hact => hfree e r (List.mem_cons_of_mem _ hact)) h
    exact ⟨R', perform_cons.mpr ⟨_, hc₁, hperform⟩, hj'⟩

end Builder

namespace ThreadTable

open Links (Joins)

variable {m : Machine} {owners : OwnershipTable} {limit : Nat} {id : ThreadId} {t : ThreadPlan}
  {table : ThreadTable} {R : Registry}

/-- A table that is built after others could have been built alone. -/
theorem build_of_buildAfter (hR : R.links.Distinct)
    (h : buildAfter m owners limit id t R = .ok table) :
    ∃ b R', build m owners limit id t = .ok b ∧ table = b.setRegistry R' ∧
      Joins R.links b.builder.links R'.links := by
  obtain ⟨acts, -, hperform, hreplay⟩ := buildAfter_logs h
  obtain ⟨b', R', hb', hc, hj⟩ := Builder.perform_of_joins (Links.joins_empty hR) hperform
  have hcalm : b' = table.builder.setRegistry b'.registry := by rw [hc]; rfl
  refine ⟨table.setRegistry b'.registry, R', ?_, ?_, hj⟩
  · rw [← buildAfter_empty]
    exact hreplay .empty b'.registry (by rw [← hcalm]; exact hb')
  · have hregistry : R' = table.builder.registry := by rw [hc]; rfl
    rw [hregistry]
    rfl

/-- A table can be built after others that hold nothing which the thread owns. -/
theorem buildAfter_of_build (hR : R.links.Distinct)
    (hfree : ∀ e, (owners.get e).isOwner id = true → (R.links.find e).owner = none)
    (h : build m owners limit id t = .ok table) :
    ∃ R', buildAfter m owners limit id t R = .ok (table.setRegistry R') ∧
      Joins R.links table.builder.links R'.links := by
  rw [← buildAfter_empty] at h
  obtain ⟨acts, hfits, hperform, hreplay⟩ := buildAfter_logs h
  obtain ⟨R', hR', hj⟩ := Builder.perform_joins (Links.joins_empty hR)
    (fun e r hact => hfree e (hfits _ hact)) hperform
  exact ⟨R', hreplay R R' hR', hj⟩

end ThreadTable
end Synth
end MachineSynth
