import Mathlib
import MachineSynth.Proofs.Expansion.Filling
import MachineSynth.Proofs.Expansion.Moves
import MachineSynth.Proofs.Planning
import MachineSynth.Synth.Thread

/-! Threads: what the tables of planned threads are made of. -/
namespace MachineSynth
namespace Synth
namespace ThreadTable

variable {m : Machine} {owners : OwnershipTable} {id : ThreadId} {t : ThreadPlan}

/-- The part that a method plays in a thread. -/
def roleOf (m : Machine) (t : ThreadPlan) (name : String) : Role :=
  if name = t.entry then entryRole m t else .inner

/-- What is lowered when a thread runs a context. -/
def siteOf (m : Machine) (owners : OwnershipTable) (id : ThreadId) (t : ThreadPlan) (name : String)
    (c : Context) : Site :=
  ⟨m, owners, id, t.object, name, c.method, roleOf m t name⟩

/-- Methods are lowered one after the other, into one table, which uses what they use. -/
theorem lowerAll_spec {names : List String} {b b' : Builder} {cs : List (String × Context)}
    (hb : b.Sound) (h : lowerAll m owners id t names b = .ok (cs, b')) :
    b'.Sound ∧ b.Extends b' ∧ (∀ u : Uses, (∀ name c, (name, c) ∈ cs →
        (siteOf m owners id t name c).usesOf (Walker.start t.object) c.code ≤ u) →
      Builder.Covered u b b') ∧
      ∀ name c, (name, c) ∈ cs → name ∈ names ∧ ∃ b₁ b₂, b₁.Sound ∧ b.Extends b₁ ∧
        Site.lower m owners id t.object name (roleOf m t name) b₁ = .ok (c, b₂) ∧
        b₂.Extends b' := by
  induction names generalizing b cs with
  | nil =>
    cases h
    exact ⟨hb, .refl _, fun u _ => .refl u _, fun _ _ hmem => by cases hmem⟩
  | cons name rest ih =>
    simp only [lowerAll, except_bind_eq_ok] at h
    obtain ⟨⟨c, b₁⟩, hlower, ⟨cs', b₂⟩, hrest, h⟩ := h
    cases h
    obtain ⟨hb₁, hext₁, -, hcovered₁, -⟩ := Site.lower_spec hb hlower
    obtain ⟨hb', hext', hcovered', hall⟩ := ih hb₁ hrest
    refine ⟨hb', hext₁.trans hext', fun u hu => ?_, fun name' c' hmem => ?_⟩
    · exact (hcovered₁.mono (hu name c (by simp))).trans
        (hcovered' u fun name' c' hmem => hu name' c' (List.mem_cons_of_mem _ hmem))
    · rcases List.mem_cons.mp hmem with heq | hmem
      · cases heq
        exact ⟨by simp, b, b₁, hb, .refl _, hlower, hext'⟩
      · obtain ⟨hname, b₃, b₄, hb₃, hext₃, hlower', hext₄⟩ := hall name' c' hmem
        exact ⟨List.mem_cons_of_mem _ hname, b₃, b₄, hb₃, hext₁.trans hext₃, hlower', hext₄⟩

theorem lowered_of_lowerAll {b : Builder} {entry : Context} {contexts : List (String × Context)}
    {limit : Nat}
    (hpool : t.pool.Sound)
    (hlower : lowerAll m owners id t t.methods (.ofPool t.pool) = .ok (contexts, b))
    (hentry : contexts.lookup t.entry = some entry) :
    Expand.Env.Lowered ⟨m, contexts, limit⟩ b.pool.resources entry.key := by
  intro name c hc
  obtain ⟨-, -, -, hall⟩ := lowerAll_spec (Builder.sound_ofPool hpool) hlower
  obtain ⟨-, b₁, b₂, hb₁, -, hlowered, hext⟩ := hall name c (mem_of_lookup hc)
  obtain ⟨-, -, -, -, hshaped⟩ := Site.lower_spec hb₁ hlowered
  refine ⟨_, hshaped.mono hext.pool, fun hcloses => ?_⟩
  have hrole : roleOf m t name ≠ .inner := by
    simp only [Context.closes, Bool.and_eq_true, bne_iff_ne, ne_eq] at hcloses
    exact hcloses.2
  have hname : name = t.entry := by
    by_contra hne
    exact hrole (if_neg hne)
  cases Option.some.inj (hentry.symm.trans (hname ▸ hc))
  rfl

/-- The steps in which a table is built: its methods are lowered, and its entry is copied. -/
theorem build_eq_ok {limit : Nat} {table : ThreadTable} (h : build m owners limit id t = .ok table) :
    ∃ b entry first last x, lowerAll m owners id t t.methods (.ofPool t.pool) =
        .ok (table.contexts, b) ∧ table.contexts.lookup t.entry = some entry ∧
      (Expand.copy ⟨m, table.contexts, limit⟩ (table.contexts.length + 1) [] entry).run
        ⟨b, [], [], []⟩ = .ok ((first, last), x) ∧
      table = ⟨t, table.contexts, x.builder, x.states, x.taskCalls, x.flowCalls⟩ := by
  simp only [build, except_bind_eq_ok] at h
  obtain ⟨⟨contexts, b⟩, hlower, h⟩ := h
  simp only at h
  split at h
  · cases h
  · rename_i entry hentry
    simp only [Expand.ofEntry, except_bind_eq_ok] at h
    obtain ⟨x, ⟨⟨⟨first, last⟩, x'⟩, hcopy, hx⟩, h⟩ := h
    cases hx
    cases h
    exact ⟨b, entry, first, last, x', hlower, hentry, hcopy, rfl⟩

theorem plan_of_build {limit : Nat} {table : ThreadTable}
    (h : build m owners limit id t = .ok table) : table.plan = t := by
  obtain ⟨_, _, _, _, _, -, -, -, htable⟩ := build_eq_ok h
  rw [htable]

theorem copy_adds {limit : Nat} (hpool : t.pool.Sound) {contexts : List (String × Context)}
    {b : Builder} {entry : Context} {first last : Nat} {x : Expansion}
    (hlower : lowerAll m owners id t t.methods (.ofPool t.pool) = .ok (contexts, b))
    (hentry : contexts.lookup t.entry = some entry)
    (hcopy : (Expand.copy ⟨m, contexts, limit⟩ (contexts.length + 1) [] entry).run
      ⟨b, [], [], []⟩ = .ok ((first, last), x)) :
    Expand.Adds ⟨m, contexts, limit⟩ b.pool.resources ⟨0, contexts.length + 1, entry, none⟩
      ⟨b, [], [], []⟩ x := by
  obtain ⟨hb, -⟩ := lowerAll_spec (Builder.sound_ofPool hpool) hlower
  have henv : Expand.Env.Lowered ⟨m, contexts, limit⟩ b.pool.resources entry.key :=
    lowered_of_lowerAll hpool hlower hentry
  obtain ⟨closes, hshaped, -⟩ := henv t.entry entry hentry
  obtain ⟨-, rfl, -, hadds⟩ := Expand.copy_copies henv _ [] (.inl rfl) (fun _ => rfl) hb (.refl _)
    hshaped hcopy
  exact hadds

/-- What a table was built from: the lowered methods of its thread, and the expansion of its
entry, which comes to use nothing. -/
theorem build_spec {limit : Nat} {table : ThreadTable} (hpool : t.pool.Sound)
    (h : build m owners limit id t = .ok table) :
    ∃ b entry x, lowerAll m owners id t t.methods (.ofPool t.pool) = .ok (table.contexts, b) ∧
      table.contexts.lookup t.entry = some entry ∧
      Expand.Adds ⟨m, table.contexts, limit⟩ b.pool.resources
        ⟨0, table.contexts.length + 1, entry, none⟩ ⟨b, [], [], []⟩ x ∧
      Builder.Covered .none b x.builder ∧
      table = ⟨t, table.contexts, x.builder, x.states, x.taskCalls, x.flowCalls⟩ := by
  obtain ⟨b, entry, first, last, x, hlower, hentry, hcopy, htable⟩ := build_eq_ok h
  exact ⟨b, entry, x, hlower, hentry, copy_adds hpool hlower hentry hcopy,
    Expand.spares_copy _ _ _ _ _ _ _ hcopy, htable⟩

end ThreadTable
end Synth
end MachineSynth
