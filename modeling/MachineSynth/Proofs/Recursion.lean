import Mathlib
import MachineSynth.Proofs.Expansion.Nesting
import MachineSynth.Proofs.Inlining
import MachineSynth.Proofs.Reach.Guarding

/-! Recursion: the entry of a thread is expanded unless its calls come back to a method, or are
nested too deeply. Then there is one copy of a method for each chain of calls that leads to it. -/
namespace MachineSynth
namespace Synth

open Expand (Env Copy Filled)

/-- Whether the methods of a thread go by the names of their slots, or, where a method is native, by
that of the slot it is implemented in. -/
def ThreadPlan.SelfNamed (m : Machine) (t : ThreadPlan) : Prop :=
  ∀ name ∈ t.methods, ∀ o f g, m.object? t.object = some o → o.method? name = some f →
    Site.implementation? o f = some g → g.name = name ∨ f.isNative = true ∧ g.name = f.alt

theorem ThreadPlan.selfNamed {m : Machine} (h : m.SelfNamed) (t : ThreadPlan) : t.SelfNamed m := by
  intro name _ o f g ho hf hg
  have hmem : o ∈ m.objects := List.mem_of_getElem? ho
  unfold Site.implementation? at hg
  split at hg
  · rename_i hnative
    exact .inr ⟨hnative, h.name_eq hmem (Option.filter_eq_some_iff.mp hg).1⟩
  · cases hg
    exact .inl (h.name_eq hmem hf)

namespace Lower

theorem imported_callee {s : Site} {l l' : Lowering} {e : Rtl.Insn} (hl : l.Sound)
    (hempty : l.states = []) (h : (imported s).run l = .ok (e, l')) :
    ∀ st ∈ l'.states, st.callee = none := by
  simp only [imported, run_bind_eq_ok] at h
  obtain ⟨e', l₁, he, unit, l₂, hunit, _, l₃, hemit, _, l₄, hpush, _, l₅, hlink, h⟩ := h
  cases run_pure_eq_ok.mp h
  have q₁ : Lowering.Quiet .none l l₁ := entry_quiet hl he
  obtain ⟨q₂, hk⟩ := resource_quiet (u := .none) q₁.sound (Pool.embedded_takes _) hunit
  have e₃ : Lowering.Yields .none [none] false l₂ l₃ :=
    emit_step q₂.sound hk (by decide) (by decide) hemit
  have hstates : l₂.states = [] := by rw [q₂.states, q₁.states, hempty]
  have hraw : ∀ st ∈ (pushed l₃).states, st.jump = none ∧ st.callee = none := by
    intro st hst
    cases run_emit_eq_ok.mp hemit
    simp only [pushed, hstates, List.nil_append, List.cons_append, List.mem_cons,
      List.not_mem_nil, or_false] at hst
    rcases hst with rfl | rfl <;> exact ⟨rfl, rfl⟩
  cases run_push_eq_ok.mp hpush
  have hlinked := linkStates_of_raw (pushed_step (u := .none) e₃.sound).sound
    (fun st hst => (hraw st hst).1) hlink
  intro st hst
  obtain ⟨k, hk⟩ := List.mem_iff_getElem?.mp hst
  have hlt := (List.getElem?_eq_some_iff.mp hk).1
  rw [hlinked.length] at hlt
  obtain ⟨st', hst', hrouted⟩ := hlinked.state (List.getElem?_eq_getElem hlt)
  cases hk.symm.trans hst'
  rw [hrouted.callee]
  exact (hraw _ (List.getElem_mem hlt)).2

end Lower

theorem Expand.ofEntry_eq_ok {env : Env} {b : Builder} {entry : Context} {x : Expansion} :
    ofEntry env b entry = .ok x ↔ ∃ r, (copy env (env.contexts.length + 1) [] entry).run
      ⟨b, [], [], []⟩ = .ok (r, x) := by
  simp only [ofEntry, except_bind_eq_ok]
  constructor
  · rintro ⟨⟨r, x'⟩, hcopy, h⟩
    cases h
    exact ⟨r, hcopy⟩
  · rintro ⟨r, hcopy⟩
    exact ⟨(r, x), hcopy, rfl⟩

namespace ThreadTable

variable {m : Machine} {owners : OwnershipTable} {id : ThreadId} {t : ThreadPlan}
  {contexts : List (String × Context)} {b : Builder} {limit : Nat}

/-- What is lowered under a name is what runs the method of that name. A method that calls others
is not imported. -/
theorem method_of_lookup (hpool : t.pool.Sound)
    (hlower : lowerAll m owners id t t.methods (.ofPool t.pool) = .ok (contexts, b))
    {name : String} {c : Context} (hc : contexts.lookup name = some c) :
    name ∈ t.methods ∧ c.object = t.object ∧ ∃ o f, m.object? t.object = some o ∧
      o.method? name = some f ∧ Site.implementation? o f = some c.method ∧
      ∀ st ∈ c.states, st.callee ≠ none → c.method.isImported = false := by
  obtain ⟨-, -, -, hall⟩ := lowerAll_spec (Builder.sound_ofPool hpool) hlower
  obtain ⟨hname, b₁, b₂, hb₁, -, hlowered, -⟩ := hall name c (mem_of_lookup hc)
  obtain ⟨o, f, e, l, ho, hf, himpl, hc', -, hcases⟩ := Site.lower_cases hlowered
  refine ⟨hname, by rw [hc'], o, f, ho, hf, himpl, fun st hst hcallee => ?_⟩
  have hstates : c.states = l.states := by rw [hc']
  rcases hcases with ⟨-, hrun⟩ | ⟨himported, -⟩ | ⟨-, himported, -⟩
  · exact absurd (Lower.imported_callee (Site.start_sound hb₁ t.object) rfl hrun st (hstates ▸ hst))
      hcallee
  · exact himported
  · exact himported

/-- A method of a thread that calls others is known by its name alone: a native method shares its
implementation with another slot, but that one is imported. -/
theorem keyed_of_lowerAll (hpool : t.pool.Sound) (hnamed : t.SelfNamed m)
    (hlower : lowerAll m owners id t t.methods (.ofPool t.pool) = .ok (contexts, b)) :
    Env.Keyed ⟨m, contexts, limit⟩ := by
  rintro a n callee ⟨ca, hca, st, hst, c, hcallee, -⟩ hkey
  simp only [Env.key, hca, Option.map_some] at hkey
  obtain ⟨cn, hcn, hkey⟩ := Option.map_eq_some_iff.mp hkey.symm
  have hname : cn.method.name = ca.method.name := congrArg MethodKey.method hkey
  obtain ⟨ha, -, o, f, ho, hf, himpl, himported⟩ := method_of_lookup hpool hlower hca
  obtain ⟨hn, -, o', g, ho', hg, himpl', -⟩ := method_of_lookup hpool hlower hcn
  cases ho.symm.trans ho'
  replace himported := himported st hst (by simp [hcallee])
  -- the method that calls is the one of its slot
  have hnative : f.isNative = false := by
    refine Bool.eq_false_iff.mpr fun hnative => ?_
    simp only [Site.implementation?, hnative, if_true, Option.filter_eq_some_iff] at himpl
    exact Bool.false_ne_true (himported.symm.trans himpl.2)
  simp only [Site.implementation?, hnative, Bool.false_eq_true, if_false, Option.some.injEq] at himpl
  subst himpl
  have ha' : ca.method.name = a := (hnamed a ha o ca.method ca.method ho hf
    (by simp [Site.implementation?, hnative])).resolve_right fun h => by simp [hnative] at h
  obtain hn' | ⟨hnative', hn'⟩ := hnamed n hn o g cn.method ho hg himpl'
  · rw [← ha', ← hname, hn']
  · simp only [Site.implementation?, hnative', if_true, Option.filter_eq_some_iff] at himpl'
    rw [← hn', hname, ha', hf, Option.some.injEq] at himpl'
    rw [← himpl'.1, himported] at himpl'
    cases himpl'.2

/-- What the methods of a thread inline is lowered for the thread. -/
theorem lookup_of_inlines (ht : Ready m t)
    (hlower : lowerAll m owners id t t.methods (.ofPool t.pool) = .ok (contexts, b))
    {a n : String} (h : Env.Inlines ⟨m, contexts, limit⟩ a n) :
    ∃ c, contexts.lookup n = some c := by
  have hanswers : Env.Answers ⟨m, contexts, limit⟩ (Wants m t) := answers_of_lowerAll ht hlower
  obtain ⟨c, hc, st, hst, callee, hcallee, rfl, houtside, hflow⟩ := h
  have hwants := hanswers.calls a c hc st hst callee hcallee
  rw [Callee.demand, if_neg (by simpa using hflow), if_neg (by simpa using houtside)] at hwants
  exact hanswers.own callee.method hwants

/-- Expansion succeeds exactly if no chain of inlined calls from the entry comes back to a method or
has more methods than the limit. -/
theorem ofEntry_isOk_iff (ht : Ready m t) (hnamed : t.SelfNamed m)
    (hlower : lowerAll m owners id t t.methods (.ofPool t.pool) = .ok (contexts, b))
    {entry : Context} (hentry : contexts.lookup t.entry = some entry) (limit : Nat) :
    (∃ x, Expand.ofEntry ⟨m, contexts, limit⟩ b entry = .ok x) ↔ ∀ names,
      (t.entry :: names).IsChain (Env.Inlines ⟨m, contexts, limit⟩) →
        (t.entry :: names).Nodup ∧ (t.entry :: names).length ≤ limit := by
  have henv : Env.Lowered ⟨m, contexts, limit⟩ b.pool.resources entry.key :=
    lowered_of_lowerAll ht.pool hlower hentry
  have hfound : ∀ {a n}, Env.Inlines ⟨m, contexts, limit⟩ a n →
      ∃ c, contexts.lookup n = some c := lookup_of_inlines ht hlower
  have hsucceeds : Expand.Succeeds b.pool
      (Env.Nests ⟨m, contexts, limit⟩ (contexts.length + 1) [] t.entry)
      (Expand.copy ⟨m, contexts, limit⟩ (contexts.length + 1) [] entry) :=
    Expand.succeeds_copy (fun {name c} hc => (henv name c hc).imp fun _ h => h.1) hfound
      (keyed_of_lowerAll ht.pool hnamed hlower) _ hentry rfl (by simp)
  have hnests : (∃ x, Expand.ofEntry ⟨m, contexts, limit⟩ b entry = .ok x) ↔
      Env.Nests ⟨m, contexts, limit⟩ (contexts.length + 1) [] t.entry := by
    rw [← (hsucceeds ⟨b, [], [], []⟩ (.refl _)).1]
    constructor
    · rintro ⟨x, hx⟩
      obtain ⟨r, hr⟩ := Expand.ofEntry_eq_ok.mp hx
      exact ⟨(r, x), hr⟩
    · rintro ⟨⟨r, x⟩, hr⟩
      exact ⟨x, Expand.ofEntry_eq_ok.mpr ⟨r, hr⟩⟩
  rw [hnests]
  constructor
  · intro h names hchain
    obtain ⟨hnodup, -, hlength⟩ := h.chain hchain
    exact ⟨hnodup, by simpa using hlength⟩
  · intro h
    refine Env.nests_of_chains hfound (by simp) List.nodup_nil (fun a ha => ?_)
      fun names hchain => ⟨(h names hchain).1, by simp, by simpa using (h names hchain).2⟩
    rw [List.mem_singleton.mp ha]
    exact ⟨entry, hentry⟩

theorem copies_of_ofEntry (hpool : t.pool.Sound)
    (hlower : lowerAll m owners id t t.methods (.ofPool t.pool) = .ok (contexts, b))
    {entry : Context} (hentry : contexts.lookup t.entry = some entry) {x : Expansion}
    (hx : Expand.ofEntry ⟨m, contexts, limit⟩ b entry = .ok x) :
    let env : Env := ⟨m, contexts, limit⟩
    let whole : Copy := ⟨0, contexts.length + 1, entry, none⟩
    (∀ chain, (whole.descend env b.pool.resources chain).map (·.context) =
      entry.follow? env b.pool.resources chain) ∧
    (∀ chain κ, whole.descend env b.pool.resources chain = some κ →
      Filled env b.pool.resources x κ) ∧
    ∀ j < x.states.length, ∃! p : List Nat × Nat, ∃ κ,
      whole.descend env b.pool.resources p.1 = some κ ∧ p.2 < κ.context.states.length ∧
        κ.base + p.2 = j := by
  obtain ⟨⟨first, last⟩, hcopy⟩ := Expand.ofEntry_eq_ok.mp hx
  have hadds := copy_adds hpool hlower hentry hcopy
  have hdepth : ∀ chain κ, Copy.descend ⟨m, contexts, limit⟩ b.pool.resources chain
      ⟨0, contexts.length + 1, entry, none⟩ = some κ → 0 < κ.depth :=
    fun chain _ hchain => (hadds.filled chain hchain).depth
  refine ⟨Copy.descend_follow? hdepth, fun chain κ hchain => hadds.filled chain hchain,
    fun j hj => ?_⟩
  have hlength := hadds.length
  rw [List.length_nil, Nat.zero_add] at hlength
  obtain ⟨chain, κ, k, hchain, hk, hat⟩ := Copy.exists_descend (hlength ▸ hj)
  replace hat : κ.base + k = j := by simpa using hat.symm
  refine ⟨(chain, k), ⟨κ, hchain, hk, hat⟩, ?_⟩
  rintro ⟨chain', k'⟩ ⟨κ', hchain', hk', hat'⟩
  obtain ⟨rfl, rfl⟩ := Copy.descend_injective hchain' hchain (hdepth _ _ hchain')
    (hdepth _ _ hchain) hk' hk (hat'.trans hat.symm)
  rfl

/-- When the entry of a thread is expanded, and what comes of it. More depth would not help: the
bound never cuts a chain of calls short. Expansion succeeds exactly if no chain of inlined calls from
the entry comes back to a method or has more methods than the limit; else it names the method where
that happens. The table then has one copy of a method for every chain of calling states that leads
to it, each state of the table belongs to one of them, and to one only. -/
theorem expansion_exact {root : Nat} {plan : Plan} (hplan : Plan.ofRoot m root = .ok plan)
    (ht : plan.threads[id]? = some t) (hnamed : t.SelfNamed m)
    (hlower : lowerAll m owners id t t.methods (.ofPool t.pool) = .ok (contexts, b))
    (limit : Nat) :
    ∃ entry, contexts.lookup t.entry = some entry ∧
      let env : Env := ⟨m, contexts, limit⟩
      let whole : Copy := ⟨0, contexts.length + 1, entry, none⟩
      (∀ n, Expand.copy env (contexts.length + 1 + n) [] entry =
        Expand.copy env (contexts.length + 1) [] entry) ∧
      ((∃ x, Expand.ofEntry env b entry = .ok x) ↔ ∀ names,
        (t.entry :: names).IsChain env.Inlines →
          (t.entry :: names).Nodup ∧ (t.entry :: names).length ≤ limit) ∧
      (∀ e, Expand.ofEntry env b entry = .error e → e.IsOfExpansion) ∧
      ∀ x, Expand.ofEntry env b entry = .ok x →
        (∀ chain, (whole.descend env b.pool.resources chain).map (·.context) =
          entry.follow? env b.pool.resources chain) ∧
        (∀ chain κ, whole.descend env b.pool.resources chain = some κ →
          Filled env b.pool.resources x κ) ∧
        ∀ j < x.states.length, ∃! p : List Nat × Nat, ∃ κ,
          whole.descend env b.pool.resources p.1 = some κ ∧ p.2 < κ.context.states.length ∧
            κ.base + p.2 = j := by
  have hready := (Plan.ofRoot_settled hplan).ready ht
  obtain ⟨entry, hentry⟩ := lookup_of_lowerAll hlower hready.entry
  refine ⟨entry, hentry, fun n => ?_, ofEntry_isOk_iff hready hnamed hlower hentry limit,
    fun e he => ?_, fun x hx => copies_of_ofEntry hready.pool hlower hentry hx⟩
  · exact Expand.copy_of_le hentry (by simp) List.nodup_nil (by simp) n
  · simp only [Expand.ofEntry, except_bind_eq_error] at he
    obtain he | ⟨_, -, he⟩ := he
    · exact (Expand.heeds_copy (answers_of_lowerAll hready hlower) _ [] hentry _
        ⟨by simp, by simp⟩).1 e he
    · cases he

/-- The machine of nested calls has chains of three methods and no more, so that it is expanded if
three may be nested, and not if only two may. -/
theorem nestedCalls_expansion : ∃ plan t contexts b entry, Plan.ofRoot nestedCalls 0 = .ok plan ∧
    plan.threads[0]? = some t ∧ t.SelfNamed nestedCalls ∧
    lowerAll nestedCalls ⟨[], []⟩ 0 t t.methods (.ofPool t.pool) = .ok (contexts, b) ∧
    contexts.lookup t.entry = some entry ∧
    (∃ x, Expand.ofEntry ⟨nestedCalls, contexts, 3⟩ b entry = .ok x ∧ x.states.length = 18) ∧
    (∀ names, (t.entry :: names).IsChain (Env.Inlines ⟨nestedCalls, contexts, 3⟩) →
      (t.entry :: names).Nodup ∧ (t.entry :: names).length ≤ 3) ∧
    ¬ ∀ names, (t.entry :: names).IsChain (Env.Inlines ⟨nestedCalls, contexts, 2⟩) →
      (t.entry :: names).Nodup ∧ (t.entry :: names).length ≤ 2 := by
  have h : (Plan.ofRoot nestedCalls 0).toOption.any (fun plan => (plan.threads[0]?).any fun t =>
      (lowerAll nestedCalls ⟨[], []⟩ 0 t t.methods (.ofPool t.pool)).toOption.any fun lowered =>
        (lowered.1.lookup t.entry).any fun entry =>
          (Expand.ofEntry ⟨nestedCalls, lowered.1, 3⟩ lowered.2 entry).toOption.any
            (fun x => decide (x.states.length = 18)) &&
          (Expand.ofEntry ⟨nestedCalls, lowered.1, 2⟩ lowered.2 entry).toOption.isNone) = true := by
    decide +kernel
  have hnamed : nestedCalls.SelfNamed := by decide +kernel
  obtain ⟨plan, hplan, h⟩ := exists_ok_of_any h
  obtain ⟨t, ht, h⟩ := (Option.any_eq_true _ _).mp h
  obtain ⟨⟨contexts, b⟩, hlower, h⟩ := exists_ok_of_any h
  obtain ⟨entry, hentry, h⟩ := (Option.any_eq_true _ _).mp h
  obtain ⟨h, hnone⟩ := Bool.and_eq_true_iff.mp h
  obtain ⟨x, hx, hstates⟩ := exists_ok_of_any h
  obtain ⟨entry', hentry', -, hthree, -⟩ :=
    expansion_exact hplan ht (t.selfNamed hnamed) hlower 3
  obtain ⟨entry'', hentry'', -, htwo, -⟩ :=
    expansion_exact hplan ht (t.selfNamed hnamed) hlower 2
  cases Option.some.inj (hentry.symm.trans hentry')
  cases Option.some.inj (hentry.symm.trans hentry'')
  refine ⟨plan, t, contexts, b, entry, hplan, ht, t.selfNamed hnamed, hlower, hentry,
    ⟨x, hx, of_decide_eq_true hstates⟩, hthree.mp ⟨x, hx⟩, fun hchains => ?_⟩
  obtain ⟨x', hx'⟩ := htwo.mpr hchains
  simp [hx', Except.toOption] at hnone

end ThreadTable

end Synth
end MachineSynth
