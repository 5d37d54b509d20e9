import Mathlib
import MachineSynth.Proofs.Reach.Clearance
import MachineSynth.Proofs.Tables.Backing

/-! Calls: what the tables of a plan call is there, so that expansion finds every method of its own
thread, and wiring every table of another. -/
namespace MachineSynth
namespace Synth

/-- What a state that calls needs of a plan. -/
def Callee.demand (m : Machine) (c : Callee) : Demand :=
  if (Walker.calledMethod? m (some c.object) c.method).any (·.marks.dataFlowEntry) then
    .flow c.object c.method
  else if c.outside then .task c.object c.method
  else .own c.method

/-- A call that is left to be expanded needs what its instruction does. -/
theorem Walker.demand?_of_leaves {m : Machine} {w : Walker} {i : Insn} {c : Callee}
    (hpasses : w.Passes m i) (h : w.Leaves m w.object i c) : w.demand? m i = some (c.demand m) := by
  obtain ⟨r, args, rfl, hobject, houtside, hnative⟩ := h
  obtain ⟨callee, f, hcallee, hf⟩ := hpasses
  cases hobject.symm.trans hcallee
  simp only [demand?, Callee.demand, isOutsideCall, hobject, hf, hnative, houtside, Option.any_some]
  split
  · contradiction
  · split
    · rfl
    · split <;> rfl

namespace Walker

theorem walk_object {m : Machine} {w w' : Walker} {code : List Insn}
    (h : w.walk m code = .ok w') : w'.object = w.object := by
  refine foldlM_rel (R := fun a b : Walker => b.object = a.object) (fun _ => rfl)
    (fun _ _ _ hab hbc => hbc.trans hab) (fun _ _ _ _ => step_object) h

end Walker

theorem Site.lower_demands {m : Machine} {owners : OwnershipTable} {thread : ThreadId}
    {object : Nat} {slot : String} {role : Role} {b b' : Builder} {c : Context} (hb : b.Sound)
    (hcleared : Cleared m object slot) (h : lower m owners thread object slot role b = .ok (c, b'))
    {st : LoweredState} (hst : st ∈ c.states) {callee : Callee}
    (hcallee : st.callee = some callee) : Demands m object slot (callee.demand m) := by
  obtain ⟨f, hf, hnative, k, i, v, hi, hv, hleaves⟩ := lower_calls hb h hst hcallee
  obtain ⟨o, f', ho, hf', -, hguarded⟩ := hcleared
  have hsame : Walker.calledMethod? m (some object) slot = some f' := by
    simp [Walker.calledMethod?, ho, hf']
  cases hf.symm.trans hsame
  have hobject : v.object = object := Walker.walk_object hv
  refine ⟨f, hf, hnative, k, i, v, hi, hv, ?_⟩
  exact Walker.demand?_of_leaves (hguarded hnative k i v hi hv) (hobject ▸ hleaves)

/-- Whether the calls into other tables are such as are wanted. -/
structure Expansion.Calls (wanted : Demand → Prop) (x : Expansion) : Prop where
  tasks : ∀ call ∈ x.taskCalls, wanted (.task call.callee.object call.callee.method)
  flows : ∀ call ∈ x.flowCalls, wanted (.flow call.callee.object call.callee.method)

def Expand.Limits.wanted (wanted : Demand → Prop) : Limits where
  stops e := e.IsOfExpansion
  writes _ := True
  tasks c := wanted (.task c.callee.object c.callee.method)
  flows c := wanted (.flow c.callee.object c.callee.method)

theorem Expansion.Move.calls {wanted : Demand → Prop} {x x' : Expansion}
    (h : Move (.wanted wanted) x x') (hx : x.Calls wanted) : x'.Calls wanted := by
  cases h with
  | resource | state | insn | lead => exact ⟨hx.tasks, hx.flows⟩
  | task allowed =>
    refine ⟨fun c hc => ?_, hx.flows⟩
    rcases List.mem_append.mp hc with hc | hc
    · exact hx.tasks c hc
    · exact List.mem_singleton.mp hc ▸ allowed
  | flow allowed =>
    refine ⟨hx.tasks, fun c hc => ?_⟩
    rcases List.mem_append.mp hc with hc | hc
    · exact hx.flows c hc
    · exact List.mem_singleton.mp hc ▸ allowed

namespace Expand

variable {α : Type} {wanted : Demand → Prop}

/-- Whether a part of the expansion makes calls only as wanted, and stops only as allowed. -/
def Heeds (wanted : Demand → Prop) (p : Expand α) : Prop :=
  ∀ x : Expansion, x.Calls wanted → Ends Stop.IsOfExpansion (fun _ x' => x'.Calls wanted) p x

/-- Whether the contexts of a thread call only as wanted, and those of its own methods that are
wanted are among them. -/
structure Env.Answers (env : Env) (wanted : Demand → Prop) : Prop where
  calls : ∀ name c, env.contexts.lookup name = some c → ∀ st ∈ c.states, ∀ callee,
    st.callee = some callee → wanted (callee.demand env.machine)
  own : ∀ name, wanted (.own name) → ∃ c, env.contexts.lookup name = some c

variable {env : Env}

theorem Env.Answers.admits (henv : env.Answers wanted) {c : Context} (hc : ∀ st ∈ c.states,
      ∀ callee, st.callee = some callee → wanted (callee.demand env.machine)) :
    env.Admits (.wanted wanted) c := by
  refine ⟨fun _ _ => trivial, fun _ _ _ _ _ _ => trivial, fun st hst i _ callee hcallee state => ?_⟩
  have hwanted := hc st hst callee hcallee
  unfold Callee.demand at hwanted
  unfold Env.Allows
  split_ifs at hwanted ⊢
  · exact hwanted
  · exact hwanted
  · obtain ⟨c', hc'⟩ := henv.own _ hwanted
    exact fun hnone => by cases hnone.symm.trans hc'

theorem heeds_copy (henv : env.Answers wanted) (depth : Nat) (stack : List MethodKey)
    {name : String} {c : Context} (hc : env.contexts.lookup name = some c) :
    Heeds wanted (copy env depth stack c) := by
  have hadmits : ∀ name c, env.contexts.lookup name = some c → env.Admits (.wanted wanted) c :=
    fun name c hc => henv.admits (henv.calls name c hc)
  have hkeeps := keeps_copy hadmits (fun _ => id) depth stack (hadmits name c hc)
  exact fun x hx => Ends.mono (hkeeps x) (fun _ => id) fun _ _ hmoves =>
    preserved_of_steps (P := fun y : Expansion => y.Calls wanted) (fun hmove => hmove.calls)
      hmoves hx

end Expand

namespace ThreadTable

variable {m : Machine} {owners : OwnershipTable} {limit : Nat} {id : ThreadId} {t : ThreadPlan}

/-- A thread that can be made into a table: it runs its entry, and with a method all that the method
calls on the same object. -/
structure Ready (m : Machine) (t : ThreadPlan) : Prop where
  pool : t.pool.Sound
  entry : t.entry ∈ t.methods
  cleared : ∀ name ∈ t.methods, Cleared m t.object name
  own : ∀ name ∈ t.methods, ∀ label, Demands m t.object name (.own label) → label ∈ t.methods

def Wants (m : Machine) (t : ThreadPlan) (d : Demand) : Prop :=
  ∃ name ∈ t.methods, Demands m t.object name d

theorem lowerAll_stops {names : List String} {b : Builder} {e : Stop} (hb : b.Sound)
    (hcleared : ∀ name ∈ names, Cleared m t.object name)
    (h : lowerAll m owners id t names b = .error e) : e.IsOfLowering := by
  induction names generalizing b with
  | nil => cases h
  | cons name rest ih =>
    simp only [lowerAll, except_bind_eq_error] at h
    obtain h | ⟨⟨c, b₁⟩, hlower, h | ⟨_, -, h⟩⟩ := h
    · exact Site.lower_stops hb (hcleared name List.mem_cons_self) h
    · exact ih (Site.lower_spec hb hlower).1
        (fun name' hname' => hcleared name' (List.mem_cons_of_mem _ hname')) h
    · cases h

theorem lookup_of_lowerAll {contexts : List (String × Context)} {b b' : Builder}
    {names : List String} (h : lowerAll m owners id t names b = .ok (contexts, b')) {name : String}
    (hname : name ∈ names) : ∃ c, contexts.lookup name = some c := by
  obtain ⟨c, hc⟩ := exists_of_lowerAll h hname
  refine Option.ne_none_iff_exists'.mp fun hnone => ?_
  simpa using List.lookup_eq_none_iff.mp hnone _ hc

theorem answers_of_lowerAll (ht : Ready m t) {contexts : List (String × Context)} {b : Builder}
    (h : lowerAll m owners id t t.methods (.ofPool t.pool) = .ok (contexts, b)) :
    Expand.Env.Answers ⟨m, contexts, limit⟩ (Wants m t) := by
  obtain ⟨-, -, -, hall⟩ := lowerAll_spec (Builder.sound_ofPool ht.pool) h
  refine ⟨fun name c hc st hst callee hcallee => ?_, fun label hlabel => ?_⟩
  · obtain ⟨hname, b₁, b₂, hb₁, -, hlower, -⟩ := hall name c (mem_of_lookup hc)
    exact ⟨name, hname, Site.lower_demands hb₁ (ht.cleared name hname) hlower hst hcallee⟩
  · obtain ⟨name, hname, hdemands⟩ := hlabel
    exact lookup_of_lowerAll h (ht.own name hname label hdemands)

/-- A thread that is ready stops only with what is not looked at before, and the table that it
becomes calls what its methods demand. -/
theorem build_ends (ht : Ready m t) :
    (∀ e, build m owners limit id t = .error e → e.IsOfLowering ∨ e.IsOfExpansion) ∧
      ∀ table, build m owners limit id t = .ok table →
        (∀ call ∈ table.taskCalls, Wants m t (.task call.callee.object call.callee.method)) ∧
        ∀ call ∈ table.flowCalls, Wants m t (.flow call.callee.object call.callee.method) := by
  have hcopy : ∀ {contexts b entry},
      lowerAll m owners id t t.methods (.ofPool t.pool) = .ok (contexts, b) →
      contexts.lookup t.entry = some entry →
      Ends Stop.IsOfExpansion (fun _ x => x.Calls (Wants m t))
        (Expand.copy ⟨m, contexts, limit⟩ (contexts.length + 1) [] entry) ⟨b, [], [], []⟩ :=
    fun hlower hentry => Expand.heeds_copy (answers_of_lowerAll ht hlower) _ [] hentry _
      ⟨by simp, by simp⟩
  refine ⟨fun e h => ?_, fun table h => ?_⟩
  · simp only [build, except_bind_eq_error] at h
    obtain h | ⟨⟨contexts, b⟩, hlower, h⟩ := h
    · exact .inl (lowerAll_stops (Builder.sound_ofPool ht.pool) ht.cleared h)
    · obtain ⟨entry, hentry⟩ := lookup_of_lowerAll hlower ht.entry
      simp only [hentry, Expand.ofEntry, except_bind_eq_error] at h
      obtain (h | ⟨_, -, h⟩) | ⟨_, -, h⟩ := h
      · exact .inr ((hcopy hlower hentry).1 e h)
      · cases h
      · cases h
  · obtain ⟨b, entry, first, last, x, hlower, hentry, hrun, htable⟩ := build_eq_ok h
    have hcalls := (hcopy hlower hentry).2 _ _ hrun
    rw [htable]
    exact ⟨hcalls.tasks, hcalls.flows⟩

section Wiring

variable {plan : Plan} {tables : List ThreadTable} {a callee : ThreadTable} {call : TableCall}
  {f : Fault}

/-- What wiring can stop with if it finds all tables; those of data-flow calls it may miss unless
they are known to be there. -/
def IsOfWiring (flows : Prop) : Fault → Prop
  | .dangling | .noSuccessor _ _ | .flowInputs _ _ => True
  | .noFlowThread _ _ => ¬ flows
  | _ => False

theorem find?_isSome (hplans : tables.map (·.plan) = plan.threads) (p : ThreadPlan → Bool) :
    (find? tables p).isSome = (plan.threads.find? p).isSome := by
  rw [← hplans, List.find?_map, Option.isSome_map]
  rfl

theorem callTask_stops {flows : Prop} (h : callTask m a call callee = .error f) :
    IsOfWiring flows f := by
  simp only [callTask] at h
  split at h
  · cases h
  · split at h
    · cases h
      trivial
    · split at h <;> cases h

theorem callDataFlow_stops {flows : Prop} (h : callDataFlow m a call callee = .error f) :
    IsOfWiring flows f := by
  simp only [callDataFlow] at h
  split at h
  · split at h
    · cases h
      trivial
    · split at h <;> cases h
  · cases h
    trivial

theorem wireTask_stops {flows : Prop} (hplans : tables.map (·.plan) = plan.threads)
    (hmodule : (plan.module? call.callee.object).isSome = true)
    (htask : (plan.task? call.callee.object call.callee.method).isSome = true)
    (h : wireTask m plan tables a call = .error f) : IsOfWiring flows f := by
  simp only [wireTask] at h
  rw [if_neg (by simpa [Option.isSome_iff_ne_none] using hmodule)] at h
  split at h
  · rename_i hnone
    rw [Plan.task?, ← find?_isSome hplans, hnone] at htask
    cases htask
  · exact callTask_stops h

theorem wireDataFlow_stops {flows : Prop} (hplans : tables.map (·.plan) = plan.threads)
    (hmodule : (plan.module? call.callee.object).isSome = true)
    (hthread : flows → (plan.thread? call.callee.object call.callee.method).isSome = true)
    (h : wireDataFlow m plan tables a call = .error f) : IsOfWiring flows f := by
  simp only [wireDataFlow] at h
  rw [if_neg (by simpa [Option.isSome_iff_ne_none] using hmodule)] at h
  split at h
  · rename_i hnone
    cases h
    intro hflows
    have hsome := hthread hflows
    rw [Plan.thread?, ← find?_isSome hplans, hnone] at hsome
    cases hsome
  · exact callDataFlow_stops h

/-- Wiring a table finds what the calls of the table need. -/
theorem wire_stops {flows : Prop} (hplans : tables.map (·.plan) = plan.threads)
    (htasks : ∀ call ∈ a.taskCalls, (plan.module? call.callee.object).isSome = true ∧
      (plan.task? call.callee.object call.callee.method).isSome = true)
    (hflows : ∀ call ∈ a.flowCalls, (plan.module? call.callee.object).isSome = true ∧
      (flows → (plan.thread? call.callee.object call.callee.method).isSome = true))
    (h : wire m plan tables a = .error f) : IsOfWiring flows f := by
  simp only [wire, except_bind_eq_error] at h
  obtain h | ⟨a₁, htasks₁, h⟩ := h
  · obtain ⟨b, call, hcall, h⟩ := foldlM_eq_error h
    exact wireTask_stops hplans (htasks call hcall).1 (htasks call hcall).2 h
  · have hgrows : a.Grows a₁ :=
      foldlM_rel (R := Grows) .refl (fun _ _ _ => .trans) (fun _ _ _ _ => wireTask_grows) htasks₁
    rw [hgrows.flowCalls] at h
    obtain ⟨b, call, hcall, h⟩ := foldlM_eq_error h
    exact wireDataFlow_stops hplans (hflows call hcall).1 (hflows call hcall).2 h

end Wiring

end ThreadTable
end Synth
end MachineSynth
