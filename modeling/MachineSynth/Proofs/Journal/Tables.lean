import Mathlib
import MachineSynth.Proofs.Journal.Lowering
import MachineSynth.Synth.Thread

/-! The journal of a table: expansion logs its acts as lowering does, so that a table can be built
with what other threads have registered before. -/
namespace MachineSynth
namespace Synth

open Builder (Act perform)

section Expansion

namespace Expand

variable {α : Type} {P : Act → Prop}

/-- What expansion does to the builder, whatever is allowed of it: it takes transitions and
assignments, and numbers states and instructions. -/
structure Permits (P : Act → Prop) : Prop where
  transition : P .transition
  assign : P (.request ⟨"set", "", 0, .truth⟩ id)
  state : P .state
  insn : P .insn

/-- Expansion does nothing to the builder that lowering does not. -/
theorem permits_of_lower {m : Machine} {owners : OwnershipTable} {thread : ThreadId}
    (hP : Lower.Permits m owners thread P) : Permits P :=
  ⟨hP.transition, hP.request ⟨by decide, fun _ => rfl, fun _ => rfl, fun h => absurd h (by decide)⟩
      (by decide) (by decide),
    hP.state, hP.insn⟩

theorem logs_build {f : Builder → α × Builder} (act : Act) (hact : P act)
    (hrun : ∀ b, act.run b = .ok (f b).2) (hanswer : ∀ b R, (f (b.setRegistry R)).1 = (f b).1) :
    Logs P (build f) :=
  logs_of_act hact hrun hanswer fun _ => rfl

theorem logs_updateInsns (state : Nat) (f : List Rtl.Insn → List Rtl.Insn) :
    Logs P (updateInsns state f) :=
  logs_modify (fun _ => rfl) fun _ _ => rfl

theorem logs_add (hP : Permits P) (state unit : Nat) (operand : String)
    (inputs outputs targets : List Nat) : Logs P (add state unit operand inputs outputs targets) :=
  (logs_build .insn hP.insn (fun _ => rfl) fun _ _ => rfl).bind fun _ => logs_updateInsns _ _

theorem logs_addStates (hP : Permits P) (states : List LoweredState) :
    Logs P (addStates states) := by
  induction states with
  | nil => exact logs_pure ()
  | cons st rest ih =>
    refine (logs_build .state hP.state (fun _ => rfl) fun _ _ => rfl).bind fun _ => ?_
    exact Logs.bind (logs_modify (fun _ => by rfl) fun _ _ => by rfl) fun _ => ih

theorem logs_copyInsns (hP : Permits P) (base state : Nat) (insns : List Rtl.Insn) :
    Logs P (copyInsns base state insns) := by
  induction insns with
  | nil => exact logs_pure ()
  | cons i rest ih => exact (logs_add hP state _ _ _ _ _).bind fun _ => ih

theorem logs_assignAll (hP : Permits P) (state unit : Nat) (pairs : List (Nat × Nat)) :
    Logs P (assignAll state unit pairs) := by
  induction pairs with
  | nil => exact logs_pure ()
  | cons p rest ih => exact (logs_add hP state unit _ _ _ _).bind fun _ => ih

theorem logs_targetsOf (hP : Permits P) (state : Nat) : Logs P (targetsOf state) := by
  refine logs_get (fun x => ?_) fun _ _ => rfl
  dsimp only
  split
  · exact logs_pure _
  · refine (logs_build .transition hP.transition (fun _ => rfl) fun _ _ => rfl).bind fun r => ?_
    exact (logs_add hP state r _ _ _ _).bind fun _ => logs_pure []

theorem logs_setTargets (state : Nat) (targets : List Nat) : Logs P (setTargets state targets) :=
  logs_get (fun _ => logs_updateInsns _ _) fun _ _ => rfl

theorem logs_inline (hP : Permits P) (state : Nat) (i : Rtl.Insn) (callee : Context)
    (first last : Nat) : Logs P (inline state i callee first last) := by
  refine (logs_build (.request _ id) hP.assign (fun _ => rfl) fun _ _ => rfl).bind fun r => ?_
  refine (logs_assignAll hP state r _).bind fun _ => (logs_assignAll hP last r _).bind fun _ => ?_
  refine (logs_targetsOf hP state).bind fun targets => (logs_targetsOf hP last).bind fun own => ?_
  exact (logs_setTargets last _).bind fun _ => logs_setTargets state _

theorem logs_call (hP : Permits P) (env : Env) {copy : Context → Expand (Nat × Nat)}
    (hcopy : ∀ c, Logs P (copy c)) (state : Nat) (i : Rtl.Insn) (c : Callee) :
    Logs P (call env copy state i c) := by
  unfold call
  dsimp only
  split
  · exact logs_modify (fun _ => rfl) fun _ _ => rfl
  · split
    · exact logs_modify (fun _ => rfl) fun _ _ => rfl
    · split
      · exact logs_of_ne_ok fun _ _ h => by cases h
      · exact (hcopy _).bind fun _ => logs_inline hP _ _ _ _ _

theorem logs_fill (hP : Permits P) (env : Env) {copy : Context → Expand (Nat × Nat)}
    (hcopy : ∀ c, Logs P (copy c)) (base state : Nat) (states : List LoweredState) :
    Logs P (fill env copy base state states) := by
  induction states generalizing state with
  | nil => exact logs_pure ()
  | cons st rest ih =>
    refine logs_get (fun x => ?_) fun _ _ => rfl
    refine (logs_copyInsns hP base state _).bind fun _ => ?_
    dsimp only
    split
    · exact (logs_call hP env hcopy state _ _).bind fun _ => ih (state + 1)
    · exact (logs_pure ()).bind fun _ => ih (state + 1)

theorem logs_copy (hP : Permits P) (env : Env) (depth : Nat) (stack : List MethodKey) (c : Context) :
    Logs P (copy env depth stack c) := by
  induction depth generalizing stack c with
  | zero => exact logs_of_ne_ok fun _ _ h => by cases h
  | succ depth ih =>
    unfold copy
    dsimp only
    split
    · exact logs_of_ne_ok fun _ _ h => by cases h
    · split
      · exact logs_of_ne_ok fun _ _ h => by cases h
      · refine logs_get (fun x => ?_) fun _ _ => rfl
        refine (logs_addStates hP c.states).bind fun _ => ?_
        exact (logs_fill hP env (fun c' => ih _ c') _ _ _).bind fun _ => logs_pure _

end Expand

end Expansion

section Threads

variable {m : Machine} {owners : OwnershipTable} {thread : ThreadId} {P : Act → Prop}

theorem Site.logs_lower (hP : Lower.Permits m owners thread P) (hC : Lower.PermitsChannels P)
    (object : Nat) (slot : String) (role : Role) (hT : role = .task → Lower.PermitsTasks P)
    (hF : role ≠ .inner → Lower.PermitsFlow P) :
    Logs P (lower m owners thread object slot role : StateT Builder (Except Stop) Context) := by
  intro b c b' h
  obtain ⟨o, f, impl, e, l, ho, hf, himpl, hrun, rfl, rfl⟩ := lower_eq_ok.mp h
  have hlogged : Logs P
      (if f.isNative then Lower.imported ⟨m, owners, thread, object, slot, impl, role⟩
      else Lower.implementation ⟨m, owners, thread, object, slot, impl, role⟩) := by
    split
    · exact Lower.logged_imported hP
    · exact Lower.logged_implementation hP hC hT hF
  obtain ⟨acts, hacts, hperform, hreplay⟩ := hlogged _ _ _ hrun
  refine ⟨acts, hacts, hperform, fun R R' hR => ?_⟩
  show lower m owners thread object slot role (b.setRegistry R) = _
  exact lower_eq_ok.mpr ⟨o, f, impl, e, _, ho, hf, himpl, hreplay R R' hR, rfl, rfl⟩

namespace ThreadTable

variable {t : ThreadPlan}

theorem logs_lowerAll (hP : Lower.Permits m owners thread P) (hC : Lower.PermitsChannels P)
    (hT : Lower.PermitsTasks P) (hF : Lower.PermitsFlow P) (names : List String) :
    Logs P (lowerAll m owners thread t names :
      StateT Builder (Except Stop) (List (String × Context))) := by
  induction names with
  | nil => exact logs_pure []
  | cons name rest ih =>
    exact (Site.logs_lower hP hC t.object name _ (fun _ => hT) fun _ => hF).bind fun c =>
      ih.bind fun cs => logs_pure ((name, c) :: cs)

def buildAfter (m : Machine) (owners : OwnershipTable) (limit : Nat) (id : ThreadId) (t : ThreadPlan)
    (R : Registry) : Except Stop ThreadTable := do
  let (contexts, b) ← lowerAll m owners id t t.methods ((Builder.ofPool t.pool).setRegistry R)
  match contexts.lookup t.entry with
  | none => .error (.fault .dangling)
  | some entry =>
    let x ← Expand.ofEntry ⟨m, contexts, limit⟩ b entry
    return ⟨t, contexts, x.builder, x.states, x.taskCalls, x.flowCalls⟩

theorem buildAfter_empty (limit : Nat) :
    buildAfter m owners limit thread t .empty = build m owners limit thread t := rfl

def setRegistry (table : ThreadTable) (R : Registry) : ThreadTable :=
  { table with builder := table.builder.setRegistry R }

theorem buildAfter_logs {limit : Nat} {R : Registry} {table : ThreadTable}
    (h : buildAfter m owners limit thread t R = .ok table) :
    ∃ acts, (∀ act ∈ acts, act.Fits m owners thread) ∧
      perform acts ((Builder.ofPool t.pool).setRegistry R) = .ok table.builder ∧
      ∀ R₁ R₂, perform acts ((Builder.ofPool t.pool).setRegistry R₁) =
          .ok (table.builder.setRegistry R₂) →
        buildAfter m owners limit thread t R₁ = .ok (table.setRegistry R₂) := by
  simp only [buildAfter, except_bind_eq_ok] at h
  obtain ⟨⟨contexts, b⟩, hlower, h⟩ := h
  have hP := Lower.permits_fits m owners thread
  obtain ⟨acts₁, hacts₁, hperform₁, hreplay₁⟩ := logs_lowerAll hP
    (Lower.permitsChannels_fits m owners thread) (Lower.permitsTasks_fits m owners thread)
    (Lower.permitsFlow_fits m owners thread) t.methods _ _ _ hlower
  split at h
  · cases h
  · rename_i entry hentry
    simp only [Expand.ofEntry, except_bind_eq_ok] at h
    obtain ⟨x, ⟨⟨ends, x'⟩, hcopy, hx⟩, h⟩ := h
    cases hx
    cases h
    obtain ⟨acts₂, hacts₂, hperform₂, hreplay₂⟩ :=
      Expand.logs_copy (Expand.permits_of_lower hP) _ _ _ _ _ _ _ hcopy
    refine ⟨acts₁ ++ acts₂, fun act hact => ?_,
      Builder.perform_append.mpr ⟨b, hperform₁, hperform₂⟩, fun R₁ R₂ hR => ?_⟩
    · exact (List.mem_append.mp hact).elim (hacts₁ act) (hacts₂ act)
    · obtain ⟨c, hc, hrest⟩ := Builder.perform_append.mp hR
      obtain ⟨R', rfl⟩ := Builder.perform_setRegistry hperform₁ hc
      have hlower' := hreplay₁ R₁ R' hc
      have hcopy' := hreplay₂ R' R₂ hrest
      simp only [buildAfter, except_bind_eq_ok]
      refine ⟨_, hlower', ?_⟩
      simp only [hentry, Expand.ofEntry, except_bind_eq_ok]
      exact ⟨_, ⟨_, hcopy', rfl⟩, rfl⟩

end ThreadTable

end Threads
end Synth
end MachineSynth
