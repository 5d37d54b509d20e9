import Mathlib
import MachineSynth.Proofs.Expansion.Filling
import MachineSynth.Proofs.Lowering.Tidiness

/-! Expansion is tidy: every state and instruction of a table has a number of its own, and what an
instruction refers to is there. -/
namespace MachineSynth

namespace Rtl

/-- The numbers of the instructions of some states. -/
def insnIds (states : List State) : List Nat := states.flatMap fun s => s.insns.map (·.id)

@[simp] theorem insnIds_cons (s : State) (states : List State) :
    insnIds (s :: states) = s.insns.map (·.id) ++ insnIds states := rfl

@[simp] theorem insnIds_append (as bs : List State) :
    insnIds (as ++ bs) = insnIds as ++ insnIds bs := List.flatMap_append

theorem insnIds_addInsn (states : List State) (k : Nat) (i : Insn) :
    (insnIds (states.modify k fun s => { s with insns := s.insns ++ [i] })).Perm (insnIds states) ∨
      (insnIds (states.modify k fun s => { s with insns := s.insns ++ [i] })).Perm
        (i.id :: insnIds states) := by
  induction states generalizing k with
  | nil => exact .inl (by simp)
  | cons s rest ih =>
    cases k with
    | zero =>
      exact .inr (by simp)
    | succ k =>
      rcases ih k with h | h
      · exact .inl (by simpa using h.append_left _)
      · refine .inr ?_
        simpa using (h.append_left _).trans List.perm_middle

/-- Changing instructions without numbering them anew keeps the numbers. -/
theorem insnIds_modify {states : List State} {k : Nat} {f : List Insn → List Insn}
    (hf : ∀ insns, (f insns).map (·.id) = insns.map (·.id)) :
    insnIds (states.modify k fun s => { s with insns := f s.insns }) = insnIds states := by
  induction states generalizing k with
  | nil => simp
  | cons s rest ih =>
    cases k with
    | zero => simp [hf]
    | succ k => simp [ih]

theorem map_id_modify {states : List State} {k : Nat} {f : List Insn → List Insn} :
    (states.modify k fun s => { s with insns := f s.insns }).map (·.id) = states.map (·.id) := by
  induction states generalizing k with
  | nil => simp
  | cons s rest ih =>
    cases k with
    | zero => simp
    | succ k => simp [ih]

theorem mem_modify {states : List State} {k : Nat} {f : List Insn → List Insn} {s : State}
    (h : s ∈ states.modify k fun s => { s with insns := f s.insns }) :
    s ∈ states ∨ ∃ s' ∈ states, s = { s' with insns := f s'.insns } := by
  induction states generalizing k with
  | nil => simp at h
  | cons s' rest ih =>
    cases k with
    | zero =>
      simp only [List.modify_zero_cons, List.mem_cons] at h
      rcases h with rfl | h
      · exact .inr ⟨s', by simp, rfl⟩
      · exact .inl (List.mem_cons_of_mem _ h)
    | succ k =>
      simp only [List.modify_succ_cons, List.mem_cons] at h
      rcases h with rfl | h
      · exact .inl (by simp)
      · rcases ih h with h | ⟨s'', hs'', rfl⟩
        · exact .inl (List.mem_cons_of_mem _ h)
        · exact .inr ⟨s'', List.mem_cons_of_mem _ hs'', rfl⟩

theorem map_id_updateTransition {resources : List Resource} {f : Insn → Insn}
    (hf : ∀ i, (f i).id = i.id) (insns : List Insn) :
    (updateTransition resources f insns).map (·.id) = insns.map (·.id) := by
  induction insns with
  | nil => rfl
  | cons i rest ih =>
    unfold updateTransition
    split
    · simp [hf]
    · simp [ih]

end Rtl

namespace Synth

/-- No number is given twice, and none above the counters. -/
structure Counted (states : List Rtl.State) (b : Builder) : Prop where
  stateIds : (states.map (·.id)).Nodup
  stateCount : ∀ id ∈ states.map (·.id), id ≤ b.stateCount
  insnIds : (Rtl.insnIds states).Nodup
  insnCount : ∀ id ∈ Rtl.insnIds states, id ≤ b.insnCount

namespace Counted

variable {states : List Rtl.State} {b : Builder}

/-- A new instruction gets a number of its own. -/
theorem addInsn (h : Counted states b) (k : Nat) {i : Rtl.Insn} (hi : i.id = b.newInsn.1) :
    Counted (states.modify k fun s => { s with insns := s.insns ++ [i] }) b.newInsn.2 := by
  have hlt : ∀ id ∈ Rtl.insnIds states, id < i.id := fun id hid => by
    have := h.insnCount id hid
    simp only [Builder.newInsn] at hi
    omega
  have hid : i.id ≤ b.newInsn.2.insnCount := by rw [hi]; exact le_rfl
  have hle : ∀ id ∈ Rtl.insnIds states, id ≤ b.newInsn.2.insnCount :=
    fun id hmem => (hlt id hmem).le.trans hid
  refine ⟨?_, ?_, ?_, ?_⟩
  · rw [Rtl.map_id_modify (f := (· ++ [i]))]
    exact h.stateIds
  · rw [Rtl.map_id_modify (f := (· ++ [i]))]
    exact h.stateCount
  · rcases Rtl.insnIds_addInsn states k i with hp | hp
    · exact hp.nodup_iff.mpr h.insnIds
    · exact hp.nodup_iff.mpr (List.nodup_cons.mpr ⟨fun hmem => (hlt _ hmem).false, h.insnIds⟩)
  · intro id hmem
    rcases Rtl.insnIds_addInsn states k i with hp | hp
    · exact hle id (hp.mem_iff.mp hmem)
    · rcases List.mem_cons.mp (hp.mem_iff.mp hmem) with rfl | hmem
      · exact hid
      · exact hle id hmem

theorem modify (h : Counted states b) (k : Nat) {f : List Rtl.Insn → List Rtl.Insn}
    (hf : ∀ insns, (f insns).map (·.id) = insns.map (·.id)) :
    Counted (states.modify k fun s => { s with insns := f s.insns }) b := by
  refine ⟨?_, ?_, ?_, ?_⟩ <;>
    simp only [Rtl.map_id_modify, Rtl.insnIds_modify hf]
  exacts [h.stateIds, h.stateCount, h.insnIds, h.insnCount]

theorem addState (h : Counted states b) :
    Counted (states ++ [⟨b.newState.1, []⟩]) b.newState.2 := by
  have hlt : ∀ id ∈ states.map (·.id), id < b.newState.1 := fun id hid => by
    have := h.stateCount id hid
    simp only [Builder.newState]
    omega
  refine ⟨?_, ?_, ?_, ?_⟩
  · rw [List.map_append]
    refine List.nodup_append'.mpr ⟨h.stateIds, by simp, ?_⟩
    simpa [List.disjoint_singleton] using fun s hs => (hlt _ (List.mem_map_of_mem hs)).ne
  · intro id hmem
    simp only [List.map_append, List.map_cons, List.map_nil, List.mem_append,
      List.mem_singleton] at hmem
    rcases hmem with hmem | rfl
    · exact (hlt id hmem).le
    · exact le_rfl
  · simpa [Rtl.insnIds] using h.insnIds
  · have hsame : Rtl.insnIds (states ++ [⟨b.newState.1, []⟩]) = Rtl.insnIds states := by
      simp [Rtl.insnIds]
    rw [hsame]
    exact h.insnCount

end Counted

/-- An instruction of a table with the given numbers of registers and states, all of whose
references are met. -/
structure Settled (resources : List Rtl.Resource) (registers states : Nat) (i : Rtl.Insn) :
    Prop where
  within : i.Within registers
  kind : ∃ kind, Rtl.kindAt resources i.resource = some kind ∧ kind ≠ Pool.pseudoKind ∧
    (kind ≠ Rtl.Resource.transitionKind → i.targets = [])
  targets : ∀ t ∈ i.targets, t < states

def TableCall.Within (n : Nat) (c : TableCall) : Prop :=
  (∀ r ∈ c.inputs, r < n) ∧ ∀ r ∈ c.outputs, r < n

namespace Expansion

structure Tidy (x : Expansion) : Prop where
  builder : x.builder.Tidy
  counted : Counted x.states x.builder
  insn : ∀ s ∈ x.states, ∀ i ∈ s.insns,
    Settled x.builder.pool.resources x.builder.registers.length x.states.length i
  taskCall : ∀ c ∈ x.taskCalls, c.Within x.builder.registers.length
  flowCall : ∀ c ∈ x.flowCalls, c.Within x.builder.registers.length

/-- An expansion later than another. -/
structure Grows (x x' : Expansion) : Prop where
  pool : x.builder.pool.Extends x'.builder.pool
  registers : x'.builder.registers = x.builder.registers
  states : x.states.length ≤ x'.states.length

theorem Grows.refl (x : Expansion) : x.Grows x := ⟨.refl _, rfl, le_rfl⟩

theorem Grows.trans {x x' x'' : Expansion} (h : x.Grows x') (h' : x'.Grows x'') : x.Grows x'' :=
  ⟨h.pool.trans h'.pool, h'.registers.trans h.registers, h.states.trans h'.states⟩

end Expansion

theorem Settled.mono {p q : Pool} (hpq : p.Extends q) {registers states states' : Nat}
    {i : Rtl.Insn} (hstates : states ≤ states') (h : Settled p.resources registers states i) :
    Settled q.resources registers states' i := by
  obtain ⟨kind, hk, hne, hothers⟩ := h.kind
  exact ⟨h.within, ⟨kind, hpq.kindAt hk, hne, hothers⟩, fun t ht => (h.targets t ht).trans_le hstates⟩

namespace Expand

open Expansion (Tidy Grows)

variable {env : Env} {x x' : Expansion} {state : Nat}

theorem resource_tidy {take : Pool → Nat × Pool} {kind : String} {r : Nat}
    (ht : Pool.TakesTidily take kind) (hx : x.Tidy)
    (h : (build (·.resource take)).run x = .ok (r, x')) :
    x'.Tidy ∧ x.Grows x' ∧ Rtl.kindAt x'.builder.pool.resources r = some kind := by
  cases run_build_eq_ok.mp h
  have hext := ht.grows x.builder.pool
  refine ⟨⟨hx.builder.setPool (ht.tidy hx.builder.pool) hext, ⟨hx.counted.stateIds,
    hx.counted.stateCount, hx.counted.insnIds, hx.counted.insnCount⟩, fun s hs i hi => ?_, hx.taskCall,
    hx.flowCall⟩, ⟨hext, rfl, le_rfl⟩, ht.kind hx.builder.pool.toSound⟩
  exact (hx.insn s hs i hi).mono hext le_rfl

theorem add_tidy {resource : Nat} {operand : String} {inputs outputs targets : List Nat}
    (hx : x.Tidy) (hi : ∀ id, Settled x.builder.pool.resources x.builder.registers.length
      x.states.length ⟨id, resource, operand, inputs, outputs, targets⟩)
    (h : (add state resource operand inputs outputs targets).run x = .ok ((), x')) :
    x'.Tidy ∧ x.Grows x' := by
  cases run_add_eq_ok.mp h
  refine ⟨⟨hx.builder.newInsn, hx.counted.addInsn state rfl, fun s hs j hj => ?_, hx.taskCall,
    hx.flowCall⟩, .refl _, rfl, by simp⟩
  simp only [List.length_modify]
  rcases Rtl.mem_modify (f := (· ++ [_])) hs with hs | ⟨s', hs', rfl⟩
  · exact hx.insn s hs j hj
  · rcases List.mem_append.mp hj with hj | hj
    · exact hx.insn s' hs' j hj
    · rw [List.mem_singleton.mp hj]
      exact hi _

theorem copyInsns_tidy {base : Nat} {is : List Rtl.Insn} (hx : x.Tidy)
    (his : ∀ i ∈ is, Settled x.builder.pool.resources x.builder.registers.length x.states.length
      { i with targets := i.targets.map (base + ·) })
    (h : (copyInsns base state is).run x = .ok ((), x')) : x'.Tidy ∧ x.Grows x' := by
  induction is generalizing x with
  | nil =>
    cases run_pure_eq_ok.mp h
    exact ⟨hx, .refl _⟩
  | cons i rest ih =>
    simp only [copyInsns, run_bind_eq_ok] at h
    obtain ⟨_, x₁, hadd, hrest⟩ := h
    have hi := his i (by simp)
    obtain ⟨hx₁, hg₁⟩ := add_tidy hx (fun id => ⟨⟨hi.within.inputs, hi.within.outputs⟩, hi.kind,
      hi.targets⟩) hadd
    obtain ⟨hx', hg'⟩ := ih hx₁ (fun j hj => by
      rw [hg₁.registers]
      exact (his j (List.mem_cons_of_mem _ hj)).mono hg₁.pool hg₁.states) hrest
    exact ⟨hx', hg₁.trans hg'⟩

theorem assignAll_tidy {resource : Nat} {pairs : List (Nat × Nat)} (hx : x.Tidy)
    (hr : Rtl.kindAt x.builder.pool.resources resource = some "set")
    (hpairs : ∀ p ∈ pairs, p.1 < x.builder.registers.length ∧ p.2 < x.builder.registers.length)
    (h : (assignAll state resource pairs).run x = .ok ((), x')) : x'.Tidy ∧ x.Grows x' := by
  induction pairs generalizing x with
  | nil =>
    cases run_pure_eq_ok.mp h
    exact ⟨hx, .refl _⟩
  | cons p rest ih =>
    simp only [assignAll, run_bind_eq_ok] at h
    obtain ⟨_, x₁, hadd, hrest⟩ := h
    obtain ⟨hsource, htarget⟩ := hpairs p (by simp)
    obtain ⟨hx₁, hg₁⟩ := add_tidy hx (fun id => ⟨⟨by simpa using hsource, by simpa using htarget⟩,
      ⟨_, hr, by decide, fun _ => rfl⟩, by simp⟩) hadd
    obtain ⟨hx', hg'⟩ := ih hx₁ (hg₁.pool.kindAt hr) (fun q hq => by
      rw [hg₁.registers]
      exact hpairs q (List.mem_cons_of_mem _ hq)) hrest
    exact ⟨hx', hg₁.trans hg'⟩

theorem targetsOf_tidy {targets : List Nat} (hx : x.Tidy)
    (h : (targetsOf state).run x = .ok (targets, x')) :
    x'.Tidy ∧ x.Grows x' ∧ ∀ t ∈ targets, t < x.states.length := by
  simp only [targetsOf, run_bind_eq_ok, run_get_eq_ok] at h
  obtain ⟨_, _, hget, h⟩ := h
  cases hget
  split at h
  · rename_i i hi
    cases run_pure_eq_ok.mp h
    refine ⟨hx, .refl _, ?_⟩
    cases hstate : x.states[state]? with
    | none => simp [hstate, Rtl.transition?] at hi
    | some s =>
      simp only [hstate, Option.map_some, Option.getD_some] at hi
      exact (hx.insn s (List.mem_of_getElem? hstate) i (List.mem_of_find?_eq_some hi)).targets
  · simp only [run_bind_eq_ok] at h
    obtain ⟨r, x₁, hr, _, x₂, hadd, h⟩ := h
    cases run_pure_eq_ok.mp h
    obtain ⟨hx₁, hg₁, hk⟩ := resource_tidy Pool.transition_tidily hx hr
    obtain ⟨hx₂, hg₂⟩ := add_tidy hx₁ (fun id => ⟨⟨by simp, by simp⟩,
      ⟨_, hk, by decide, fun _ => rfl⟩, by simp⟩) hadd
    exact ⟨hx₂, hg₁.trans hg₂, by simp⟩

theorem setTargets_tidy {targets : List Nat} (hx : x.Tidy)
    (ht : ∀ t ∈ targets, t < x.states.length)
    (h : (setTargets state targets).run x = .ok ((), x')) : x'.Tidy ∧ x.Grows x' := by
  simp only [setTargets, run_bind_eq_ok, run_get_eq_ok] at h
  obtain ⟨_, _, hget, h⟩ := h
  cases hget
  cases run_updateInsns_eq_ok.mp h
  refine ⟨⟨hx.builder, hx.counted.modify state (Rtl.map_id_updateTransition fun _ => rfl),
    fun s hs j hj => ?_, hx.taskCall, hx.flowCall⟩, .refl _, rfl, by simp⟩
  simp only [List.length_modify]
  rcases Rtl.mem_modify hs with hs | ⟨s', hs', rfl⟩
  · exact hx.insn s hs j hj
  · rcases Lower.mem_updateTransition hj with hj | ⟨i, hi, htr, rfl⟩
    · exact hx.insn s' hs' j hj
    · obtain ⟨hwithin, ⟨kind, hk, hne, -⟩, -⟩ := hx.insn s' hs' i hi
      refine ⟨⟨hwithin.inputs, hwithin.outputs⟩, ⟨kind, hk, hne, fun hother => ?_⟩, ht⟩
      simp [Rtl.isTransition_eq hk, hother] at htr

theorem inline_tidy {call : Rtl.Insn} {callee : Context} {first last : Nat} (hx : x.Tidy)
    (hcall : call.Within x.builder.registers.length)
    (hcallee : callee.entry.Within x.builder.registers.length) (hfirst : first < x.states.length)
    (h : (inline state call callee first last).run x = .ok ((), x')) : x'.Tidy ∧ x.Grows x' := by
  simp only [inline, run_bind_eq_ok] at h
  obtain ⟨r, x₁, hr, _, x₂, hargs, _, x₃, hresults, ts, x₄, hts, own, x₅, hown, _, x₆, hback, h⟩ := h
  obtain ⟨hx₁, hg₁, hk⟩ := resource_tidy (Pool.ofKind_tidily "set") hx hr
  obtain ⟨hx₂, hg₂⟩ := assignAll_tidy hx₁ hk (fun p hp => by
    obtain ⟨hl, hr⟩ := List.of_mem_zip (a := p.1) (b := p.2) hp
    rw [hg₁.registers]
    exact ⟨hcall.inputs _ hl, hcallee.inputs _ hr⟩) hargs
  obtain ⟨hx₃, hg₃⟩ := assignAll_tidy hx₂ (hg₂.pool.kindAt hk) (fun p hp => by
    obtain ⟨hl, hr⟩ := List.of_mem_zip (a := p.1) (b := p.2) hp
    rw [hg₂.registers, hg₁.registers]
    exact ⟨hcallee.outputs _ hl, hcall.outputs _ hr⟩) hresults
  obtain ⟨hx₄, hg₄, hts⟩ := targetsOf_tidy hx₃ hts
  obtain ⟨hx₅, hg₅, hown⟩ := targetsOf_tidy hx₄ hown
  obtain ⟨hx₆, hg₆⟩ := setTargets_tidy hx₅ (fun t ht => by
    rcases List.mem_append.mp ht with ht | ht
    · exact (hown t ht).trans_le hg₅.states
    · exact ((hts t ht).trans_le hg₄.states).trans_le hg₅.states) hback
  have hg := hg₁.trans (hg₂.trans (hg₃.trans (hg₄.trans (hg₅.trans hg₆))))
  obtain ⟨hx₇, hg₇⟩ := setTargets_tidy hx₆ (fun t ht => by
    rw [List.mem_singleton.mp ht]
    exact hfirst.trans_le hg.states) h
  exact ⟨hx₇, hg.trans hg₇⟩

theorem addStates_tidy {sts : List LoweredState} (hx : x.Tidy)
    (h : (addStates sts).run x = .ok ((), x')) :
    x'.Tidy ∧ x.Grows x' ∧ x'.states.length = x.states.length + sts.length := by
  induction sts generalizing x with
  | nil =>
    cases run_pure_eq_ok.mp h
    exact ⟨hx, .refl _, rfl⟩
  | cons st rest ih =>
    simp only [addStates, run_bind_eq_ok, run_modify_eq_ok] at h
    obtain ⟨id, x₁, hid, _, x₂, hadd, h⟩ := h
    cases run_build_eq_ok.mp hid
    cases hadd
    have hlen : x.states.length ≤ (x.states ++ [(⟨x.builder.newState.1, []⟩ : Rtl.State)]).length := by
      simp
    have hnew : Tidy { x with
        builder := x.builder.newState.2
        states := x.states ++ [⟨x.builder.newState.1, []⟩] } := by
      refine ⟨hx.builder.newState, hx.counted.addState, fun s hs i hi => ?_, hx.taskCall,
        hx.flowCall⟩
      rcases List.mem_append.mp hs with hs | hs
      · exact (hx.insn s hs i hi).mono (.refl _) hlen
      · rw [List.mem_singleton.mp hs] at hi
        cases hi
    obtain ⟨hx', hg', hlen'⟩ := ih hnew h
    refine ⟨hx', ⟨hg'.pool, hg'.registers, hlen.trans hg'.states⟩, ?_⟩
    simp only [hlen', List.length_append, List.length_cons, List.length_nil]
    omega

/-- What is asked of a function that copies contexts: that it keeps the table tidy, and starts the
copy at a state of the table. -/
def CopiesTidily (p : Pool) (n : Nat) (copy : Context → Expand (Nat × Nat)) : Prop :=
  ∀ {c : Context} {x x' : Expansion} {first last : Nat}, c.Tidy p.resources n →
    p.Extends x.builder.pool → x.builder.registers.length = n → x.Tidy →
    (copy c).run x = .ok ((first, last), x') → x'.Tidy ∧ x.Grows x' ∧ first < x'.states.length

section Copy

variable {p : Pool} {copy : Context → Expand (Nat × Nat)}

theorem call_tidy {i : Rtl.Insn} {c : Callee}
    (henv : ∀ name c, env.contexts.lookup name = some c →
      c.Tidy p.resources x.builder.registers.length)
    (hcopy : CopiesTidily p x.builder.registers.length copy) (hx : x.Tidy)
    (hp : p.Extends x.builder.pool) (hi : i.Within x.builder.registers.length)
    (h : (call env copy state i c).run x = .ok ((), x')) : x'.Tidy ∧ x.Grows x' := by
  have hcalls : ∀ {calls : List TableCall}, (∀ c ∈ calls, c.Within x.builder.registers.length) →
      ∀ c' ∈ calls ++ [⟨state, i.inputs, i.outputs, c⟩], c'.Within x.builder.registers.length := by
    intro calls hold c' hc'
    rcases List.mem_append.mp hc' with hc' | hc'
    · exact hold c' hc'
    · rw [List.mem_singleton.mp hc']
      exact ⟨hi.inputs, hi.outputs⟩
  simp only [Expand.call] at h
  split at h
  · cases run_modify_eq_ok.mp h
    exact ⟨⟨hx.builder, hx.counted, hx.insn, hx.taskCall, hcalls hx.flowCall⟩, .refl _, rfl, le_rfl⟩
  · split at h
    · cases run_modify_eq_ok.mp h
      exact ⟨⟨hx.builder, hx.counted, hx.insn, hcalls hx.taskCall, hx.flowCall⟩, .refl _, rfl,
        le_rfl⟩
    · split at h
      · cases h
      · rename_i callee hcallee
        simp only [run_bind_eq_ok] at h
        obtain ⟨⟨first, last⟩, x₁, hrun, hinline⟩ := h
        obtain ⟨hx₁, hg₁, hfirst⟩ := hcopy (henv _ _ hcallee) hp rfl hx hrun
        obtain ⟨hx', hg'⟩ := inline_tidy hx₁ (hg₁.registers ▸ hi)
          (hg₁.registers ▸ (henv _ _ hcallee).entry) hfirst hinline
        exact ⟨hx', hg₁.trans hg'⟩

theorem fill_tidy {base n : Nat} {c : Context} {sts : List LoweredState}
    (henv : ∀ name c, env.contexts.lookup name = some c → c.Tidy p.resources n)
    (hcopy : CopiesTidily p n copy) (hc : c.Tidy p.resources n) (hsts : ∀ st ∈ sts, st ∈ c.states)
    (hx : x.Tidy) (hp : p.Extends x.builder.pool) (hn : x.builder.registers.length = n)
    (hbase : base + c.states.length ≤ x.states.length)
    (h : (fill env copy base state sts).run x = .ok ((), x')) : x'.Tidy ∧ x.Grows x' := by
  induction sts generalizing x state with
  | nil =>
    cases run_pure_eq_ok.mp h
    exact ⟨hx, .refl _⟩
  | cons st rest ih =>
    simp only [fill, run_bind_eq_ok, run_get_eq_ok] at h
    obtain ⟨_, _, hget, _, x₁, hinsns, h⟩ := h
    cases hget
    have hst := hsts st (by simp)
    have hcx := hc.mono hp hn.ge
    -- what is copied refers to the table as the context does to itself
    obtain ⟨hx₁, hg₁⟩ := copyInsns_tidy hx (fun i hi => by
      obtain ⟨hi, hpseudo⟩ := List.mem_filter.mp hi
      obtain ⟨kind, hk⟩ := Rtl.exists_kindAt ((hcx.orderly st hst).inside i hi)
      refine ⟨⟨(hcx.within st hst i hi).inputs, (hcx.within st hst i hi).outputs⟩, ⟨kind, hk, ?_,
        fun hother => ?_⟩, fun t ht => ?_⟩
      · rintro rfl
        simp [isPseudo_eq hk] at hpseudo
      · have hnone := (hcx.orderly st hst).others i hi (by simp [Rtl.isTransition_eq hk, hother])
        simp [hnone]
      · obtain ⟨t', ht', rfl⟩ := List.mem_map.mp ht
        have := hcx.targets st hst i hi t' ht'
        omega) hinsns
    have hn₁ : x₁.builder.registers.length = n := by rw [hg₁.registers, hn]
    have hcall : ∃ x₂, x₂.Tidy ∧ x₁.Grows x₂ ∧
        (fill env copy base (state + 1) rest).run x₂ = .ok ((), x') := by
      split at h
      · rename_i hfind
        obtain ⟨_, x₂, hcall, h⟩ := run_bind_eq_ok.mp h
        obtain ⟨hx₂, hg₂⟩ := call_tidy (hn₁.symm ▸ henv) (hn₁.symm ▸ hcopy) hx₁ (hp.trans hg₁.pool)
          (hn₁.symm ▸ hc.within st hst _ (List.mem_of_find?_eq_some hfind)) hcall
        exact ⟨x₂, hx₂, hg₂, h⟩
      · exact ⟨x₁, hx₁, .refl _, h⟩
    obtain ⟨x₂, hx₂, hg₂, h⟩ := hcall
    have hg := hg₁.trans hg₂
    obtain ⟨hx', hg'⟩ := ih (fun s hs => hsts s (List.mem_cons_of_mem _ hs)) hx₂ (hp.trans hg.pool)
      (by rw [hg.registers, hn]) (hbase.trans hg.states) h
    exact ⟨hx', hg.trans hg'⟩

theorem copy_tidy {n : Nat} (henv : ∀ name c, env.contexts.lookup name = some c →
      c.Tidy p.resources n) (depth : Nat) (stack : List MethodKey) :
    CopiesTidily p n (Expand.copy env depth stack) := by
  induction depth generalizing stack with
  | zero =>
    intro c x x' first last _ _ _ _ h
    cases h
  | succ depth ih =>
    intro c x x' first last hc hp hn hx h
    simp only [Expand.copy] at h
    split at h
    · cases h
    · split at h
      · cases h
      · simp only [run_bind_eq_ok, run_get_eq_ok] at h
        obtain ⟨_, _, hget, _, x₁, hadd, _, x₂, hfill, h⟩ := h
        cases hget
        cases run_pure_eq_ok.mp h
        obtain ⟨hx₁, hg₁, hlen⟩ := addStates_tidy hx hadd
        obtain ⟨hx₂, hg₂⟩ := fill_tidy henv (ih _) hc (fun _ hst => hst) hx₁ (hp.trans hg₁.pool)
          (by rw [hg₁.registers, hn]) hlen.ge hfill
        refine ⟨hx₂, hg₁.trans hg₂, ?_⟩
        have := hc.nonempty
        have := hg₂.states
        omega

end Copy

section Order

variable {lowered q : Pool} {κ : Copy} {k : Nat} {st : LoweredState} {insns : List Rtl.Insn}

theorem orderly_of_copied (hq : lowered.Extends q) {base : Nat} {is : List Rtl.Insn}
    (his : Rtl.Orderly lowered.resources is)
    (hcopied : insns.map (moved 0) = (is.filter (!isPseudo lowered.resources ·)).map (moved base)) :
    Rtl.Orderly q.resources insns := by
  -- whether an instruction is a transition can be told from what is copied
  let leads (x : Action × List Nat) : Bool := (q.resources[x.1.resource]?).any (·.isTransition)
  have hwas : ∀ i ∈ insns, ∃ j ∈ is, moved base j = moved 0 i := by
    intro i hi
    have hmem : moved 0 i ∈ insns.map (moved 0) := List.mem_map_of_mem hi
    rw [hcopied] at hmem
    obtain ⟨j, hj, heq⟩ := List.mem_map.mp hmem
    exact ⟨j, (List.mem_filter.mp hj).1, heq⟩
  have hq' : Rtl.Orderly q.resources is := hq.orderly his
  have hlength : ∀ {i j : Rtl.Insn}, moved base j = moved 0 i →
      i.targets.length = j.targets.length := by
    intro i j h
    simpa [moved] using congrArg (fun x => x.2.length) h.symm
  refine ⟨fun i hi => ?_, ?_, fun i hi htr => ?_, fun i hi htr => ?_⟩
  · obtain ⟨j, hj, heq⟩ := hwas i hi
    have hresource : j.resource = i.resource := congrArg (·.1.resource) heq
    exact hresource ▸ hq'.inside j hj
  · calc (insns.filter (·.isTransition q.resources)).length
        = (insns.map (moved 0)).countP leads := by
          rw [← List.countP_eq_length_filter, List.countP_map]
          rfl
      _ = (is.filter (!isPseudo lowered.resources ·)).countP (·.isTransition q.resources) := by
          rw [hcopied, List.countP_map]
          rfl
      _ ≤ is.countP (·.isTransition q.resources) := List.filter_sublist.countP_le
      _ ≤ 1 := by
          rw [List.countP_eq_length_filter]
          exact hq'.single
  · obtain ⟨j, hj, heq⟩ := hwas i hi
    have hresource : j.resource = i.resource := congrArg (·.1.resource) heq
    have hinputs : j.inputs = i.inputs := congrArg (·.1.inputs) heq
    rw [hlength heq, ← hinputs]
    exact hq'.leads j hj (by rw [Rtl.Insn.isTransition, hresource]; exact htr)
  · obtain ⟨j, hj, heq⟩ := hwas i hi
    have hresource : j.resource = i.resource := congrArg (·.1.resource) heq
    have hnone := hq'.others j hj (by rw [Rtl.Insn.isTransition, hresource]; exact htr)
    exact List.length_eq_zero_iff.mp (by rw [hlength heq, hnone]; rfl)

/-- A state of a copy is in order, whether it is copied, calls or returns. -/
theorem Fills.orderly (h : Fills env lowered.resources q.resources κ k st insns)
    (hq : lowered.Extends q) (hst : Rtl.Orderly lowered.resources st.insns)
    {registers states : Nat} (hsettled : ∀ i ∈ insns, Settled q.resources registers states i) :
    Rtl.Orderly q.resources insns := by
  have hstill : ∀ {pairs sets}, Assigns q.resources pairs sets → (∀ i ∈ sets, i ∈ insns) →
      Rtl.Still q.resources sets := by
    intro pairs sets hassigns hsub i hi
    obtain ⟨-, ⟨kind, hk, -, hothers⟩, -⟩ := hsettled i (hsub i hi)
    obtain rfl : kind = "set" := Option.some.inj (hk.symm.trans (hassigns.kind i hi))
    exact ⟨hothers (by decide), _, hk, by decide⟩
  cases h with
  | call inlined enters leads assigns =>
    exact leads.orderly.append (hstill assigns fun i hi => by simp [hi])
  | back last back empty assigns leads =>
    exact leads.orderly.prepend (hstill assigns fun i hi => by simp [hi])
  | plain inlined stays copied => exact orderly_of_copied hq hst copied

/-- Every state of an expanded table is in order. -/
theorem Adds.orderly {x₀ : Expansion} (h : Adds env lowered.resources κ x₀ x)
    (hstart : x₀.states = []) (hbase : κ.base = 0) (hlowered : lowered = x₀.builder.pool)
    {n : Nat} (hentry : κ.context.Tidy lowered.resources n)
    (henv : ∀ name c, env.contexts.lookup name = some c → c.Tidy lowered.resources n)
    (hx : x.Tidy) : ∀ s ∈ x.states, Rtl.Orderly x.builder.pool.resources s.insns := by
  intro s hs
  obtain ⟨j, hj⟩ := List.mem_iff_getElem?.mp hs
  have hlt : j < κ.extent env lowered.resources := by
    have hlt := (List.getElem?_eq_some_iff.mp hj).1
    rwa [h.length, hstart, List.length_nil, Nat.zero_add] at hlt
  obtain ⟨chain, κ', k, hchain, hk, hat⟩ := Copy.exists_descend hlt
  rw [hbase, Nat.zero_add] at hat
  obtain ⟨s', hs', hfills⟩ := (h.filled chain hchain).states (List.getElem?_eq_getElem hk)
  rw [← hat, hj] at hs'
  cases hs'
  have hcontext : κ'.context.Tidy lowered.resources n := by
    rcases Copy.descend_context hchain with heq | ⟨name, hname⟩
    · rw [heq]
      exact hentry
    · exact henv name _ hname
  exact hfills.orderly (hlowered ▸ h.builder.pool)
    (hcontext.orderly _ (List.getElem_mem hk)) fun i hi => hx.insn s hs i hi

end Order
end Expand
end Synth
end MachineSynth
