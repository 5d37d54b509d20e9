import Mathlib
import MachineSynth.Proofs.Expansion.Recording
import MachineSynth.Proofs.Onward

/-! Outgoing calls: a table records the calls that the copies of its methods make into other tables,
one for each copy of a state that calls, and no others. -/
namespace MachineSynth
namespace Synth

open Expand (Copy isPseudo)

namespace ThreadTable

def expansion (t : ThreadTable) : Expansion := ⟨t.builder, t.states, t.taskCalls, t.flowCalls⟩

/-- Whether some state of a table is a copy of one that makes a call. -/
def Makes (m : Machine) (owners : OwnershipTable) (limit : Nat) (id : ThreadId)
    (table : ThreadTable) (call : TableCall) : Prop :=
  ∃ lowered entry chain κ k st i,
    lowerAll m owners id table.plan table.plan.methods (.ofPool table.plan.pool) =
      .ok (table.contexts, lowered) ∧
    table.contexts.lookup table.plan.entry = some entry ∧
    Copy.descend ⟨m, table.contexts, limit⟩ lowered.pool.resources chain
      ⟨0, table.contexts.length + 1, entry, none⟩ = some κ ∧
    κ.context.states[k]? = some st ∧ st.callee = some call.callee ∧
    st.insns.find? (isPseudo lowered.pool.resources) = some i ∧
    call = ⟨κ.base + k, i.inputs, i.outputs, call.callee⟩

variable {m : Machine} {owners : OwnershipTable} {limit : Nat} {id : ThreadId} {t : ThreadPlan}
  {table : ThreadTable} {call : TableCall}

/-- The copies that a table is made of: each state is filled, and the calls that it leaves are
recorded. -/
theorem build_records (hpool : t.pool.Sound) (h : build m owners limit id t = .ok table) :
    ∃ lowered entry, lowerAll m owners id t t.methods (.ofPool t.pool) =
        .ok (table.contexts, lowered) ∧ table.contexts.lookup t.entry = some entry ∧
      Expand.Records ⟨m, table.contexts, limit⟩ lowered.pool.resources
        ⟨0, table.contexts.length + 1, entry, none⟩ ⟨lowered, [], [], []⟩ table.expansion ∧
      Expand.Adds ⟨m, table.contexts, limit⟩ lowered.pool.resources
        ⟨0, table.contexts.length + 1, entry, none⟩ ⟨lowered, [], [], []⟩ table.expansion := by
  obtain ⟨lowered, entry, first, last, x, hlower, hentry, hcopy, htable⟩ := build_eq_ok h
  have hx : table.expansion = x := by rw [htable]; rfl
  have henv : Expand.Env.Lowered ⟨m, table.contexts, limit⟩ lowered.pool.resources entry.key :=
    lowered_of_lowerAll hpool hlower hentry
  have hshaped : ∀ name c, table.contexts.lookup name = some c →
      ∃ closes, Shaped lowered.pool.resources closes c.states :=
    fun name c hc => (henv name c hc).imp fun _ h => h.1
  obtain ⟨closes, hshape⟩ := hshaped _ _ hentry
  have hall : Expand.RecordsAll ⟨m, table.contexts, limit⟩ lowered.pool (table.contexts.length + 1)
      (Expand.copy ⟨m, table.contexts, limit⟩ (table.contexts.length + 1) []) :=
    Expand.copy_records hshaped _ []
  obtain ⟨rfl, hrecords⟩ := hall (fun flow call hcall => by cases flow <;> cases hcall) (.refl _)
    hshape hcopy
  exact ⟨lowered, entry, hlower, hentry, hx ▸ hrecords none,
    hx ▸ copy_adds hpool hlower hentry hcopy⟩

theorem Makes.callsAt (hpool : t.pool.Sound) (h : build m owners limit id t = .ok table)
    (hmakes : table.Makes m owners limit id call) (hleft : call.callee.isLeft m = true)
    (flow : Bool) : table.expansion.callsAt flow call.state =
      if call.callee.isFlow m = flow then [call] else [] := by
  obtain ⟨lowered, entry, hlower, hentry, hrecords, -⟩ := build_records hpool h
  have hplan : table.plan = t := plan_of_build h
  obtain ⟨lowered', entry', chain, κ, k, st, i, hlower', hentry', hchain, hst, hcallee, hfind,
    hcall⟩ := hmakes
  rw [hplan] at hlower' hentry'
  cases hlower.symm.trans hlower'
  cases hentry.symm.trans hentry'
  obtain ⟨-, hat⟩ := hrecords.left hchain k st hst
  have hstate : call.state = κ.base + k := congrArg TableCall.state hcall
  rw [hstate, hat flow, Expand.leftAt, hcallee, hfind]
  simp only [hleft, Bool.true_and, beq_iff_eq, ← hcall]

theorem makes_of_mem (hpool : t.pool.Sound) (h : build m owners limit id t = .ok table) (flow : Bool)
    (hcall : call ∈ table.expansion.calls flow) :
    table.Makes m owners limit id call ∧ call.callee.isLeft m = true ∧
      call.callee.isFlow m = flow := by
  obtain ⟨lowered, entry, hlower, hentry, hrecords, hadds⟩ := build_records hpool h
  have hplan : table.plan = t := plan_of_build h
  have hlt := hrecords.placed flow call hcall
  have hextent := hadds.length
  rw [List.length_nil, Nat.zero_add] at hextent
  obtain ⟨chain, κ, k, hchain, hk, hat⟩ := Copy.exists_descend (hextent ▸ hlt)
  replace hat : call.state = κ.base + k := by simpa using hat
  obtain ⟨st, hst⟩ : ∃ st, κ.context.states[k]? = some st := ⟨_, List.getElem?_eq_getElem hk⟩
  have hmem : call ∈ table.expansion.callsAt flow (κ.base + k) :=
    List.mem_filter.mpr ⟨hcall, decide_eq_true hat⟩
  rw [(hrecords.left hchain k st hst).2 flow, Expand.leftAt] at hmem
  split at hmem
  · rename_i c i hcallee hfind
    split at hmem
    · rename_i hleft
      obtain rfl := List.mem_singleton.mp hmem
      obtain ⟨hleft, hflow⟩ := Bool.and_eq_true_iff.mp hleft
      refine ⟨⟨lowered, entry, chain, κ, k, st, i, ?_, ?_, hchain, hst, hcallee, hfind, rfl⟩, hleft,
        beq_iff_eq.mp hflow⟩
      · rw [hplan]
        exact hlower
      · rw [hplan]
        exact hentry
    · cases hmem
  · cases hmem

/-- A state that makes a call that is left holds nothing yet but the way to the next state. -/
theorem Makes.state (hpool : t.pool.Sound) (h : build m owners limit id t = .ok table)
    (hmakes : table.Makes m owners limit id call) (hleft : call.callee.isLeft m = true) :
    ∃ s i, table.states[call.state]? = some s ∧ s.insns = [i] ∧
      Leads table.resources [call.state + 1] i := by
  obtain ⟨lowered, entry, hlower, hentry, -, hadds⟩ := build_records hpool h
  have hplan : table.plan = t := plan_of_build h
  obtain ⟨lowered', entry', chain, κ, k, st, p, hlower', hentry', hchain, hst, hcallee, hfind,
    hcall⟩ := hmakes
  rw [hplan] at hlower' hentry'
  cases hlower.symm.trans hlower'
  cases hentry.symm.trans hentry'
  have hstate : call.state = κ.base + k := congrArg TableCall.state hcall
  have hfilled := hadds.filled chain hchain
  obtain ⟨closes, hshaped⟩ := hfilled.shaped
  obtain ⟨⟨n, insns⟩, hs, hfills⟩ := hfilled.states hst
  cases hfills with
  | call inlined =>
    have hnone : Expand.leftAt ⟨m, table.contexts, limit⟩ lowered.pool.resources
        (call.callee.isFlow m) call.state st = [] := Expand.leftAt_of_inlined inlined
    simp [Expand.leftAt, hcallee, hfind, hleft] at hnone
  | back _ _ empty =>
    obtain ⟨_, rfl⟩ := empty
    cases hcallee
  | plain _ _ copied =>
    obtain ⟨j, hj, hfilter⟩ := Expand.insns_of_callee hshaped hst (by simp [hcallee])
    rw [hfilter, List.map_singleton, List.map_eq_singleton_iff] at copied
    obtain ⟨i, rfl, hmoved⟩ := copied
    simp only [Expand.moved, Prod.mk.injEq, zero_add, List.map_id'] at hmoved
    obtain ⟨haction, htargets⟩ := hmoved
    have hext := hadds.builder.pool
    refine ⟨⟨n, [i]⟩, i, hstate ▸ hs, rfl, ?_, ?_, ?_⟩
    · have hsame : i.resource = j.resource := congrArg Action.resource haction
      rw [hsame]
      exact hext.kindAt hj.kind
    · exact (congrArg Action.inputs haction).trans hj.inputs
    · rw [htargets, hj.targets, hstate, List.map_singleton, Nat.add_assoc]

end ThreadTable
end Synth
end MachineSynth
