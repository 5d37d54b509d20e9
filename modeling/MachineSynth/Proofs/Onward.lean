import Mathlib
import MachineSynth.Proofs.Lowering.Charts
import MachineSynth.Proofs.Wellformedness

/-! Onward: every state of a table leads to some state, but the last one of the entry, which leads
back to the initial state if the thread starts over, and nowhere else. The copy of a callee takes
the way on from the state that calls, so that no copy ends dead however deeply it is nested. -/
namespace MachineSynth

/-- The states that a state with some instructions leads to. -/
def Rtl.successors (insns : List Insn) : List Nat := insns.flatMap (·.targets)

@[simp] theorem Rtl.successors_append (is js : List Insn) :
    successors (is ++ js) = successors is ++ successors js := List.flatMap_append

@[simp] theorem Rtl.successors_cons (i : Insn) (is : List Insn) :
    successors (i :: is) = i.targets ++ successors is := List.flatMap_cons

@[simp] theorem Rtl.successors_nil : successors [] = [] := rfl

namespace Synth

open Rtl (kindAt successors)

/-- Where the states of a lowered method lead: each but the last to some state, the last one to the
first if the method closes its loop, and else nowhere. Only transitions lead on. -/
structure Onward (resources : List Rtl.Resource) (closes : Bool) (states : List LoweredState) :
    Prop where
  next : ∀ {k : Nat} {st : LoweredState}, states[k]? = some st → k + 1 ≠ states.length →
    successors st.insns ≠ []
  last : ∀ {k : Nat} {st : LoweredState}, states[k]? = some st → k + 1 = states.length →
    successors st.insns = if closes then [0] else []
  others : ∀ st ∈ states, ∀ i ∈ st.insns, i.targets = [] ∨
    kindAt resources i.resource = some Rtl.Resource.transitionKind

theorem Onward.mono {p q : Pool} (hpq : p.Extends q) {closes : Bool} {states : List LoweredState}
    (h : Onward p.resources closes states) : Onward q.resources closes states :=
  ⟨h.next, h.last, fun st hst i hi => (h.others st hst i hi).imp_right hpq.kindAt⟩

namespace LoweredState

variable {resources : List Rtl.Resource} {starts : List Nat} {closes : Bool} {n i : Nat}
  {st st' : LoweredState}

/-- Every state but the last is given a way on. -/
theorem Routed.successors_ne_nil (h : Routed resources starts closes n i st st')
    (hlt : i + 1 ≠ n) : successors st'.insns ≠ [] := by
  cases h with
  | jump lt jumps =>
    cases jumps with
    | goto id target start leads => simp [leads.targets]
    | branch id cond target start kind => simp
  | next lt none idle leads => simp [leads.targets]
  | last eq => exact absurd eq hlt
  | close eq => exact absurd eq hlt

theorem Routed.transitions (h : Routed resources starts closes n i st st')
    (ht : ∀ k ∈ st.insns, k.targets = []) : ∀ k ∈ st'.insns, k.targets = [] ∨
      kindAt resources k.resource = some Rtl.Resource.transitionKind := by
  intro k hk
  cases h with
  | jump lt jumps =>
    cases jumps with
    | goto id target start leads =>
      rw [List.mem_singleton.mp hk]
      exact .inr leads.kind
    | branch id cond target start kind =>
      rw [List.mem_singleton.mp hk]
      exact .inr kind
  | next lt none idle leads =>
    rcases List.mem_append.mp hk with hk | hk
    · exact .inl (ht k hk)
    · rw [List.mem_singleton.mp hk]
      exact .inr leads.kind
  | last => exact .inl (ht k hk)
  | close eq none idle back works leads =>
    simp only [List.append_assoc, List.mem_append, List.mem_singleton] at hk
    rcases hk with hk | hk | rfl
    · exact .inl (ht k hk)
    · exact .inl (works k hk).1
    · exact .inr leads.kind

end LoweredState

theorem Lowering.Linked.onward {starts : List Nat} {closes : Bool} {l l' : Lowering}
    (h : Linked starts closes l l') (hl : l.Sound) :
    Onward l'.builder.pool.resources closes l'.states := by
  have hraw : ∀ {k st'}, l'.states[k]? = some st' → ∃ st, (∀ i ∈ st.insns, i.targets = []) ∧
      LoweredState.Routed l'.builder.pool.resources starts closes l.states.length k st st' := by
    intro k st' hk
    have hlt := (List.getElem?_eq_some_iff.mp hk).1
    obtain ⟨st'', hst'', hrouted⟩ := h.state (List.getElem?_eq_getElem (h.length ▸ hlt))
    cases hk.symm.trans hst''
    exact ⟨_, (hl.states _ (List.getElem_mem _)).targets, hrouted⟩
  refine ⟨fun {k st} hk hne => ?_, fun {k st} hk heq => ?_, fun st hst => ?_⟩
  · obtain ⟨raw, -, hrouted⟩ := hraw hk
    exact hrouted.successors_ne_nil (h.length ▸ hne)
  · obtain ⟨raw, ht, hrouted⟩ := hraw hk
    exact (hrouted.leadsTo_last ht (h.length ▸ heq)).only
  · obtain ⟨k, hk⟩ := List.mem_iff_getElem?.mp hst
    obtain ⟨raw, ht, hrouted⟩ := hraw hk
    exact hrouted.transitions ht

/-- However a method is lowered, its states lead on. -/
theorem Site.lower_onward {m : Machine} {owners : OwnershipTable} {thread : ThreadId}
    {object : Nat} {slot : String} {role : Role} {b b' : Builder} {c : Context} (hb : b.Sound)
    (h : lower m owners thread object slot role b = .ok (c, b')) :
    Onward b'.pool.resources (c.closes role) c.states := by
  obtain ⟨o, f, e, l, -, -, -, hc, rfl, hcases⟩ := lower_cases h
  have hstates : c.states = l.states := by rw [hc]
  rw [hstates]
  have hpushed : ∀ {l : Lowering}, l.Sound → (Lower.pushed l).Sound := fun hl =>
    (Lower.pushed_step (u := .none) hl).sound
  rcases hcases with ⟨himported, hrun⟩ | ⟨-, hport, hrun⟩ | ⟨-, himported, hport, hrun⟩
  · obtain ⟨l₁, l₂, -, q, hlinked⟩ :=
      Lower.imported_spec (u := .none) (start_sound hb object) rfl hrun
    simpa [Context.closes, himported] using hlinked.onward (hpushed q.sound)
  · obtain ⟨l₁, l₂, -, q, hlinked⟩ := Lower.port_spec (u := .all) (start_sound hb object) rfl trivial hrun
    simpa [Context.closes, hport] using hlinked.onward (hpushed q.sound)
  · obtain ⟨l₁, l₂, l₃, starts, -, -, -, q, hcode, hlinked⟩ :=
      Lower.body_spec (u := .none) (start_sound hb object) hrun
    have hl₃ := (Lower.code_spec q.sound hcode).1.sound
    simpa [Context.closes, himported, hport] using hlinked.onward (hpushed hl₃)

theorem Site.closes_iff {m : Machine} {owners : OwnershipTable} {thread : ThreadId} {object : Nat}
    {slot : String} {role : Role} {b b' : Builder} {c : Context}
    (h : lower m owners thread object slot role b = .ok (c, b')) :
    ∃ f, Walker.calledMethod? m (some object) slot = some f ∧ (c.closes role = true ↔
      (f.isNative = false ∧ f.isImported = false ∧ f.marks.isPort = false) ∧ role ≠ .inner) := by
  obtain ⟨o, f, -, -, ho, hf, himpl, -⟩ := lower_cases h
  refine ⟨f, by simp [Walker.calledMethod?, ho, hf], ?_⟩
  cases hnative : f.isNative with
  | true =>
    -- what runs instead of a native method is imported
    have himported : c.method.isImported = true := by
      simp only [implementation?, hnative, if_true, Option.filter_eq_some_iff] at himpl
      exact himpl.2
    simp [Context.closes, himported]
  | false =>
    simp only [implementation?, hnative, Bool.false_eq_true, if_false, Option.some.injEq] at himpl
    simp [Context.closes, himpl]

namespace Expand

variable {env : Env} {lowered resources : List Rtl.Resource} {κ κ' : Copy}

theorem successors_of_moved {base : Nat} {insns copied : List Rtl.Insn}
    (h : copied.map (moved 0) = insns.map (moved base)) :
    successors copied = (successors insns).map (base + ·) := by
  have htargets := congrArg (List.map Prod.snd) h
  simp only [List.map_map, Function.comp_def, moved, zero_add, List.map_id'] at htargets
  rw [successors, successors, List.map_flatMap, List.flatMap_def, List.flatMap_def, htargets]

/-- Placeholders, which are not copied, lead nowhere. -/
theorem successors_filter_isPseudo {insns : List Rtl.Insn} (h : ∀ i ∈ insns, i.targets = [] ∨
    kindAt lowered i.resource = some Rtl.Resource.transitionKind) :
    successors (insns.filter (!isPseudo lowered ·)) = successors insns := by
  induction insns with
  | nil => rfl
  | cons i rest ih =>
    have hrest := ih fun j hj => h j (List.mem_cons_of_mem _ hj)
    rw [List.filter_cons]
    split
    · rw [Rtl.successors_cons, Rtl.successors_cons, hrest]
    · rename_i hpseudo
      have htargets : i.targets = [] := by
        refine (h i List.mem_cons_self).resolve_right fun hkind => hpseudo ?_
        rw [isPseudo_eq hkind]
        decide
      rw [Rtl.successors_cons, htargets, List.nil_append, hrest]

theorem Copy.back_of_descend {k : Nat} {chain : List Nat}
    (h : κ.descend env resources (k :: chain) = some κ') : κ'.back ≠ none := by
  induction chain generalizing κ k with
  | nil =>
    obtain ⟨κ₁, hk, hrest⟩ := Option.bind_eq_some_iff.mp h
    cases Option.some.inj hrest
    obtain ⟨_, _, _, _, _, _, _, rfl⟩ := enter_eq_some hk
    simp
  | cons j chain ih =>
    obtain ⟨κ₁, -, hrest⟩ := Option.bind_eq_some_iff.mp h
    exact ih hrest

/-- The states of a copy lead on as those of its method; the last state of a callee leads back. -/
theorem Fills.successors_ne_nil {closes : Bool} {k : Nat} {st : LoweredState}
    {insns : List Rtl.Insn} (h : Fills env lowered resources κ k st insns)
    (honward : Onward lowered closes κ.context.states) (hst : κ.context.states[k]? = some st)
    (hne : k + 1 = κ.context.states.length → κ.back ≠ none) : successors insns ≠ [] := by
  cases h with
  | call inlined enters leads assigns => simp [leads.targets]
  | back last back empty assigns leads => simp [leads.targets]
  | plain inlined stays copied =>
    have hlt : k + 1 ≠ κ.context.states.length := fun heq => hne heq (stays heq)
    rw [successors_of_moved copied,
      successors_filter_isPseudo (honward.others st (List.mem_of_getElem? hst))]
    simpa using honward.next hst hlt

theorem Fills.successors_last {p : Pool} {closes : Bool} {k : Nat} {st : LoweredState}
    {insns : List Rtl.Insn} (h : Fills env p.resources resources κ k st insns)
    (hshaped : Shaped p.resources closes κ.context.states)
    (honward : Onward p.resources closes κ.context.states) (hst : κ.context.states[k]? = some st)
    (hlast : k + 1 = κ.context.states.length) (hbase : κ.base = 0) (hback : κ.back = none) :
    successors insns = if closes then [0] else [] := by
  cases h with
  | call inlined =>
    -- a call goes on to the next state, and there is none
    have hmem := List.mem_of_getElem? hst
    obtain ⟨j, hj, hfilter⟩ := insns_of_inlined hshaped hst inlined
    have hj' : j ∈ st.insns := List.mem_of_mem_filter (hfilter ▸ List.mem_singleton_self j)
    have := hshaped.targets st hmem j hj' (k + 1) (by simp [hj.targets])
    omega
  | back _ back => cases hback.symm.trans back
  | plain inlined stays copied =>
    rw [successors_of_moved copied, hbase,
      successors_filter_isPseudo (honward.others st (List.mem_of_getElem? hst)),
      honward.last hst hlast]
    simp

end Expand

namespace ThreadTable

variable {m : Machine} {owners : OwnershipTable} {limit : Nat} {id : ThreadId} {t : ThreadPlan}

/-- A thread waits to be started if it is a task, or if its entry is started by data or from
outside. -/
theorem entryRole_ne_inner {f : Method}
    (hf : Walker.calledMethod? m (some t.object) t.entry = some f) :
    entryRole m t ≠ .inner ↔
      t.isTask = true ∨ f.marks.dataFlowEntry = true ∨ f.marks.extEntry = true := by
  simp only [entryRole, hf, Option.any_some, Plan.isEntry, Bool.or_eq_true]
  split
  · simp [*]
  · split <;> simp_all

/-- Where each state of a table leads, in their order. -/
def successors (t : ThreadTable) : List (List Nat) := t.states.map (Rtl.successors ·.insns)

/-- The methods of a thread lead on, and only its entry may lead back to its first state. -/
theorem onward_of_lowerAll {names : List String} {b b' : Builder} {cs : List (String × Context)}
    (hb : b.Sound) (h : lowerAll m owners id t names b = .ok (cs, b')) {name : String}
    {c : Context} (hc : cs.lookup name = some c) :
    Onward b'.pool.resources (c.closes (roleOf m t name)) c.states := by
  obtain ⟨-, -, -, hall⟩ := lowerAll_spec hb h
  obtain ⟨-, b₁, b₂, hb₁, -, hlower, hext⟩ := hall name c (mem_of_lookup hc)
  exact (Site.lower_onward hb₁ hlower).mono hext.pool

/-- In the table that is built for a thread only the last state of the entry may lead nowhere. -/
theorem build_onward {built : ThreadTable} (hpool : t.pool.Sound)
    (h : build m owners limit id t = .ok built) :
    ∃ b b' entry, built.contexts.lookup t.entry = some entry ∧
      Site.lower m owners id t.object t.entry (entryRole m t) b = .ok (entry, b') ∧
      (∀ (j : Nat) (targets : List Nat), built.successors[j]? = some targets →
        j + 1 ≠ entry.states.length → targets ≠ []) ∧
      built.successors[entry.states.length - 1]? =
        some (if entry.closes (entryRole m t) then [0] else []) := by
  obtain ⟨b, entry, x, hlower, hentry, hadds, -, htable⟩ := build_spec hpool h
  have hb := Builder.sound_ofPool hpool
  obtain ⟨-, -, -, hall⟩ := lowerAll_spec hb hlower
  obtain ⟨-, b₁, b₂, hb₁, -, hlower', hext⟩ := hall t.entry entry (mem_of_lookup hentry)
  have hrole : roleOf m t t.entry = entryRole m t := if_pos rfl
  rw [hrole] at hlower'
  have honward : Onward b.pool.resources (entry.closes (entryRole m t)) entry.states :=
    (Site.lower_onward hb₁ hlower').mono hext.pool
  have hshaped : Shaped b.pool.resources (entry.closes (entryRole m t)) entry.states :=
    (Site.lower_spec hb₁ hlower').2.2.2.2.mono hext.pool
  have hstates : built.states = x.states := by rw [htable]
  have hlength : x.states.length = Expand.Copy.extent ⟨m, built.contexts, limit⟩ b.pool.resources
      ⟨0, built.contexts.length + 1, entry, none⟩ := by simpa using hadds.length
  refine ⟨b₁, b₂, entry, hentry, hlower', fun j targets hj hne => ?_, ?_⟩
  · obtain ⟨s, hs, rfl⟩ : ∃ s, x.states[j]? = some s ∧ Rtl.successors s.insns = targets := by
      simpa [successors, hstates] using hj
    have hlt := (List.getElem?_eq_some_iff.mp hs).1
    obtain ⟨chain, κ, k, hchain, hk, hjk⟩ := Expand.Copy.exists_descend (hlength ▸ hlt)
    obtain ⟨st, hst⟩ : ∃ st, κ.context.states[k]? = some st :=
      ⟨_, List.getElem?_eq_getElem hk⟩
    obtain ⟨s', hs', hfills⟩ := (hadds.filled chain hchain).states hst
    replace hjk : j = κ.base + k := by simpa using hjk
    rw [← hjk] at hs'
    cases hs.symm.trans hs'
    -- every copy but that of the entry leads back to a caller
    cases chain with
    | nil =>
      cases Option.some.inj hchain
      refine hfills.successors_ne_nil honward hst fun heq => absurd heq ?_
      simpa [hjk] using hne
    | cons c chain =>
      have hback := Expand.Copy.back_of_descend hchain
      rcases Expand.Copy.descend_context hchain with hcontext | ⟨name, hname⟩
      · rw [← show κ.context = entry from hcontext] at honward
        exact hfills.successors_ne_nil honward hst fun _ => hback
      · exact hfills.successors_ne_nil (onward_of_lowerAll hb hlower hname) hst fun _ => hback
  · have hlt : entry.states.length - 1 < entry.states.length := by
      have := hshaped.nonempty
      omega
    obtain ⟨s, hs, hfills⟩ := (hadds.filled [] rfl).states (List.getElem?_eq_getElem hlt)
    rw [Nat.zero_add] at hs
    have hlast := hfills.successors_last hshaped honward (List.getElem?_eq_getElem hlt)
      (Nat.sub_add_cancel hshaped.nonempty) rfl rfl
    simp [successors, hstates, hs, hlast]

section Wiring

variable {plan : Plan} {tables : List ThreadTable} {a a' callee : ThreadTable} {call : TableCall}

/-- The instructions of calls into other tables lead nowhere in their own. -/
theorem addInsn_successors (a : ThreadTable) (state resource : Nat) (operand : String)
    (inputs outputs : List Nat) :
    (a.addInsn state resource operand inputs outputs).successors = a.successors := by
  refine List.ext_getElem? fun j => ?_
  simp only [successors, addInsn, List.getElem?_map, List.getElem?_modify]
  cases a.states[j]? with
  | none => rfl
  | some s => split <;> simp

theorem callTask_successors (h : callTask m a call callee = .ok a') :
    a'.successors = a.successors := by
  simp only [callTask] at h
  split at h
  · cases h
    exact addInsn_successors _ _ _ _ _ _
  · split at h
    · cases h
    · split at h
      · cases h
        exact addInsn_successors _ _ _ _ _ _
      · cases h
        exact (addInsn_successors _ _ _ _ _ _).trans (addInsn_successors _ _ _ _ _ _)

theorem callDataFlow_successors (h : callDataFlow m a call callee = .ok a') :
    a'.successors = a.successors := by
  unfold callDataFlow at h
  split at h
  · split at h
    · cases h
    · simp only at h
      split at h <;> cases h <;> exact addInsn_successors _ _ _ _ _ _
  · cases h

/-- Wiring leads no state elsewhere. -/
theorem wire_successors (h : wire m plan tables a = .ok a') : a'.successors = a.successors :=
  wire_rel (R := fun a a' => a'.successors = a.successors) (fun _ => rfl)
    (fun _ _ _ hab hbc => hbc.trans hab)
    (fun _ _ _ _ h => (wireTask_eq_ok h).elim fun _ h => callTask_successors h.2)
    (fun _ _ _ _ h => (wireDataFlow_eq_ok h).elim fun _ h => callDataFlow_successors h.2) h

end Wiring

end ThreadTable

namespace Synthesis

variable {m : Machine} {root : Nat} {s : Synthesis}

/-- No copy ends dead. In the table of every thread each state leads to some state, but the last
one of the entry. That one leads to the initial state and nowhere else if the entry has a compiled
body and waits to be started, as a task, by data or from outside; otherwise it leads nowhere. -/
theorem synthesized_onward {depth : Nat} (h : synthesize m root depth = .ok s) {k : Nat}
    {t : ThreadPlan} (ht : s.plan.threads[k]? = some t) :
    ∃ w f entry table last, s.tables[k]? = some w ∧ w.plan = t ∧
      Walker.calledMethod? m (some t.object) t.entry = some f ∧
      w.contexts.lookup t.entry = some entry ∧ s.design.table? t.place = some table ∧
      table.initial = some 0 ∧
      (∀ (j : Nat) (state : Rtl.State), table.states[j]? = some state →
        j + 1 ≠ entry.states.length → Rtl.successors state.insns ≠ []) ∧
      table.states[entry.states.length - 1]? = some last ∧
      (Rtl.successors last.insns = [0] ∨ Rtl.successors last.insns = []) ∧
      (Rtl.successors last.insns = [0] ↔
        (f.isNative = false ∧ f.isImported = false ∧ f.marks.isPort = false) ∧
        (t.isTask = true ∨ f.marks.dataFlowEntry = true ∨ f.marks.extEntry = true)) := by
  obtain ⟨owners, limit, built, ps, h⟩ := staged_of_ok h
  obtain ⟨b, w, -, hw, hbuild, -, hplan, hgrows, hwire⟩ := h.thread ht
  have hpool := ((Plan.ofRoot_spec h.plan).1.threads t (List.mem_of_getElem? ht)).pool
  obtain ⟨_, _, entry, hentry, hlower, hnext, hlast⟩ := ThreadTable.build_onward hpool hbuild
  obtain ⟨f, hf, hcloses⟩ := Site.closes_iff hlower
  obtain ⟨table, htable, hstripped⟩ := h.table?_design (List.mem_of_getElem? hw)
  obtain ⟨-, hstates, hinitial⟩ := Rtl.Table.eq_of_stripped hstripped
  -- linking gives parents to resources only
  have hsuccessors : w.successors = b.successors :=
    (ThreadTable.wire_successors hwire).trans rfl
  rw [← hsuccessors] at hnext hlast
  obtain ⟨last, hat, hleads⟩ : ∃ last, w.states[entry.states.length - 1]? = some last ∧
      Rtl.successors last.insns = if entry.closes (ThreadTable.entryRole m t) then [0] else [] := by
    simpa [ThreadTable.successors] using hlast
  have hne := (h.tidy (List.mem_of_getElem? hw)).1.nonempty
  refine ⟨w, f, entry, table, last, hw, hplan, hf, hgrows.contexts.symm ▸ hentry, hplan ▸ htable,
    ?_, fun j state hj => ?_, ?_, ?_, ?_⟩
  · rw [hinitial]
    exact if_neg (by simpa using hne)
  · rw [hstates] at hj
    exact hnext j _ (by rw [ThreadTable.successors, List.getElem?_map]; exact congrArg _ hj)
  · rw [hstates]
    exact hat
  · rw [hleads]
    split <;> simp
  · rw [hleads, ← ThreadTable.entryRole_ne_inner hf, ← hcloses]
    split <;> simp_all

/-- A task starts over once it has handed its results back. -/
theorem mixedCalls_onward : ∃ s w f entry table last, synthesize mixedCalls 0 0 = .ok s ∧
    s.tables[2]? = some w ∧ w.contexts.lookup "f" = some entry ∧
    Walker.calledMethod? mixedCalls (some 1) "f" = some f ∧
    s.design.table? w.plan.place = some table ∧
    table.states[entry.states.length - 1]? = some last ∧ Rtl.successors last.insns = [0] := by
  have h : (synthesize mixedCalls 0 0).toOption.any (fun s =>
      (s.plan.threads[2]?).any fun t => decide (t.object = 1 ∧ t.entry = "f" ∧ t.isTask = true)) =
        true := by decide +kernel
  obtain ⟨s, hs, h⟩ := exists_ok_of_any h
  obtain ⟨t, ht, h⟩ := (Option.any_eq_true _ _).mp h
  obtain ⟨hobject, hentry, htask⟩ := of_decide_eq_true h
  obtain ⟨w, f, entry, table, last, hw, rfl, hf, hcontext, htable, -, -, hlast, -, hleads⟩ :=
    synthesized_onward hs ht
  rw [hobject, hentry] at hf
  rw [hentry] at hcontext
  refine ⟨s, w, f, entry, table, last, hs, hw, hcontext, hf, htable, hlast,
    hleads.mpr ⟨?_, .inl htask⟩⟩
  cases hf
  decide

end Synthesis
end Synth
end MachineSynth
