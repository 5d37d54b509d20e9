import Mathlib
import MachineSynth.Proofs.Interpretation
import MachineSynth.Proofs.Threads

/-! Inlining preserves meaning: an expanded table goes along with the methods of its thread, run with
an explicit stack of calls. Each chain of calls has states of its own in the table. -/
namespace MachineSynth
namespace Synth

open Rtl (kindAt)
open Expand (Copy Env inlined?)

/-- A method that is being run, and the state it is in. -/
structure Frame where
  context : Context
  state : Nat

/-- Registers after others were copied to them, as they were on entry. -/
def assigned {V : Type} (pairs : List (Nat × Nat)) (σ τ : Store V) : Store V :=
  pairs.foldl (fun τ p => Function.update τ p.2 (σ p.1)) τ

namespace Meaning

variable {V : Type} (M : Meaning V)

/-- Whether units that assign are read as copying a register to another. -/
def Copies (resources : List Rtl.Resource) : Prop :=
  ∀ (as : List Action) (r source target : Nat) (σ : Store V), kindAt resources r = some "set" →
    M.effect (as ++ [⟨r, "", [source], [target]⟩]) σ =
      Function.update (M.effect as σ) target (σ source)

/-- One step of the methods of a thread. The stack holds the method that runs, then those that wait
for it, each in the state of its call. -/
def callStep (env : Env) (resources : List Rtl.Resource) :
    List Frame × Store V → Option (List Frame × Store V)
  | ([], _) => none
  | (f :: callers, σ) =>
    (f.context.states[f.state]?).bind fun st =>
      let τ := M.effect (actions resources st.insns) σ
      match inlined? env resources st with
      | some (i, callee) =>
        some (⟨callee, 0⟩ :: f :: callers, assigned (i.inputs.zip callee.entry.inputs) σ τ)
      | none =>
        match callers, decide (f.state + 1 = f.context.states.length) with
        | caller :: rest, true =>
          (caller.context.states[caller.state]?).bind fun call =>
            (inlined? env resources call).bind fun x =>
              (M.next? resources call.insns σ).map fun next =>
                (⟨caller.context, next⟩ :: rest,
                  assigned (f.context.entry.outputs.zip x.1.outputs) σ τ)
        | _, _ => (M.next? resources st.insns σ).map fun next =>
            (⟨f.context, next⟩ :: callers, τ)

variable {M}

theorem Copies.assigned {resources : List Rtl.Resource} (hM : M.Copies resources)
    {pairs : List (Nat × Nat)} {r : Nat} (hr : kindAt resources r = some "set") (as : List Action)
    (σ : Store V) :
    M.effect (as ++ pairs.map fun p => ⟨r, "", [p.1], [p.2]⟩) σ =
      assigned pairs σ (M.effect as σ) := by
  induction pairs generalizing as with
  | nil => simp [Synth.assigned]
  | cons p rest ih =>
    rw [List.map_cons, List.append_cons, ih, hM as r p.1 p.2 σ hr]
    rfl

end Meaning

theorem Interpretation.copies {V : Type} (I : Interpretation V) (resources : List Rtl.Resource) :
    (I.meaning resources).Copies resources := by
  intro as r source target σ hr
  simp [meaning, effect, List.foldl_append, result, hr, operation]

section Moved

open Expand (moved isPseudo)

variable {V : Type} {M : Meaning V} {p q : Pool} {base : Nat} {copied : List Rtl.Insn}
  {σ : Store V}

theorem follow_moved {i j : Rtl.Insn} (h : moved 0 i = moved base j) :
    M.follow σ i = (M.follow σ j).map (base + ·) := by
  simp only [moved, Prod.mk.injEq, actionOf, Action.mk.injEq, zero_add, List.map_id'] at h
  obtain ⟨⟨-, -, hinputs, -⟩, htargets⟩ := h
  unfold Meaning.follow
  rw [hinputs, htargets]
  rcases j.targets with _ | ⟨t, _ | ⟨f, _ | ⟨u, rest⟩⟩⟩ <;>
    rcases j.inputs with _ | ⟨c, _⟩ <;> simp [apply_ite (base + ·)]

/-- Instructions that are copied do the same work, and lead to the copies of their targets. -/
theorem copied_spec {insns : List Rtl.Insn} (hpq : p.Extends q) (h : copied.map (moved 0) = insns.map (moved base))
    (hk : ∀ i ∈ insns, ∃ kind, kindAt p.resources i.resource = some kind) :
    actions q.resources copied = actions p.resources insns ∧
      M.next? q.resources copied σ = (M.next? p.resources insns σ).map (base + ·) := by
  induction insns generalizing copied with
  | nil =>
    cases List.map_eq_nil_iff.mp h
    exact ⟨rfl, rfl⟩
  | cons i rest ih =>
    obtain ⟨j, copied, rfl, hj, hrest⟩ := List.map_eq_cons_iff.mp h
    obtain ⟨hactions, hnext⟩ := ih hrest fun k hk' => hk k (List.mem_cons_of_mem _ hk')
    obtain ⟨kind, hkind⟩ := hk i (by simp)
    have haction : actionOf j = actionOf i := congrArg Prod.fst hj
    have hresource : j.resource = i.resource := congrArg Action.resource haction
    have hkind' : kindAt q.resources j.resource = some kind := hresource ▸ hpq.kindAt hkind
    constructor
    · have hwork : isWork q.resources j = isWork p.resources i := by
        rw [isWork_eq hkind, isWork_eq hkind']
      simp only [actions, List.filter_cons, hwork] at hactions ⊢
      split
      · simp [haction, hactions]
      · exact hactions
    · have htr : j.isTransition q.resources = i.isTransition p.resources := by
        rw [Rtl.isTransition_eq hkind, Rtl.isTransition_eq hkind']
      simp only [Meaning.next?, Rtl.transition?, List.find?_cons, htr] at hnext ⊢
      cases i.isTransition p.resources with
      | true => exact follow_moved hj
      | false => exact hnext

/-- Placeholders do no work and lead nowhere. -/
theorem filter_isPseudo_spec (resources : List Rtl.Resource) (insns : List Rtl.Insn) :
    actions resources (insns.filter (!isPseudo resources ·)) = actions resources insns ∧
      M.next? resources (insns.filter (!isPseudo resources ·)) σ = M.next? resources insns σ := by
  have htr : ∀ i : Rtl.Insn, i.isTransition resources = true → isPseudo resources i = false := by
    intro i hi
    obtain ⟨r, hr, htransition⟩ := (Option.any_eq_true _ _).mp hi
    have hkind : r.kind = Rtl.Resource.transitionKind := by
      simpa [Rtl.Resource.isTransition] using htransition
    have hne : Rtl.Resource.transitionKind ≠ Pool.pseudoKind := by decide
    simp [isPseudo, hr, hkind, hne]
  constructor
  · simp only [actions, List.filter_filter]
    congr 1
    refine List.filter_congr fun i _ => ?_
    cases h : isPseudo resources i <;> simp [isWork, h]
  · simp only [Meaning.next?, Rtl.transition?, List.find?_filter]
    congr 1
    refine congrArg (List.find? · insns) (funext fun i => ?_)
    cases h : i.isTransition resources with
    | true => simp [htr i h]
    | false => simp

end Moved

section Lockstep

open Expand (Filled Fills)

variable {V : Type} {M : Meaning V} {env : Env} {lowered : Pool} {root κ : Copy} {x : Expansion}
  {f : Frame} {callers : List Frame} {σ : Store V}

inductive Stacked (env : Env) (resources : List Rtl.Resource) (root : Copy) :
    List Frame → Copy → Prop
  | entry : Stacked env resources root [] root
  | call {callers : List Frame} {κ κ' : Copy} {f : Frame}
      (stacked : Stacked env resources root callers κ) (context : f.context = κ.context)
      (enters : κ.enter env resources f.state = some κ') :
      Stacked env resources root (f :: callers) κ'

theorem Stacked.descend {resources : List Rtl.Resource}
    (h : Stacked env resources root callers κ) :
    Copy.descend env resources (callers.map (·.state)).reverse root = some κ := by
  induction h with
  | entry => rfl
  | call _ _ enters ih =>
    rw [List.map_cons, List.reverse_cons]
    exact Copy.descend_append ih enters

/-- Where the state of the method that runs is in the table, for the chain of calls it is in. -/
def place? (env : Env) (resources : List Rtl.Resource) (root : Copy) : List Frame → Option Nat
  | [] => none
  | f :: callers =>
    (Copy.descend env resources (callers.map (·.state)).reverse root).map (·.base + f.state)

/-- A stack of calls and a state of the table that belong together, with the same values. -/
inductive Together (env : Env) (resources : List Rtl.Resource) (root : Copy) :
    List Frame × Store V → Nat × Store V → Prop
  | mk {f : Frame} {callers : List Frame} {κ : Copy} (σ : Store V)
      (stacked : Stacked env resources root callers κ) (context : f.context = κ.context)
      (lt : f.state < κ.context.states.length) :
      Together env resources root (f :: callers, σ) (κ.base + f.state, σ)

/-- A table in which all copies are as they should be. -/
structure Expanded (env : Env) (lowered : Pool) (root : Copy) (x : Expansion) : Prop where
  pool : lowered.Extends x.builder.pool
  filled : ∀ (chain : List Nat) {κ : Copy},
    Copy.descend env lowered.resources chain root = some κ → Filled env lowered.resources x κ
  back : root.back = none

theorem effect_of_assigns {resources : List Rtl.Resource} {pairs : List (Nat × Nat)}
    {sets : List Rtl.Insn} (hM : M.Copies resources)
    (h : Expand.Assigns resources pairs sets) (σ : Store V) :
    M.effect (actions resources sets) σ = assigned pairs σ (M.effect [] σ) := by
  have hwork : sets.filter (isWork resources) = sets := by
    refine List.filter_eq_self.mpr fun i hi => ?_
    rw [isWork_eq (h.kind i hi)]
    decide
  obtain ⟨r, hr, hactions⟩ := h
  rw [actions, hwork, hactions]
  exact hM.assigned hr [] σ

/-- A state that calls: the arguments are copied, and the copy of the callee starts. -/
theorem step_of_call {pairs : List (Nat × Nat)} {first id n : Nat} {t : Rtl.Insn}
    {sets : List Rtl.Insn} (hM : M.Copies x.builder.pool.resources)
    (hs : x.states[n]? = some ⟨id, t :: sets⟩) (ht : Leads x.builder.pool.resources [first] t)
    (hsets : Expand.Assigns x.builder.pool.resources pairs sets) :
    M.step x.builder.pool.resources (x.states.map (·.insns)) (n, σ) =
      some (first, assigned pairs σ (M.effect [] σ)) := by
  have hnext : M.next? x.builder.pool.resources (t :: sets) σ = some first := by
    rw [Meaning.next?, Expand.transition?_cons ht.kind]
    simp [Meaning.follow, ht.targets]
  have hget : (x.states.map (·.insns))[n]? = some (t :: sets) := by simp [hs]
  rw [Meaning.step_eq hget hnext, ← List.singleton_append, actions_append,
    actions_of_transition ht.kind, List.nil_append, effect_of_assigns hM hsets]

/-- The last state of a callee: the results are copied, and the caller goes on. -/
theorem step_of_back {pairs : List (Nat × Nat)} {target id n : Nat} {t : Rtl.Insn}
    {sets : List Rtl.Insn} (hM : M.Copies x.builder.pool.resources)
    (hs : x.states[n]? = some ⟨id, sets ++ [t]⟩) (ht : Leads x.builder.pool.resources [target] t)
    (hsets : Expand.Assigns x.builder.pool.resources pairs sets) :
    M.step x.builder.pool.resources (x.states.map (·.insns)) (n, σ) =
      some (target, assigned pairs σ (M.effect [] σ)) := by
  rw [Meaning.step_eq (by simp [hs]) (ht.next? hsets.transition?), actions_append,
    actions_of_transition ht.kind, List.append_nil, effect_of_assigns hM hsets]

theorem actions_of_inlined {closes : Bool} {c callee : Context} {k : Nat} {st : LoweredState}
    {i : Rtl.Insn} (hc : Shaped lowered.resources closes c.states) (hst : c.states[k]? = some st)
    (h : inlined? env lowered.resources st = some (i, callee)) :
    actions lowered.resources st.insns = [] ∧
      M.next? lowered.resources st.insns σ = some (k + 1) := by
  obtain ⟨j, hj, hfilter⟩ := Expand.insns_of_inlined hc hst h
  obtain ⟨hactions, hnext⟩ := filter_isPseudo_spec (M := M) (σ := σ) lowered.resources
    st.insns
  rw [hfilter] at hactions hnext
  have hlead : M.next? lowered.resources ([] ++ [j]) σ = some (k + 1) := hj.next? rfl
  exact ⟨hactions ▸ actions_of_transition hj.kind, hnext ▸ hlead⟩

theorem next?_lt {closes : Bool} {c : Context} {st : LoweredState} {t : Nat}
    (hc : Shaped lowered.resources closes c.states) (hst : st ∈ c.states)
    (h : M.next? lowered.resources st.insns σ = some t) : t < c.states.length := by
  obtain ⟨i, hi, hfollow⟩ := Option.bind_eq_some_iff.mp h
  refine hc.targets st hst i (List.mem_of_find?_eq_some hi) t ?_
  unfold Meaning.follow at hfollow
  split at hfollow
  · simp_all
  · cases Option.some.inj hfollow
    split <;> simp_all
  · cases hfollow

theorem callStep_of_last {caller : Frame} {rest : List Frame} {st call : LoweredState}
    {i : Rtl.Insn} {c : Context} {next : Nat} (hst : f.context.states[f.state]? = some st)
    (hnone : inlined? env lowered.resources st = none)
    (hlast : f.state + 1 = f.context.states.length)
    (hcall : caller.context.states[caller.state]? = some call)
    (hsome : inlined? env lowered.resources call = some (i, c))
    (hnext : M.next? lowered.resources call.insns σ = some next) :
    M.callStep env lowered.resources (f :: caller :: rest, σ) =
      some (⟨caller.context, next⟩ :: rest, assigned (f.context.entry.outputs.zip i.outputs) σ
        (M.effect (actions lowered.resources st.insns) σ)) := by
  simp [Meaning.callStep, hst, hnone, hlast, hcall, hsome, hnext]

/-- A state that neither calls nor ends a method that is called leads on inside its method. -/
theorem callStep_of_plain {st : LoweredState} (hst : f.context.states[f.state]? = some st)
    (hnone : inlined? env lowered.resources st = none)
    (hstays : callers = [] ∨ f.state + 1 ≠ f.context.states.length) :
    M.callStep env lowered.resources (f :: callers, σ) =
      (M.next? lowered.resources st.insns σ).map fun next =>
        (⟨f.context, next⟩ :: callers, M.effect (actions lowered.resources st.insns) σ) := by
  rcases hstays with rfl | hlast
  · simp [Meaning.callStep, hst, hnone]
  · cases callers <;> simp [Meaning.callStep, hst, hnone, hlast]

/-- A state that is copied does the same in the table, and leads to the copy of where it led. -/
theorem step_of_copied {closes : Bool} {c : Context} {st : LoweredState} {s : Rtl.State}
    {base n : Nat} (hpool : lowered.Extends x.builder.pool)
    (hc : Shaped lowered.resources closes c.states) (hst : st ∈ c.states)
    (hs : x.states[n]? = some s) (h : s.insns.map (Expand.moved 0) =
      (st.insns.filter (!Expand.isPseudo lowered.resources ·)).map (Expand.moved base)) :
    M.step x.builder.pool.resources (x.states.map (·.insns)) (n, σ) =
      (M.next? lowered.resources st.insns σ).map fun next =>
        (base + next, M.effect (actions lowered.resources st.insns) σ) := by
  obtain ⟨hactions, hnext⟩ := copied_spec (M := M) (σ := σ) hpool h fun i hi =>
    hc.kinds st hst i (List.mem_of_mem_filter hi)
  obtain ⟨hactions', hnext'⟩ := filter_isPseudo_spec (M := M) (σ := σ) lowered.resources st.insns
  rw [hactions'] at hactions
  rw [hnext'] at hnext
  simp [Meaning.step, hs, hnext, hactions, Option.map_map, Function.comp_def]

theorem Stacked.eq_nil_of_back (h : Stacked env lowered.resources root callers κ)
    (hback : κ.back = none) : callers = [] := by
  cases h with
  | entry => rfl
  | call stacked context enters =>
    obtain ⟨_, _, _, _, _, _, _, hκ⟩ := Copy.enter_eq_some enters
    rw [hκ] at hback
    cases hback

theorem Together.step {c : List Frame × Store V} {d : Nat × Store V}
    (h : Together env lowered.resources root c d) (hx : Expanded env lowered root x)
    (hM : M.Copies x.builder.pool.resources) :
    Option.Rel (Together env lowered.resources root) (M.callStep env lowered.resources c)
      (M.step x.builder.pool.resources (x.states.map (·.insns)) d) := by
  obtain ⟨σ, stacked, context, lt⟩ := h
  rename_i f callers κ
  have hfilled := hx.filled _ stacked.descend
  obtain ⟨closes, hshaped⟩ := hfilled.shaped
  obtain ⟨st, hst⟩ : ∃ st, κ.context.states[f.state]? = some st :=
    ⟨_, List.getElem?_eq_getElem lt⟩
  have hst' : f.context.states[f.state]? = some st := by rw [context]; exact hst
  obtain ⟨⟨id, insns⟩, hs, hfills⟩ := hfilled.states hst
  generalize hinsns : Rtl.State.insns ⟨id, insns⟩ = insns' at hfills
  cases hinsns
  cases hfills with
  | call inlined enters leads assigns =>
    have hactions := (actions_of_inlined (M := M) (σ := σ) hshaped hst inlined).1
    have hstacked := Stacked.call stacked context enters
    obtain ⟨_, hshaped'⟩ := (hx.filled _ hstacked.descend).shaped
    obtain ⟨_, st', i', c', _, hst'', hsome, hκ'⟩ := Copy.enter_eq_some enters
    cases Option.some.inj (hst.symm.trans hst'')
    cases Option.some.inj (inlined.symm.trans hsome)
    rw [step_of_call hM hs leads assigns]
    simp only [Meaning.callStep, hst', Option.bind_some, inlined, hactions]
    exact .some (.mk (f := ⟨_, 0⟩) _ hstacked (by rw [hκ']) hshaped'.nonempty)
  | back last back empty assigns leads =>
    cases stacked with
    | entry =>
      rw [hx.back] at back
      cases back
    | @call rest κ₀ _ caller stacked₀ context₀ enters =>
      obtain ⟨_, call, i, c, _, hcall, hsome, rfl⟩ := Copy.enter_eq_some enters
      obtain ⟨_, hshaped₀⟩ := (hx.filled _ stacked₀.descend).shaped
      have hnext := (actions_of_inlined (M := M) (σ := σ) hshaped₀ hcall hsome).2
      have hlt := next?_lt hshaped₀ (List.mem_of_getElem? hcall) hnext
      obtain ⟨_, rfl⟩ := empty
      cases back
      rw [step_of_back hM hs leads assigns, callStep_of_last hst' rfl (by rw [context]; exact last)
        (by rw [context₀]; exact hcall) hsome hnext, context]
      exact .some (.mk (f := ⟨caller.context, caller.state + 1⟩) _ stacked₀ context₀ hlt)
  | plain inlined stays copied =>
    have hmem := List.mem_of_getElem? hst
    -- a callee does not go on from its last state by itself
    have hstays : callers = [] ∨ f.state + 1 ≠ f.context.states.length := by
      by_cases hlast : f.state + 1 = κ.context.states.length
      · exact .inl (stacked.eq_nil_of_back (stays hlast))
      · exact .inr (context ▸ hlast)
    rw [callStep_of_plain hst' inlined hstays, step_of_copied hx.pool hshaped hmem hs copied]
    cases hn : M.next? lowered.resources st.insns σ with
    | none => exact .none
    | some next => exact .some (.mk (f := ⟨f.context, next⟩) _ stacked context
        (next?_lt hshaped hmem hn))

theorem Together.run {c : List Frame × Store V} {d : Nat × Store V}
    (h : Together env lowered.resources root c d) (hx : Expanded env lowered root x)
    (hM : M.Copies x.builder.pool.resources) (n : Nat) :
    Option.Rel (Together env lowered.resources root)
      (run (M.callStep env lowered.resources) n c)
      (run (M.step x.builder.pool.resources (x.states.map (·.insns))) n d) := by
  induction n generalizing c d with
  | zero => exact .some h
  | succ n ih =>
    have hstep := h.step hx hM
    simp only [Synth.run]
    generalize M.callStep env lowered.resources c = calls at hstep ⊢
    generalize M.step x.builder.pool.resources (x.states.map (·.insns)) d = table at hstep ⊢
    cases hstep with
    | some h' => exact ih h'
    | none => exact .none

theorem Together.place {resources : List Rtl.Resource} {c : Option (List Frame × Store V)}
    {d : Option (Nat × Store V)} (h : Option.Rel (Together env resources root) c d) :
    c.map (fun c => (place? env resources root c.1, c.2)) = d.map fun d => (some d.1, d.2) := by
  cases h with
  | none => rfl
  | some h =>
    obtain ⟨σ, stacked, context, lt⟩ := h
    simp [place?, stacked.descend]

end Lockstep

section Threads

variable {m : Machine} {owners : OwnershipTable} {limit : Nat} {id : ThreadId} {t : ThreadPlan}
  {table : ThreadTable}

/-- Inlining preserves meaning. Whatever the instructions of a state do with the values held on
entry, as long as those that assign copy registers, the table of a thread goes along with its
methods, run with a stack of calls: both end together or go on, the table is in the copy of the
state that the methods are in, for the chain of calls they are in, and both hold the same. The
copies for different chains have no state in common. -/
theorem inlining_preserves_meaning {root : Nat} {plan : Plan} (hplan : Plan.ofRoot m root = .ok plan)
    (ht : plan.threads[id]? = some t) (h : ThreadTable.build m owners limit id t = .ok table) :
    ∃ b entry, ThreadTable.lowerAll m owners id t t.methods (.ofPool t.pool) =
        .ok (table.contexts, b) ∧ table.contexts.lookup t.entry = some entry ∧
      table.table.initial = some 0 ∧
      let env : Env := ⟨m, table.contexts, limit⟩
      let whole : Copy := ⟨0, table.contexts.length + 1, entry, none⟩
      (∀ (V : Type) (M : Meaning V), M.Copies table.resources → ∀ (σ : Store V) (n : Nat),
        (run (M.callStep env b.pool.resources) n ([⟨entry, 0⟩], σ)).map
            (fun c => (place? env b.pool.resources whole c.1, c.2)) =
          (run (M.step table.resources (table.states.map (·.insns))) n (0, σ)).map
            fun d => (some d.1, d.2)) ∧
      ∀ (as bs : List Nat) (κ₁ κ₂ : Copy) (i j : Nat),
        Copy.descend env b.pool.resources as whole = some κ₁ →
        Copy.descend env b.pool.resources bs whole = some κ₂ →
        i < κ₁.context.states.length → j < κ₂.context.states.length →
        κ₁.base + i = κ₂.base + j → as = bs ∧ i = j := by
  have hpool := ((Plan.ofRoot_spec hplan).1.threads t (List.mem_of_getElem? ht)).pool
  obtain ⟨b, entry, x, hlower, hentry, hadds, -, htable⟩ := ThreadTable.build_spec hpool h
  have hexpanded : Expanded ⟨m, table.contexts, limit⟩ b.pool
      ⟨0, table.contexts.length + 1, entry, none⟩ x := ⟨hadds.builder.pool, hadds.filled, rfl⟩
  have hresources : table.resources = x.builder.pool.resources := by
    rw [htable]
    rfl
  have hstates : table.states = x.states := by rw [htable]
  obtain ⟨closes, hshaped⟩ := (hexpanded.filled [] rfl).shaped
  refine ⟨b, entry, hlower, hentry, ?_, fun V M hM σ n => ?_, fun as bs κ₁ κ₂ i j h₁ h₂ => ?_⟩
  · obtain ⟨s, hs, -⟩ := (hexpanded.filled [] rfl).states
      (List.getElem?_eq_getElem hshaped.nonempty)
    have hlt := (List.getElem?_eq_some_iff.mp hs).1
    have hne : x.states ≠ [] := by
      intro hnil
      simp [hnil] at hlt
    simp [ThreadTable.table, hstates, hne]
  · rw [hresources] at hM ⊢
    rw [hstates]
    exact Together.place
      ((Together.mk (f := ⟨entry, 0⟩) σ .entry rfl hshaped.nonempty).run hexpanded hM n)
  · exact Copy.descend_injective h₁ h₂ (hexpanded.filled as h₁).depth (hexpanded.filled bs h₂).depth

/-- A machine whose entry calls a method twice, which calls another in turn. -/
def nestedCalls : Machine :=
  let reg (name : String) : Register := ⟨name, .num, 8, false, 0⟩
  let method (name : String) (args returns : List VarDecl) (code : List Insn) : Slot :=
    ⟨name, .method ⟨name, args, returns, [reg "a", reg "b"], code, "", "", "", .none⟩⟩
  let this := RegisterId.unused
  ⟨[⟨"top", .plain, 0, 0, false, false, [],
    [method "main" [] [] [.call this "f" [0], .callDone [1], .call this "f" [1], .callDone [0],
        .goto 0],
      method "f" [⟨"x", .int, 8⟩] [⟨"y", .int, 8⟩] [.call this "g" [0], .callDone [1]],
      method "g" [⟨"x", .int, 8⟩] [⟨"y", .int, 8⟩] [.count false 0, .assign 1 0]]⟩]⟩

theorem nestedCalls_built : ∃ plan t table, Plan.ofRoot nestedCalls 0 = .ok plan ∧
    plan.threads[0]? = some t ∧ ThreadTable.build nestedCalls ⟨[], []⟩ 32 0 t = .ok table ∧
    table.states.length = 18 := by
  have h : (match Plan.ofRoot nestedCalls 0 with
      | .ok plan => (plan.threads[0]?).any fun t =>
        match ThreadTable.build nestedCalls ⟨[], []⟩ 32 0 t with
        | .ok table => table.states.length = 18
        | .error _ => false
      | .error _ => false) = true := by decide +kernel
  split at h
  · rename_i plan hplan
    obtain ⟨t, ht, h⟩ := (Option.any_eq_true _ _).mp h
    split at h
    · rename_i table hbuild
      exact ⟨plan, t, table, hplan, ht, hbuild, by simpa using h⟩
    · cases h
  · cases h

/-- The machine of nested calls, for any reading of its units. -/
theorem nested_calls_preserve_meaning : ∃ plan t table, Plan.ofRoot nestedCalls 0 = .ok plan ∧
    plan.threads[0]? = some t ∧ ThreadTable.build nestedCalls ⟨[], []⟩ 32 0 t = .ok table ∧
    table.states.length = 18 ∧ ∃ (b : Builder) (entry : Context), ∀ (V : Type)
      (I : Interpretation V) (σ : Store V) (n : Nat),
      (run ((I.meaning table.resources).callStep ⟨nestedCalls, table.contexts, 32⟩
          b.pool.resources) n ([⟨entry, 0⟩], σ)).map
          (fun c => (place? ⟨nestedCalls, table.contexts, 32⟩ b.pool.resources
            ⟨0, table.contexts.length + 1, entry, none⟩ c.1, c.2)) =
        (run ((I.meaning table.resources).step table.resources (table.states.map (·.insns))) n
          (0, σ)).map fun d => (some d.1, d.2) := by
  obtain ⟨plan, t, table, hplan, ht, hbuild, hlength⟩ := nestedCalls_built
  obtain ⟨b, entry, -, -, -, h, -⟩ := inlining_preserves_meaning hplan ht hbuild
  exact ⟨plan, t, table, hplan, ht, hbuild, hlength, b, entry, fun V I σ n =>
    h V (I.meaning table.resources) (I.copies table.resources) σ n⟩

end Threads

end Synth
end MachineSynth
