import Mathlib
import MachineSynth.Proofs.Expansion.Layout
import MachineSynth.Proofs.Lowering.Methods

/-! Copies: what the states of an expanded table hold. Every copy stands where the layout says, and
each of its states does what the state of the context does, or calls, or returns. -/
namespace MachineSynth
namespace Synth
namespace Expand

open Rtl (kindAt)

def Assigns (resources : List Rtl.Resource) (pairs : List (Nat × Nat)) (insns : List Rtl.Insn) :
    Prop :=
  ∃ r, kindAt resources r = some "set" ∧
    insns.map actionOf = pairs.map fun x => ⟨r, "", [x.1], [x.2]⟩

theorem Assigns.mono {p q : Pool} (hpq : p.Extends q) {pairs : List (Nat × Nat)}
    {insns : List Rtl.Insn} (h : Assigns p.resources pairs insns) :
    Assigns q.resources pairs insns := by
  obtain ⟨r, hr, hinsns⟩ := h
  exact ⟨r, hpq.kindAt hr, hinsns⟩

/-- What an instruction is once its targets are counted from another state. -/
def moved (base : Nat) (i : Rtl.Insn) : Action × List Nat :=
  (actionOf i, i.targets.map (base + ·))

/-- What a state of a copy holds, in a table with the given resources. Those with which contexts
were lowered are the first of them. -/
inductive Fills (env : Env) (lowered resources : List Rtl.Resource) (κ : Copy) (k : Nat)
    (st : LoweredState) : List Rtl.Insn → Prop
  | call {i : Rtl.Insn} {c : Context} {κ' : Copy} {t : Rtl.Insn} {sets : List Rtl.Insn}
      (inlined : inlined? env lowered st = some (i, c)) (enters : κ.enter env lowered k = some κ')
      (leads : Leads resources [κ'.base] t)
      (assigns : Assigns resources (i.inputs.zip c.entry.inputs) sets) :
      Fills env lowered resources κ k st (t :: sets)
  | back {pairs : List (Nat × Nat)} {target : Nat} {t : Rtl.Insn} {sets : List Rtl.Insn}
      (last : k + 1 = κ.context.states.length) (back : κ.back = some (pairs, target))
      (empty : ∃ id, st = ⟨id, [], none, none⟩) (assigns : Assigns resources pairs sets)
      (leads : Leads resources [target] t) : Fills env lowered resources κ k st (sets ++ [t])
  | plain {insns : List Rtl.Insn} (inlined : inlined? env lowered st = none)
      (stays : k + 1 = κ.context.states.length → κ.back = none)
      (copied : insns.map (moved 0) =
        (st.insns.filter (!isPseudo lowered ·)).map (moved κ.base)) :
      Fills env lowered resources κ k st insns

theorem Fills.mono {env : Env} {lowered : List Rtl.Resource} {p q : Pool} (hpq : p.Extends q)
    {κ : Copy} {k : Nat} {st : LoweredState} {insns : List Rtl.Insn}
    (h : Fills env lowered p.resources κ k st insns) :
    Fills env lowered q.resources κ k st insns := by
  cases h with
  | call inlined enters leads assigns =>
    exact .call inlined enters (leads.mono hpq) (assigns.mono hpq)
  | back last back empty assigns leads =>
    exact .back last back empty (assigns.mono hpq) (leads.mono hpq)
  | plain inlined stays copied => exact .plain inlined stays copied

/-- All states of a copy are in a table as they should. -/
structure Filled (env : Env) (lowered : List Rtl.Resource) (x : Expansion) (κ : Copy) : Prop where
  depth : 0 < κ.depth
  shaped : ∃ closes, Shaped lowered closes κ.context.states
  states : ∀ {k : Nat} {st : LoweredState}, κ.context.states[k]? = some st →
    ∃ s, x.states[κ.base + k]? = some s ∧
      Fills env lowered x.builder.pool.resources κ k st s.insns

theorem Filled.keep {env : Env} {lowered : List Rtl.Resource} {x x' : Expansion} {κ : Copy}
    (h : Filled env lowered x κ) (hpool : x.builder.pool.Extends x'.builder.pool)
    (hstates : ∀ j, κ.base ≤ j → j < κ.base + κ.context.states.length →
      x'.states[j]? = x.states[j]?) : Filled env lowered x' κ := by
  refine ⟨h.depth, h.shaped, fun {k st} hk => ?_⟩
  obtain ⟨s, hs, hfills⟩ := h.states hk
  have hlt := (List.getElem?_eq_some_iff.mp hk).1
  exact ⟨s, (hstates _ (by omega) (by omega)).trans hs, hfills.mono hpool⟩

section Parts

variable {α : Type} {x x' : Expansion} {state : Nat}

theorem run_build_eq_ok {f : Builder → α × Builder} {r : α × Expansion} :
    (build f).run x = .ok r ↔ r = ((f x.builder).1, { x with builder := (f x.builder).2 }) :=
  ⟨fun h => (Except.ok.inj h).symm, fun h => h ▸ rfl⟩

theorem resource_spec {take : Pool → Nat × Pool} {kind : String} {i : Nat} (hx : x.builder.Sound)
    (ht : Pool.TakesOther take kind) (h : (build (·.resource take)).run x = .ok (i, x')) :
    x'.builder.Sound ∧ x.builder.Extends x'.builder ∧ x'.states = x.states ∧
      kindAt x'.builder.pool.resources i = some kind := by
  cases run_build_eq_ok.mp h
  exact ⟨Builder.resource_sound hx ht.toTakes, Builder.resource_extends _ ht.toTakes, rfl,
    ht.kind hx.pool⟩

theorem run_updateInsns_eq_ok {f : List Rtl.Insn → List Rtl.Insn} {r : Unit × Expansion} :
    (updateInsns state f).run x = .ok r ↔ r = ((), { x with
      states := x.states.modify state fun s => { s with insns := f s.insns } }) :=
  ⟨fun h => (Except.ok.inj h).symm, fun h => h ▸ rfl⟩

theorem run_add_eq_ok {resource : Nat} {operand : String} {inputs outputs targets : List Nat}
    {r : Unit × Expansion} :
    (add state resource operand inputs outputs targets).run x = .ok r ↔ r = ((), { x with
      builder := x.builder.newInsn.2
      states := x.states.modify state fun s => { s with
        insns := s.insns ++
          [⟨x.builder.newInsn.1, resource, operand, inputs, outputs, targets⟩] } }) :=
  ⟨fun h => (Except.ok.inj h).symm, fun h => h ▸ rfl⟩

/-- A part of the expansion that changes the instructions of one state. -/
structure Edits (state : Nat) (insns : List Rtl.Insn) (x x' : Expansion) : Prop where
  sound : x'.builder.Sound
  builder : x.builder.Extends x'.builder
  length : x'.states.length = x.states.length
  others : ∀ j, j ≠ state → x'.states[j]? = x.states[j]?
  state : ∃ id, x'.states[state]? = some ⟨id, insns⟩

theorem Edits.trans {insns insns' : List Rtl.Insn} {x'' : Expansion} (h : Edits state insns x x')
    (h' : Edits state insns' x' x'') : Edits state insns' x x'' :=
  ⟨h'.sound, h.builder.trans h'.builder, h'.length.trans h.length,
    fun j hj => (h'.others j hj).trans (h.others j hj), h'.state⟩

theorem Edits.refl (hx : x.builder.Sound) {insns : List Rtl.Insn}
    (hs : ∃ id, x.states[state]? = some ⟨id, insns⟩) : Edits state insns x x :=
  ⟨hx, .refl _, rfl, fun _ _ => rfl, hs⟩

theorem updateInsns_edits {f : List Rtl.Insn → List Rtl.Insn} {insns : List Rtl.Insn}
    (hx : x.builder.Sound) (hs : ∃ id, x.states[state]? = some ⟨id, insns⟩)
    (h : (updateInsns state f).run x = .ok ((), x')) : Edits state (f insns) x x' := by
  cases run_updateInsns_eq_ok.mp h
  obtain ⟨id, hid⟩ := hs
  refine ⟨hx, .refl _, by simp, fun j hj => ?_, id, ?_⟩
  · simp [List.getElem?_modify_ne _ _ (Ne.symm hj)]
  · simp [List.getElem?_modify_eq, hid]

theorem add_edits {resource : Nat} {operand : String} {inputs outputs targets : List Nat}
    {insns : List Rtl.Insn} (hx : x.builder.Sound)
    (hs : ∃ id, x.states[state]? = some ⟨id, insns⟩)
    (h : (add state resource operand inputs outputs targets).run x = .ok ((), x')) :
    ∃ id, Edits state (insns ++ [⟨id, resource, operand, inputs, outputs, targets⟩]) x x' := by
  cases run_add_eq_ok.mp h
  obtain ⟨id, hid⟩ := hs
  refine ⟨x.builder.newInsn.1, Builder.newInsn_sound hx, Builder.newInsn_extends _, by simp,
    fun j hj => ?_, id, ?_⟩
  · simp [List.getElem?_modify_ne _ _ (Ne.symm hj)]
  · simp [List.getElem?_modify_eq, hid]

theorem copyInsns_edits {base : Nat} {is insns : List Rtl.Insn} (hx : x.builder.Sound)
    (hs : ∃ id, x.states[state]? = some ⟨id, insns⟩)
    (h : (copyInsns base state is).run x = .ok ((), x')) :
    ∃ new, Edits state (insns ++ new) x x' ∧ new.map (moved 0) = is.map (moved base) := by
  induction is generalizing x insns with
  | nil =>
    cases run_pure_eq_ok.mp h
    exact ⟨[], by simpa using Edits.refl hx hs, rfl⟩
  | cons i rest ih =>
    simp only [copyInsns, run_bind_eq_ok] at h
    obtain ⟨_, x₁, hadd, hrest⟩ := h
    obtain ⟨id, e₁⟩ := add_edits hx hs hadd
    obtain ⟨new, e₂, hnew⟩ := ih e₁.sound e₁.state hrest
    have e := e₁.trans e₂
    rw [List.append_assoc] at e
    exact ⟨_, e, by simp [moved, actionOf, hnew]⟩

theorem assignAll_edits {resource : Nat} {pairs : List (Nat × Nat)} {insns : List Rtl.Insn}
    (hx : x.builder.Sound) (hs : ∃ id, x.states[state]? = some ⟨id, insns⟩)
    (h : (assignAll state resource pairs).run x = .ok ((), x')) :
    ∃ new, Edits state (insns ++ new) x x' ∧
      new.map actionOf = pairs.map fun p => ⟨resource, "", [p.1], [p.2]⟩ := by
  induction pairs generalizing x insns with
  | nil =>
    cases run_pure_eq_ok.mp h
    exact ⟨[], by simpa using Edits.refl hx hs, rfl⟩
  | cons p rest ih =>
    simp only [assignAll, run_bind_eq_ok] at h
    obtain ⟨_, x₁, hadd, hrest⟩ := h
    obtain ⟨id, e₁⟩ := add_edits hx hs hadd
    obtain ⟨new, e₂, hnew⟩ := ih e₁.sound e₁.state hrest
    have e := e₁.trans e₂
    rw [List.append_assoc] at e
    exact ⟨_, e, by simp [actionOf, hnew]⟩

section Transitions

variable {resources : List Rtl.Resource} {i : Rtl.Insn} {insns : List Rtl.Insn}

theorem transition?_cons (hi : kindAt resources i.resource = some Rtl.Resource.transitionKind) :
    Rtl.transition? resources (i :: insns) = some i := by
  simp [Rtl.transition?, Rtl.isTransition_eq hi]

theorem updateTransition_cons (f : Rtl.Insn → Rtl.Insn)
    (hi : kindAt resources i.resource = some Rtl.Resource.transitionKind) :
    Rtl.updateTransition resources f (i :: insns) = f i :: insns := by
  simp [Rtl.updateTransition, Rtl.isTransition_eq hi]

theorem updateTransition_append (f : Rtl.Insn → Rtl.Insn)
    (hi : kindAt resources i.resource = some Rtl.Resource.transitionKind)
    (h : Rtl.transition? resources insns = none) :
    Rtl.updateTransition resources f (insns ++ [i]) = insns ++ [f i] := by
  induction insns with
  | nil => exact updateTransition_cons f hi
  | cons j rest ih =>
    obtain ⟨hj, hrest⟩ : j.isTransition resources = false ∧
        Rtl.transition? resources rest = none := by
      simpa [Rtl.transition?] using h
    simp [Rtl.updateTransition, hj, ih hrest]

theorem Assigns.kind {pairs : List (Nat × Nat)} (h : Assigns resources pairs insns) :
    ∀ j ∈ insns, kindAt resources j.resource = some "set" := by
  obtain ⟨r, hr, hinsns⟩ := h
  intro j hj
  have hmem : actionOf j ∈ insns.map actionOf := List.mem_map_of_mem hj
  rw [hinsns] at hmem
  obtain ⟨x, -, hx⟩ := List.mem_map.mp hmem
  have hresource : r = j.resource := congrArg Action.resource hx
  rw [← hresource]
  exact hr

theorem Assigns.transition? {pairs : List (Nat × Nat)} (h : Assigns resources pairs insns) :
    Rtl.transition? resources insns = none :=
  transition?_eq_none fun j hj => ⟨_, h.kind j hj, by decide⟩

end Transitions

theorem targetsOf_of_leads {t : Rtl.Insn} {rest : List Rtl.Insn} {targets ts : List Nat}
    (hs : ∃ id, x.states[state]? = some ⟨id, t :: rest⟩)
    (ht : Leads x.builder.pool.resources targets t)
    (h : (targetsOf state).run x = .ok (ts, x')) : ts = targets ∧ x' = x := by
  obtain ⟨id, hid⟩ := hs
  simp only [targetsOf, run_bind_eq_ok, run_get_eq_ok] at h
  obtain ⟨_, _, hget, h⟩ := h
  cases hget
  simp only [hid, Option.map_some, Option.getD_some, transition?_cons ht.kind] at h
  cases run_pure_eq_ok.mp h
  exact ⟨ht.targets, rfl⟩

theorem targetsOf_of_none {insns : List Rtl.Insn} {ts : List Nat} (hx : x.builder.Sound)
    (hs : ∃ id, x.states[state]? = some ⟨id, insns⟩)
    (hnone : Rtl.transition? x.builder.pool.resources insns = none)
    (h : (targetsOf state).run x = .ok (ts, x')) :
    ts = [] ∧ ∃ t, Edits state (insns ++ [t]) x x' ∧ Leads x'.builder.pool.resources [] t := by
  obtain ⟨id, hid⟩ := hs
  simp only [targetsOf, run_bind_eq_ok, run_get_eq_ok] at h
  obtain ⟨_, _, hget, h⟩ := h
  cases hget
  simp only [hid, Option.map_some, Option.getD_some, hnone, run_bind_eq_ok] at h
  obtain ⟨r, x₁, hr, _, x₂, hadd, h⟩ := h
  obtain ⟨hsound, hext, hstates, hkind⟩ := resource_spec hx Pool.transition_takes hr
  cases run_pure_eq_ok.mp h
  obtain ⟨n, e⟩ := add_edits hsound ⟨id, hstates ▸ hid⟩ hadd
  refine ⟨rfl, _, ⟨e.sound, hext.trans e.builder, ?_, fun j hj => ?_, e.state⟩, ?_⟩
  · rw [e.length, hstates]
  · rw [e.others j hj, hstates]
  · exact ⟨e.builder.pool.kindAt hkind, rfl, rfl⟩

theorem setTargets_edits {insns new : List Rtl.Insn} {targets : List Nat} (hx : x.builder.Sound)
    (hs : ∃ id, x.states[state]? = some ⟨id, insns⟩)
    (hnew : Rtl.updateTransition x.builder.pool.resources
      (fun i => { i with targets := targets }) insns = new)
    (h : (setTargets state targets).run x = .ok ((), x')) :
    Edits state new x x' ∧ x'.builder = x.builder := by
  simp only [setTargets, run_bind_eq_ok, run_get_eq_ok] at h
  obtain ⟨_, _, hget, h⟩ := h
  cases hget
  rw [← hnew]
  refine ⟨updateInsns_edits hx hs h, ?_⟩
  cases run_updateInsns_eq_ok.mp h
  rfl

/-- What replacing a call by a copy makes of the calling state and the last state of the copy. -/
structure Inlines (state last first next : Nat) (call : Rtl.Insn) (callee : Context)
    (x x' : Expansion) : Prop where
  sound : x'.builder.Sound
  builder : x.builder.Extends x'.builder
  length : x'.states.length = x.states.length
  others : ∀ j, j ≠ state → j ≠ last → x'.states[j]? = x.states[j]?
  state : ∃ id t sets, x'.states[state]? = some ⟨id, t :: sets⟩ ∧
    Leads x'.builder.pool.resources [first] t ∧
    Assigns x'.builder.pool.resources (call.inputs.zip callee.entry.inputs) sets
  last : ∃ id t sets, x'.states[last]? = some ⟨id, sets ++ [t]⟩ ∧
    Leads x'.builder.pool.resources [next] t ∧
    Assigns x'.builder.pool.resources (callee.entry.outputs.zip call.outputs) sets

theorem inline_spec {last first next : Nat} {call t : Rtl.Insn} {callee : Context}
    (hx : x.builder.Sound) (hne : state ≠ last)
    (hstate : ∃ id, x.states[state]? = some ⟨id, [t]⟩)
    (ht : Leads x.builder.pool.resources [next] t)
    (hlast : ∃ id, x.states[last]? = some ⟨id, []⟩)
    (h : (inline state call callee first last).run x = .ok ((), x')) :
    Inlines state last first next call callee x x' := by
  simp only [inline, run_bind_eq_ok] at h
  obtain ⟨r, x₁, hr, _, x₂, hargs, _, x₃, hresults, ts, x₄, hts, own, x₅, hown, _, x₆, hback, h⟩ := h
  obtain ⟨hsound₁, hext₁, hstates₁, hkind⟩ := resource_spec hx Pool.assign_takes hr
  rw [← hstates₁] at hstate hlast
  obtain ⟨sets, e₂, hsets⟩ := assignAll_edits hsound₁ hstate hargs
  obtain ⟨sets', e₃, hsets'⟩ := assignAll_edits e₂.sound
    (hlast.imp fun id hid => (e₂.others last hne.symm).trans hid) hresults
  have hargs' : Assigns x₃.builder.pool.resources (call.inputs.zip callee.entry.inputs) sets :=
    ⟨_, (e₂.builder.trans e₃.builder).pool.kindAt hkind, hsets⟩
  have hresults' : Assigns x₃.builder.pool.resources (callee.entry.outputs.zip call.outputs)
      sets' := ⟨_, (e₂.builder.trans e₃.builder).pool.kindAt hkind, hsets'⟩
  have ht₃ : Leads x₃.builder.pool.resources [next] t :=
    ht.mono ((hext₁.trans e₂.builder).trans e₃.builder).pool
  have hstate₃ : ∃ id, x₃.states[state]? = some ⟨id, t :: sets⟩ :=
    e₂.state.imp fun id hid => (e₃.others state hne).trans hid
  obtain ⟨rfl, rfl⟩ := targetsOf_of_leads hstate₃ ht₃ hts
  obtain ⟨rfl, t', e₅, ht'⟩ := targetsOf_of_none e₃.sound e₃.state hresults'.transition? hown
  obtain ⟨e₆, hb₆⟩ := setTargets_edits e₅.sound e₅.state
    (updateTransition_append _ ht'.kind (hresults'.mono e₅.builder.pool).transition?) hback
  have hstate₆ : ∃ id, x₆.states[state]? = some ⟨id, t :: sets⟩ :=
    hstate₃.imp fun id hid =>
      ((e₆.others state hne).trans (e₅.others state hne)).trans hid
  have hext₆ := e₅.builder.trans e₆.builder
  obtain ⟨e₇, hb₇⟩ := setTargets_edits e₆.sound hstate₆
    (updateTransition_cons _ (ht₃.mono hext₆.pool).kind) h
  have hext₇ := hext₆.trans e₇.builder
  refine ⟨e₇.sound, ((hext₁.trans e₂.builder).trans e₃.builder).trans hext₇, ?_,
    fun j hj hj' => ?_, ?_, ?_⟩
  · rw [e₇.length, e₆.length, e₅.length, e₃.length, e₂.length, hstates₁]
  · rw [e₇.others j hj, e₆.others j hj', e₅.others j hj', e₃.others j hj', e₂.others j hj,
      hstates₁]
  · obtain ⟨id, hid⟩ := e₇.state
    exact ⟨id, _, sets, hid, ⟨(ht₃.mono hext₇.pool).kind, ht₃.inputs, rfl⟩,
      hargs'.mono hext₇.pool⟩
  · obtain ⟨id, hid⟩ := e₆.state
    refine ⟨id, _, sets', (e₇.others last hne.symm).trans hid, ⟨?_, ht'.inputs, rfl⟩,
      hresults'.mono hext₇.pool⟩
    rw [hb₇, hb₆]
    exact ht'.kind

end Parts

end Expand
end Synth
end MachineSynth
