import Mathlib
import MachineSynth.Proofs.Lowering.Code

/-! Linking: how the states of a method come to lead to each other once all of them are there. -/
namespace MachineSynth
namespace Synth

open Rtl (kindAt)

namespace Lowering

/-- A part of the lowering that only adds to the table, and nothing for an entity. -/
structure Builds (l l' : Lowering) : Prop where
  sound : l'.builder.Sound
  builder : l.builder.Extends l'.builder
  covered : Builder.Covered .none l.builder l'.builder
  same : l' = { l with builder := l'.builder }

theorem Builds.refl {l : Lowering} (h : l.builder.Sound) : l.Builds l :=
  ⟨h, .refl _, .refl _ _, rfl⟩

theorem Builds.trans {a b c : Lowering} (h : a.Builds b) (h' : b.Builds c) : a.Builds c :=
  ⟨h'.sound, h.builder.trans h'.builder, h.covered.trans h'.covered, by rw [h'.same, h.same]⟩

end Lowering

/-- An instruction that leads on, whatever the registers hold. -/
structure Leads (resources : List Rtl.Resource) (targets : List Nat) (i : Rtl.Insn) : Prop where
  kind : kindAt resources i.resource = some Rtl.Resource.transitionKind
  inputs : i.inputs = []
  targets : i.targets = targets

theorem Leads.mono {p q : Pool} (hpq : p.Extends q) {targets : List Nat} {i : Rtl.Insn}
    (h : Leads p.resources targets i) : Leads q.resources targets i :=
  ⟨hpq.kindAt h.kind, h.inputs, h.targets⟩

theorem transition?_eq_none {resources : List Rtl.Resource} {insns : List Rtl.Insn}
    (h : ∀ i ∈ insns, ∃ kind, kindAt resources i.resource = some kind ∧
      kind ≠ Rtl.Resource.transitionKind) : Rtl.transition? resources insns = none := by
  refine List.find?_eq_none.mpr fun i hi => ?_
  obtain ⟨kind, hk, hne⟩ := h i hi
  simp [Rtl.isTransition_eq hk, hne]

theorem transition?_append_of_none {resources : List Rtl.Resource} {insns : List Rtl.Insn}
    (h : Rtl.transition? resources insns = none) {i : Rtl.Insn}
    (hi : kindAt resources i.resource = some Rtl.Resource.transitionKind) :
    Rtl.transition? resources (insns ++ [i]) = some i := by
  simp only [Rtl.transition?, List.find?_append] at h ⊢
  simp [h, Rtl.isTransition_eq hi]

namespace Lower

variable {s : Site} {l l' : Lowering}

theorem resource_builds {take : Pool → Nat × Pool} {kind : String} {i : Nat}
    (hl : l.builder.Sound) (ht : Pool.TakesOther take kind)
    (h : (resource take).run l = .ok (i, l')) :
    l.Builds l' ∧ kindAt l'.builder.pool.resources i = some kind := by
  cases run_build_eq_ok.mp h
  exact ⟨⟨Builder.resource_sound hl ht.toTakes, Builder.resource_extends _ ht.toTakes,
    Builder.resource_covered ht _ _, rfl⟩, ht.kind hl.pool⟩

theorem insn_builds {resource : Nat} {operand : String} {inputs outputs : List Nat} {i : Rtl.Insn}
    (hl : l.builder.Sound) (h : (insn resource operand inputs outputs).run l = .ok (i, l')) :
    l.Builds l' := by
  cases run_insn_eq_ok.mp h
  exact ⟨Builder.newInsn_sound hl, Builder.newInsn_extends _, .of_eq rfl rfl rfl, rfl⟩

section Targets

variable {targets : List Nat} {st st' : LoweredState}

theorem addTargets_of_none (hl : l.builder.Sound)
    (hnone : Rtl.transition? l.builder.pool.resources st.insns = none)
    (h : (addTargets targets st).run l = .ok (st', l')) :
    l.Builds l' ∧ ∃ i, Leads l'.builder.pool.resources targets i ∧
      st' = { st with insns := st.insns ++ [i] } := by
  simp only [addTargets, run_bind_eq_ok, run_get_eq_ok] at h
  obtain ⟨_, _, hget, h⟩ := h
  cases hget
  simp only [hnone, run_bind_eq_ok] at h
  obtain ⟨r, l₁, hr, i, l₂, hi, h⟩ := h
  obtain ⟨q₁, hk⟩ := resource_builds hl Pool.transition_takes hr
  have q₂ := insn_builds q₁.sound hi
  cases run_pure_eq_ok.mp h
  cases run_insn_eq_ok.mp hi
  exact ⟨q₁.trans q₂, _, ⟨q₂.builder.pool.kindAt hk, rfl, rfl⟩, rfl⟩

theorem addTargets_of_branch {i : Rtl.Insn}
    (hk : kindAt l.builder.pool.resources i.resource = some Rtl.Resource.transitionKind)
    (hst : st.insns = [i]) (h : (addTargets targets st).run l = .ok (st', l')) :
    l' = l ∧ st' = { st with insns := [{ i with targets := i.targets ++ targets }] } := by
  have htr : i.isTransition l.builder.pool.resources = true := by simp [Rtl.isTransition_eq hk]
  simp only [addTargets, run_bind_eq_ok, run_get_eq_ok] at h
  obtain ⟨_, _, hget, h⟩ := h
  cases hget
  simp only [hst, Rtl.transition?, List.find?_cons, htr] at h
  cases run_pure_eq_ok.mp h
  exact ⟨rfl, by simp [Rtl.updateTransition, htr]⟩

theorem jumpTarget_eq_ok {starts : List Nat} {target : UInt64} {t : Nat}
    (h : (jumpTarget s starts target).run l = .ok (t, l')) :
    starts[target.toNat]? = some t ∧ l' = l := by
  unfold jumpTarget at h
  split at h
  · cases run_pure_eq_ok.mp h
    exact ⟨by assumption, rfl⟩
  · exact absurd h run_fault_ne_ok

end Targets

theorem mapStates_at {f : Nat → LoweredState → Lower LoweredState} {k : Nat}
    {sts sts' : List LoweredState} (hl : l.builder.Sound)
    (hstep : ∀ j st a st' b, sts[j]? = some st → l.builder.Extends a.builder → a.builder.Sound →
      (f (k + j) st).run a = .ok (st', b) → a.Builds b)
    (h : (mapStates f k sts).run l = .ok (sts', l')) :
    l.Builds l' ∧ sts'.length = sts.length ∧ ∀ j st, sts[j]? = some st →
      ∃ st' a b, sts'[j]? = some st' ∧ (f (k + j) st).run a = .ok (st', b) ∧
        l.Builds a ∧ b.Builds l' := by
  induction sts generalizing k l sts' with
  | nil =>
    cases run_pure_eq_ok.mp h
    exact ⟨.refl hl, rfl, fun j st hj => by simp at hj⟩
  | cons st rest ih =>
    simp only [mapStates, run_bind_eq_ok] at h
    obtain ⟨st', l₁, hst, rest', l₂, hrest, h⟩ := h
    cases run_pure_eq_ok.mp h
    have q₁ := hstep 0 st l st' l₁ rfl (.refl _) hl hst
    obtain ⟨q₂, hlen, hat⟩ := ih q₁.sound (fun j x a x' b hx ha hs hb => by
      refine hstep (j + 1) x a x' b hx (q₁.builder.trans ha) hs ?_
      rwa [← Nat.add_assoc, Nat.add_right_comm]) hrest
    refine ⟨q₁.trans q₂, by simp [hlen], fun j x hx => ?_⟩
    cases j with
    | zero =>
      cases Option.some.inj hx
      exact ⟨st', l, l₁, rfl, hst, .refl hl, q₂⟩
    | succ j =>
      obtain ⟨x', a, b, hx', hb, hla, hbl⟩ := hat j x hx
      refine ⟨x', a, b, hx', ?_, q₁.trans hla, hbl⟩
      rwa [← Nat.add_assoc, Nat.add_right_comm]

theorem updateStates_at {f : Nat → LoweredState → Lower LoweredState} (hl : l.builder.Sound)
    (hstep : ∀ j st a st' b, l.states[j]? = some st → l.builder.Extends a.builder →
      a.builder.Sound → (f j st).run a = .ok (st', b) → a.Builds b)
    (h : (updateStates f).run l = .ok ((), l')) :
    ∃ l₁, l.Builds l₁ ∧ l' = { l₁ with states := l'.states } ∧
      l'.states.length = l.states.length ∧
      ∀ j st, l.states[j]? = some st → ∃ st' a b, l'.states[j]? = some st' ∧
        (f j st).run a = .ok (st', b) ∧ l.Builds a ∧ b.Builds l₁ := by
  simp only [updateStates, run_bind_eq_ok, run_get_eq_ok, run_modify_eq_ok] at h
  obtain ⟨_, _, hget, sts', l₁, hmap, h⟩ := h
  cases hget
  cases h
  obtain ⟨q, hlen, hat⟩ := mapStates_at hl (fun j st a st' b hj ha hs hb =>
    hstep j st a st' b hj ha hs (by simpa using hb)) hmap
  exact ⟨l₁, q, rfl, hlen, fun j st hj => by simpa using hat j st hj⟩

end Lower

namespace LoweredState

/-- Whether no instruction of a state leads to a state. -/
def Idle (resources : List Rtl.Resource) (st : LoweredState) : Prop :=
  ∀ i ∈ st.insns, ∃ kind, kindAt resources i.resource = some kind ∧
    kind ≠ Rtl.Resource.transitionKind

theorem Idle.mono {p q : Pool} (hpq : p.Extends q) {st : LoweredState} (h : st.Idle p.resources) :
    st.Idle q.resources := fun i hi => by
  obtain ⟨kind, hk, hne⟩ := h i hi
  exact ⟨kind, hpq.kindAt hk, hne⟩

/-- A jump, and the state it becomes once the positions of its targets are known. -/
inductive Jumps (resources : List Rtl.Resource) (starts : List Nat) (i : Nat) :
    LoweredState → LoweredState → Prop
  | goto (id : Nat) (target : UInt64) {t : Nat} {j : Rtl.Insn}
      (start : starts[target.toNat]? = some t) (leads : Leads resources [t] j) :
      Jumps resources starts i ⟨id, [], some (.goto target), none⟩
        ⟨id, [j], some (.goto target), none⟩
  | branch (id : Nat) (cond : RegisterId) (target : UInt64) {t : Nat} {j : Rtl.Insn}
      (start : starts[target.toNat]? = some t)
      (kind : kindAt resources j.resource = some Rtl.Resource.transitionKind) :
      Jumps resources starts i ⟨id, [j], some (.branch cond target), none⟩
        ⟨id, [{ j with targets := [t, i + 1] }], some (.branch cond target), none⟩

/-- A state of a method with `n` states, and what linking makes of it. The last state leads
nowhere, unless the method closes its loop. -/
inductive Routed (resources : List Rtl.Resource) (starts : List Nat) (closes : Bool) (n i : Nat) :
    LoweredState → LoweredState → Prop
  | jump {st st' : LoweredState} (lt : i + 1 < n) (jumps : Jumps resources starts i st st') :
      Routed resources starts closes n i st st'
  | next {st : LoweredState} {j : Rtl.Insn} (lt : i + 1 < n) (none : st.jump = none)
      (idle : st.Idle resources) (leads : Leads resources [i + 1] j) :
      Routed resources starts closes n i st { st with insns := st.insns ++ [j] }
  | last {st : LoweredState} (eq : i + 1 = n) (none : st.jump = none) (idle : st.Idle resources)
      (stays : closes = false) : Routed resources starts closes n i st st
  | close {st : LoweredState} {fin : List Rtl.Insn} {j : Rtl.Insn} (eq : i + 1 = n)
      (none : st.jump = none) (idle : st.Idle resources) (back : closes = true)
      (works : ∀ k ∈ fin, Works resources k) (leads : Leads resources [0] j) :
      Routed resources starts closes n i st { st with insns := st.insns ++ fin ++ [j] }

theorem Jumps.mono {p q : Pool} (hpq : p.Extends q) {starts : List Nat} {i : Nat}
    {st st' : LoweredState} (h : Jumps p.resources starts i st st') :
    Jumps q.resources starts i st st' := by
  cases h with
  | goto id target start leads => exact .goto id target start (leads.mono hpq)
  | branch id cond target start kind => exact .branch id cond target start (hpq.kindAt kind)

theorem Raw.idle {resources : List Rtl.Resource} {st : LoweredState} (h : st.Raw resources)
    (hjump : st.jump = none) : st.Idle resources := by
  cases h with
  | goto id target => cases hjump
  | branch id cond target kind targets inputs => cases hjump
  | call id callee kind targets =>
    intro i hi
    rw [List.mem_singleton.mp hi]
    exact ⟨_, kind, by decide⟩
  | work id works =>
    intro i hi
    obtain ⟨-, kind, hk, hne, -⟩ := works i hi
    exact ⟨kind, hk, hne⟩

end LoweredState

namespace Lower

open LoweredState (Idle Jumps Routed)

variable {s : Site} {l l' : Lowering} {starts : List Nat} {i : Nat} {st st' : LoweredState}

theorem resolveJump_spec (hl : l.builder.Sound) (hraw : st.Raw l.builder.pool.resources)
    (h : (resolveJump s starts i st).run l = .ok (st', l')) :
    l.Builds l' ∧ (Jumps l'.builder.pool.resources starts i st st' ∨
      st' = st ∧ st.jump = none ∧ st.Idle l'.builder.pool.resources) := by
  cases hraw with
  | goto id target =>
    simp only [resolveJump, run_bind_eq_ok] at h
    obtain ⟨t, l₁, ht, h⟩ := h
    obtain ⟨hstart, rfl⟩ := jumpTarget_eq_ok ht
    obtain ⟨q, j, hj, rfl⟩ := addTargets_of_none hl rfl h
    exact ⟨q, .inl (.goto id target hstart hj)⟩
  | branch id cond target kind targets inputs =>
    simp only [resolveJump, run_bind_eq_ok] at h
    obtain ⟨t, l₁, ht, h⟩ := h
    obtain ⟨hstart, rfl⟩ := jumpTarget_eq_ok ht
    obtain ⟨rfl, rfl⟩ := addTargets_of_branch kind rfl h
    refine ⟨.refl hl, .inl ?_⟩
    rw [targets]
    exact .branch id cond target hstart kind
  | call id callee kind targets =>
    cases run_pure_eq_ok.mp h
    exact ⟨.refl hl, .inr ⟨rfl, rfl, (LoweredState.Raw.call id callee kind targets).idle rfl⟩⟩
  | work id works =>
    cases run_pure_eq_ok.mp h
    exact ⟨.refl hl, .inr ⟨rfl, rfl, (LoweredState.Raw.work id works).idle rfl⟩⟩

theorem linkState_of_jumps {last : Nat} {raw : LoweredState}
    (hjumps : Jumps l.builder.pool.resources starts i raw st)
    (h : (linkState last i st).run l = .ok (st', l')) : l' = l ∧ st' = st := by
  simp only [linkState, run_bind_eq_ok, run_get_eq_ok] at h
  obtain ⟨_, _, hget, h⟩ := h
  cases hget
  split at h
  · cases run_pure_eq_ok.mp h
    exact ⟨rfl, rfl⟩
  · cases hjumps with
    | goto id target start leads =>
      rename_i t j
      obtain ⟨jid, jres, jop, jin, jout, jtargets⟩ := j
      obtain ⟨hk, -, htargets⟩ := leads
      have htr := Rtl.isTransition_eq hk
      simp only at htargets
      subst htargets
      simp only [Rtl.transition?, List.find?_cons, htr, decide_true] at h
      cases run_pure_eq_ok.mp h
      exact ⟨rfl, rfl⟩
    | branch id cond target start kind =>
      rename_i t j
      have htr : Rtl.Insn.isTransition l.builder.pool.resources
          { j with targets := [t, i + 1] } = true := by
        simp [Rtl.isTransition_eq (i := { j with targets := [t, i + 1] }) kind]
      simp only [Rtl.transition?, List.find?_cons, htr] at h
      cases run_pure_eq_ok.mp h
      exact ⟨rfl, rfl⟩

theorem linkState_of_idle {last : Nat} (hl : l.builder.Sound) (hidle : st.Idle l.builder.pool.resources)
    (h : (linkState last i st).run l = .ok (st', l')) :
    l.Builds l' ∧ ((i = last ∧ st' = st) ∨ (i ≠ last ∧ ∃ j,
      Leads l'.builder.pool.resources [i + 1] j ∧ st' = { st with insns := st.insns ++ [j] })) := by
  have hnone := transition?_eq_none hidle
  simp only [linkState, run_bind_eq_ok, run_get_eq_ok] at h
  obtain ⟨_, _, hget, h⟩ := h
  cases hget
  split at h
  · cases run_pure_eq_ok.mp h
    exact ⟨.refl hl, .inl ⟨by assumption, rfl⟩⟩
  · simp only [hnone] at h
    obtain ⟨q, j, hj, rfl⟩ := addTargets_of_none hl hnone h
    exact ⟨q, .inr ⟨by assumption, j, hj, rfl⟩⟩

theorem finish_builds {e : Rtl.Insn} {fin : List Rtl.Insn} (hl : l.builder.Sound)
    (h : (finish s e).run l = .ok (fin, l')) :
    l.Builds l' ∧ ∀ k ∈ fin, Works l'.builder.pool.resources k := by
  have hone : ∀ {take kind} {r : Lower (List Rtl.Insn)}, Pool.TakesOther take kind →
      kind ≠ Rtl.Resource.transitionKind → kind ≠ Pool.pseudoKind →
      (r = do
        let unit ← resource take
        return [← insn unit "" e.outputs []]) → r.run l = .ok (fin, l') →
      l.Builds l' ∧ ∀ k ∈ fin, Works l'.builder.pool.resources k := by
    rintro take kind _ ht htr hps rfl h
    simp only [run_bind_eq_ok] at h
    obtain ⟨unit, l₁, hunit, i, l₂, hi, h⟩ := h
    obtain ⟨q₁, hk⟩ := resource_builds hl ht hunit
    have q₂ := insn_builds q₁.sound hi
    cases run_pure_eq_ok.mp h
    cases run_insn_eq_ok.mp hi
    refine ⟨q₁.trans q₂, fun k hk' => ?_⟩
    rw [List.mem_singleton.mp hk']
    exact ⟨rfl, kind, q₂.builder.pool.kindAt hk, htr, hps⟩
  unfold finish at h
  split at h
  · exact hone (Pool.ofKind_takes (by decide)) (by decide) (by decide) rfl h
  · split at h
    · cases run_pure_eq_ok.mp h
      exact ⟨.refl hl, by simp⟩
    · exact hone (Pool.ofKind_takes (by decide)) (by decide) (by decide) rfl h

end Lower

structure Lowering.Linked (starts : List Nat) (closes : Bool) (l l' : Lowering) : Prop where
  sound : l'.builder.Sound
  builder : l.builder.Extends l'.builder
  covered : Builder.Covered .none l.builder l'.builder
  walker : l'.walker = l.walker
  locals : l'.locals = l.locals
  length : l'.states.length = l.states.length
  state : ∀ {i : Nat} {st : LoweredState}, l.states[i]? = some st → ∃ st',
    l'.states[i]? = some st' ∧
      LoweredState.Routed l'.builder.pool.resources starts closes l.states.length i st st'

namespace Lower

open LoweredState (Idle Jumps Routed)

variable {s : Site} {l l₁ l₂ l₃ : Lowering} {starts : List Nat}

/-- Linking, once jumps are resolved: a state of `l` has become a jump, or is as it was. -/
theorem linkStates_links (hl₁ : l₁.builder.Sound) (hext : l.builder.Extends l₁.builder)
    (hcov : Builder.Covered .none l.builder l₁.builder) (hwalker : l₁.walker = l.walker)
    (hlocals : l₁.locals = l.locals) (hlen : l₁.states.length = l.states.length)
    (hform : ∀ i st, l.states[i]? = some st → ∃ st₁, l₁.states[i]? = some st₁ ∧
      (i + 1 < l.states.length ∧ Jumps l₁.builder.pool.resources starts i st st₁ ∨
        st₁ = st ∧ st.jump = none ∧ st.Idle l₁.builder.pool.resources))
    (h : linkStates.run l₁ = .ok ((), l₂)) : Lowering.Linked starts false l l₂ := by
  simp only [linkStates, run_bind_eq_ok, run_get_eq_ok] at h
  obtain ⟨_, _, hget, h⟩ := h
  cases hget
  have hraw : ∀ (j : Nat) st₁, l₁.states[j]? = some st₁ → ∃ st, l.states[j]? = some st := by
    intro j st₁ hj
    have hlt := (List.getElem?_eq_some_iff.mp hj).1
    exact ⟨_, List.getElem?_eq_getElem (hlen ▸ hlt)⟩
  obtain ⟨l', q, hsame, hlen', hat⟩ := updateStates_at hl₁ (fun j st₁ a st' b hj ha hs hb => by
    obtain ⟨st, hst⟩ := hraw j st₁ hj
    obtain ⟨st₁', hst₁, hcase⟩ := hform j st hst
    cases hj.symm.trans hst₁
    rcases hcase with ⟨-, hjumps⟩ | ⟨rfl, -, hidle⟩
    · obtain ⟨rfl, -⟩ := linkState_of_jumps (hjumps.mono ha.pool) hb
      exact .refl hs
    · exact (linkState_of_idle hs (hidle.mono ha.pool) hb).1) h
  have hb : l₂.builder = l'.builder := by rw [hsame]
  have hw : l₂.walker = l'.walker := by rw [hsame]
  have hlo : l₂.locals = l'.locals := by rw [hsame]
  refine ⟨hb ▸ q.sound, hb ▸ hext.trans q.builder, hb ▸ hcov.trans q.covered, ?_, ?_,
    hlen'.trans hlen, fun {i st} hst => ?_⟩
  · rw [hw, q.same, hwalker]
  · rw [hlo, q.same, hlocals]
  · obtain ⟨st₁, hst₁, hcase⟩ := hform i st hst
    obtain ⟨st₂, a, b, hst₂, hrun, hla, hbl⟩ := hat i st₁ hst₁
    have hi : i < l.states.length := (List.getElem?_eq_some_iff.mp hst).1
    refine ⟨st₂, hst₂, ?_⟩
    rw [hb]
    rcases hcase with ⟨hlt, hjumps⟩ | ⟨rfl, hjump, hidle⟩
    · obtain ⟨rfl, rfl⟩ := linkState_of_jumps (hjumps.mono hla.builder.pool) hrun
      exact .jump hlt (hjumps.mono q.builder.pool)
    · have hidle' := hidle.mono hla.builder.pool
      obtain ⟨-, ⟨hi', rfl⟩ | ⟨hi', j, hj, rfl⟩⟩ := linkState_of_idle hla.sound hidle' hrun
      · exact .last (by omega) hjump (hidle.mono q.builder.pool) rfl
      · exact .next (by omega) hjump (hidle.mono q.builder.pool) (hj.mono hbl.builder.pool)

theorem linkStates_of_raw (hl : l.Sound) (hjump : ∀ st ∈ l.states, st.jump = none)
    (h : linkStates.run l = .ok ((), l₁)) : Lowering.Linked [] false l l₁ :=
  linkStates_links hl.builder (.refl _) (.refl _ _) rfl rfl rfl (fun _ st hst =>
    have hmem := List.mem_of_getElem? hst
    ⟨st, hst, .inr ⟨rfl, hjump st hmem, (hl.states st hmem).idle (hjump st hmem)⟩⟩) h

theorem resolve_links (hl : l.Sound)
    (hlast : ∀ st, l.states[l.states.length - 1]? = some st → st.jump = none)
    (hresolve : (updateStates (resolveJump s starts)).run l = .ok ((), l₁))
    (hlink : linkStates.run l₁ = .ok ((), l₂)) : Lowering.Linked starts false l l₂ := by
  obtain ⟨l', q, hsame, hlen, hat⟩ := updateStates_at hl.builder
    (fun j st a st' b hj ha hs hb =>
      (resolveJump_spec hs ((hl.states st (List.mem_of_getElem? hj)).mono ha.pool) hb).1) hresolve
  have hb : l₁.builder = l'.builder := by rw [hsame]
  have hw : l₁.walker = l'.walker := by rw [hsame]
  have hlo : l₁.locals = l'.locals := by rw [hsame]
  refine linkStates_links (hb ▸ q.sound) (hb ▸ q.builder) (hb ▸ q.covered) ?_ ?_ hlen
    (fun i st hst => ?_) hlink
  · rw [hw, q.same]
  · rw [hlo, q.same]
  · obtain ⟨st₁, a, b, hst₁, hrun, hla, hbl⟩ := hat i st hst
    refine ⟨st₁, hst₁, ?_⟩
    rw [hb]
    have hraw := (hl.states st (List.mem_of_getElem? hst)).mono hla.builder.pool
    obtain ⟨-, hjumps | ⟨rfl, hjump, hidle⟩⟩ := resolveJump_spec hla.sound hraw hrun
    · refine .inl ⟨?_, hjumps.mono hbl.builder.pool⟩
      have hi : i < l.states.length := (List.getElem?_eq_some_iff.mp hst).1
      by_contra hge
      have hi' : i = l.states.length - 1 := by omega
      have hnone := hlast st (hi' ▸ hst)
      cases hjumps <;> cases hnone
    · exact .inr ⟨rfl, hjump, hidle.mono hbl.builder.pool⟩

theorem idle_last (h : Lowering.Linked starts false l l₁) {a : Lowering} {st : LoweredState}
    (ha : l₁.builder.Extends a.builder) (hst : l₁.states[l₁.states.length - 1]? = some st) :
    st.Idle a.builder.pool.resources := by
  have hlt := (List.getElem?_eq_some_iff.mp hst).1
  obtain ⟨raw, hraw⟩ : ∃ raw, l.states[l₁.states.length - 1]? = some raw :=
    ⟨_, List.getElem?_eq_getElem (h.length ▸ hlt)⟩
  obtain ⟨st', hst', hrouted⟩ := h.state hraw
  cases hst.symm.trans hst'
  have hn : l₁.states.length - 1 + 1 = l.states.length := by rw [← h.length]; omega
  cases hrouted with
  | jump lt => omega
  | next lt => omega
  | last eq none idle => exact idle.mono ha.pool
  | close eq none idle back => cases back

/-- A state that leads nowhere yet is finished, and led back to the first. -/
theorem back_builds {e : Rtl.Insn} {a b : Lowering} {st st' : LoweredState}
    (hs : a.builder.Sound) (hst : st.Idle a.builder.pool.resources)
    (h : (do
      let insns ← finish s e
      addTargets [0] { st with insns := st.insns ++ insns }).run a = .ok (st', b)) :
    a.Builds b ∧ ∃ fin j, (∀ k ∈ fin, Works b.builder.pool.resources k) ∧
      Leads b.builder.pool.resources [0] j ∧ st' = { st with insns := st.insns ++ fin ++ [j] } := by
  rw [run_bind_eq_ok] at h
  obtain ⟨fin, a₁, hfin, h⟩ := h
  obtain ⟨q₁, hworks⟩ := finish_builds hs hfin
  have hidle : Idle a₁.builder.pool.resources { st with insns := st.insns ++ fin } := by
    intro i hi
    rcases List.mem_append.mp hi with hi | hi
    · exact (hst.mono q₁.builder.pool) i hi
    · obtain ⟨-, kind, hk, hne, -⟩ := hworks i hi
      exact ⟨kind, hk, hne⟩
  obtain ⟨q₂, j, hj, rfl⟩ := addTargets_of_none q₁.sound (transition?_eq_none hidle) h
  exact ⟨q₁.trans q₂, fin, j, fun k hk => (hworks k hk).mono q₂.builder.pool, hj, rfl⟩

theorem closeLoop_links {e : Rtl.Insn} (h : Lowering.Linked starts false l l₁)
    (hclose : (closeLoop s e).run l₁ = .ok ((), l₂)) : Lowering.Linked starts true l l₂ := by
  simp only [closeLoop, run_bind_eq_ok, run_get_eq_ok] at hclose
  obtain ⟨_, _, hget, hclose⟩ := hclose
  cases hget
  obtain ⟨l', q, hsame, hlen, hat⟩ := updateStates_at h.sound (fun j st a st' b hj ha hs hb => by
    split at hb
    · rename_i hlast
      exact (back_builds hs (idle_last h ha (hlast ▸ hj)) hb).1
    · cases run_pure_eq_ok.mp hb
      exact .refl hs) hclose
  have hb : l₂.builder = l'.builder := by rw [hsame]
  have hw : l₂.walker = l'.walker := by rw [hsame]
  have hlo : l₂.locals = l'.locals := by rw [hsame]
  refine ⟨hb ▸ q.sound, hb ▸ h.builder.trans q.builder, hb ▸ h.covered.trans q.covered, ?_, ?_,
    hlen.trans h.length, fun {i st} hst => ?_⟩
  · rw [hw, q.same, h.walker]
  · rw [hlo, q.same, h.locals]
  · obtain ⟨st₁, hst₁, hrouted⟩ := h.state hst
    obtain ⟨st₂, a, b, hst₂, hrun, hla, hbl⟩ := hat i st₁ hst₁
    refine ⟨st₂, hst₂, ?_⟩
    rw [hb]
    have hi : i < l.states.length := (List.getElem?_eq_some_iff.mp hst).1
    split at hrun
    · rename_i hlast
      have hlast' : i + 1 = l.states.length := by rw [hlast, h.length]; omega
      obtain ⟨-, fin, j, hworks, hj, rfl⟩ :=
        back_builds hla.sound (idle_last h hla.builder (hlast ▸ hst₁)) hrun
      cases hrouted with
      | jump lt => omega
      | next lt => omega
      | last eq none idle =>
        exact .close eq none (idle.mono q.builder.pool) rfl
          (fun k hk => (hworks k hk).mono hbl.builder.pool) (hj.mono hbl.builder.pool)
      | close eq none idle back => cases back
    · rename_i hlast
      cases run_pure_eq_ok.mp hrun
      have hlt : i + 1 < l.states.length := by rw [h.length] at hlast; omega
      cases hrouted with
      | jump lt jumps => exact .jump lt (jumps.mono q.builder.pool)
      | next lt none idle leads =>
        exact .next lt none (idle.mono q.builder.pool) (leads.mono q.builder.pool)
      | last eq => omega
      | close eq none idle back => cases back

end Lower
end Synth
end MachineSynth
