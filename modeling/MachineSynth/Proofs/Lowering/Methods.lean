import Mathlib
import MachineSynth.Proofs.Lowering.Linking

/-! Lowering of whole methods: what is done before and after the code, and what can be said of the
states of a method once it is lowered. -/
namespace MachineSynth
namespace Synth
namespace Lower

open Rtl (kindAt)
open Lowering (Quiet Step Yields Linked)

variable {s : Site} {u : Uses} {l l' : Lowering}

section Entry

theorem argumentRegisters_quiet {i : Nat} {args : List VarDecl} {rs : List Nat} (hl : l.Sound)
    (h : (argumentRegisters s i args).run l = .ok (rs, l')) : Quiet u l l' := by
  induction args generalizing i l rs with
  | nil =>
    cases run_pure_eq_ok.mp h
    exact hl.refl_quiet u
  | cons d rest ih =>
    simp only [argumentRegisters, run_bind_eq_ok] at h
    obtain ⟨r, l₁, hr, h⟩ := h
    have q₁ : Quiet u l l₁ := storage_quiet hl hr
    have hrest : ∀ {l₂}, Quiet u l₁ l₂ → (do
        return r :: (← argumentRegisters s (i + 1) rest)).run l₂ = .ok (rs, l') →
        Quiet u l l' := by
      intro l₂ q₂ h
      rw [run_bind_eq_ok] at h
      obtain ⟨rs', l₃, hrs, h⟩ := h
      cases run_pure_eq_ok.mp h
      exact (q₁.trans q₂).trans (ih q₂.sound hrs)
    split at h
    · rw [run_bind_eq_ok] at h
      obtain ⟨_, l₂, hbind, h⟩ := h
      exact hrest (bindLocal_quiet q₁.sound hbind) h
    · exact hrest (q₁.sound.refl_quiet u) h

theorem resultRegisters_quiet {rs : List Nat} (hl : l.Sound)
    (h : (resultRegisters s).run l = .ok (rs, l')) : Quiet u l l' := by
  unfold resultRegisters at h
  split at h
  · simp only [run_bind_eq_ok] at h
    obtain ⟨r, l₁, hr, h⟩ := h
    cases run_pure_eq_ok.mp h
    exact storage_quiet hl hr
  · exact registers_quiet hl h

theorem entry_quiet {e : Rtl.Insn} (hl : l.Sound) (h : (entry s).run l = .ok (e, l')) :
    Quiet u l l' := by
  simp only [entry, run_bind_eq_ok] at h
  obtain ⟨unit, l₁, hunit, i, l₂, hi, inputs, l₃, hinputs, outputs, l₄, houtputs, h⟩ := h
  obtain ⟨q₁, -⟩ := resource_quiet (u := u) hl Pool.pseudo_takes hunit
  have q₂ : Quiet u l₁ l₂ := insn_quiet q₁.sound hi
  have q₃ : Quiet u l₂ l₃ := argumentRegisters_quiet q₂.sound hinputs
  have q₄ : Quiet u l₃ l₄ := resultRegisters_quiet q₃.sound houtputs
  split at h
  · exact absurd h run_error_ne_ok
  · cases run_pure_eq_ok.mp h
    exact ((q₁.trans q₂).trans q₃).trans q₄

theorem wait_step {e : Rtl.Insn} (hl : l.Sound) (h : (wait s e).run l = .ok ((), l')) :
    Yields u [none] false l l' := by
  simp only [wait, run_bind_eq_ok, run_get_eq_ok] at h
  obtain ⟨_, _, hget, h⟩ := h
  cases hget
  have hone : ∀ {take kind}, Pool.TakesOther take kind → kind ≠ Rtl.Resource.transitionKind →
      kind ≠ Pool.pseudoKind → (do
        let unit ← resource take
        emit unit "" [] e.inputs).run l = .ok ((), l') → Yields u [none] false l l' := by
    intro take kind ht htr hps h
    rw [run_bind_eq_ok] at h
    obtain ⟨unit, l₁, hunit, h⟩ := h
    obtain ⟨q, hk⟩ := resource_quiet (u := u) hl ht hunit
    exact q.yields (emit_step q.sound hk htr hps h)
  split at h
  · exact hone (Pool.ofKind_takes (by decide)) (by decide) (by decide) h
  · split at h
    · exact hone (Pool.dataFlow_takes _) (by decide) (by decide) h
    · exact hone (Pool.ofKind_takes (by decide)) (by decide) (by decide) h

end Entry

/-- What comes before the code of a method: its entry, and the state to wait in if there is one. -/
def opening (s : Site) : Lower Rtl.Insn := do
  let e ← entry s
  if s.role != .inner then wait s e
  return e

/-- What comes after the code of a method: a last state, and the links between the states. -/
def closing (s : Site) (e : Rtl.Insn) (starts : List Nat) : Lower Rtl.Insn := do
  push [] none none
  let last := (← get).states.length - 1
  updateStates (resolveJump s (starts ++ [last]))
  linkStates
  if s.role != .inner then closeLoop s e
  return e

theorem body_eq (s : Site) : body s = (do
    let e ← opening s
    let starts ← code s s.method.code
    closing s e starts) := by
  unfold body opening closing
  cases h : s.role != .inner <;> simp

theorem opening_walker {e : Rtl.Insn} {l' : Lowering} (hl : l.Sound)
    (h : (opening s).run l = .ok (e, l')) : l'.Sound ∧ l'.walker = l.walker := by
  simp only [opening, run_bind_eq_ok] at h
  obtain ⟨e', l₁, he, h⟩ := h
  have q₁ := entry_quiet (u := .none) hl he
  split at h
  · rw [run_bind_eq_ok] at h
    obtain ⟨_, l₂, hwait, h⟩ := h
    cases run_pure_eq_ok.mp h
    have q₂ := wait_step (u := .none) q₁.sound hwait
    exact ⟨q₂.sound, q₂.walker.trans q₁.walker⟩
  · cases run_pure_eq_ok.mp h
    exact ⟨q₁.sound, q₁.walker⟩

def firstState (role : Role) : Nat := if role = .inner then 0 else 1

/-- A method with code is its entry, perhaps a state to wait in, the code, and a last state, all
linked in the end. -/
theorem body_spec {e : Rtl.Insn} (hl : l.Sound)
    (h : (body s).run l = .ok (e, l')) :
    ∃ l₁ l₂ l₃ starts, (entry s).run l = .ok (e, l₁) ∧ Quiet u l l₁ ∧
      (s.role = .inner ∧ l₂ = l₁ ∨ s.role ≠ .inner ∧ (wait s e).run l₁ = .ok ((), l₂)) ∧
      Step u (List.replicate (firstState s.role) none) l l₂ ∧
      (code s s.method.code).run l₂ = .ok (starts, l₃) ∧
      Linked (starts ++ [l₃.states.length]) (s.role != .inner) (pushed l₃) l' := by
  simp only [body, run_bind_eq_ok] at h
  obtain ⟨e', l₁, he, h⟩ := h
  have q₁ : Quiet u l l₁ := entry_quiet hl he
  -- What follows the entry is the same whether or not the method waits.
  have hrest : ∀ {l₂ : Lowering} {finally' : Lower Rtl.Insn}, l₂.Sound → (do
      let starts ← code s s.method.code
      push [] none none
      let last := (← get).states.length - 1
      updateStates (resolveJump s (starts ++ [last]))
      linkStates
      finally').run l₂ = .ok (e, l') → ∃ l₃ l₄ starts,
        (code s s.method.code).run l₂ = .ok (starts, l₃) ∧
        Linked (starts ++ [l₃.states.length]) false (pushed l₃) l₄ ∧
        finally'.run l₄ = .ok (e, l') := by
    intro l₂ finally' hl₂ h
    simp only [run_bind_eq_ok, run_get_eq_ok] at h
    obtain ⟨starts, l₃, hcode, _, l₄, hpush, _, _, hget, _, l₅, hresolve, _, l₆, hlink, h⟩ := h
    cases hget
    cases run_push_eq_ok.mp hpush
    obtain ⟨hat, -⟩ := code_spec hl₂ hcode
    have hlen : (pushed l₃).states.length - 1 = l₃.states.length := by simp [pushed]
    refine ⟨l₃, l₆, starts, hcode, ?_, h⟩
    refine resolve_links (pushed_step (u := .none) hat.sound).sound (fun st hst => ?_)
      (hlen ▸ hresolve) hlink
    rw [hlen] at hst
    simp only [pushed, List.getElem?_concat_length, Option.some.injEq] at hst
    rw [← hst]
  split at h
  · rename_i hrole
    replace hrole : s.role ≠ .inner := by simpa using hrole
    rw [run_bind_eq_ok] at h
    obtain ⟨_, l₂, hwait, h⟩ := h
    have q₂ : Step u [none] l l₂ := q₁.then (wait_step q₁.sound hwait).toStep
    obtain ⟨l₃, l₄, starts, hcode, hlinked, h⟩ := hrest q₂.sound h
    rw [run_bind_eq_ok] at h
    obtain ⟨_, l₅, hclose, h⟩ := h
    cases run_pure_eq_ok.mp h
    refine ⟨l₁, l₂, l₃, starts, he, q₁, .inr ⟨hrole, hwait⟩, ?_, hcode, ?_⟩
    · simpa [firstState, hrole] using q₂
    · have hcloses : (s.role != .inner) = true := by simpa using hrole
      rw [hcloses]
      exact closeLoop_links hlinked hclose
  · rename_i hrole
    replace hrole : s.role = .inner := by simpa using hrole
    obtain ⟨l₃, l₄, starts, hcode, hlinked, h⟩ := hrest q₁.sound h
    cases run_pure_eq_ok.mp h
    refine ⟨l₁, l₁, l₃, starts, he, q₁, .inl ⟨hrole, rfl⟩, ?_, hcode, ?_⟩
    · simpa [firstState, hrole] using q₁.step
    · simpa [hrole] using hlinked

theorem imported_spec {e : Rtl.Insn} (hl : l.Sound) (hempty : l.states = [])
    (h : (imported s).run l = .ok (e, l')) :
    ∃ l₁ l₂, (entry s).run l = .ok (e, l₁) ∧ Step u [none] l l₂ ∧
      Linked [] false (pushed l₂) l' := by
  simp only [imported, run_bind_eq_ok] at h
  obtain ⟨e', l₁, he, unit, l₂, hunit, _, l₃, hemit, _, l₄, hpush, _, l₅, hlink, h⟩ := h
  cases run_pure_eq_ok.mp h
  have q₁ : Quiet u l l₁ := entry_quiet hl he
  obtain ⟨q₂, hk⟩ := resource_quiet (u := u) q₁.sound (Pool.embedded_takes _) hunit
  have e₃ : Yields u [none] false l₂ l₃ := emit_step q₂.sound hk (by decide) (by decide) hemit
  have hl₃ : Step u [none] l l₃ := (q₁.trans q₂).then e₃.toStep
  refine ⟨l₁, l₃, he, hl₃, ?_⟩
  cases run_push_eq_ok.mp hpush
  refine linkStates_of_raw (pushed_step (u := u) hl₃.sound).sound (fun st hst => ?_) hlink
  have hstates : l₂.states = [] := by rw [q₂.states, q₁.states, hempty]
  cases run_emit_eq_ok.mp hemit
  simp only [pushed, hstates, List.nil_append, List.cons_append, List.mem_cons,
    List.not_mem_nil, or_false] at hst
  rcases hst with rfl | rfl <;> rfl

theorem portInsn_quiet {name : String} {output : Bool} {width : UInt64}
    {inputs outputs : List Nat} {is : List Rtl.Insn} (hl : l.Sound) (hu : u.port name)
    (h : (do
      let unit ← resource (·.port name output width)
      return [← insn unit "" inputs outputs]).run l = .ok (is, l')) :
    Quiet u l l' ∧ ∀ i ∈ is, Works l'.builder.pool.resources i := by
  have ht := Pool.port_takes name output width
  have htr : (if output then "ext-output" else "ext-input") ≠ Rtl.Resource.transitionKind := by
    cases output <;> decide
  have hps : (if output then "ext-output" else "ext-input") ≠ Pool.pseudoKind := by
    cases output <;> decide
  simp only [run_bind_eq_ok] at h
  obtain ⟨unit, l₁, hunit, i, l₂, hi, h⟩ := h
  obtain ⟨q₁, hk⟩ : Quiet u l l₁ ∧ Rtl.kindAt l₁.builder.pool.resources unit =
      some (if output then "ext-output" else "ext-input") := by
    cases run_build_eq_ok.mp hunit
    exact ⟨hl.build (Builder.resource_extends _ ht) (Builder.resource_sound hl.builder ht)
      (Builder.port_covered hu output width _), ht.kind hl.builder.pool⟩
  have q₂ : Quiet u l₁ l₂ := insn_quiet q₁.sound hi
  cases run_pure_eq_ok.mp h
  cases run_insn_eq_ok.mp hi
  refine ⟨q₁.trans q₂, fun j hj => ?_⟩
  rw [List.mem_singleton.mp hj]
  exact ⟨rfl, _, q₂.builder.pool.kindAt hk, htr, hps⟩

theorem outputInsns_quiet {e : Rtl.Insn} {is : List Rtl.Insn} (hl : l.Sound)
    (hu : u.port (Pool.portName s.method))
    (h : (outputInsns s e).run l = .ok (is, l')) :
    Quiet u l l' ∧ ∀ i ∈ is, Works l'.builder.pool.resources i := by
  unfold outputInsns at h
  split at h
  · split at h
    · exact absurd h run_error_ne_ok
    · exact portInsn_quiet hl hu h
  · cases run_pure_eq_ok.mp h
    exact ⟨hl.refl_quiet u, by simp⟩

theorem inputInsns_quiet {e : Rtl.Insn} {is : List Rtl.Insn} (hl : l.Sound)
    (hu : u.port (Pool.portName s.method))
    (h : (inputInsns s e).run l = .ok (is, l')) :
    Quiet u l l' ∧ ∀ i ∈ is, Works l'.builder.pool.resources i := by
  unfold inputInsns at h
  split at h
  · split at h
    · exact absurd h run_error_ne_ok
    · exact portInsn_quiet hl hu h
  · cases run_pure_eq_ok.mp h
    exact ⟨hl.refl_quiet u, by simp⟩

theorem port_spec {e : Rtl.Insn} (hl : l.Sound) (hempty : l.states = [])
    (hu : u.port (Pool.portName s.method))
    (h : (port s).run l = .ok (e, l')) :
    ∃ l₁ l₂, (entry s).run l = .ok (e, l₁) ∧ Step u [none] l l₂ ∧
      Linked [] false (pushed l₂) l' := by
  simp only [port, run_bind_eq_ok] at h
  obtain ⟨e', l₁, he, outputs, l₂, hout, inputs, l₃, hin, _, l₄, hwork, _, l₅, hpush, _, l₆, hlink,
    h⟩ := h
  cases run_pure_eq_ok.mp h
  have q₁ : Quiet u l l₁ := entry_quiet hl he
  obtain ⟨q₂, hworks₂⟩ := outputInsns_quiet (u := u) q₁.sound hu hout
  obtain ⟨q₃, hworks₃⟩ := inputInsns_quiet (u := u) q₂.sound hu hin
  have e₄ : Step u [none] l₃ l₄ := by
    refine push_step q₃.sound (fun id => .work id fun i hi => ?_) hwork
    rcases List.mem_append.mp hi with hi | hi
    · exact (hworks₂ i hi).mono q₃.builder.pool
    · exact hworks₃ i hi
  have hl₄ : Step u [none] l l₄ := ((q₁.trans q₂).trans q₃).then e₄
  refine ⟨l₁, l₄, he, hl₄, ?_⟩
  cases run_push_eq_ok.mp hpush
  refine linkStates_of_raw (pushed_step (u := u) hl₄.sound).sound (fun st hst => ?_) hlink
  have hstates : l₃.states = [] := by rw [q₃.states, q₂.states, q₁.states, hempty]
  cases run_push_eq_ok.mp hwork
  simp only [pushed, hstates, List.nil_append, List.cons_append, List.mem_cons,
    List.not_mem_nil, or_false] at hst
  rcases hst with rfl | rfl <;> rfl

end Lower

/-- What can be said of the states of any lowered method: its transitions stay inside, a call goes
on to the next state, and the last state is empty if the method leads back nowhere. -/
structure Shaped (resources : List Rtl.Resource) (closes : Bool) (states : List LoweredState) :
    Prop where
  kinds : ∀ st ∈ states, ∀ i ∈ st.insns, ∃ kind, Rtl.kindAt resources i.resource = some kind
  targets : ∀ st ∈ states, ∀ i ∈ st.insns, ∀ t ∈ i.targets, t < states.length
  call : ∀ {k : Nat} {st : LoweredState}, states[k]? = some st → st.callee.isSome →
    ∃ p j, st.insns = [p, j] ∧ Rtl.kindAt resources p.resource = some Pool.pseudoKind ∧
      Leads resources [k + 1] j
  last : closes = false → ∃ id, states[states.length - 1]? = some ⟨id, [], none, none⟩
  nonempty : 0 < states.length

theorem Shaped.mono {p q : Pool} (hpq : p.Extends q) {closes : Bool} {states : List LoweredState}
    (h : Shaped p.resources closes states) : Shaped q.resources closes states := by
  refine ⟨fun st hst i hi => ?_, h.targets, fun hk hcallee => ?_, h.last, h.nonempty⟩
  · obtain ⟨kind, hkind⟩ := h.kinds st hst i hi
    exact ⟨kind, hpq.kindAt hkind⟩
  · obtain ⟨x, j, hinsns, hx, hj⟩ := h.call hk hcallee
    exact ⟨x, j, hinsns, hpq.kindAt hx, hj.mono hpq⟩

namespace LoweredState

variable {resources : List Rtl.Resource} {starts : List Nat} {closes : Bool} {n i : Nat}
  {st st' : LoweredState}

theorem Routed.callee (h : Routed resources starts closes n i st st') : st'.callee = st.callee := by
  cases h with
  | jump lt jumps => cases jumps <;> rfl
  | next | last | close => rfl

theorem Idle.kinds (h : st.Idle resources) :
    ∀ k ∈ st.insns, ∃ kind, Rtl.kindAt resources k.resource = some kind := by
  intro k hk
  obtain ⟨kind, hkind, -⟩ := h k hk
  exact ⟨kind, hkind⟩

theorem Routed.kinds (h : Routed resources starts closes n i st st') :
    ∀ k ∈ st'.insns, ∃ kind, Rtl.kindAt resources k.resource = some kind := by
  intro k hk
  cases h with
  | jump lt jumps =>
    cases jumps with
    | goto id target start leads =>
      rw [List.mem_singleton.mp hk]
      exact ⟨_, leads.kind⟩
    | branch id cond target start kind =>
      rw [List.mem_singleton.mp hk]
      exact ⟨_, kind⟩
  | next lt none idle leads =>
    rcases List.mem_append.mp hk with hk | hk
    · exact idle.kinds k hk
    · rw [List.mem_singleton.mp hk]
      exact ⟨_, leads.kind⟩
  | last eq none idle => exact idle.kinds k hk
  | close eq none idle back works leads =>
    simp only [List.append_assoc, List.mem_append, List.mem_singleton] at hk
    rcases hk with hk | hk | rfl
    · exact idle.kinds k hk
    · obtain ⟨-, kind, hkind, -⟩ := works k hk
      exact ⟨kind, hkind⟩
    · exact ⟨_, leads.kind⟩

theorem Raw.targets (h : st.Raw resources) : ∀ k ∈ st.insns, k.targets = [] := by
  intro k hk
  cases h with
  | goto id target => simp at hk
  | branch id cond target kind targets inputs => rw [List.mem_singleton.mp hk, targets]
  | call id callee kind targets => rw [List.mem_singleton.mp hk, targets]
  | work id works => exact (works k hk).1

theorem Routed.targets (h : Routed resources starts closes n i st st')
    (hraw : ∀ k ∈ st.insns, k.targets = []) (hstarts : ∀ t ∈ starts, t < n) :
    ∀ k ∈ st'.insns, ∀ t ∈ k.targets, t < n := by
  have hnone : ∀ k ∈ st.insns, ∀ t ∈ k.targets, t < n := fun k hk t ht => by
    rw [hraw k hk] at ht
    cases ht
  intro k hk t ht
  cases h with
  | jump lt jumps =>
    cases jumps with
    | goto id target start leads =>
      rw [List.mem_singleton.mp hk, leads.targets, List.mem_singleton] at ht
      exact ht ▸ hstarts _ (List.mem_of_getElem? start)
    | branch id cond target start kind =>
      rw [List.mem_singleton.mp hk] at ht
      simp only [List.mem_cons, List.not_mem_nil, or_false] at ht
      rcases ht with rfl | rfl
      · exact hstarts _ (List.mem_of_getElem? start)
      · exact lt
  | next lt none idle leads =>
    rcases List.mem_append.mp hk with hk | hk
    · exact hnone k hk t ht
    · rw [List.mem_singleton.mp hk, leads.targets, List.mem_singleton] at ht
      exact ht ▸ lt
  | last eq none idle => exact hnone k hk t ht
  | close eq none idle back works leads =>
    simp only [List.append_assoc, List.mem_append, List.mem_singleton] at hk
    rcases hk with hk | hk | rfl
    · exact hnone k hk t ht
    · rw [(works k hk).1] at ht
      cases ht
    · rw [leads.targets, List.mem_singleton] at ht
      omega

end LoweredState

theorem Lowering.Linked.shaped {starts : List Nat} {closes : Bool} {l l' : Lowering}
    (h : Linked starts closes (Lower.pushed l) l') (hl : l.Sound)
    (hstarts : ∀ t ∈ starts, t ≤ l.states.length) :
    Shaped l'.builder.pool.resources closes l'.states := by
  have hsound := (Lower.pushed_step (u := .none) hl).sound
  have hlen : (Lower.pushed l).states.length = l.states.length + 1 := by simp [Lower.pushed]
  have hlast : (Lower.pushed l).states[l.states.length]? =
      some ⟨l.builder.newState.1, [], none, none⟩ := by simp [Lower.pushed]
  have hraw : ∀ {k st'}, l'.states[k]? = some st' → ∃ st, (Lower.pushed l).states[k]? = some st ∧
      st.Raw (Lower.pushed l).builder.pool.resources ∧ LoweredState.Routed
        l'.builder.pool.resources starts closes (Lower.pushed l).states.length k st st' := by
    intro k st' hk
    have hlt := (List.getElem?_eq_some_iff.mp hk).1
    obtain ⟨st, hst⟩ : ∃ st, (Lower.pushed l).states[k]? = some st :=
      ⟨_, List.getElem?_eq_getElem (h.length ▸ hlt)⟩
    obtain ⟨st'', hst'', hrouted⟩ := h.state hst
    cases hk.symm.trans hst''
    exact ⟨st, hst, hsound.states st (List.mem_of_getElem? hst), hrouted⟩
  refine ⟨fun st hst => ?_, fun st hst => ?_, fun {k st} hk hcallee => ?_, fun hcloses => ?_, ?_⟩
  · obtain ⟨k, hk⟩ := List.mem_iff_getElem?.mp hst
    obtain ⟨raw, -, -, hrouted⟩ := hraw hk
    exact hrouted.kinds
  · obtain ⟨k, hk⟩ := List.mem_iff_getElem?.mp hst
    obtain ⟨raw, -, hraw, hrouted⟩ := hraw hk
    rw [h.length]
    exact hrouted.targets hraw.targets fun t ht => by
      have := hstarts t ht
      omega
  · obtain ⟨raw, hget, hraw, hrouted⟩ := hraw hk
    rw [hrouted.callee] at hcallee
    cases hraw with
    | goto id target => cases hcallee
    | branch id cond target kind targets => cases hcallee
    | work id works => cases hcallee
    | call id callee kind targets =>
      rename_i p
      have hne : k ≠ l.states.length := by
        rintro rfl
        cases hget.symm.trans hlast
      cases hrouted with
      | jump lt jumps => cases jumps
      | next lt none idle leads =>
        exact ⟨p, _, rfl, h.builder.pool.kindAt kind, leads⟩
      | last eq => omega
      | close eq => omega
  · obtain ⟨st', hst', hrouted⟩ := h.state hlast
    refine ⟨l.builder.newState.1, ?_⟩
    rw [h.length, hlen, Nat.add_sub_cancel, hst']
    cases hrouted with
    | jump lt jumps => cases jumps
    | next lt => omega
    | last => rfl
    | close eq none idle back => simp [hcloses] at back
  · rw [h.length, hlen]
    omega

def Context.code (c : Context) : List Insn :=
  if c.method.isImported || c.method.marks.isPort then [] else c.method.code

/-- Whether a context leads from its last state back to its first. -/
def Context.closes (c : Context) (role : Role) : Bool :=
  !(c.method.isImported || c.method.marks.isPort) && role != .inner

namespace Site

variable {m : Machine} {owners : OwnershipTable} {thread : ThreadId} {object : Nat} {slot : String}
  {role : Role} {b b' : Builder} {c : Context}

theorem lower_eq_ok : lower m owners thread object slot role b = .ok (c, b') ↔
    ∃ o f impl e l, m.object? object = some o ∧ o.method? slot = some f ∧
      implementation? o f = some impl ∧
      (if f.isNative then Lower.imported ⟨m, owners, thread, object, slot, impl, role⟩
        else Lower.implementation ⟨m, owners, thread, object, slot, impl, role⟩).run
          ⟨b, Walker.start object, [], []⟩ = .ok (e, l) ∧
      c = ⟨object, impl, e, l.states⟩ ∧ b' = l.builder := by
  constructor
  · intro h
    unfold lower at h
    split at h
    · cases h
    · rename_i o f hof
      obtain ⟨o', ho, hf⟩ := Option.bind_eq_some_iff.mp hof
      obtain ⟨f', hf, heq⟩ := Option.map_eq_some_iff.mp hf
      cases heq
      split at h
      · cases h
      · rename_i impl himpl
        simp only [Bind.bind, Except.bind] at h
        split at h
        · cases h
        · rename_i el hrun
          obtain ⟨e, l⟩ := el
          cases h
          exact ⟨o, f, impl, e, l, ho, hf, himpl, hrun, rfl, rfl⟩
  · rintro ⟨o, f, impl, e, l, ho, hf, himpl, hrun, rfl, rfl⟩
    simp only [lower, ho, hf, Option.bind_some, Option.map_some, himpl, hrun]
    rfl

/-- The three ways in which a method is lowered. -/
theorem lower_cases (h : lower m owners thread object slot role b = .ok (c, b')) :
    ∃ o f e l, m.object? object = some o ∧ o.method? slot = some f ∧
      implementation? o f = some c.method ∧ c = ⟨object, c.method, e, l.states⟩ ∧
      b' = l.builder ∧
      let s : Site := ⟨m, owners, thread, object, slot, c.method, role⟩
      let start : Lowering := ⟨b, Walker.start object, [], []⟩
      (c.method.isImported = true ∧ (Lower.imported s).run start = .ok (e, l)) ∨
      (c.method.isImported = false ∧ c.method.marks.isPort = true ∧
        (Lower.port s).run start = .ok (e, l)) ∨
      (f.isNative = false ∧ c.method.isImported = false ∧ c.method.marks.isPort = false ∧
        (Lower.body s).run start = .ok (e, l)) := by
  obtain ⟨o, f, impl, e, l, ho, hf, himpl, hrun, rfl, rfl⟩ := lower_eq_ok.mp h
  refine ⟨o, f, e, l, ho, hf, himpl, rfl, rfl, ?_⟩
  split at hrun
  · rename_i hnative
    simp only [implementation?, hnative, if_true, Option.filter_eq_some_iff] at himpl
    exact .inl ⟨himpl.2, hrun⟩
  · rename_i hnative
    unfold Lower.implementation at hrun
    split at hrun
    · rename_i himported
      exact .inl ⟨himported, hrun⟩
    · rename_i himported
      split at hrun
      · rename_i hport
        exact .inr (.inl ⟨by simpa using himported, hport, hrun⟩)
      · rename_i hport
        exact .inr (.inr ⟨by simpa using hnative, by simpa using himported,
          by simpa using hport, hrun⟩)

theorem start_sound (hb : b.Sound) (object : Nat) :
    Lowering.Sound ⟨b, Walker.start object, [], []⟩ := ⟨hb, by simp⟩

/-- What lowering a method does to the table, and what its context looks like. -/
theorem lower_spec (hb : b.Sound) (h : lower m owners thread object slot role b = .ok (c, b')) :
    b'.Sound ∧ b.Extends b' ∧ c.object = object ∧
      Builder.Covered (usesOf ⟨m, owners, thread, object, slot, c.method, role⟩
        (Walker.start object) c.code) b b' ∧
      Shaped b'.pool.resources (c.closes role) c.states := by
  obtain ⟨o, f, e, l, -, -, -, hc, rfl, hcases⟩ := lower_cases h
  have hobject : c.object = object := by rw [hc]
  have hstates : c.states = l.states := by rw [hc]
  rw [hobject, hstates]
  rcases hcases with ⟨himported, hrun⟩ | ⟨himported, hport, hrun⟩ |
    ⟨-, himported, hport, hrun⟩
  · obtain ⟨l₁, l₂, -, q, hlinked⟩ :=
      Lower.imported_spec (u := .none) (start_sound hb object) rfl hrun
    have q' := q.trans (Lower.pushed_step q.sound)
    refine ⟨hlinked.sound, q'.builder.trans hlinked.builder, rfl,
      (q'.covered.trans hlinked.covered).mono (Uses.none_le _), ?_⟩
    simpa [Context.closes, himported] using hlinked.shaped q.sound (by simp)
  · have hu : (usesOf ⟨m, owners, thread, object, slot, c.method, role⟩ (Walker.start object)
        c.code).port (Pool.portName c.method) := ⟨by simp [isPort, himported, hport], rfl⟩
    obtain ⟨l₁, l₂, -, q, hlinked⟩ := Lower.port_spec (start_sound hb object) rfl hu hrun
    have q' := q.trans (Lower.pushed_step q.sound)
    refine ⟨hlinked.sound, q'.builder.trans hlinked.builder, rfl,
      q'.covered.trans (hlinked.covered.mono (Uses.none_le _)), ?_⟩
    simpa [Context.closes, hport] using hlinked.shaped q.sound (by simp)
  · obtain ⟨l₁, l₂, l₃, starts, -, -, -, q, hcode, hlinked⟩ :=
      Lower.body_spec (u := .none) (start_sound hb object) hrun
    obtain ⟨hat, hgrows, hlen, hstarts⟩ := Lower.code_spec q.sound hcode
    have q' : Lowering.Step .none [none] l₃ (Lower.pushed l₃) := Lower.pushed_step hat.sound
    refine ⟨hlinked.sound, (q.builder.trans hgrows.builder).trans
      (q'.builder.trans hlinked.builder), rfl, ?_, ?_⟩
    · have hcov := hgrows.covered
      rw [q.walker] at hcov
      have hrest := (q'.covered.trans hlinked.covered).mono (Uses.none_le
        (usesOf ⟨m, owners, thread, object, slot, c.method, role⟩ (Walker.start object) c.code))
      refine ((q.covered.mono (Uses.none_le _)).trans ?_).trans hrest
      simpa [Context.code, himported, hport] using hcov
    · have hbound : ∀ t ∈ starts ++ [l₃.states.length], t ≤ l₃.states.length := by
        intro t ht
        rcases List.mem_append.mp ht with ht | ht
        · obtain ⟨k, hk⟩ := List.mem_iff_getElem?.mp ht
          have hlt := (List.getElem?_eq_some_iff.mp hk).1
          obtain ⟨a, b, ha, -, hstart, -, -⟩ :=
            hstarts k _ (List.getElem?_eq_getElem (hlen ▸ hlt))
          cases hk.symm.trans hstart
          rw [ha.count, hat.count]
          exact Nat.add_le_add_left (Lower.offset_take_le _ k) _
        · exact (List.mem_singleton.mp ht).le
      simpa [Context.closes, himported, hport] using hlinked.shaped hat.sound hbound

end Site
end Synth
end MachineSynth
