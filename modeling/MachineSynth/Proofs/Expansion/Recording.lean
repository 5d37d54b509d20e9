import Mathlib
import MachineSynth.Proofs.Expansion.Filling

/-! Recording: a copied state that calls into another table leaves its call to be wired, once for
every copy, at the position of the copy. -/
namespace MachineSynth
namespace Synth
namespace Expansion

def callsAt (x : Expansion) (flow : Bool) (j : Nat) : List TableCall :=
  (x.calls flow).filter (·.state = j)

/-- Whether calls are recorded for states only that are there. -/
def Placed (x : Expansion) : Prop := ∀ flow, ∀ call ∈ x.calls flow, call.state < x.states.length

/-- An expansion with as many states and the same calls as another, later than this. -/
structure Like (x x' : Expansion) : Prop where
  pool : x.builder.pool.Extends x'.builder.pool
  length : x'.states.length = x.states.length
  calls : ∀ flow, x'.calls flow = x.calls flow

variable {x x' x'' : Expansion} {flow : Bool} {j : Nat}

theorem Like.refl (x : Expansion) : x.Like x := ⟨.refl _, rfl, fun _ => rfl⟩

theorem Like.trans (h : x.Like x') (h' : x'.Like x'') : x.Like x'' :=
  ⟨h.pool.trans h'.pool, h'.length.trans h.length, fun flow => (h'.calls flow).trans (h.calls flow)⟩

theorem Like.callsAt (h : x.Like x') : x'.callsAt flow j = x.callsAt flow j := by
  rw [Expansion.callsAt, h.calls, Expansion.callsAt]

theorem Like.placed (h : x.Like x') (hx : x.Placed) : x'.Placed := by
  intro flow call hcall
  rw [h.calls] at hcall
  rw [h.length]
  exact hx flow call hcall

/-- Nothing is recorded for states that are still to come. -/
theorem Placed.callsAt_of_le (h : x.Placed) (hj : x.states.length ≤ j) : x.callsAt flow j = [] := by
  refine List.filter_eq_nil_iff.mpr fun call hcall => ?_
  have hlt := h flow call hcall
  simp only [decide_eq_true_eq]
  omega

end Expansion

namespace Expand

open Expansion (Like)

section Still

variable {α β : Type}

/-- Whether a part of the expansion neither adds states nor records calls. -/
def Still (p : Expand α) : Prop := ∀ x a x', p.run x = .ok (a, x') → x.Like x'

theorem Still.bind {p : Expand α} {f : α → Expand β} (hp : Still p) (hf : ∀ a, Still (f a)) :
    Still (p >>= f) := by
  intro x b x' h
  obtain ⟨a, x₁, h₁, h₂⟩ := run_bind_eq_ok.mp h
  exact (hp x a x₁ h₁).trans (hf a x₁ b x' h₂)

theorem still_pure (a : α) : Still (pure a : Expand α) := by
  intro x b x' h
  cases run_pure_eq_ok.mp h
  exact .refl _

theorem still_get : Still (get : Expand Expansion) := by
  intro x b x' h
  cases run_get_eq_ok.mp h
  exact .refl _

theorem still_resource {take : Pool → Nat × Pool} {kind : String} (h : Pool.Takes take kind) :
    Still (build (·.resource take)) := by
  intro x i x' hrun
  cases run_build_eq_ok.mp hrun
  exact ⟨h.grows _, rfl, fun _ => rfl⟩

theorem still_updateInsns (state : Nat) (f : List Rtl.Insn → List Rtl.Insn) :
    Still (updateInsns state f) := by
  intro x a x' h
  cases run_updateInsns_eq_ok.mp h
  exact ⟨.refl _, List.length_modify _ _ _, fun _ => rfl⟩

theorem still_add (state resource : Nat) (operand : String) (inputs outputs targets : List Nat) :
    Still (add state resource operand inputs outputs targets) := by
  intro x a x' h
  cases run_add_eq_ok.mp h
  exact ⟨.refl _, List.length_modify _ _ _, fun _ => rfl⟩

theorem still_copyInsns (base state : Nat) (insns : List Rtl.Insn) :
    Still (copyInsns base state insns) := by
  induction insns with
  | nil => exact still_pure ()
  | cons i rest ih => exact (still_add _ _ _ _ _ _).bind fun _ => ih

theorem still_assignAll (state resource : Nat) (pairs : List (Nat × Nat)) :
    Still (assignAll state resource pairs) := by
  induction pairs with
  | nil => exact still_pure ()
  | cons p rest ih => exact (still_add _ _ _ _ _ _).bind fun _ => ih

theorem still_targetsOf (state : Nat) : Still (targetsOf state) := by
  refine still_get.bind fun x => ?_
  dsimp only
  split
  · exact still_pure _
  · exact (still_resource Pool.transition_takes.toTakes).bind fun r =>
      (still_add _ _ _ _ _ _).bind fun _ => still_pure _

theorem still_setTargets (state : Nat) (targets : List Nat) : Still (setTargets state targets) :=
  still_get.bind fun _ => still_updateInsns _ _

theorem still_inline (state : Nat) (i : Rtl.Insn) (callee : Context) (first last : Nat) :
    Still (inline state i callee first last) :=
  (still_resource Pool.assign_takes.toTakes).bind fun _ => (still_assignAll _ _ _).bind fun _ =>
    (still_assignAll _ _ _).bind fun _ => (still_targetsOf _).bind fun _ =>
      (still_targetsOf _).bind fun _ => (still_setTargets _ _).bind fun _ => still_setTargets _ _

end Still

def Recorded (env : Env) (lowered : List Rtl.Resource) (x : Expansion) (κ : Copy) : Prop :=
  ∀ (k : Nat) (st : LoweredState), κ.context.states[k]? = some st → κ.base + k < x.states.length ∧
    ∀ flow, x.callsAt flow (κ.base + k) = leftAt env lowered flow (κ.base + k) st

theorem Recorded.keep {env : Env} {lowered : List Rtl.Resource} {x x' : Expansion} {κ : Copy}
    (h : Recorded env lowered x κ) (hlength : x.states.length ≤ x'.states.length)
    (hkept : ∀ flow, ∀ j < x.states.length, κ.base ≤ j → x'.callsAt flow j = x.callsAt flow j) :
    Recorded env lowered x' κ := by
  intro k st hst
  obtain ⟨hlt, hcalls⟩ := h k st hst
  exact ⟨hlt.trans_le hlength, fun flow =>
    (hkept flow _ hlt (Nat.le_add_right _ _)).trans (hcalls flow)⟩

/-- What copying a context records: the calls that the states of the copy leave, and those of the
copies inside it. -/
structure Records (env : Env) (lowered : List Rtl.Resource) (κ : Copy) (x x' : Expansion) :
    Prop where
  pool : x.builder.pool.Extends x'.builder.pool
  length : x'.states.length = x.states.length + κ.extent env lowered
  placed : x'.Placed
  kept : ∀ flow, ∀ j < x.states.length, x'.callsAt flow j = x.callsAt flow j
  left : ∀ {chain : List Nat} {κ' : Copy}, Copy.descend env lowered chain κ = some κ' →
    Recorded env lowered x' κ'

/-- A context being copied: the calls of its first `k` states are recorded, and so are those of all
copies that they call for. -/
structure Recording (env : Env) (lowered : List Rtl.Resource) (κ : Copy) (depth k : Nat)
    (x₀ x : Expansion) : Prop where
  pool : x₀.builder.pool.Extends x.builder.pool
  length : x.states.length = κ.base + κ.context.states.length +
    room env lowered (size env lowered depth) (κ.context.states.take k)
  placed : x.Placed
  kept : ∀ flow, ∀ j < κ.base, x.callsAt flow j = x₀.callsAt flow j
  own : ∀ {j : Nat} {st : LoweredState}, j < k → κ.context.states[j]? = some st →
    ∀ flow, x.callsAt flow (κ.base + j) = leftAt env lowered flow (κ.base + j) st
  empty : ∀ flow j, k ≤ j → j < κ.context.states.length → x.callsAt flow (κ.base + j) = []
  inner : ∀ {j : Nat} {κ' κ'' : Copy} {chain : List Nat}, j < k →
    κ.enter env lowered j = some κ' → Copy.descend env lowered chain κ' = some κ'' →
    Recorded env lowered x κ''

/-- What is asked of a function that copies contexts: that it records the calls of the copy, which
it adds at the end of the table. -/
def RecordsAll (env : Env) (lowered : Pool) (depth : Nat) (copy : Context → Expand (Nat × Nat)) :
    Prop :=
  ∀ {c : Context} {closes : Bool} {x x' : Expansion} {first last : Nat}, x.Placed →
    lowered.Extends x.builder.pool → Shaped lowered.resources closes c.states →
    (copy c).run x = .ok ((first, last), x') →
    first = x.states.length ∧
      ∀ back, Records env lowered.resources ⟨first, depth, c, back⟩ x x'

section Fill

variable {env : Env} {lowered : Pool} {κ : Copy} {depth k : Nat} {x₀ x x₁ x₂ x' : Expansion}
  {st : LoweredState} {closes : Bool} {copy : Context → Expand (Nat × Nat)}

/-- One more state may record calls for itself and for states that are added behind. -/
theorem Recording.next (h : Recording env lowered.resources κ depth k x₀ x)
    (hst : κ.context.states[k]? = some st) (hpool : x.builder.pool.Extends x'.builder.pool)
    (hlen : x'.states.length =
      x.states.length + room env lowered.resources (size env lowered.resources depth) [st])
    (hplaced : x'.Placed)
    (hkept : ∀ flow, ∀ j < x.states.length, j ≠ κ.base + k → x'.callsAt flow j = x.callsAt flow j)
    (hown : ∀ flow, x'.callsAt flow (κ.base + k) =
      leftAt env lowered.resources flow (κ.base + k) st)
    (hinner : ∀ {κ' κ'' : Copy} {chain : List Nat}, κ.enter env lowered.resources k = some κ' →
      Copy.descend env lowered.resources chain κ' = some κ'' →
      Recorded env lowered.resources x' κ'') :
    Recording env lowered.resources κ depth (k + 1) x₀ x' := by
  have hk : k < κ.context.states.length := (List.getElem?_eq_some_iff.mp hst).1
  have hlength := h.length
  refine ⟨h.pool.trans hpool, ?_, hplaced, fun flow j hj => ?_, fun {j st'} hj hst' flow => ?_,
    fun flow j hj hj' => ?_, fun {j κ' κ'' chain} hj henter hchain => ?_⟩
  · rw [hlen, h.length, room_take_succ hst, Nat.add_assoc]
  · rw [hkept flow j (by omega) (by omega), h.kept flow j hj]
  · rcases Nat.lt_succ_iff_lt_or_eq.mp hj with hj | rfl
    · rw [hkept flow _ (by omega) (by omega), h.own hj hst' flow]
    · cases Option.some.inj (hst.symm.trans hst')
      exact hown flow
  · rw [hkept flow _ (by omega) (by omega), h.empty flow j (by omega) hj']
  · rcases Nat.lt_succ_iff_lt_or_eq.mp hj with hj | rfl
    · -- the states of another copy stand behind those of this one
      have hbase := Copy.base_le_of_enter henter
      have hwithin := Copy.descend_within hchain
      exact (h.inner hj henter hchain).keep (by omega) fun flow i hi hi' =>
        hkept flow i hi (by omega)
    · exact hinner henter hchain

/-- A state that is not replaced by a copy records its own call, if it has one. -/
theorem Recording.plain (h : Recording env lowered.resources κ depth k x₀ x)
    (hst : κ.context.states[k]? = some st) (hnone : inlined? env lowered.resources st = none)
    (hpool : x.builder.pool.Extends x'.builder.pool) (hlen : x'.states.length = x.states.length)
    (hcalls : ∀ flow, x'.calls flow = x.calls flow ++
      leftAt env lowered.resources flow (κ.base + k) st) :
    Recording env lowered.resources κ depth (k + 1) x₀ x' := by
  have hk : k < κ.context.states.length := (List.getElem?_eq_some_iff.mp hst).1
  have hlength := h.length
  refine h.next hst hpool (by rw [hlen, room_of_none hnone, add_zero]) (fun flow call hcall => ?_)
    (fun flow j _ hj => ?_) (fun flow => ?_) fun {κ' κ'' chain} henter => ?_
  · rw [hcalls] at hcall
    rw [hlen]
    rcases List.mem_append.mp hcall with hcall | hcall
    · exact h.placed flow call hcall
    · rw [state_of_mem_leftAt hcall]
      omega
  · rw [Expansion.callsAt, hcalls, List.filter_append, ← Expansion.callsAt,
      List.filter_eq_nil_iff.mpr, List.append_nil]
    intro call hcall
    simpa [state_of_mem_leftAt hcall] using hj.symm
  · rw [Expansion.callsAt, hcalls, List.filter_append, ← Expansion.callsAt, h.empty flow k le_rfl hk,
      List.nil_append, List.filter_eq_self]
    intro call hcall
    simpa using state_of_mem_leftAt hcall
  · obtain ⟨_, st', _, _, _, hst', hsome, _⟩ := Copy.enter_eq_some henter
    cases Option.some.inj (hst.symm.trans hst')
    rw [hnone] at hsome
    cases hsome

theorem Recording.call {i : Rtl.Insn} {callee : Context} {first last : Nat}
    (h : Recording env lowered.resources κ depth k x₀ x) (hx₀ : lowered.Extends x₀.builder.pool)
    (hdepth : κ.depth = depth + 1) (hrecords : RecordsAll env lowered depth copy)
    (hst : κ.context.states[k]? = some st)
    (hsome : inlined? env lowered.resources st = some (i, callee))
    (hshaped : Shaped lowered.resources closes callee.states) (hcopy : x.Like x₁)
    (hcallee : (copy callee).run x₁ = .ok ((first, last), x₂)) (hinline : x₂.Like x') :
    Recording env lowered.resources κ depth (k + 1) x₀ x' := by
  have hk : k < κ.context.states.length := (List.getElem?_eq_some_iff.mp hst).1
  have hlength := h.length
  obtain ⟨rfl, hall⟩ := hrecords (hcopy.placed h.placed) (hx₀.trans (h.pool.trans hcopy.pool))
    hshaped hcallee
  have hrec := hall (some (callee.entry.outputs.zip i.outputs, κ.base + k + 1))
  have hcalls : ∀ flow, ∀ j < x.states.length, x'.callsAt flow j = x.callsAt flow j := by
    intro flow j hj
    rw [hinline.callsAt, hrec.kept flow j (by rw [hcopy.length]; exact hj), hcopy.callsAt]
  refine h.next hst (hcopy.pool.trans (hrec.pool.trans hinline.pool)) ?_ (hinline.placed hrec.placed)
    (fun flow j hj _ => hcalls flow j hj) (fun flow => ?_) fun {κ' κ'' chain} henter hchain => ?_
  · rw [hinline.length, hrec.length, hcopy.length, room_of_inlined hsome]
    rfl
  · rw [hcalls flow _ (by omega), h.empty flow k le_rfl hk, leftAt_of_inlined hsome]
  · have henter' : κ.enter env lowered.resources k = some ⟨x₁.states.length, depth, callee,
        some (callee.entry.outputs.zip i.outputs, κ.base + k + 1)⟩ := by
      simp [Copy.enter, hdepth, hst, hsome, hcopy.length, hlength]
    cases Option.some.inj (henter'.symm.trans henter)
    exact (hrec.left hchain).keep hinline.length.ge fun flow j _ _ => hinline.callsAt

/-- Filling the states of a copy records their calls, one state after the other. -/
theorem fill_recording (hx₀ : lowered.Extends x₀.builder.pool) (hdepth : κ.depth = depth + 1)
    (hc : Shaped lowered.resources closes κ.context.states)
    (henv : ∀ name c, env.contexts.lookup name = some c →
      ∃ closes, Shaped lowered.resources closes c.states)
    (hrecords : RecordsAll env lowered depth copy) {rest : List LoweredState}
    (hrest : κ.context.states.drop k = rest)
    (hf : Recording env lowered.resources κ depth k x₀ x)
    (h : (fill env copy κ.base (κ.base + k) rest).run x = .ok ((), x')) :
    Recording env lowered.resources κ depth κ.context.states.length x₀ x' := by
  induction rest generalizing k x with
  | nil =>
    cases run_pure_eq_ok.mp h
    have hge : κ.context.states.length ≤ k := List.drop_eq_nil_iff.mp hrest
    refine ⟨hf.pool, ?_, hf.placed, hf.kept, fun hj => hf.own (by omega), fun _ j hj hj' => by omega,
      fun hj => hf.inner (by omega)⟩
    rw [hf.length, List.take_of_length_le hge, List.take_length]
  | cons st rest ih =>
    have hst : κ.context.states[k]? = some st := by
      rw [← List.head?_drop, hrest, List.head?_cons]
    have hmem := List.mem_of_getElem? hst
    have hext := hx₀.trans hf.pool
    obtain ⟨x₁, x₂, hcopy, hcall, h⟩ := fill_cons_eq_ok h
    have hlike : x.Like x₁ := still_copyInsns _ _ _ _ _ _ hcopy
    rw [find?_isPseudo hext hc hmem] at hcall
    refine ih (by rw [← List.tail_drop, hrest, List.tail_cons]) ?_ h
    rcases called_cases hcall with
      ⟨hnone, hbuilder, hstates, hcalls⟩ | ⟨i, callee, first, last, x₃, hsome, hcopied, hinline⟩
    · refine hf.plain hst hnone (hbuilder ▸ hlike.pool) (hstates ▸ hlike.length) fun flow => ?_
      rw [hcalls, hlike.calls]
    · obtain ⟨name, hname⟩ := context_of_inlined hsome
      obtain ⟨closes', hshaped⟩ := henv name callee hname
      exact hf.call hx₀ hdepth hrecords hst hsome hshaped hlike hcopied
        (still_inline _ _ _ _ _ _ _ _ hinline)

theorem addStates_recording {sts : List LoweredState}
    (h : (addStates sts).run x = .ok ((), x')) : x.builder.pool.Extends x'.builder.pool ∧
      x'.states.length = x.states.length + sts.length ∧ ∀ flow, x'.calls flow = x.calls flow := by
  induction sts generalizing x with
  | nil =>
    cases run_pure_eq_ok.mp h
    exact ⟨.refl _, rfl, fun _ => rfl⟩
  | cons st rest ih =>
    simp only [addStates, run_bind_eq_ok, run_modify_eq_ok] at h
    obtain ⟨id, x₁, hid, _, x₂, hadd, h⟩ := h
    cases run_build_eq_ok.mp hid
    cases hadd
    obtain ⟨hpool, hlen, hcalls⟩ := ih h
    refine ⟨hpool, ?_, hcalls⟩
    simp only [List.length_append, List.length_cons, List.length_nil] at hlen ⊢
    omega

theorem copy_records (henv : ∀ name c, env.contexts.lookup name = some c →
      ∃ closes, Shaped lowered.resources closes c.states) (depth : Nat) (stack : List MethodKey) :
    RecordsAll env lowered depth (Expand.copy env depth stack) := by
  induction depth generalizing stack with
  | zero => intro c closes x x' first last _ _ _ h; cases h
  | succ depth ih =>
    intro c closes x x' first last hplaced hext hc h
    simp only [Expand.copy] at h
    split at h
    · cases h
    · split at h
      · cases h
      · simp only [run_bind_eq_ok, run_get_eq_ok] at h
        obtain ⟨_, _, hget, _, x₁, hadd, _, x₂, hfill, h⟩ := h
        cases hget
        cases run_pure_eq_ok.mp h
        obtain ⟨hpool, hlen, hcalls⟩ := addStates_recording hadd
        have hat : ∀ flow j, x₁.callsAt flow j = x.callsAt flow j := by
          intro flow j
          rw [Expansion.callsAt, hcalls, Expansion.callsAt]
        have hplaced₁ : x₁.Placed := by
          intro flow call hcall
          rw [hcalls] at hcall
          have := hplaced flow call hcall
          omega
        refine ⟨rfl, fun back => ?_⟩
        have hstart : Recording env lowered.resources ⟨x.states.length, depth + 1, c, back⟩ depth 0
            x x₁ := by
          refine ⟨hpool, by simpa using hlen, hplaced₁, fun flow j _ => hat flow j,
            fun hj => absurd hj (by omega), fun flow j _ _ => ?_, fun hj => absurd hj (by omega)⟩
          rw [hat, hplaced.callsAt_of_le (Nat.le_add_right _ _)]
        have hf := fill_recording (κ := ⟨x.states.length, depth + 1, c, back⟩) hext rfl hc henv
          (ih (_ :: stack)) rfl hstart hfill
        refine ⟨hf.pool, ?_, hf.placed, hf.kept, fun {chain κ'} hchain => ?_⟩
        · rw [hf.length, List.take_length, Nat.add_assoc]
          rfl
        · cases chain with
          | nil =>
            cases Option.some.inj hchain
            intro k st hst
            have hk := (List.getElem?_eq_some_iff.mp hst).1
            refine ⟨?_, hf.own hk hst⟩
            rw [hf.length]
            simp only at hk ⊢
            omega
          | cons j chain =>
            obtain ⟨κ'', hj, hrest⟩ := Option.bind_eq_some_iff.mp hchain
            obtain ⟨_, _, _, _, _, hst, _⟩ := Copy.enter_eq_some hj
            exact hf.inner (List.getElem?_eq_some_iff.mp hst).1 hj hrest

end Fill
end Expand
end Synth
end MachineSynth
