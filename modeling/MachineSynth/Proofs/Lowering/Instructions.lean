import Mathlib
import MachineSynth.Proofs.Lowering.Growth

/-! Each instruction is a step of the lowering: it moves its walker on, uses only what it touches,
and adds the states that it takes. -/
namespace MachineSynth

/-- A member that holds a number, with the width that its register takes, the value at the start and
whether it is constant. -/
inductive Value.Stores : Value → UInt64 → Int64 → Bool → Prop
  | num {width : UInt64} {value : Int64} {const : Bool} :
      Stores (.num width value const) width value const
  | enum {width : UInt64} {ordinal : Int64} {const : Bool} :
      Stores (.enum width ordinal const) 0 ordinal const

namespace Synth

/-- Whether an instruction ends with a single instruction of the table, to which results can be
added, and whether that one is the placeholder of a call. -/
def Walker.offers? (m : Machine) (w : Walker) : Insn → Option Bool
  | .nop | .goto _ | .num _ _ | .loadObject _ _ _ | .callDone _ => none
  | i@(.memberRead _ _ _) => (w.accessed? m i).map fun _ => false
  | .call object label _ => some (!w.isNativeCall m object label)
  | _ => some false

namespace Lower

open Rtl (kindAt)
open Lowering (Quiet Step Yields)

variable {s : Site} {u : Uses} {l l' : Lowering}

section Parts

theorem resource_quiet {take : Pool → Nat × Pool} {kind : String} {i : Nat} (hl : l.Sound)
    (ht : Pool.TakesOther take kind) (h : (resource take).run l = .ok (i, l')) :
    Quiet u l l' ∧ kindAt l'.builder.pool.resources i = some kind := by
  cases run_build_eq_ok.mp h
  exact ⟨hl.build (Builder.resource_extends _ ht.toTakes)
    (Builder.resource_sound hl.builder ht.toTakes) (Builder.resource_covered ht u _),
    ht.kind hl.builder.pool⟩

theorem constant_quiet {width : UInt64} {value : Int64} {i : Nat} (hl : l.Sound)
    (h : (build (·.constant width value)).run l = .ok (i, l')) : Quiet u l l' := by
  cases run_build_eq_ok.mp h
  exact hl.build (Builder.addRegister_extends _ _ _ _ _)
    (Builder.addRegister_sound hl.builder _ _ _ _) (.of_eq rfl rfl rfl)

theorem storage_quiet {stem : String} {width : UInt64} {i : Nat} (hl : l.Sound)
    (h : (build (·.storage stem width)).run l = .ok (i, l')) : Quiet u l l' := by
  cases run_build_eq_ok.mp h
  exact hl.build (Builder.freshRegister_extends _ _ _ _ _)
    (Builder.freshRegister_sound hl.builder _ _ _ _) (.of_eq rfl rfl rfl)

theorem bindLocal_quiet {r : RegisterId} {register : Nat} (hl : l.Sound)
    (h : (Lower.bind r register).run l = .ok ((), l')) : Quiet u l l' := by
  cases run_bindLocal_eq_ok.mp h
  exact ⟨⟨hl.builder, hl.states⟩, .refl _, .refl u _, rfl, rfl⟩

theorem newLocal_quiet {r : RegisterId} {reg : Register} {i : Nat} (hl : l.Sound)
    (h : (newLocal s r reg).run l = .ok (i, l')) : Quiet u l l' := by
  cases hc : reg.const with
  | some value =>
    simp only [newLocal, hc] at h
    exact constant_quiet hl h
  | none =>
    simp only [newLocal, hc] at h
    exact storage_quiet hl h

theorem register_quiet {r : RegisterId} {i : Nat} (hl : l.Sound)
    (h : (register s r).run l = .ok (i, l')) : Quiet u l l' := by
  simp only [register, run_bind_eq_ok, run_get_eq_ok] at h
  obtain ⟨_, _, hget, h⟩ := h
  cases hget
  split at h
  · cases run_pure_eq_ok.mp h
    exact hl.refl_quiet u
  · split at h
    · exact absurd h run_fault_ne_ok
    · simp only [run_bind_eq_ok] at h
      obtain ⟨j, l₁, hnew, _, l₂, hbind, h⟩ := h
      cases run_pure_eq_ok.mp h
      have q₁ : Quiet u l l₁ := newLocal_quiet hl hnew
      exact q₁.trans (bindLocal_quiet q₁.sound hbind)

theorem registers_quiet {rs : List RegisterId} {is : List Nat} (hl : l.Sound)
    (h : (registers s rs).run l = .ok (is, l')) : Quiet u l l' := by
  induction rs generalizing l is with
  | nil =>
    cases run_pure_eq_ok.mp h
    exact hl.refl_quiet u
  | cons r rest ih =>
    simp only [registers, run_bind_eq_ok] at h
    obtain ⟨i, l₁, hr, is', l₂, hrest, h⟩ := h
    cases run_pure_eq_ok.mp h
    have q₁ : Quiet u l l₁ := register_quiet hl hr
    exact q₁.trans (ih q₁.sound hrest)

theorem insn_quiet {resource : Nat} {operand : String} {inputs outputs : List Nat} {i : Rtl.Insn}
    (hl : l.Sound) (h : (insn resource operand inputs outputs).run l = .ok (i, l')) :
    Quiet u l l' := by
  cases run_insn_eq_ok.mp h
  exact hl.build (Builder.newInsn_extends _) (Builder.newInsn_sound hl.builder)
    (.of_eq rfl rfl rfl)

theorem push_step {insns : List Rtl.Insn} {jump : Option Insn} {callee : Option Callee}
    (hl : l.Sound)
    (hraw : ∀ id, LoweredState.Raw l.builder.pool.resources ⟨id, insns, jump, callee⟩)
    (h : (push insns jump callee).run l = .ok ((), l')) : Step u [jump] l l' := by
  cases run_push_eq_ok.mp h
  exact hl.push (Builder.newState_extends _) (Builder.newState_sound hl.builder)
    (.of_eq rfl rfl rfl) (hraw _)

theorem push_offers {i : Rtl.Insn} {jump : Option Insn} {callee : Option Callee} {kind : String}
    {call : Bool} (hk : kindAt l.builder.pool.resources i.resource = some kind)
    (hcall : kind = Pool.pseudoKind ↔ call = true)
    (h : (push [i] jump callee).run l = .ok ((), l')) : Lowering.Offers call l l' := by
  cases run_push_eq_ok.mp h
  exact ⟨l.states, _, i, jump, callee, kind, rfl, List.prefix_rfl, hk, hcall⟩

theorem emit_step {unit : Nat} {kind operand : String} {inputs outputs : List Nat}
    (hl : l.Sound) (hk : kindAt l.builder.pool.resources unit = some kind)
    (htr : kind ≠ Rtl.Resource.transitionKind) (hps : kind ≠ Pool.pseudoKind)
    (h : (emit unit operand inputs outputs).run l = .ok ((), l')) : Yields u [none] false l l' := by
  cases run_emit_eq_ok.mp h
  refine ⟨hl.push ((Builder.newInsn_extends _).trans (Builder.newState_extends _))
    (Builder.newState_sound (Builder.newInsn_sound hl.builder)) (.of_eq rfl rfl rfl)
    (.work _ fun i hi => ?_), l.states, _, _, _, _, kind, rfl, List.prefix_rfl, hk, by simp [hps]⟩
  rw [List.mem_singleton.mp hi]
  exact ⟨rfl, kind, hk, htr, hps⟩

theorem addOwner_quiet {e : Entity} {r : Nat} (hl : l.Sound) (hu : u.hold e)
    (hr : l.builder.pool.Backs Pool.ownerKinds e (l.builder.pool.ref r))
    (h : (addOwner e r).run l = .ok ((), l')) : Quiet u l l' := by
  simp only [addOwner, run_bind_eq_ok, run_get_eq_ok, run_ofExcept_eq_ok, run_modify_eq_ok] at h
  obtain ⟨_, _, hget, links, l₁, ⟨hlinks, rfl⟩, h⟩ := h
  cases hget
  cases h
  exact hl.build (Builder.addOwner_extends hlinks) (Builder.addOwner_sound hl.builder hlinks hr)
    (Builder.addOwner_covered hu hlinks)

theorem addAccessor_quiet {e : Entity} {r : Nat} (hl : l.Sound) (hu : u.reach e)
    (hr : l.builder.pool.Backs Pool.accessorKinds e (l.builder.pool.ref r))
    (h : (addAccessor e r).run l = .ok ((), l')) : Quiet u l l' := by
  cases run_build_eq_ok.mp h
  exact hl.build (Builder.addAccessor_extends _ e _) (Builder.addAccessor_sound hl.builder hr)
    (Builder.addAccessor_covered hu _ _)

theorem addOwner_registers {e : Entity} {r : Nat} (h : (addOwner e r).run l = .ok ((), l')) :
    (l'.builder.links.find e).owner = some (l'.builder.pool.ref r) := by
  simp only [addOwner, run_bind_eq_ok, run_get_eq_ok, run_ofExcept_eq_ok, run_modify_eq_ok] at h
  obtain ⟨_, _, hget, links, l₁, ⟨hlinks, rfl⟩, h⟩ := h
  cases hget
  cases h
  simp [Links.find_addOwner hlinks, Pool.ref]

theorem addAccessor_registers {e : Entity} {r : Nat}
    (h : (addAccessor e r).run l = .ok ((), l')) :
    l'.builder.pool.ref r ∈ (l'.builder.links.find e).accessors := by
  cases run_build_eq_ok.mp h
  exact Builder.mem_addAccessor _ e _

end Parts

section Operators

theorem bindConstant_quiet {r : RegisterId} {width : UInt64} {value : Int64} (hl : l.Sound)
    (h : (bindConstant r width value).run l = .ok ((), l')) : Quiet u l l' := by
  simp only [bindConstant, run_bind_eq_ok] at h
  obtain ⟨i, l₁, hnew, h⟩ := h
  have q₁ : Quiet u l l₁ := constant_quiet hl hnew
  exact q₁.trans (bindLocal_quiet q₁.sound h)

theorem num_quiet {target source : RegisterId} (hl : l.Sound)
    (h : (num s target source).run l = .ok ((), l')) : Quiet u l l' := by
  unfold num at h
  split at h
  · split at h
    · exact bindConstant_quiet hl h
    · exact absurd h run_fault_ne_ok
  · exact absurd h run_fault_ne_ok

theorem assign_step {target source : RegisterId} (hl : l.Sound)
    (h : (assign s target source).run l = .ok ((), l')) : Yields u [none] false l l' := by
  simp only [assign, run_bind_eq_ok] at h
  obtain ⟨t, l₁, ht, r, l₂, hr, unit, l₃, hunit, h⟩ := h
  have q₁ : Quiet u l l₁ := register_quiet hl ht
  have q₂ : Quiet u l₁ l₂ := register_quiet q₁.sound hr
  obtain ⟨q₃, hk⟩ := resource_quiet (u := u) q₂.sound Pool.assign_takes hunit
  exact ((q₁.trans q₂).trans q₃).yields (emit_step q₃.sound hk (by decide) (by decide) h)

theorem invert_step {source target : Nat} (hl : l.Sound)
    (h : (invert source target).run l = .ok ((), l')) : Yields u [none] false l l' := by
  simp only [invert, run_bind_eq_ok] at h
  obtain ⟨unit, l₁, hunit, h⟩ := h
  obtain ⟨q₁, hk⟩ := resource_quiet (u := u) hl (Pool.operator_takes (by decide) _) hunit
  exact q₁.yields (emit_step q₁.sound hk (by decide) (by decide) h)

theorem operatorKind?_works {op : BinaryOp} {kind : String} (h : operatorKind? op = some kind) :
    kind ∉ Pool.trackedKinds ∧ kind ≠ Rtl.Resource.transitionKind ∧ kind ≠ Pool.pseudoKind := by
  cases op <;> simp only [operatorKind?, Option.some.injEq, reduceCtorEq] at h <;> subst h <;>
    decide

/-- The number of states that an instruction takes. -/
def stateCount : Insn → Nat
  | .binary op _ _ _ => if negatesResult op then 2 else 1
  | _ => 1

theorem stateCount_pos (i : Insn) : 0 < stateCount i := by
  unfold stateCount
  split
  · split <;> decide
  · decide

/-- The jumps that the states of an instruction stand for. -/
def marks (i : Insn) : List (Option Insn) :=
  if i.jumpTarget? = none then List.replicate (stateCount i) none else [some i]

theorem stateCount_of_jump {i : Insn} (hi : i.jumpTarget? ≠ none) : stateCount i = 1 := by
  cases i with
  | goto target => rfl
  | branch cond target => rfl
  | _ => exact absurd rfl hi

@[simp] theorem length_marks (i : Insn) : (marks i).length = stateCount i := by
  unfold marks
  split
  · exact List.length_replicate
  · rename_i hi
    exact (stateCount_of_jump hi).symm

theorem binary_step {op : BinaryOp} {target left right : RegisterId} (hl : l.Sound)
    (h : (binary s op target left right).run l = .ok ((), l')) :
    Yields u (marks (.binary op target left right)) false l l' := by
  unfold binary at h
  split at h
  · exact absurd h run_fault_ne_ok
  · rename_i kind hkind
    obtain ⟨harr, htr, hps⟩ := operatorKind?_works hkind
    simp only [run_bind_eq_ok] at h
    obtain ⟨unit, l₁, hunit, i, l₂, hi, j, l₃, hj, t, l₄, ht, h⟩ := h
    obtain ⟨q₁, hk⟩ := resource_quiet (u := u) hl (Pool.operator_takes harr _) hunit
    have q₂ : Quiet u l₁ l₂ := register_quiet q₁.sound hi
    have q₃ : Quiet u l₂ l₃ := register_quiet q₂.sound hj
    have q₄ : Quiet u l₃ l₄ := register_quiet q₃.sound ht
    have q : Quiet u l₁ l₄ := (q₂.trans q₃).trans q₄
    have hk₄ := q.builder.pool.kindAt hk
    split at h
    · rename_i hneg
      simp only [run_bind_eq_ok] at h
      obtain ⟨result, l₅, hresult, _, l₆, hemit, h⟩ := h
      have q₅ : Quiet u l₄ l₅ := storage_quiet q₄.sound hresult
      have e₆ : Yields u [none] false l₅ l₆ :=
        emit_step q₅.sound (q₅.builder.pool.kindAt hk₄) htr hps hemit
      have hmarks : marks (.binary op target left right) = [none] ++ [none] := by
        simp [marks, Insn.jumpTarget?, stateCount, hneg]
      exact hmarks ▸ (q₁.trans (q.trans q₅)).yields (e₆.trans (invert_step e₆.sound h))
    · rename_i hneg
      have hmarks : marks (.binary op target left right) = [none] := by
        simp [marks, Insn.jumpTarget?, stateCount, hneg]
      exact hmarks ▸ (q₁.trans q).yields (emit_step q₄.sound hk₄ htr hps h)

theorem constantOf_eq_ok {r : RegisterId} {what : String} {value : Int64}
    (h : (constantOf s r what).run l = .ok (value, l')) :
    (s.method.register? r).bind (·.const) = some value ∧ l' = l := by
  unfold constantOf at h
  split at h
  · cases run_pure_eq_ok.mp h
    exact ⟨by assumption, rfl⟩
  · exact absurd h run_fault_ne_ok

theorem shift_step {right : Bool} {target source amount : RegisterId} (hl : l.Sound)
    (h : (shift s right target source amount).run l = .ok ((), l')) :
    Yields u [none] false l l' := by
  simp only [shift, run_bind_eq_ok] at h
  obtain ⟨n, l₀, hn, r, l₁, hr, unit, l₂, hunit, c, l₃, hc, t, l₄, ht, h⟩ := h
  obtain ⟨-, rfl⟩ := constantOf_eq_ok hn
  have q₁ : Quiet u l₀ l₁ := register_quiet hl hr
  obtain ⟨q₂, hk⟩ := resource_quiet (u := u) q₁.sound (Pool.operator_takes (by decide) _) hunit
  have q₃ : Quiet u l₂ l₃ := constant_quiet q₂.sound hc
  have q₄ : Quiet u l₃ l₄ := register_quiet q₃.sound ht
  have hk₄ := (q₃.trans q₄).builder.pool.kindAt hk
  exact ((q₁.trans q₂).trans (q₃.trans q₄)).yields
    (emit_step q₄.sound hk₄ (by decide) (by decide) h)

theorem concat_step {target left right : RegisterId} (hl : l.Sound)
    (h : (concat s target left right).run l = .ok ((), l')) : Yields u [none] false l l' := by
  simp only [concat, run_bind_eq_ok] at h
  obtain ⟨i, l₁, hi, j, l₂, hj, unit, l₃, hunit, t, l₄, ht, h⟩ := h
  have q₁ : Quiet u l l₁ := register_quiet hl hi
  have q₂ : Quiet u l₁ l₂ := register_quiet q₁.sound hj
  obtain ⟨q₃, hk⟩ := resource_quiet (u := u) q₂.sound (Pool.operator_takes (by decide) _) hunit
  have q₄ : Quiet u l₃ l₄ := register_quiet q₃.sound ht
  exact ((q₁.trans q₂).trans (q₃.trans q₄)).yields
    (emit_step q₄.sound (q₄.builder.pool.kindAt hk) (by decide) (by decide) h)

theorem bitRange_step {target source msb lsb : RegisterId} (hl : l.Sound)
    (h : (bitRange s target source msb lsb).run l = .ok ((), l')) : Yields u [none] false l l' := by
  simp only [bitRange, run_bind_eq_ok] at h
  obtain ⟨hi, l₀, hhi, lo, l₀', hlo, r, l₁, hr, unit, l₂, hunit, c, l₃, hc, d, l₄, hd, t, l₅, ht,
    h⟩ := h
  obtain ⟨-, rfl⟩ := constantOf_eq_ok hhi
  obtain ⟨-, rfl⟩ := constantOf_eq_ok hlo
  have q₁ : Quiet u l₀' l₁ := register_quiet hl hr
  obtain ⟨q₂, hk⟩ := resource_quiet (u := u) q₁.sound (Pool.operator_takes (by decide) _) hunit
  have q₃ : Quiet u l₂ l₃ := constant_quiet q₂.sound hc
  have q₄ : Quiet u l₃ l₄ := constant_quiet q₃.sound hd
  have q₅ : Quiet u l₄ l₅ := register_quiet q₄.sound ht
  have q : Quiet u l₂ l₅ := (q₃.trans q₄).trans q₅
  exact ((q₁.trans q₂).trans q).yields
    (emit_step q₅.sound (q.builder.pool.kindAt hk) (by decide) (by decide) h)

theorem count_step {down : Bool} {operand : RegisterId} (hl : l.Sound)
    (h : (count s down operand).run l = .ok ((), l')) : Yields u [none] false l l' := by
  simp only [count, run_bind_eq_ok] at h
  obtain ⟨r, l₁, hr, unit, l₂, hunit, one, l₃, hone, h⟩ := h
  have hkind : (if down then "sub" else "add") ∉ Pool.trackedKinds := by cases down <;> decide
  have q₁ : Quiet u l l₁ := register_quiet hl hr
  obtain ⟨q₂, hk⟩ := resource_quiet (u := u) q₁.sound (Pool.operator_takes hkind _) hunit
  have q₃ : Quiet u l₂ l₃ := constant_quiet q₂.sound hone
  exact ((q₁.trans q₂).trans q₃).yields (emit_step q₃.sound (q₃.builder.pool.kindAt hk)
    (by cases down <;> decide) (by cases down <;> decide) h)

end Operators

section Accesses

theorem resource_backs {k : ResourceKey} {prepare : Rtl.Resource → Rtl.Resource} {i : Nat}
    {kinds : List String} {e : Entity} (hkind : k.kind ∈ kinds) (hname : k.name = e.member)
    (hobject : k.object = e.object) (htype : k.type = .truth)
    (h : (resource (·.request k prepare)).run l = .ok (i, l')) :
    l'.builder.pool.Backs kinds e (l'.builder.pool.ref i) := by
  cases run_build_eq_ok.mp h
  refine ⟨rfl, k.kind, hkind, ?_⟩
  rw [← hname, ← hobject, ← htype]
  exact Pool.lookup_request l.builder.pool k prepare

theorem privateMember_step {e : Entity} {width : UInt64} {initial : Int64} {r : RegisterId}
    {write : Bool} (hl : l.Sound) (hu : u.own e)
    (h : (privateMember s e width initial r write).run l = .ok ((), l')) :
    Yields u [none] false l l' := by
  simp only [privateMember, run_bind_eq_ok] at h
  obtain ⟨member, l₁, hmember, own, l₂, hown, unit, l₃, hunit, h⟩ := h
  have q₁ : Quiet u l l₁ := by
    cases run_build_eq_ok.mp hmember
    exact hl.build (Builder.memberRegister_extends _ _ _ _)
      (Builder.memberRegister_sound hl.builder _ _ _) (Builder.memberRegister_covered hu _ _ _)
  have q₂ : Quiet u l₁ l₂ := register_quiet q₁.sound hown
  obtain ⟨q₃, hk⟩ := resource_quiet (u := u) q₂.sound Pool.assign_takes hunit
  refine ((q₁.trans q₂).trans q₃).yields ?_
  split at h <;> exact emit_step q₃.sound hk (by decide) (by decide) h

theorem sharedKind_works {thing : String} (h : thing = "shared-reg" ∨ thing = "shared-memory")
    (owner write : Bool) : Pool.sharedKind thing owner write ≠ Rtl.Resource.transitionKind ∧
      Pool.sharedKind thing owner write ≠ Pool.pseudoKind := by
  rcases h with rfl | rfl <;> cases owner <;> cases write <;> decide

theorem sharedMember_spec {e : Entity} {width : UInt64} {r : RegisterId} {write : Bool}
    (hl : l.Sound) (hhold : s.isOwner e → u.hold e) (hreach : !s.isOwner e → u.reach e)
    (h : (sharedMember s e width r write).run l = .ok ((), l')) :
    ∃ unit l₁ inputs outputs, Quiet u l l₁ ∧ l₁.builder.Serves (s.isOwner e)
      (Pool.sharedKind "shared-reg" (s.isOwner e) write) e unit ∧
      (emit unit "" inputs outputs).run l₁ = .ok ((), l') := by
  simp only [sharedMember, run_bind_eq_ok] at h
  obtain ⟨unit, l₁, hunit, h⟩ := h
  obtain ⟨q₁, hk⟩ := resource_quiet (u := u) hl (Pool.sharedMember_takes e _ write) hunit
  -- Both branches go on with the same state, from whatever the registration leaves behind.
  have hfinish : ∀ {l₂}, Quiet u l₁ l₂ →
      (if s.isOwner e then (l₂.builder.links.find e).owner = some (l₂.builder.pool.ref unit)
        else l₂.builder.pool.ref unit ∈ (l₂.builder.links.find e).accessors) → (do
      let own ← register s r
      if write then emit unit "" [own] [] else emit unit "" [] [own]).run l₂ = .ok ((), l') →
      ∃ unit l₁ inputs outputs, Quiet u l l₁ ∧ l₁.builder.Serves (s.isOwner e)
        (Pool.sharedKind "shared-reg" (s.isOwner e) write) e unit ∧
        (emit unit "" inputs outputs).run l₁ = .ok ((), l') := by
    intro l₂ q₂ hregistered h
    simp only [run_bind_eq_ok] at h
    obtain ⟨own, l₃, hown, h⟩ := h
    have q₃ : Quiet u l₂ l₃ := register_quiet q₂.sound hown
    have hserves : l₃.builder.Serves (s.isOwner e)
        (Pool.sharedKind "shared-reg" (s.isOwner e) write) e unit :=
      Builder.Serves.mono ⟨q₂.builder.pool.kindAt hk, hregistered⟩ q₃.builder
    split at h <;> exact ⟨unit, l₃, _, _, q₁.trans (q₂.trans q₃), hserves, h⟩
  split at h
  · rename_i howner
    rw [run_bind_eq_ok] at h
    obtain ⟨_, l₂, hwidth, h⟩ := h
    rw [run_bind_eq_ok] at h
    obtain ⟨_, l₃, hlink, h⟩ := h
    have hext : l₁.builder.pool.Extends (l₁.builder.pool.update unit (·.setWidth width)) :=
      Pool.update_extends fun r _ => Pool.setWidth_becomes r width
    have hbacks : l₁.builder.pool.Backs Pool.ownerKinds e (l₁.builder.pool.ref unit) := by
      refine resource_backs ?_ rfl rfl rfl hunit
      simp [howner, Pool.sharedKind, Pool.ownerKinds]
    cases run_build_eq_ok.mp hwidth
    have q₂ : Quiet u l₁ _ := q₁.sound.build (Builder.setPool_extends hext)
      (Builder.setPool_sound q₁.sound.builder
        (Pool.update_sound q₁.sound.builder.pool fun _ _ => rfl) hext) (.of_eq rfl rfl rfl)
    refine hfinish (q₂.trans (addOwner_quiet q₂.sound (hhold howner) (hbacks.mono hext) hlink)) ?_ h
    rw [if_pos (show s.isOwner e = true from howner)]
    exact addOwner_registers hlink
  · rename_i howner
    rw [run_bind_eq_ok] at h
    obtain ⟨_, l₂, hlink, h⟩ := h
    have hbacks : l₁.builder.pool.Backs Pool.accessorKinds e (l₁.builder.pool.ref unit) := by
      refine resource_backs ?_ rfl rfl rfl hunit
      cases write <;> simp [howner, Pool.sharedKind, Pool.accessorKinds]
    refine hfinish (addAccessor_quiet q₁.sound (hreach (by simpa [Site.isOwner] using howner))
      hbacks hlink) ?_ h
    rw [if_neg (show ¬ s.isOwner e = true from howner)]
    exact addAccessor_registers hlink

theorem sharedMember_step {e : Entity} {width : UInt64} {r : RegisterId} {write : Bool}
    (hl : l.Sound) (hhold : s.isOwner e → u.hold e) (hreach : !s.isOwner e → u.reach e)
    (h : (sharedMember s e width r write).run l = .ok ((), l')) : Yields u [none] false l l' := by
  obtain ⟨unit, l₁, inputs, outputs, q, hserves, h⟩ := sharedMember_spec hl hhold hreach h
  obtain ⟨htr, hps⟩ := sharedKind_works (.inl rfl) (s.isOwner e) write
  exact q.yields (emit_step q.sound hserves.kind htr hps h)

theorem storedMember_step {e : Entity} {width : UInt64} {value : Int64} {const : Bool}
    {r : RegisterId} {write : Bool} (hl : l.Sound)
    (hown : const = false → !(s.owners.get e).isShared → u.own e)
    (hhold : const = false → (s.owners.get e).isShared → s.isOwner e → u.hold e)
    (hreach : const = false → (s.owners.get e).isShared → !s.isOwner e → u.reach e)
    (h : (storedMember s e width value const r write).run l = .ok ((), l')) :
    const = true ∧ write = false ∧ Quiet u l l' ∨ const = false ∧ Yields u [none] false l l' := by
  unfold storedMember at h
  split at h
  · rename_i hc
    split at h
    · exact absurd h run_fault_ne_ok
    · rename_i hread
      exact .inl ⟨hc, by simpa using hread, bindConstant_quiet hl h⟩
  · rename_i hc
    replace hc : const = false := by simpa using hc
    refine .inr ⟨hc, ?_⟩
    split at h
    · rename_i hs
      exact sharedMember_step hl (hhold hc hs) (hreach hc hs) h
    · rename_i hs
      exact privateMember_step hl (hown hc (by simpa using hs)) h

/-- What is accessed is there: an object, which is read, or a member that holds a number. -/
theorem memberAccess_eq_ok {i : Insn} {label : String} {r : RegisterId} {write : Bool}
    (h : (memberAccess s i label r write).run l = .ok ((), l')) :
    ∃ owner w v, l.walker.access s.machine i = .ok (owner, w) ∧
      (s.machine.object? owner).bind (·.lookup? label) = some v ∧
      ((∃ id, v = .object id) ∧ write = false ∧ l' = { l with walker := w } ∨
        ∃ width value const, v.Stores width value const ∧
          (storedMember s ⟨owner, label⟩ width value const r write).run { l with walker := w } =
            .ok ((), l')) := by
  simp only [memberAccess, run_bind_eq_ok, run_get_eq_ok, run_ofExcept_eq_ok,
    run_modify_eq_ok] at h
  obtain ⟨_, _, hget, ⟨owner, w⟩, l₁, ⟨haccess, rfl⟩, _, l₂, hset, h⟩ := h
  cases hget
  cases hset
  split at h
  · exact absurd h run_error_ne_ok
  · rename_i hlookup
    split at h
    · exact absurd h run_fault_ne_ok
    · rename_i hread
      cases run_pure_eq_ok.mp h
      exact ⟨owner, w, _, haccess, hlookup, .inl ⟨⟨_, rfl⟩, by simpa using hread, rfl⟩⟩
  · exact absurd h run_fault_ne_ok
  · rename_i hlookup
    exact ⟨owner, w, _, haccess, hlookup, .inr ⟨_, _, _, .num, h⟩⟩
  · rename_i hlookup
    exact ⟨owner, w, _, haccess, hlookup, .inr ⟨_, _, _, .enum, h⟩⟩

theorem storedMember?_of_stores {m : Machine} {owner : Nat} {label : String} {v : Value}
    {width : UInt64} {value : Int64} {const : Bool}
    (hlookup : (m.object? owner).bind (·.lookup? label) = some v)
    (hv : v.Stores width value const) :
    Walker.storedMember? m owner label = if const then none else some ⟨owner, label⟩ := by
  cases hv <;> cases const <;> simp [Walker.storedMember?, hlookup]

/-- A member access moves the walker first. What it accesses is given by `hi`; a member that is not
stored leaves no state. -/
theorem memberAccess_step {i : Insn} {label : String} {r : RegisterId} (write : Bool)
    (hl : l.Sound) (harray : Walker.onArray i = false)
    (hi : ∀ owner w e, l.walker.access s.machine i = .ok (owner, w) →
      Walker.storedMember? s.machine owner label = some e →
      l.walker.accessed? s.machine i = some (e, write))
    (h : (memberAccess s i label r write).run l = .ok ((), l')) :
    ∃ owner w, l.walker.access s.machine i = .ok (owner, w) ∧
      (Walker.storedMember? s.machine owner label = none ∧ write = false ∧
          Quiet (s.uses l.walker i) { l with walker := w } l' ∨
        (Walker.storedMember? s.machine owner label).isSome ∧
          Yields (s.uses l.walker i) [none] false { l with walker := w } l') := by
  obtain ⟨owner, w, v, haccess, hlookup, hcases⟩ := memberAccess_eq_ok h
  refine ⟨owner, w, haccess, ?_⟩
  have hl₂ : Lowering.Sound { l with walker := w } := hl.setWalker w
  rcases hcases with ⟨⟨id, rfl⟩, hread, rfl⟩ | ⟨width, value, const, hv, hrun⟩
  · exact .inl ⟨by simp [Walker.storedMember?, hlookup], hread, hl₂.refl_quiet _⟩
  · have he := storedMember?_of_stores hlookup hv
    have hacc : const = false → l.walker.accessed? s.machine i = some (⟨owner, label⟩, write) :=
      fun hc => hi owner w _ haccess (by simp [he, hc])
    have hcases : const = true ∧ write = false ∧ Quiet (s.uses l.walker i) { l with walker := w } l' ∨
        const = false ∧ Yields (s.uses l.walker i) [none] false { l with walker := w } l' := by
      refine storedMember_step hl₂ (fun hc hs => ⟨write, hacc hc, ?_⟩)
        (fun hc hs ho => ⟨write, hacc hc, ?_, ho⟩) (fun hc hs ho => .inl ⟨write, hacc hc, ?_, ho⟩)
        hrun
      · simpa [OwnershipTable.isPrivate, harray] using hs
      · simpa [OwnershipTable.isPrivate, harray] using hs
      · simpa [OwnershipTable.isPrivate, harray] using hs
    rcases hcases with ⟨hc, hread, hquiet⟩ | ⟨hc, hemits⟩
    · exact .inl ⟨by simp [he, hc], hread, hquiet⟩
    · exact .inr ⟨by simp [he, hc], hemits⟩

theorem indexed_spec {unit : Nat} {index r : RegisterId} {write : Bool} (hl : l.Sound)
    (h : (indexed s unit index r write).run l = .ok ((), l')) :
    ∃ l₁ operand inputs outputs, Quiet u l l₁ ∧
      (emit unit operand inputs outputs).run l₁ = .ok ((), l') := by
  simp only [indexed, run_bind_eq_ok] at h
  obtain ⟨i, l₁, hi, own, l₂, hown, h⟩ := h
  have q₁ : Quiet u l l₁ := register_quiet hl hi
  have q₂ : Quiet u l₁ l₂ := register_quiet q₁.sound hown
  split at h <;> exact ⟨l₂, _, _, _, q₁.trans q₂, h⟩

theorem indexed_step {unit : Nat} {kind : String} {index r : RegisterId} {write : Bool}
    (hl : l.Sound) (hk : kindAt l.builder.pool.resources unit = some kind)
    (htr : kind ≠ Rtl.Resource.transitionKind) (hps : kind ≠ Pool.pseudoKind)
    (h : (indexed s unit index r write).run l = .ok ((), l')) : Yields u [none] false l l' := by
  obtain ⟨l₁, operand, inputs, outputs, q, h⟩ := indexed_spec (u := u) hl h
  exact q.yields (emit_step q.sound (q.builder.pool.kindAt hk) htr hps h)

theorem privateArray_quiet {id : Nat} {o : Object} {i : Nat} (hl : l.Sound)
    (hu : u.own (.whole id)) (h : (resource (·.privateArray id o)).run l = .ok (i, l')) :
    Quiet u l l' ∧ kindAt l'.builder.pool.resources i = some "array" := by
  cases run_build_eq_ok.mp h
  have ht := Pool.privateArray_takes id o
  exact ⟨hl.build (Builder.resource_extends _ ht) (Builder.resource_sound hl.builder ht)
    (Builder.privateArray_covered hu o _), ht.kind hl.builder.pool⟩

theorem arrayResource_spec {id : Nat} {o : Object} {write : Bool} {unit : Nat} (hl : l.Sound)
    (hown : !(s.owners.get (.whole id)).isShared → !(s.owners.get (.whole id)).isMoved →
      u.own (.whole id))
    (hhold : ((s.owners.get (.whole id)).isShared ∨ (s.owners.get (.whole id)).isMoved) →
      s.isOwner (.whole id) → u.hold (.whole id))
    (hreach : ((s.owners.get (.whole id)).isShared ∨ (s.owners.get (.whole id)).isMoved) →
      !s.isOwner (.whole id) → u.reach (.whole id))
    (h : (arrayResource s id o write).run l = .ok (unit, l')) :
    Quiet u l l' ∧ (∃ kind, kindAt l'.builder.pool.resources unit = some kind ∧
      kind ≠ Rtl.Resource.transitionKind ∧ kind ≠ Pool.pseudoKind) ∧
      ((s.owners.get (.whole id)).isShared ∨ (s.owners.get (.whole id)).isMoved →
        l'.builder.Serves (s.isOwner (.whole id))
          (Pool.sharedKind "shared-memory" (s.isOwner (.whole id)) write) (.whole id) unit) := by
  unfold arrayResource at h
  simp only at h
  split at h
  · rename_i hprivate
    simp only [Bool.and_eq_true] at hprivate
    obtain ⟨q, hk⟩ := privateArray_quiet hl (hown hprivate.1 hprivate.2) h
    refine ⟨q, ⟨"array", hk, by decide, by decide⟩, fun hshared => ?_⟩
    simp_all
  · rename_i hprivate
    have hshared : (s.owners.get (.whole id)).isShared ∨ (s.owners.get (.whole id)).isMoved := by
      revert hprivate
      cases (s.owners.get (.whole id)).isShared <;> simp
    split at h
    · rename_i howner
      rw [run_bind_eq_ok] at h
      obtain ⟨unit, l₁, hunit, h⟩ := h
      rw [run_bind_eq_ok] at h
      obtain ⟨_, l₂, hlink, h⟩ := h
      cases run_pure_eq_ok.mp h
      obtain ⟨q₁, hk⟩ := resource_quiet (u := u) hl (Pool.sharedArray_takes id o true false) hunit
      have q₂ : Quiet u l₁ l' := addOwner_quiet q₁.sound (hhold hshared howner)
        (resource_backs (by simp [Pool.sharedKind, Pool.ownerKinds]) rfl rfl rfl hunit) hlink
      have howner' : s.isOwner (.whole id) = true := howner
      refine ⟨q₁.trans q₂, ⟨_, q₂.builder.pool.kindAt hk, sharedKind_works (.inr rfl) _ _⟩,
        fun _ => ⟨?_, ?_⟩⟩
      · rw [howner']
        exact q₂.builder.pool.kindAt hk
      · rw [if_pos howner']
        exact addOwner_registers hlink
    · rename_i howner
      rw [run_bind_eq_ok] at h
      obtain ⟨unit, l₁, hunit, h⟩ := h
      rw [run_bind_eq_ok] at h
      obtain ⟨_, l₂, hlink, h⟩ := h
      cases run_pure_eq_ok.mp h
      obtain ⟨q₁, hk⟩ := resource_quiet (u := u) hl (Pool.sharedArray_takes id o false write) hunit
      have hkind : Pool.sharedKind "shared-memory" false write ∈ Pool.accessorKinds := by
        cases write <;> decide
      have q₂ : Quiet u l₁ l' := addAccessor_quiet q₁.sound
        (hreach hshared (by simpa [Site.isOwner] using howner))
        (resource_backs hkind rfl rfl rfl hunit) hlink
      have howner' : s.isOwner (.whole id) = false := by simpa [Site.isOwner] using howner
      refine ⟨q₁.trans q₂, ⟨_, q₂.builder.pool.kindAt hk, sharedKind_works (.inr rfl) _ _⟩,
        fun _ => ⟨?_, ?_⟩⟩
      · rw [howner']
        exact q₂.builder.pool.kindAt hk
      · rw [howner']
        exact addAccessor_registers hlink

theorem heldObject_eq_ok {r : RegisterId} {x : Option (Nat × Object)}
    (h : (heldObject s r).run l = .ok (x, l')) :
    x = ((l.walker.objectOf? r).bind fun id => (s.machine.object? id).map (id, ·)) ∧ l' = l := by
  simp only [heldObject, run_bind_eq_ok, run_get_eq_ok] at h
  obtain ⟨_, _, hget, h⟩ := h
  cases hget
  cases run_pure_eq_ok.mp h
  exact ⟨rfl, rfl⟩

theorem heldObject_some {r : RegisterId} {id : Nat} {o : Object}
    (h : (heldObject s r).run l = .ok (some (id, o), l')) :
    l.walker.objectOf? r = some id ∧ s.machine.object? id = some o ∧ l' = l := by
  obtain ⟨hx, rfl⟩ := heldObject_eq_ok h
  obtain ⟨id', hid, hx⟩ := Option.bind_eq_some_iff.mp hx.symm
  obtain ⟨o', ho, hx⟩ := Option.map_eq_some_iff.mp hx
  cases hx
  exact ⟨hid, ho, rfl⟩

theorem arrayAccess_eq_ok {array index r : RegisterId} {write : Bool}
    (h : (arrayAccess s array index r write).run l = .ok ((), l')) :
    ∃ id o unit l₁, l.walker.array? s.machine array = some (.whole id) ∧
      (arrayResource s id o write).run l = .ok (unit, l₁) ∧
      (indexed s unit index r write).run l₁ = .ok ((), l') := by
  simp only [arrayAccess, run_bind_eq_ok] at h
  obtain ⟨x, l₁, hheld, h⟩ := h
  split at h
  · rename_i id o
    obtain ⟨hid, ho, rfl⟩ := heldObject_some hheld
    split at h
    · rename_i hisarray
      rw [run_bind_eq_ok] at h
      obtain ⟨unit, l₂, hunit, h⟩ := h
      exact ⟨id, o, unit, l₂, by simp [Walker.array?, hid, ho, hisarray], hunit, h⟩
    · exact absurd h run_fault_ne_ok
  · exact absurd h run_fault_ne_ok

theorem arrayAccess_step {i : Insn} {array index r : RegisterId} (write : Bool) (hl : l.Sound)
    (harray : Walker.onArray i = true)
    (hi : ∀ e, l.walker.array? s.machine array = some e →
      l.walker.accessed? s.machine i = some (e, write))
    (h : (arrayAccess s array index r write).run l = .ok ((), l')) :
    Yields (s.uses l.walker i) [none] false l l' := by
  obtain ⟨id, o, unit, l₁, harr, hunit, h⟩ := arrayAccess_eq_ok h
  have hacc := hi (.whole id) harr
  obtain ⟨q, ⟨kind, hk, htr, hps⟩, -⟩ := arrayResource_spec (u := s.uses l.walker i) hl
    (fun hs hm => ⟨write, hacc, by simp_all [OwnershipTable.isPrivate]⟩)
    (fun hs ho => ⟨write, hacc,
      by rcases hs with hs | hs <;> simp [OwnershipTable.isPrivate, hs, harray], ho⟩)
    (fun hs ho => .inl ⟨write, hacc,
      by rcases hs with hs | hs <;> simp [OwnershipTable.isPrivate, hs, harray], ho⟩) hunit
  exact q.yields (indexed_step q.sound hk htr hps h)

theorem memoryAccess_step {index r : RegisterId} {write : Bool} (hl : l.Sound)
    (h : (memoryAccess s index r write).run l = .ok ((), l')) : Yields u [none] false l l' := by
  simp only [memoryAccess, run_bind_eq_ok] at h
  obtain ⟨unit, l₁, hunit, h⟩ := h
  obtain ⟨q, hk⟩ := resource_quiet (u := u) hl Pool.externalMemory_takes hunit
  exact q.yields (indexed_step q.sound hk (by decide) (by decide) h)

theorem setChannels_step {channels : Channels} (hl : l.Sound) :
    Quiet u l { l with builder := { l.builder with channels := channels } } :=
  hl.build (x := { l.builder with channels := channels })
    ⟨.refl _, List.prefix_refl _, id, .inl, id, id, le_rfl, le_rfl⟩
    ⟨hl.builder.pool, hl.builder.member, hl.builder.memberUnique, hl.builder.owner,
      hl.builder.accessor, hl.builder.distinct⟩ (.of_eq rfl rfl rfl)

theorem channelAccess_step {channel r : RegisterId} {write : Bool} (hl : l.Sound)
    (h : (channelAccess s channel r write).run l = .ok ((), l')) : Yields u [none] false l l' := by
  simp only [channelAccess, run_bind_eq_ok] at h
  obtain ⟨x, l₁, hheld, h⟩ := h
  split at h
  · rename_i id o
    obtain ⟨-, -, rfl⟩ := heldObject_some hheld
    split at h
    · rw [run_bind_eq_ok] at h
      obtain ⟨unit, l₂, hunit, h⟩ := h
      rw [run_bind_eq_ok] at h
      obtain ⟨own, l₃, hown, h⟩ := h
      obtain ⟨q₁, hk⟩ := resource_quiet (u := u) hl (Pool.channel_takes id write o.width) hunit
      have q₂ : Quiet u l₂ l₃ := register_quiet q₁.sound hown
      have hk₃ := q₂.builder.pool.kindAt hk
      have hkind : ∀ kind : String, kind = (if write then channelWriteKind else channelReadKind) →
          kind ≠ Rtl.Resource.transitionKind ∧ kind ≠ Pool.pseudoKind := by
        rintro kind rfl
        cases write <;> decide
      obtain ⟨htr, hps⟩ := hkind _ rfl
      refine (q₁.trans q₂).yields ?_
      split at h <;>
      · rw [run_bind_eq_ok] at h
        obtain ⟨_, l₄, hemit, h⟩ := h
        have e₄ : Yields u [none] false l₃ l₄ := emit_step q₂.sound hk₃ htr hps hemit
        cases run_build_eq_ok.mp h
        exact e₄.quiet (setChannels_step e₄.sound)
    · exact absurd h run_fault_ne_ok
  · exact absurd h run_fault_ne_ok

end Accesses

section Calls

/-- An array is moved in one state, through a port that is registered if the array has an owner. -/
theorem transfer_spec {id : Nat} {o : Object} {args : List RegisterId} {store : Bool}
    (hl : l.Sound) (hreach : (s.owners.get (.whole id)).owner.isSome → u.reach (.whole id))
    (h : (transfer s id o args store).run l = .ok ((), l')) :
    ∃ unit l₁ operand inputs, Quiet u l l₁ ∧
      kindAt l₁.builder.pool.resources unit = some "axi-master-port" ∧
      ((s.owners.get (.whole id)).owner.isSome →
        l₁.builder.Serves false "axi-master-port" (.whole id) unit) ∧
      (emit unit operand inputs []).run l₁ = .ok ((), l') := by
  unfold transfer at h
  split at h
  · rw [run_bind_eq_ok] at h
    obtain ⟨unit, l₁, hunit, h⟩ := h
    obtain ⟨q₁, hk⟩ := resource_quiet (u := u) hl (Pool.arrayPort_takes id o true) hunit
    simp only at h
    split at h
    · rename_i howner
      simp only [run_bind_eq_ok] at h
      obtain ⟨_, l₂, hlink, inputs, l₃, hinputs, h⟩ := h
      have q₂ : Quiet u l₁ l₂ := addAccessor_quiet q₁.sound (hreach howner)
        (resource_backs (by simp [Pool.accessorKinds]) rfl rfl rfl hunit) hlink
      have q₃ : Quiet u l₂ l₃ := registers_quiet q₂.sound hinputs
      have hserves : l₂.builder.Serves false "axi-master-port" (.whole id) unit :=
        ⟨q₂.builder.pool.kindAt hk, addAccessor_registers hlink⟩
      exact ⟨unit, l₃, _, inputs, q₁.trans (q₂.trans q₃),
        (q₂.trans q₃).builder.pool.kindAt hk, fun _ => hserves.mono q₃.builder, h⟩
    · rename_i howner
      simp only [run_bind_eq_ok] at h
      obtain ⟨inputs, l₃, hinputs, h⟩ := h
      have q₃ : Quiet u l₁ l₃ := registers_quiet q₁.sound hinputs
      exact ⟨unit, l₃, _, inputs, q₁.trans q₃, q₃.builder.pool.kindAt hk,
        fun howner' => absurd howner' howner, h⟩
  · exact absurd h run_fault_ne_ok

theorem transfer_step {id : Nat} {o : Object} {args : List RegisterId} {store : Bool}
    (hl : l.Sound) (hreach : (s.owners.get (.whole id)).owner.isSome → u.reach (.whole id))
    (h : (transfer s id o args store).run l = .ok ((), l')) : Yields u [none] false l l' := by
  obtain ⟨unit, l₁, operand, inputs, q, hk, -, h⟩ := transfer_spec hl hreach h
  exact q.yields (emit_step q.sound hk (by decide) (by decide) h)

/-- A built-in operation that only reads its arguments. -/
theorem plainCall_step {kind : String} {args : List RegisterId} (hl : l.Sound)
    (harr : kind ∉ Pool.trackedKinds) (htr : kind ≠ Rtl.Resource.transitionKind)
    (hps : kind ≠ Pool.pseudoKind)
    (h : (do
      let unit ← resource (·.ofKind kind)
      emit unit "" (← registers s args) []).run l = .ok ((), l')) : Yields u [none] false l l' := by
  simp only [run_bind_eq_ok] at h
  obtain ⟨unit, l₁, hunit, inputs, l₂, hinputs, h⟩ := h
  obtain ⟨q₁, hk⟩ := resource_quiet (u := u) hl (Pool.ofKind_takes harr) hunit
  have q₂ : Quiet u l₁ l₂ := registers_quiet q₁.sound hinputs
  exact (q₁.trans q₂).yields (emit_step q₂.sound (q₂.builder.pool.kindAt hk) htr hps h)

theorem nativeCall_step {id : Nat} {o : Object} {f : Method} {args : List RegisterId}
    (hl : l.Sound)
    (hreach : f.native = "load" ∨ f.native = "store" →
      (s.owners.get (.whole id)).owner.isSome → u.reach (.whole id))
    (h : (nativeCall s id o f args).run l = .ok ((), l')) : Yields u [none] false l l' := by
  unfold nativeCall at h
  split at h
  · exact plainCall_step hl (by decide) (by decide) (by decide) h
  · exact plainCall_step hl (by decide) (by decide) (by decide) h
  · simp only [run_bind_eq_ok] at h
    obtain ⟨unit, l₁, hunit, inputs, l₂, hinputs, h⟩ := h
    obtain ⟨q₁, hk⟩ := resource_quiet (u := u) hl (Pool.ofKind_takes (by decide)) hunit
    have q₂ : Quiet u l₁ l₂ := registers_quiet q₁.sound hinputs
    split at h
    · rw [run_bind_eq_ok] at h
      obtain ⟨one, l₃, hone, h⟩ := h
      have q₃ : Quiet u l₂ l₃ := constant_quiet q₂.sound hone
      exact ((q₁.trans q₂).trans q₃).yields (emit_step q₃.sound
        ((q₂.trans q₃).builder.pool.kindAt hk) (by decide) (by decide) h)
    · exact (q₁.trans q₂).yields (emit_step q₂.sound (q₂.builder.pool.kindAt hk)
        (by decide) (by decide) h)
  · rename_i hnative
    exact transfer_step hl (hreach (.inl hnative)) h
  · rename_i hnative
    exact transfer_step hl (hreach (.inr hnative)) h
  · exact absurd h run_error_ne_ok

theorem placeholder_step {args : List RegisterId} {callee : Option Callee} (hl : l.Sound)
    (h : (do
      let unit ← resource Pool.pseudo
      let inputs ← registers s args
      push [← insn unit "" inputs []] none callee).run l = .ok ((), l')) :
    Yields u [none] true l l' := by
  simp only [run_bind_eq_ok] at h
  obtain ⟨unit, l₁, hunit, inputs, l₂, hinputs, i, l₃, hinsn, h⟩ := h
  obtain ⟨q₁, hk⟩ := resource_quiet (u := u) hl Pool.pseudo_takes hunit
  have q₂ : Quiet u l₁ l₂ := registers_quiet q₁.sound hinputs
  have q₃ : Quiet u l₂ l₃ := insn_quiet q₂.sound hinsn
  cases run_insn_eq_ok.mp hinsn
  have hk₃ := (q₂.trans q₃).builder.pool.kindAt hk
  refine ((q₁.trans q₂).trans q₃).yields ⟨push_step q₃.sound (fun id => ?_) h,
    push_offers hk₃ (by simp) h⟩
  exact .call id callee hk₃ rfl

theorem call_step {object : RegisterId} {label : String} {args : List RegisterId} (hl : l.Sound)
    (h : (call s object label args).run l = .ok ((), l')) :
    Yields (s.uses l.walker (.call object label args)) [none]
      (!l.walker.isNativeCall s.machine object label) l l' := by
  simp only [call, run_bind_eq_ok] at h
  obtain ⟨x, l₁, hheld, h⟩ := h
  split at h
  · exact absurd h run_fault_ne_ok
  · rename_i id o
    obtain ⟨hid, ho, rfl⟩ := heldObject_some hheld
    rw [run_bind_eq_ok] at h
    obtain ⟨_, _, hget, h⟩ := h
    cases run_get_eq_ok.mp hget
    have hcalled : Walker.calledMethod? s.machine (l₁.walker.objectOf? object) label =
        o.method? label := by simp [Walker.calledMethod?, hid, ho]
    split at h
    · rename_i f hnative hf
      rw [hf] at hcalled
      rw [hnative]
      refine nativeCall_step hl (fun hf' howner => .inr ⟨?_, howner⟩) h
      simp only [Walker.isNativeCall, hcalled, Bool.and_eq_true, decide_eq_true_eq] at hnative
      rw [hid] at hcalled
      simp only [Walker.moved?, hid, hcalled, hnative.2, true_and, if_pos hf', Option.map_some]
    · rename_i hne
      -- A native call is one of a method that there is.
      have hnative : l₁.walker.isNativeCall s.machine object label = false := by
        cases hm : o.method? label with
        | none => simp [Walker.isNativeCall, hcalled, hm]
        | some f => exact Bool.eq_false_iff.mpr fun hnative => hne f hnative hm
      rw [hnative]
      exact placeholder_step hl h

/-- Results are bound in the last state, which has a single instruction. -/
theorem callDone_eq_ok {returns : List RegisterId} (h : (callDone s returns).run l = .ok ((), l')) :
    ∃ front id i jump callee outputs l₁, l.states = front ++ [⟨id, [i], jump, callee⟩] ∧
      (registers s returns).run l = .ok (outputs, l₁) ∧
      l' = { l₁ with states := l₁.states.dropLast ++
        [⟨id, [{ i with outputs := i.outputs ++ outputs }], jump, callee⟩] } := by
  simp only [callDone, run_bind_eq_ok, run_get_eq_ok] at h
  obtain ⟨_, _, hget, h⟩ := h
  cases hget
  split at h
  · rename_i id i jump callee hlast
    rw [run_bind_eq_ok] at h
    obtain ⟨outputs, l₁, houtputs, h⟩ := h
    cases run_modify_eq_ok.mp h
    obtain ⟨front, hfront⟩ := List.getLast?_eq_some_iff.mp hlast
    exact ⟨front, id, i, jump, callee, outputs, l₁, hfront, houtputs, rfl⟩
  · exact absurd h run_fault_ne_ok

/-- Results are added to the outputs of the last state. -/
theorem callDone_step {returns : List RegisterId} (hl : l.Sound)
    (h : (callDone s returns).run l = .ok ((), l')) : Step u [] l l' := by
  obtain ⟨front, id, i, jump, callee, outputs, l₁, hstates, houtputs, rfl⟩ := callDone_eq_ok h
  have q : Quiet u l l₁ := registers_quiet hl houtputs
  have hfront : l₁.states = front ++ [⟨id, [i], jump, callee⟩] := q.states.trans hstates
  refine q.then ⟨⟨q.sound.builder, fun st hst => ?_⟩, .refl _, .refl u _, rfl, ?_, ?_⟩
  · simp only [hfront, List.dropLast_concat, List.mem_append, List.mem_singleton] at hst
    rcases hst with hst | rfl
    · exact q.sound.states st (by simp [hfront, hst])
    · have hraw := q.sound.states ⟨id, [i], jump, callee⟩ (by simp [hfront])
      cases hraw with
      | branch _ cond target kind targets inputs =>
        exact .branch _ cond target kind targets inputs
      | call _ _ kind targets => exact .call _ _ kind targets
      | work _ works =>
        refine .work _ fun j hj => ?_
        rw [List.mem_singleton.mp hj]
        exact works i (by simp)
  · simp [hfront, LoweredState.bare, Rtl.Insn.bare]
  · simp [hfront, Lowering.jumps]

theorem branch_step {cond : RegisterId} {target : UInt64} (hl : l.Sound)
    (h : (branch s cond target).run l = .ok ((), l')) :
    Yields u [some (.branch cond target)] false l l' := by
  simp only [branch, run_bind_eq_ok] at h
  obtain ⟨unit, l₁, hunit, c, l₂, hc, i, l₃, hinsn, h⟩ := h
  obtain ⟨q₁, hk⟩ := resource_quiet (u := u) hl Pool.transition_takes hunit
  have q₂ : Quiet u l₁ l₂ := register_quiet q₁.sound hc
  have q₃ : Quiet u l₂ l₃ := insn_quiet q₂.sound hinsn
  cases run_insn_eq_ok.mp hinsn
  have hk₃ := (q₂.trans q₃).builder.pool.kindAt hk
  refine ((q₁.trans q₂).trans q₃).yields ⟨push_step q₃.sound (fun id => ?_) h,
    push_offers hk₃ (by decide) h⟩
  exact .branch id cond target hk₃ rfl rfl

theorem loadObject_step {target object : RegisterId} {label : String} (hl : l.Sound)
    (h : (loadObject s target object label).run l = .ok ((), l')) :
    ∃ w, l.walker.load s.machine target object label = .ok w ∧
      Quiet u { l with walker := w } l' := by
  simp only [loadObject, run_bind_eq_ok, run_get_eq_ok, run_ofExcept_eq_ok, run_modify_eq_ok] at h
  obtain ⟨_, _, hget, w, l₁, ⟨hload, rfl⟩, h⟩ := h
  cases hget
  cases h
  exact ⟨w, hload, (hl.setWalker w).refl_quiet u⟩

theorem instruction_turn {i : Insn} (hl : l.Sound)
    (h : (instruction s i).run l = .ok ((), l')) :
    ∃ w, l.walker.step s.machine i = .ok w ∧ Lowering.Turn (s.uses l.walker i) (marks i)
      { l with walker := w } l' (l.walker.offers? s.machine i) := by
  have hsame : l.walker.step s.machine i = .ok l.walker →
      Lowering.Turn (s.uses l.walker i) (marks i) l l' (l.walker.offers? s.machine i) →
      ∃ w, l.walker.step s.machine i = .ok w ∧ Lowering.Turn (s.uses l.walker i) (marks i)
        { l with walker := w } l' (l.walker.offers? s.machine i) :=
    fun hw hturn => ⟨l.walker, hw, hturn⟩
  cases i with
  | nop =>
    cases run_pure_eq_ok.mp h
    exact hsame rfl (.quiet (hl.refl_quiet _).step)
  | goto target =>
    have hstep : Step (s.uses l.walker (.goto target)) [some (.goto target)] l l' :=
      push_step hl (fun id => .goto id target) h
    cases run_push_eq_ok.mp h
    exact hsame rfl (.empty hstep rfl)
  | branch cond target => exact hsame rfl (.insn (branch_step hl h))
  | num target source => exact hsame rfl (.quiet (num_quiet hl h).step)
  | assign target source => exact hsame rfl (.insn (assign_step hl h))
  | binary op target left right => exact hsame rfl (.insn (binary_step hl h))
  | shift right target source amount => exact hsame rfl (.insn (shift_step hl h))
  | concat target left right => exact hsame rfl (.insn (concat_step hl h))
  | count down operand => exact hsame rfl (.insn (count_step hl h))
  | bitRange target source msb lsb => exact hsame rfl (.insn (bitRange_step hl h))
  | invert logical target source =>
    simp only [instruction, run_bind_eq_ok] at h
    obtain ⟨r, l₁, hr, t, l₂, ht, h⟩ := h
    have q₁ := register_quiet (u := s.uses l.walker (.invert logical target source)) hl hr
    have q := q₁.trans (register_quiet q₁.sound ht)
    exact hsame rfl (.insn (q.yields (invert_step q.sound h)))
  | loadObject target object label =>
    obtain ⟨w, hw, hq⟩ := loadObject_step (u := s.uses l.walker (.loadObject target object label))
      hl h
    exact ⟨w, hw, .quiet hq.step⟩
  | memberRead target object label =>
    obtain ⟨owner, w, haccess, hcases⟩ := memberAccess_step false hl rfl
      (fun owner w e haccess he => by
        simp [Walker.accessed?, Walker.objectOf?_of_read haccess, he]) h
    have howner := Walker.objectOf?_of_read haccess
    refine ⟨w, by simp [Walker.step, haccess, Except.map], ?_⟩
    rcases hcases with ⟨hnone, -, hq⟩ | ⟨hsome, he⟩
    · rw [show l.walker.offers? s.machine (.memberRead target object label) = none by
        simp [Walker.offers?, Walker.accessed?, howner, hnone]]
      exact .quiet hq.step
    · obtain ⟨e, hsome⟩ := Option.isSome_iff_exists.mp hsome
      rw [show l.walker.offers? s.machine (.memberRead target object label) = some false by
        simp [Walker.offers?, Walker.accessed?, howner, hsome]]
      exact .insn he
  | memberWrite object label source =>
    obtain ⟨owner, w, haccess, hcases⟩ := memberAccess_step true hl rfl
      (fun owner w e haccess he => by
        simp [Walker.accessed?, Walker.objectOf?_of_write haccess, he]) h
    refine ⟨w, by simp [Walker.step, haccess, Except.map], ?_⟩
    rcases hcases with ⟨-, hread, -⟩ | ⟨-, he⟩
    · cases hread
    · exact .insn he
  | arrayRead target object index =>
    exact hsame rfl (.insn (arrayAccess_step false hl rfl
      (fun e he => by simp [Walker.accessed?, he]) h))
  | arrayWrite object index source =>
    exact hsame rfl (.insn (arrayAccess_step true hl rfl
      (fun e he => by simp [Walker.accessed?, he]) h))
  | memoryRead target index => exact hsame rfl (.insn (memoryAccess_step hl h))
  | memoryWrite index source => exact hsame rfl (.insn (memoryAccess_step hl h))
  | channelRead target object => exact hsame rfl (.insn (channelAccess_step hl h))
  | channelWrite object source => exact hsame rfl (.insn (channelAccess_step hl h))
  | call object label args => exact hsame rfl (.insn (call_step hl h))
  | callDone returns => exact hsame rfl (.quiet (callDone_step hl h))

theorem instruction_step {i : Insn} (hl : l.Sound)
    (h : (instruction s i).run l = .ok ((), l')) :
    ∃ js w, (js = marks i ∨ js = [] ∧ marks i = [none]) ∧ l.walker.step s.machine i = .ok w ∧
      Step (s.uses l.walker i) js { l with walker := w } l' := by
  obtain ⟨w, hw, hturn⟩ := instruction_turn hl h
  generalize l.walker.offers? s.machine i = offers at hturn
  generalize marks i = room at hturn
  cases hturn with
  | insn yields => exact ⟨room, w, .inl rfl, hw, yields.toStep⟩
  | quiet step => exact ⟨[], w, .inr ⟨rfl, rfl⟩, hw, step⟩
  | empty step => exact ⟨_, w, .inl rfl, hw, step⟩

end Calls

end Lower
end Synth
end MachineSynth
