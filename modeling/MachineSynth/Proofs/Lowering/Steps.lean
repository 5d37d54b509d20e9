import Mathlib
import MachineSynth.Proofs.Lowering.Code
import MachineSynth.Proofs.Lowering.Moves

/-! Steps: lowering is made of the elementary changes, and this is all that it can stop with. What a
scan looks at before does not stop it. -/
namespace MachineSynth

/-- Whether an instruction gives values to all registers that it defines. One that comes to hold an
object, or to stand for a constant, is given none. -/
def Insn.givesAll : Insn → Bool
  | num _ _ | loadObject _ _ _ | memberRead _ _ _ => false
  | _ => true

namespace Synth
namespace Lower

open Lowering (Move)

section Parts

variable {α : Type} {s : Site} {guard : Prop} {may : Allowance}

/-- Whether a part of the lowering gets on by elementary changes, and stops, if it is guarded, only
with what a scan does not look at. -/
abbrev Advances (s : Site) (guard : Prop) (may : Allowance) (x : Lower α) (l : Lowering) : Prop :=
  Obeys (fun e => guard → e.IsOfLowering) (Move s may) x l

theorem advances_fault {f : Fault} (h : guard → (Stop.fault f).IsOfLowering) (l : Lowering) :
    Advances s guard may (fault f : Lower α) l :=
  obeys_of_error rfl h

theorem advances_error {e : SynthError} (h : guard → (Stop.error e).IsOfLowering) (l : Lowering) :
    Advances s guard may (error e : Lower α) l :=
  obeys_of_error rfl h

theorem advances_ofExcept {x : Except Fault α}
    (h : ∀ f, x = .error f → guard → (Stop.fault f).IsOfLowering) (l : Lowering) :
    Advances s guard may (ofExcept x) l := by
  cases x with
  | error f => exact advances_fault (h f rfl) l
  | ok a => exact obeys_pure a l

theorem advances_build {f : Builder → α × Builder} {l : Lowering}
    (h : l.builder.Grows (f l.builder).2) : Advances s guard may (build f) l :=
  obeys_of_ok (run_build_eq_ok.mpr rfl) (.single (.build l h))

theorem advances_resource {take : Pool → Nat × Pool} {kind : String}
    (ht : Pool.TakesTidily take kind) (l : Lowering) : Advances s guard may (resource take) l :=
  advances_build (Builder.grows_resource ht)

theorem advances_constant (width : UInt64) (value : Int64) (l : Lowering) :
    Advances s guard may (build (·.constant width value)) l :=
  advances_build (Builder.grows_constant width value)

theorem advances_storage (stem : String) (width : UInt64) (l : Lowering) :
    Advances s guard may (build (·.storage stem width)) l :=
  advances_build (Builder.grows_storage stem width)

theorem advances_insn (unit : Nat) (operand : String) (inputs outputs : List Nat) (l : Lowering) :
    Advances s guard may (insn unit operand inputs outputs) l :=
  obeys_of_ok (run_insn_eq_ok.mpr rfl) (.single (.build l Builder.grows_newInsn))

theorem advances_push {insns : List Rtl.Insn} {jump : Option Insn} {callee : Option Callee}
    {l : Lowering} (hcallee : ∀ c ∈ callee, may.leaves c)
    (hinsns : ∀ i ∈ insns, l.Admits may.gives i) :
    Advances s guard may (push insns jump callee) l :=
  obeys_of_ok (run_push_eq_ok.mpr rfl) (.single (.push l Builder.grows_newState hcallee hinsns))

/-- A state without instructions. -/
theorem advances_pushNone (jump : Option Insn) (l : Lowering) :
    Advances s guard may (push [] jump none) l :=
  advances_push (fun c hc => by cases hc) fun i hi => by cases hi

theorem advances_emit {unit : Nat} {operand : String} {inputs outputs : List Nat} {l : Lowering}
    (hin : ∀ j ∈ inputs, l.Knows j) (hout : ∀ j ∈ outputs, l.Gives may.gives j) :
    Advances s guard may (emit unit operand inputs outputs) l := by
  refine obeys_of_ok (run_emit_eq_ok.mpr rfl) (.single (.push l
    (Builder.grows_newInsn.trans Builder.grows_newState) (fun c hc => by cases hc) fun i hi => ?_))
  cases List.mem_singleton.mp hi
  exact ⟨hin, hout⟩

theorem advances_bindLocal {r : RegisterId} {j : Nat} {l : Lowering}
    (hlt : j < l.builder.registers.length)
    (h : l.locals.lookup r = none ∧ s.Matches l.builder.registers r j ∨ may.rebinds r) :
    Advances s guard may (Lower.bind r j) l :=
  obeys_of_ok (run_bindLocal_eq_ok.mpr rfl) (.single (.bind hlt h))

theorem advances_walk (w : Walker) (l : Lowering) : Advances s guard may
    (modify fun l : Lowering => { l with walker := w } : Lower PUnit) l :=
  obeys_modify (.walk l w)

theorem advances_register (r : RegisterId) (l : Lowering) :
    Advances s guard may (register s r) l := by
  refine (obeys_get l).bind fun a l₁ ha => ?_
  cases run_get_eq_ok.mp ha
  split
  · exact obeys_pure _ l
  · rename_i hnone
    split
    · exact advances_fault (fun _ => by exact trivial) l
    · rename_i reg hreg
      obtain ⟨j, b, hnew, hgrows, hlt, hmatches⟩ := run_newLocal hreg l
      refine Obeys.bind (obeys_of_ok hnew (.single (.build l hgrows))) fun k l₂ hk => ?_
      cases hnew.symm.trans hk
      have hbind : Advances s guard may (Lower.bind r j) { l with builder := b } :=
        advances_bindLocal hlt (.inl ⟨hnone, hmatches⟩)
      exact hbind.bind fun _ l₃ _ => obeys_pure j l₃

theorem advances_registers (rs : List RegisterId) (l : Lowering) :
    Advances s guard may (registers s rs) l := by
  induction rs generalizing l with
  | nil => exact obeys_pure [] l
  | cons r rest ih =>
    refine (advances_register r l).bind fun j l₁ _ => ?_
    exact (ih l₁).bind fun js l₂ _ => obeys_pure (j :: js) l₂

theorem advances_constantOf (r : RegisterId) (what : String) (l : Lowering) :
    Advances s guard may (constantOf s r what) l := by
  unfold constantOf
  split
  · exact obeys_pure _ l
  · exact advances_fault (fun _ => by exact trivial) l

theorem advances_bindConstant {r : RegisterId} (h : may.rebinds r) (width : UInt64) (value : Int64)
    (l : Lowering) : Advances s guard may (bindConstant r width value) l := by
  refine (advances_constant width value l).bind fun j l₁ hj => ?_
  cases run_build_eq_ok.mp hj
  exact advances_bindLocal (by simp [Builder.constant, Builder.addRegister]) (.inr h)

theorem advances_invert {source target : Nat} {l : Lowering} (hsource : l.Knows source)
    (htarget : l.Gives may.gives target) : Advances s guard may (invert source target) l := by
  refine (advances_resource (Pool.operator_tidily "bit-inv" .truth) l).bind fun unit l₁ hunit => ?_
  have f₁ := resource_fetches (Pool.operator_tidily "bit-inv" .truth) hunit
  exact advances_emit (by simpa using hsource.fetches f₁) (by simpa using htarget.fetches f₁)

theorem advances_addOwner (e : Entity) (r : Nat) (l : Lowering) :
    Advances s guard may (addOwner e r) l := by
  refine (obeys_get l).bind fun a l₁ ha => ?_
  cases run_get_eq_ok.mp ha
  refine Obeys.bind (advances_ofExcept (fun f hf _ => ?_) l) fun links l₁ hlinks => ?_
  · unfold Links.addOwner at hf
    split at hf
    · split at hf <;> cases hf
      trivial
    · cases hf
  · obtain ⟨howner, hl₁⟩ := run_ofExcept_eq_ok.mp hlinks
    cases hl₁
    exact obeys_modify (.build _ (Builder.grows_links (Builder.addOwner_extends howner)))

theorem advances_addAccessor (e : Entity) (r : Nat) (l : Lowering) :
    Advances s guard may (addAccessor e r) l :=
  advances_build (Builder.grows_links (Builder.addAccessor_extends _ _ _))

/-- A state that reads arguments. -/
theorem advances_passing (unit : Nat) (operand : String) (args : List RegisterId) (l : Lowering) :
    Advances s guard may (do
      let inputs ← registers s args
      emit unit operand inputs []) l := by
  refine (advances_registers args l).bind fun inputs l₁ hinputs => ?_
  have his := (registers_fetches hinputs).2
  refine advances_emit (fun j hj => ?_) (by simp)
  obtain ⟨r, -, hr⟩ := exists_of_mem_registers his hj
  exact Lowering.knows_local hr

/-- A state that reads a register of the method, or one that writes it. -/
theorem advances_access {unit own : Nat} {r : RegisterId} {write : Bool} {l : Lowering}
    (hown : l.locals.lookup r = some own) (h : write = false → may.gives r) :
    Advances s guard may (if write then emit unit "" [own] [] else emit unit "" [] [own]) l := by
  split
  · exact advances_emit (by simpa using Lowering.knows_local hown) (by simp)
  · rename_i hread
    exact advances_emit (by simp)
      (by simpa using Lowering.gives_local (h (by simpa using hread)) hown)

end Parts

section Instructions

variable {s : Site} {l : Lowering} {guard : Prop} {may : Allowance}

theorem advances_privateMember (e : Entity) (width : UInt64) (initial : Int64) {r : RegisterId}
    {write : Bool} (h : write = false → may.gives r) (l : Lowering) :
    Advances s guard may (privateMember s e width initial r write) l := by
  refine (advances_build (Builder.grows_memberRegister e width initial)).bind
    fun member l₁ hmember => ?_
  refine (advances_register r l₁).bind fun own l₂ hown => ?_
  refine (advances_resource (Pool.ofKind_tidily "set") l₂).bind fun unit l₃ hunit => ?_
  have hm := (memberRegister_fetches hmember).2
  obtain ⟨f₂, hown⟩ := register_fetches hown
  have f₃ := resource_fetches (Pool.ofKind_tidily "set") hunit
  have hknown : l₃.Knows own := Lowering.knows_local (f₃.kept hown)
  have hm := (f₂.trans f₃).builder.member hm
  split
  · exact advances_emit (by simpa using hknown) (by simpa using Lowering.gives_member hm)
  · rename_i hread
    exact advances_emit (by simpa using Lowering.knows_member hm)
      (by simpa using Lowering.gives_local (h (by simpa using hread)) (f₃.kept hown))

theorem advances_sharedMember (e : Entity) (width : UInt64) {r : RegisterId} {write : Bool}
    (h : write = false → may.gives r) (l : Lowering) :
    Advances s guard may (sharedMember s e width r write) l := by
  have hlast : ∀ unit l₁, Advances s guard may (do
      let own ← register s r
      if write then emit unit "" [own] [] else emit unit "" [] [own]) l₁ := fun unit l₁ =>
    (advances_register r l₁).bind fun own l₂ hown => advances_access (register_fetches hown).2 h
  refine (advances_resource (Pool.sharedMember_tidily e _ write) l).bind fun unit l₁ _ => ?_
  dsimp only
  split
  · refine (advances_build (Builder.grows_setWidth unit width)).bind fun _ l₂ _ => ?_
    exact (advances_addOwner e unit l₂).bind fun _ l₃ _ => hlast unit l₃
  · exact (advances_addAccessor e unit l₁).bind fun _ l₂ _ => hlast unit l₂

theorem advances_storedMember {e : Entity} {width : UInt64} {value : Int64} {const : Bool}
    {r : RegisterId} {write : Bool} (hrebinds : const = true → write = false → may.rebinds r)
    (hgives : const = false → write = false → may.gives r) (l : Lowering) :
    Advances s guard may (storedMember s e width value const r write) l := by
  unfold storedMember
  split
  · rename_i hconst
    split
    · exact advances_fault (fun _ => by exact trivial) l
    · rename_i hread
      exact advances_bindConstant (hrebinds hconst (by simpa using hread)) _ _ l
  · rename_i hconst
    replace hgives := hgives (by simpa using hconst)
    split
    · exact advances_sharedMember e width hgives l
    · exact advances_privateMember e width value hgives l

/-- An access to a member, if the member is there and no method. -/
theorem advances_memberAccess {i : Insn} {label : String} {r : RegisterId} {write : Bool}
    (hguard : guard → ∃ owner w v, l.walker.access s.machine i = .ok (owner, w) ∧
      (s.machine.object? owner).bind (·.lookup? label) = some v ∧ v.kind ≠ .method)
    (hread : write = false → ∀ owner w v, l.walker.access s.machine i = .ok (owner, w) →
      (s.machine.object? owner).bind (·.lookup? label) = some v → (∀ id, v ≠ .object id) →
      (v.isConstant = true → may.rebinds r) ∧ (v.isConstant = false → may.gives r)) :
    Advances s guard may (memberAccess s i label r write) l := by
  refine (obeys_get l).bind fun a l₁ ha => ?_
  cases run_get_eq_ok.mp ha
  refine (advances_ofExcept (fun f hf hg => ?_) l).bind fun ow l₁ how => ?_
  · obtain ⟨owner, w, v, hok, -⟩ := hguard hg
    cases hf.symm.trans hok
  obtain ⟨owner, w⟩ := ow
  have haccess := (run_ofExcept_eq_ok.mp how).1
  refine (advances_walk w l₁).bind fun _ l₂ _ => ?_
  cases hlookup : (s.machine.object? owner).bind (·.lookup? label) with
  | none =>
    refine advances_error (fun hg => ?_) l₂
    obtain ⟨owner', w', v, hok, hv, -⟩ := hguard hg
    cases haccess.symm.trans hok
    cases hlookup.symm.trans hv
  | some v =>
    cases v with
    | object id =>
      dsimp only
      split
      · exact advances_fault (fun _ => by exact trivial) l₂
      · exact obeys_pure () l₂
    | method f =>
      refine advances_fault (fun hg => ?_) l₂
      obtain ⟨owner', w', v, hok, hv, hkind⟩ := hguard hg
      cases haccess.symm.trans hok
      cases hlookup.symm.trans hv
      exact absurd rfl hkind
    | num width value const =>
      exact advances_storedMember
        (fun hc hr => (hread hr owner w _ haccess hlookup (by simp)).1 hc)
        (fun hc hr => (hread hr owner w _ haccess hlookup (by simp)).2 hc) l₂
    | enum width ordinal const =>
      exact advances_storedMember
        (fun hc hr => (hread hr owner w _ haccess hlookup (by simp)).1 hc)
        (fun hc hr => (hread hr owner w _ haccess hlookup (by simp)).2 hc) l₂

theorem advances_indexed (unit : Nat) (index : RegisterId) {r : RegisterId} {write : Bool}
    (h : write = false → may.gives r) (l : Lowering) :
    Advances s guard may (indexed s unit index r write) l := by
  refine (advances_register index l).bind fun i l₁ hi => ?_
  refine (advances_register r l₁).bind fun own l₂ hown => ?_
  obtain ⟨f₂, hown⟩ := register_fetches hown
  have hindex : l₂.Knows i := Lowering.knows_local (f₂.kept (register_fetches hi).2)
  split
  · exact advances_emit (by simp [hindex, Lowering.knows_local hown]) (by simp)
  · rename_i hread
    exact advances_emit (by simpa using hindex)
      (by simpa using Lowering.gives_local (h (by simpa using hread)) hown)

theorem advances_arrayResource (id : Nat) (o : Object) (write : Bool) (l : Lowering) :
    Advances s guard may (arrayResource s id o write) l := by
  unfold arrayResource
  dsimp only
  split
  · exact advances_resource (Pool.privateArray_tidily id o) l
  · split
    · refine (advances_resource (Pool.sharedArray_tidily id o true false) l).bind
        fun unit l₁ _ => ?_
      exact (advances_addOwner _ unit l₁).bind fun _ l₂ _ => obeys_pure unit l₂
    · refine (advances_resource (Pool.sharedArray_tidily id o false write) l).bind
        fun unit l₁ _ => ?_
      exact (advances_addAccessor _ unit l₁).bind fun _ l₂ _ => obeys_pure unit l₂

theorem run_heldObject (s : Site) (r : RegisterId) (l : Lowering) :
    (heldObject s r).run l = .ok ((l.walker.objectOf? r).bind fun id =>
      (s.machine.object? id).map (id, ·), l) := rfl

/-- What is done with the object that a register holds. -/
theorem advances_heldObject {α : Type} {f : Option (Nat × Object) → Lower α} (r : RegisterId)
    (h : Advances s guard may (f ((l.walker.objectOf? r).bind fun id =>
      (s.machine.object? id).map (id, ·))) l) :
    Advances s guard may (heldObject s r >>= f) l := by
  refine Obeys.bind (obeys_of_ok (run_heldObject s r l) .refl) fun a l₁ ha => ?_
  cases (run_heldObject s r l).symm.trans ha
  exact h

/-- An access to an array, if there is one. -/
theorem advances_arrayAccess {array index r : RegisterId} {write : Bool}
    (hguard : guard → ∃ id o, l.walker.objectOf? array = some id ∧ s.machine.object? id = some o ∧
      o.isArray = true) (h : write = false → may.gives r) :
    Advances s guard may (arrayAccess s array index r write) l := by
  refine advances_heldObject array ?_
  cases hheld : (l.walker.objectOf? array).bind fun id => (s.machine.object? id).map (id, ·) with
  | none =>
    refine advances_fault (fun hg => ?_) l
    obtain ⟨id, o, hid, ho, -⟩ := hguard hg
    simp [hid, ho] at hheld
  | some x =>
    obtain ⟨id, o⟩ := x
    dsimp only
    split
    · exact (advances_arrayResource id o write l).bind fun unit l₁ _ =>
        advances_indexed unit index h l₁
    · rename_i hnot
      refine advances_fault (fun hg => ?_) l
      obtain ⟨id', o', hid, ho, harray⟩ := hguard hg
      simp only [hid, ho, Option.bind_some, Option.map_some, Option.some.injEq,
        Prod.mk.injEq] at hheld
      obtain ⟨-, rfl⟩ := hheld
      exact absurd harray hnot

theorem advances_channelAccess {channel r : RegisterId} {write : Bool}
    (h : write = false → may.gives r) (l : Lowering) :
    Advances s guard may (channelAccess s channel r write) l := by
  refine advances_heldObject channel ?_
  split
  · rename_i id o _
    split
    · refine (advances_resource (Pool.channel_tidily id write o.width) l).bind
        fun unit l₁ hunit => ?_
      refine (advances_register r l₁).bind fun own l₂ hown => ?_
      obtain ⟨f₂, hown⟩ := register_fetches hown
      -- The key of the resource is still there when the use of the channel is noted.
      have huse : ∀ {inputs outputs kind}, Advances s guard may (emit unit "" inputs outputs) l₂ →
          Advances s guard may (do
            emit unit "" inputs outputs
            build fun b => ((), { b with
              channels := b.channels.add id o.name o.width kind (b.pool.ref unit) })) l₂ := by
        intro inputs outputs kind hemits
        refine hemits.bind fun _ l₃ hemit => ?_
        have hkey : ∃ key, l₃.builder.pool.keys.lookup key = some unit := by
          cases run_build_eq_ok.mp hunit
          cases run_emit_eq_ok.mp hemit
          exact ⟨_, f₂.builder.pool.key (Pool.lookup_request l.builder.pool _ _)⟩
        obtain ⟨key, hkey⟩ := hkey
        exact advances_build (Builder.grows_channel hkey _ _ _ _)
      have haccess : Advances s guard may
          (if write then emit unit "" [own] [] else emit unit "" [] [own]) l₂ :=
        advances_access hown h
      cases write
      · exact huse haccess
      · exact huse haccess
    · exact advances_fault (fun _ => by exact trivial) l
  · exact advances_fault (fun _ => by exact trivial) l

theorem advances_transfer (id : Nat) (o : Object) (args : List RegisterId) (store : Bool)
    (l : Lowering) : Advances s guard may (transfer s id o args store) l := by
  unfold transfer
  split
  · refine (advances_resource (Pool.arrayPort_tidily id o true) l).bind fun unit l₁ _ => ?_
    dsimp only
    split
    · exact (advances_addAccessor _ unit l₁).bind fun _ l₂ _ => advances_passing unit _ args l₂
    · exact advances_passing unit _ args l₁
  · exact advances_fault (fun _ => by exact trivial) l

theorem advances_nativeCall (id : Nat) (o : Object) (f : Method) (args : List RegisterId)
    (l : Lowering) : Advances s guard may (nativeCall s id o f args) l := by
  unfold nativeCall
  split
  · exact (advances_resource (Pool.ofKind_tidily _) l).bind fun unit l₁ _ =>
      advances_passing unit _ args l₁
  · exact (advances_resource (Pool.ofKind_tidily _) l).bind fun unit l₁ _ =>
      advances_passing unit _ args l₁
  · refine (advances_resource (Pool.ofKind_tidily _) l).bind fun unit l₁ _ => ?_
    refine (advances_registers args l₁).bind fun inputs l₂ hinputs => ?_
    split
    · refine (advances_constant _ _ l₂).bind fun one l₃ hone => ?_
      exact advances_emit (by simpa using (constant_fetches hone).2) (by simp)
    · refine advances_emit (fun j hj => ?_) (by simp)
      obtain ⟨r, -, hr⟩ := exists_of_mem_registers (registers_fetches hinputs).2 hj
      exact Lowering.knows_local hr
  · exact advances_transfer id o args false l
  · exact advances_transfer id o args true l
  · exact advances_error (fun _ => by exact trivial) l

/-- A call, if what it calls is there. -/
theorem advances_call {object : RegisterId} {label : String} {args : List RegisterId}
    (hguard : guard → ∃ callee f, l.walker.objectOf? object = some callee ∧
      Walker.calledMethod? s.machine (some callee) label = some f)
    (hleaves : ∀ c, l.walker.Leaves s.machine s.object (.call object label args) c →
      may.leaves c) :
    Advances s guard may (call s object label args) l := by
  refine advances_heldObject object ?_
  cases hheld : (l.walker.objectOf? object).bind fun id => (s.machine.object? id).map (id, ·) with
  | none =>
    refine advances_fault (fun hg => ?_) l
    obtain ⟨callee, f, hcallee, hf⟩ := hguard hg
    obtain ⟨o, ho, -⟩ := Option.bind_eq_some_iff.mp hf
    simp only [Option.bind_some] at ho
    simp [hcallee, ho] at hheld
  | some x =>
    obtain ⟨id, o⟩ := x
    obtain ⟨id', hid, ho⟩ := Option.bind_eq_some_iff.mp hheld
    obtain ⟨o', ho, heq⟩ := Option.map_eq_some_iff.mp ho
    cases heq
    refine (obeys_get l).bind fun a l₁ ha => ?_
    cases run_get_eq_ok.mp ha
    split
    · exact advances_nativeCall id o _ args l
    · rename_i hnot
      have hnative : l.walker.isNativeCall s.machine object label = false := by
        by_contra hnative
        simp only [Bool.not_eq_false] at hnative
        cases hf : o.method? label with
        | none =>
          simp [Walker.isNativeCall, Walker.calledMethod?, hid, ho, hf] at hnative
        | some f => exact hnot f hnative hf
      refine (advances_resource (Pool.ofKind_tidily _) l).bind fun unit l₁ _ => ?_
      refine (advances_registers args l₁).bind fun inputs l₂ hinputs => ?_
      refine (advances_insn unit _ _ _ l₂).bind fun i l₃ hi => ?_
      obtain ⟨f₃, hin, hout⟩ := insn_fetches hi
      refine advances_push (fun c hc => ?_) fun k hk => ?_
      · simp only [calleeOf, Option.mem_def] at hc
        split at hc
        · cases hc
        · cases hc
          exact hleaves _ ⟨object, args, rfl, hid, rfl, hnative⟩
      · cases List.mem_singleton.mp hk
        refine ⟨fun j hj => ?_, by simp [hout]⟩
        obtain ⟨r, -, hr⟩ := exists_of_mem_registers (registers_fetches hinputs).2 (hin ▸ hj)
        exact Lowering.knows_local (f₃.kept hr)

/-- Results are added to the state just before. -/
theorem advances_callDone {returns : List RegisterId} (hgives : ∀ r ∈ returns, may.gives r)
    (hamends : may.amends) (l : Lowering) : Advances s guard may (callDone s returns) l := by
  refine (obeys_get l).bind fun a l₁ ha => ?_
  cases run_get_eq_ok.mp ha
  split
  · rename_i id i jump callee hlast
    refine (advances_registers returns l).bind fun outputs l₁ hout => ?_
    refine obeys_modify (.link l₁ (.refl _) ?_ hamends)
    obtain ⟨f, houtputs⟩ := registers_fetches hout
    obtain ⟨sts, hsts⟩ := List.getLast?_eq_some_iff.mp hlast
    rw [f.states, hsts, List.dropLast_concat]
    refine List.rel_append (List.forall₂_same.mpr fun st _ => .refl st) (.cons ?_ .nil)
    refine ⟨rfl, fun k hk => ?_, fun k hk j hj => ?_, fun k hk j hj => ?_⟩ <;>
      cases List.mem_singleton.mp hk
    · exact ⟨_, List.mem_singleton_self _, rfl, List.prefix_append _ _⟩
    · exact .inr ⟨i, List.mem_singleton_self i, hj⟩
    · rcases List.mem_append.mp hj with hj | hj
      · exact .inr ⟨i, List.mem_singleton_self i, hj⟩
      · obtain ⟨r, hr, hlookup⟩ := exists_of_mem_registers houtputs hj
        exact .inl (Lowering.gives_local (hgives r hr) hlookup)
  · exact advances_fault (fun _ => by exact trivial) l

theorem advances_assign {target source : RegisterId} (h : may.gives target) (l : Lowering) :
    Advances s guard may (assign s target source) l := by
  refine (advances_register target l).bind fun t l₁ ht => ?_
  refine (advances_register source l₁).bind fun r l₂ hr => ?_
  refine (advances_resource (Pool.ofKind_tidily "set") l₂).bind fun unit l₃ hunit => ?_
  obtain ⟨f₂, hr⟩ := register_fetches hr
  have f₃ := resource_fetches (Pool.ofKind_tidily "set") hunit
  have ht := (f₂.trans f₃).kept (register_fetches ht).2
  exact advances_emit (by simpa using Lowering.knows_local (f₃.kept hr))
    (by simpa using Lowering.gives_local h ht)

theorem advances_binary (op : BinaryOp) {target : RegisterId} (left right : RegisterId)
    (h : may.gives target) (l : Lowering) :
    Advances s guard may (binary s op target left right) l := by
  unfold binary
  split
  · exact advances_fault (fun _ => by exact trivial) l
  · rename_i kind _
    refine (advances_resource (Pool.operator_tidily kind _) l).bind fun unit l₁ _ => ?_
    refine (advances_register left l₁).bind fun x l₂ hx => ?_
    refine (advances_register right l₂).bind fun y l₃ hy => ?_
    refine (advances_register target l₃).bind fun t l₄ ht => ?_
    obtain ⟨f₃, hy⟩ := register_fetches hy
    obtain ⟨f₄, ht⟩ := register_fetches ht
    have hx := (f₃.trans f₄).kept (register_fetches hx).2
    have hinputs : ∀ j ∈ (if swapsOperands op then [y, x] else [x, y]), l₄.Knows j := by
      have hxs : l₄.Knows x := Lowering.knows_local hx
      have hys : l₄.Knows y := Lowering.knows_local (f₄.kept hy)
      split <;> simp [hxs, hys]
    have htarget : l₄.Gives may.gives t := Lowering.gives_local h ht
    split
    · -- The result of a comparison that is to be negated goes to a register of its own.
      refine (advances_storage _ _ l₄).bind fun z l₅ hz => ?_
      obtain ⟨f₅, hz⟩ := storage_fetches hz
      have htarget : l₅.Gives may.gives t := htarget.fetches f₅
      have hemit : Advances s guard may
          (emit unit "" (if swapsOperands op then [y, x] else [x, y]) [z]) l₅ :=
        advances_emit (fun j hj => (hinputs j hj).fetches f₅)
          (by simpa using Lowering.gives_writable hz)
      refine hemit.bind fun _ l₆ hrun => ?_
      cases run_emit_eq_ok.mp hrun
      exact advances_invert (Lowering.knows_lt hz.lt) htarget
    · exact advances_emit hinputs (by simpa using htarget)

theorem advances_shift (right : Bool) {target : RegisterId} (source amount : RegisterId)
    (h : may.gives target) (l : Lowering) :
    Advances s guard may (shift s right target source amount) l := by
  refine (advances_constantOf amount _ l).bind fun n l₀ _ => ?_
  refine (advances_register source l₀).bind fun r l₁ hr => ?_
  refine (advances_resource (Pool.operator_tidily "shift" .truth) l₁).bind fun unit l₂ hunit => ?_
  refine (advances_constant _ _ l₂).bind fun c l₃ hc => ?_
  refine (advances_register target l₃).bind fun t l₄ ht => ?_
  have f₂ := resource_fetches (Pool.operator_tidily "shift" .truth) hunit
  obtain ⟨f₃, hc⟩ := constant_fetches hc
  obtain ⟨f₄, ht⟩ := register_fetches ht
  have hr := ((f₂.trans f₃).trans f₄).kept (register_fetches hr).2
  exact advances_emit (by simp [Lowering.knows_local hr, show l₄.Knows c from hc.fetches f₄])
    (by simpa using Lowering.gives_local h ht)

theorem advances_concat {target : RegisterId} (left right : RegisterId) (h : may.gives target)
    (l : Lowering) : Advances s guard may (concat s target left right) l := by
  refine (advances_register left l).bind fun x l₁ hx => ?_
  refine (advances_register right l₁).bind fun y l₂ hy => ?_
  refine (advances_resource (Pool.operator_tidily "bit-concat" .truth) l₂).bind
    fun unit l₃ hunit => ?_
  refine (advances_register target l₃).bind fun t l₄ ht => ?_
  obtain ⟨f₂, hy⟩ := register_fetches hy
  obtain ⟨f₄, ht⟩ := register_fetches ht
  have f := (resource_fetches (Pool.operator_tidily "bit-concat" .truth) hunit).trans f₄
  have hx := (f₂.trans f).kept (register_fetches hx).2
  exact advances_emit (by simp [Lowering.knows_local hx, Lowering.knows_local (f.kept hy)])
    (by simpa using Lowering.gives_local h ht)

theorem advances_count (down : Bool) {operand : RegisterId} (h : may.gives operand) (l : Lowering) :
    Advances s guard may (count s down operand) l := by
  refine (advances_register operand l).bind fun r l₁ hr => ?_
  refine (advances_resource (Pool.operator_tidily _ _) l₁).bind fun unit l₂ hunit => ?_
  refine (advances_constant _ _ l₂).bind fun one l₃ hone => ?_
  obtain ⟨f₃, hone⟩ := constant_fetches hone
  have hr := ((resource_fetches (Pool.operator_tidily _ _) hunit).trans f₃).kept
    (register_fetches hr).2
  exact advances_emit (by simp [Lowering.knows_local hr, hone])
    (by simpa using Lowering.gives_local h hr)

theorem advances_bitRange {target : RegisterId} (source msb lsb : RegisterId)
    (h : may.gives target) (l : Lowering) :
    Advances s guard may (bitRange s target source msb lsb) l := by
  refine (advances_constantOf msb _ l).bind fun hi l₁ _ => ?_
  refine (advances_constantOf lsb _ l₁).bind fun lo l₂ _ => ?_
  refine (advances_register source l₂).bind fun r l₃ hr => ?_
  refine (advances_resource (Pool.operator_tidily "bit-sel" .truth) l₃).bind
    fun unit l₄ hunit => ?_
  refine (advances_constant _ _ l₄).bind fun c l₅ hc => ?_
  refine (advances_constant _ _ l₅).bind fun d l₆ hd => ?_
  refine (advances_register target l₆).bind fun t l₇ ht => ?_
  obtain ⟨f₅, hc⟩ := constant_fetches hc
  obtain ⟨f₆, hd⟩ := constant_fetches hd
  obtain ⟨f₇, ht⟩ := register_fetches ht
  have f := (resource_fetches (Pool.operator_tidily "bit-sel" .truth) hunit).trans
    (f₅.trans (f₆.trans f₇))
  have hr := f.kept (register_fetches hr).2
  exact advances_emit (by simp [Lowering.knows_local hr, show l₇.Knows c from
    hc.fetches (f₆.trans f₇), show l₇.Knows d from hd.fetches f₇])
    (by simpa using Lowering.gives_local h ht)

theorem advances_branch (cond : RegisterId) (target : UInt64) (l : Lowering) :
    Advances s guard may (branch s cond target) l := by
  refine (advances_resource Pool.transition_tidily l).bind fun unit l₁ _ => ?_
  refine (advances_register cond l₁).bind fun c l₂ hc => ?_
  refine (advances_insn unit _ _ _ l₂).bind fun i l₃ hi => ?_
  obtain ⟨f₃, hin, hout⟩ := insn_fetches hi
  have hcond : l₃.Knows c := Lowering.knows_local (f₃.kept (register_fetches hc).2)
  refine advances_push (fun c hc => by cases hc) fun k hk => ?_
  cases List.mem_singleton.mp hk
  exact ⟨by simpa [hin] using hcond, by simp [hout]⟩

/-- What an instruction may do. Only results of a call that are bound rewrite a state. -/
def allowed (s : Site) (w : Walker) (i : Insn) : Allowance where
  leaves := w.Leaves s.machine s.object i
  rebinds := w.Rebinds s.machine i
  gives r := r ∈ w.results s.machine i ∧ ¬ w.Rebinds s.machine i r
  amends := ∃ returns, i = .callDone returns

theorem allowed_gives {w : Walker} {i : Insn} {r : RegisterId} (hi : i.givesAll = true)
    (hr : r ∈ i.definitions) : (allowed s w i).gives r := by
  refine ⟨?_, ?_⟩
  · unfold Walker.results
    split
    · cases hi
    · cases hi
    · exact hr
  · rintro (⟨source, rfl⟩ | ⟨object, label, owner, v, rfl, -⟩) <;> cases hi

theorem instruction_advances (s : Site) (i : Insn) (l : Lowering) :
    Advances s (l.walker.Passes s.machine i) (allowed s l.walker i) (instruction s i) l := by
  cases i with
  | nop => exact obeys_pure () l
  | goto target => exact advances_pushNone _ l
  | branch cond target => exact advances_branch cond target l
  | num target source =>
    simp only [instruction, num]
    split
    · split
      · have hrebinds : l.walker.Rebinds s.machine (.num target source) target :=
          .inl ⟨source, rfl⟩
        exact advances_bindConstant hrebinds _ _ l
      · exact advances_fault (fun _ => by exact trivial) l
    · exact advances_fault (fun _ => by exact trivial) l
  | assign target source => exact advances_assign (allowed_gives rfl List.mem_cons_self) l
  | binary op target left right =>
    exact advances_binary op left right (allowed_gives rfl List.mem_cons_self) l
  | shift right target source amount =>
    exact advances_shift right source amount (allowed_gives rfl List.mem_cons_self) l
  | concat target left right =>
    exact advances_concat left right (allowed_gives rfl List.mem_cons_self) l
  | count down operand =>
    exact advances_count down (allowed_gives rfl List.mem_cons_self) l
  | bitRange target source msb lsb =>
    exact advances_bitRange source msb lsb (allowed_gives rfl List.mem_cons_self) l
  | invert logical target source =>
    refine (advances_register source l).bind fun r l₁ hr => ?_
    refine (advances_register target l₁).bind fun t l₂ ht => ?_
    obtain ⟨f₂, ht⟩ := register_fetches ht
    exact advances_invert (Lowering.knows_local (f₂.kept (register_fetches hr).2))
      (Lowering.gives_local (allowed_gives rfl List.mem_cons_self) ht)
  | loadObject target object label =>
    refine (obeys_get l).bind fun a l₁ ha => ?_
    cases run_get_eq_ok.mp ha
    refine (advances_ofExcept (fun f hf hg => ?_) l).bind fun w l₁ _ => advances_walk w l₁
    obtain ⟨w, hw⟩ := hg
    cases hf.symm.trans hw
  | memberRead target object label =>
    refine advances_memberAccess id fun _ owner w v haccess hv hobject => ?_
    have howner := Walker.objectOf?_of_read haccess
    have hrebinds : l.walker.Rebinds s.machine (.memberRead target object label) target ↔
        v.isConstant = true := by
      constructor
      · rintro (⟨source, hnum⟩ | ⟨object', label', owner', v', heq, howner', hv', hconst⟩)
        · cases hnum
        · cases heq
          cases howner.symm.trans howner'
          cases hv.symm.trans hv'
          exact hconst
      · exact fun hconst => .inr ⟨object, label, owner, v, rfl, howner, hv, hconst⟩
    refine ⟨hrebinds.mpr, fun hconst => ⟨?_, by simp [hrebinds, hconst]⟩⟩
    have hmember : ((l.walker.objectOf? object).bind s.machine.object?).bind (·.lookup? label) =
      some v := by rw [howner]; exact hv
    cases v with
    | object id => exact absurd rfl (hobject id)
    | method f | num width value const | enum width value const =>
      simp [Walker.results, hmember]
  | memberWrite object label source =>
    exact advances_memberAccess id fun hread => by cases hread
  | arrayRead target object index =>
    exact advances_arrayAccess id fun _ => allowed_gives rfl List.mem_cons_self
  | arrayWrite object index source => exact advances_arrayAccess id fun hread => by cases hread
  | memoryRead target index =>
    exact (advances_resource Pool.externalMemory_tidily l).bind fun unit l₁ _ =>
      advances_indexed unit index (fun _ => allowed_gives rfl List.mem_cons_self) l₁
  | memoryWrite index source =>
    exact (advances_resource Pool.externalMemory_tidily l).bind fun unit l₁ _ =>
      advances_indexed unit index (fun hread => by cases hread) l₁
  | channelRead target object =>
    exact advances_channelAccess (fun _ => allowed_gives rfl List.mem_cons_self) l
  | channelWrite object source => exact advances_channelAccess (fun hread => by cases hread) l
  | call object label args => exact advances_call id fun c => id
  | callDone returns =>
    exact advances_callDone (fun r hr => allowed_gives rfl hr) ⟨returns, rfl⟩ l

end Instructions
end Lower

namespace Lower

variable {s : Site} {l : Lowering}

/-- What code may do: what its instructions may, each with the walker that comes to it. -/
def allowedAlong (s : Site) (w : Walker) (is : List Insn) : Allowance where
  leaves c := w.Along s.machine is (·.Leaves s.machine s.object · c)
  rebinds r := w.Along s.machine is (·.Rebinds s.machine · r)
  gives _ := True
  amends := True

theorem code_advances (is : List Insn) (hl : l.Sound) :
    Advances s (l.walker.Guarded s.machine is) (allowedAlong s l.walker is) (code s is) l := by
  induction is generalizing l with
  | nil => exact obeys_pure [] l
  | cons i rest ih =>
    refine (obeys_get l).bind fun a l₁ ha => ?_
    cases run_get_eq_ok.mp ha
    have hhead : (allowed s l.walker i).Within (allowedAlong s l.walker (i :: rest)) :=
      ⟨fun c hc => Walker.along_head hc, fun r hr => Walker.along_head hr, fun _ _ => trivial,
        fun _ => trivial⟩
    refine ((instruction_advances s i l).mono (fun e he hg => he hg.head) fun a b hab =>
      hab.mono hhead).bind fun _ b hb => ?_
    obtain ⟨n, w, -, hw, hb⟩ := instruction_step hl hb
    have htail : (allowedAlong s w rest).Within (allowedAlong s l.walker (i :: rest)) :=
      ⟨fun c hc => (Walker.along_cons hw).mpr (.inr hc),
        fun r hr => (Walker.along_cons hw).mpr (.inr hr), fun _ => id, id⟩
    have hrest : ∀ b' : Lowering, b'.Sound → b'.walker = w →
        Advances s (l.walker.Guarded s.machine (i :: rest)) (allowedAlong s l.walker (i :: rest))
          (do return l.states.length :: (← code s rest)) b' := by
      rintro b' hb' rfl
      exact ((ih hb').mono (fun e he hg => he (hg.tail hw)) fun a b hab => hab.mono htail).bind
        fun starts b'' _ => obeys_pure _ b''
    refine (obeys_get b).bind fun a l₁ ha => ?_
    cases run_get_eq_ok.mp ha
    split
    · refine (advances_pushNone none b).bind fun _ b' hb' => ?_
      cases run_push_eq_ok.mp hb'
      exact hrest _ (pushed_step (u := .none) hb.sound).sound hb.walker
    · exact hrest b hb.sound hb.walker

end Lower
end Synth
end MachineSynth
