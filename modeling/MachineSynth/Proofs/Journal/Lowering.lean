import Mathlib
import MachineSynth.Proofs.Journal.Acts
import MachineSynth.Proofs.Lowering.Methods

/-! The journal of a lowering: every function that lowers a part of a method logs its acts. -/
namespace MachineSynth
namespace Synth

open Builder (Act)

namespace Pool

def operatorKinds : List String := ["add", "sub", "mul", "and", "or", "xor", "gt", "eq", "bit-inv"]

/-- Whether a request is one that the lowering makes: its kind is plain, the resource keeps it and
has no parent, and that of an operator has the types of the operator. -/
structure Suits (key : ResourceKey) (prepare : Rtl.Resource → Rtl.Resource) : Prop where
  plain : IsPlain key.kind
  kind : ∀ r, (prepare r).kind = r.kind
  parent : ∀ r, (prepare r).parent = r.parent
  types : key.kind ∈ operatorKinds →
    ∀ r, ((prepare r).inputs, (prepare r).outputs) = operatorTypes key.kind key.type

def IsChannel (kind : String) : Prop := kind = channelWriteKind ∨ kind = channelReadKind

/-- The kinds of the resources with which tables start tasks and hand results over. -/
def handoverKinds : List String :=
  [Rtl.taskKind, Rtl.taskReturnKind, Rtl.taskCallKind, Rtl.taskReturnValueKind]

instance (kind : String) : Decidable (IsPlain kind) := inferInstanceAs (Decidable (_ ∧ _))

instance (kind : String) : Decidable (IsChannel kind) := inferInstanceAs (Decidable (_ ∨ _))

/-- Whether a kind is one of those that are requested without further ado. -/
def IsSimple (kind : String) : Prop :=
  IsPlain kind ∧ ¬ IsChannel kind ∧ kind ∉ operatorKinds ∧ kind ∉ handoverKinds

instance (kind : String) : Decidable (IsSimple kind) := inferInstanceAs (Decidable (_ ∧ _))

end Pool

namespace Lower

/-- What the lowering of a method does to the builder apart from data flow, tasks and channels,
whatever is allowed of it. -/
structure Permits (m : Machine) (owners : OwnershipTable) (thread : ThreadId) (P : Act → Prop) :
    Prop where
  request : ∀ {key prepare}, Pool.Suits key prepare → ¬ Pool.IsChannel key.kind →
    key.kind ∉ Pool.handoverKinds → P (.request key prepare)
  transition : P .transition
  hold : ∀ {e width initial}, e.declared? m = some (width, initial) →
    (owners.get e).isShared = true → (owners.get e).isOwner thread = true → P (.hold e width)
  register : ∀ name type kind initial, P (.register name type kind initial)
  fresh : ∀ stem type kind initial, P (.fresh stem type kind initial)
  member : ∀ {e width initial}, e.declared? m = some (width, initial) → P (.member e width initial)
  state : P .state
  insn : P .insn
  owner : ∀ {e} r, (owners.get e).isOwner thread = true → P (.owner e r)
  accessor : ∀ e r, P (.accessor e r)

/-- The acts with which a method is lowered, apart from those for data flow, tasks and channels. -/
def Act.Lowers (m : Machine) (owners : OwnershipTable) (thread : ThreadId) : Act → Prop
  | .request key prepare => Pool.Suits key prepare ∧ ¬ Pool.IsChannel key.kind ∧
      key.kind ∉ Pool.handoverKinds
  | .hold e width => (∃ initial, e.declared? m = some (width, initial)) ∧
      (owners.get e).isShared = true ∧ (owners.get e).isOwner thread = true
  | .member e width initial => e.declared? m = some (width, initial)
  | .owner e _ => (owners.get e).isOwner thread = true
  | .dataFlow _ | .channel _ _ _ _ _ => False
  | _ => True

structure PermitsChannels (P : Act → Prop) : Prop where
  request : ∀ {key prepare}, Pool.Suits key prepare → Pool.IsChannel key.kind →
    P (.request key prepare)
  use : ∀ object name width kind r, P (.channel object name width kind r)

def PermitsFlow (P : Act → Prop) : Prop := ∀ width, P (.dataFlow width)

/-- What a method does that is started as a task, and hands its results back. -/
structure PermitsTasks (P : Act → Prop) : Prop where
  start : P (.request ⟨Rtl.taskKind, "", 0, .truth⟩ id)
  finish : P (.request ⟨Rtl.taskReturnKind, "", 0, .truth⟩ id)

theorem permitsTasks_of_suits {P : Act → Prop}
    (h : ∀ {key prepare}, Pool.Suits key prepare → P (.request key prepare)) : PermitsTasks P :=
  ⟨h ⟨by decide, fun _ => rfl, fun _ => rfl, fun h => absurd h (by decide)⟩,
    h ⟨by decide, fun _ => rfl, fun _ => rfl, fun h => absurd h (by decide)⟩⟩

theorem permits_of_lowers {m : Machine} {owners : OwnershipTable} {thread : ThreadId}
    {P : Act → Prop} (h : ∀ act, Act.Lowers m owners thread act → P act) :
    Permits m owners thread P where
  request hsuits hchannel hkind := h _ ⟨hsuits, hchannel, hkind⟩
  transition := h _ trivial
  hold he hshared howner := h _ ⟨⟨_, he⟩, hshared, howner⟩
  register _ _ _ _ := h _ trivial
  fresh _ _ _ _ := h _ trivial
  member he := h _ he
  state := h _ trivial
  insn := h _ trivial
  owner _ howner := h _ howner
  accessor _ _ := h _ trivial

theorem permits_fits (m : Machine) (owners : OwnershipTable) (thread : ThreadId) :
    Permits m owners thread (Act.Fits m owners thread) :=
  permits_of_lowers fun act hact => by
    cases act with
    | request key prepare => exact ⟨hact.1.plain, hact.1.kind⟩
    | hold e width => exact hact.1
    | member e width initial => exact hact
    | owner e r => exact hact
    | _ => trivial

theorem permitsChannels_fits (m : Machine) (owners : OwnershipTable) (thread : ThreadId) :
    PermitsChannels (Act.Fits m owners thread) :=
  ⟨fun h _ => ⟨h.plain, h.kind⟩, fun _ _ _ _ _ => trivial⟩

theorem permitsFlow_fits (m : Machine) (owners : OwnershipTable) (thread : ThreadId) :
    PermitsFlow (Act.Fits m owners thread) := fun _ => trivial

theorem permitsTasks_fits (m : Machine) (owners : OwnershipTable) (thread : ThreadId) :
    PermitsTasks (Act.Fits m owners thread) :=
  permitsTasks_of_suits fun h => ⟨h.plain, h.kind⟩

variable {α : Type} {s : Site} {P : Act → Prop}

section Parts

theorem logged_fault (f : Fault) : Logs P (fault f : Lower α) :=
  logs_of_ne_ok fun _ _ => run_fault_ne_ok

theorem logged_error (e : SynthError) : Logs P (error e : Lower α) :=
  logs_of_ne_ok fun _ _ => run_error_ne_ok

theorem logged_ofExcept (x : Except Fault α) : Logs P (ofExcept x) := by
  cases x with
  | error f => exact logged_fault f
  | ok a => exact logs_pure a

theorem logged_build {f : Builder → α × Builder} (act : Act) (hact : P act)
    (hrun : ∀ b, act.run b = .ok (f b).2) (hanswer : ∀ b R, (f (b.setRegistry R)).1 = (f b).1) :
    Logs P (build f) :=
  logs_of_act hact hrun hanswer fun _ => rfl

theorem logged_bindLocal (r : RegisterId) (i : Nat) : Logs P (Lower.bind r i) :=
  logs_modify (fun _ => rfl) fun _ _ => rfl

theorem logged_walk (w : Walker) :
    Logs P (modify fun l : Lowering => { l with walker := w } : Lower PUnit) :=
  logs_modify (fun _ => rfl) fun _ _ => rfl

theorem logged_mapStates {f : Nat → LoweredState → Lower LoweredState}
    (hf : ∀ i st, Logs P (f i st)) (i : Nat) (states : List LoweredState) :
    Logs P (mapStates f i states) := by
  induction states generalizing i with
  | nil => exact logs_pure []
  | cons st rest ih =>
    exact (hf i st).bind fun st' => (ih (i + 1)).bind fun sts => logs_pure (st' :: sts)

theorem logged_updateStates {f : Nat → LoweredState → Lower LoweredState}
    (hf : ∀ i st, Logs P (f i st)) : Logs P (updateStates f) := by
  refine logs_get (fun l => ?_) fun _ _ => rfl
  exact (logged_mapStates hf 0 l.states).bind fun sts => logs_modify (fun _ => rfl) fun _ _ => rfl

theorem logged_constantOf (r : RegisterId) (what : String) : Logs P (constantOf s r what) := by
  unfold constantOf
  split
  · exact logs_pure _
  · exact logged_fault _

theorem logged_heldObject (r : RegisterId) : Logs P (heldObject s r) :=
  logs_get (fun _ => logs_pure _) fun _ _ => rfl

theorem logged_jumpTarget (starts : List Nat) (target : UInt64) :
    Logs P (jumpTarget s starts target) := by
  unfold jumpTarget
  split
  · exact logs_pure _
  · exact logged_fault _

end Parts

def onChannel : Insn → Bool
  | .channelRead _ _ | .channelWrite _ _ => true
  | _ => false

variable (hP : Permits s.machine s.owners s.thread P)
include hP

section Resources

theorem logged_prepared {key : ResourceKey} {prepare : Rtl.Resource → Rtl.Resource}
    (hkey : Pool.Suits key prepare) (hchannel : ¬ Pool.IsChannel key.kind)
    (hkind : key.kind ∉ Pool.handoverKinds) : Logs P (resource (·.request key prepare)) :=
  logged_build (.request key prepare) (hP.request hkey hchannel hkind) (fun _ => rfl) fun _ _ => rfl

theorem logged_request {kind name : String} {object : Nat} {type : Rtl.ValueType}
    {prepare : Rtl.Resource → Rtl.Resource} (hkind : Pool.IsSimple kind)
    (hprepare : ∀ r, (prepare r).kind = r.kind ∧ (prepare r).parent = r.parent) :
    Logs P (resource (·.request ⟨kind, name, object, type⟩ prepare)) :=
  logged_prepared hP ⟨hkind.1, fun r => (hprepare r).1, fun r => (hprepare r).2,
    fun h => absurd h hkind.2.2.1⟩ hkind.2.1 hkind.2.2.2

theorem logged_ofKind (kind : String) (hkind : Pool.IsSimple kind) :
    Logs P (resource (·.ofKind kind)) :=
  logged_request hP hkind fun _ => ⟨rfl, rfl⟩

theorem logged_pseudo : Logs P (resource Pool.pseudo) :=
  logged_ofKind hP "pseudo" (by decide)

theorem logged_assign : Logs P (resource Pool.assign) :=
  logged_ofKind hP "set" (by decide)

theorem logged_operator {kind : String}
    (hkind : Pool.IsPlain kind ∧ ¬ Pool.IsChannel kind ∧ kind ∉ Pool.handoverKinds)
    (t : Rtl.ValueType) : Logs P (resource (·.operator kind t)) :=
  logged_prepared hP ⟨hkind.1, fun _ => rfl, fun _ => rfl, fun _ _ => rfl⟩ hkind.2.1 hkind.2.2

theorem logged_transition : Logs P (resource Pool.transition) :=
  logged_build .transition hP.transition (fun _ => rfl) fun _ _ => rfl

theorem logged_constant (width : UInt64) (value : Int64) :
    Logs P (build (·.constant width value)) :=
  logged_build (.register "" (.unsigned width) .const (some value)) (hP.register _ _ _ _)
    (fun _ => rfl) fun _ _ => rfl

theorem logged_storage (stem : String) (width : UInt64) : Logs P (build (·.storage stem width)) :=
  logged_build (.fresh stem (.unsigned width) .storage none) (hP.fresh _ _ _ _) (fun _ => rfl)
    fun _ _ => rfl

theorem logged_insn (unit : Nat) (operand : String) (inputs outputs : List Nat) :
    Logs P (insn unit operand inputs outputs) :=
  (logged_build .insn hP.insn (fun _ => rfl) fun _ _ => rfl).bind fun _ => logs_pure _

theorem logged_push (insns : List Rtl.Insn) (jump : Option Insn) (callee : Option Callee) :
    Logs P (push insns jump callee) :=
  (logged_build .state hP.state (fun _ => rfl) fun _ _ => rfl).bind fun _ =>
    logs_modify (fun _ => rfl) fun _ _ => rfl

theorem logged_emit (unit : Nat) (operand : String) (inputs outputs : List Nat) :
    Logs P (emit unit operand inputs outputs) :=
  (logged_insn hP unit operand inputs outputs).bind fun i => logged_push hP [i] none none

theorem logged_newLocal (r : RegisterId) (reg : Register) : Logs P (newLocal s r reg) := by
  unfold newLocal
  dsimp only
  split
  · exact logged_constant hP _ _
  · exact logged_storage hP _ _

theorem logged_register (r : RegisterId) : Logs P (register s r) := by
  refine logs_get (fun l => ?_) fun _ _ => rfl
  split
  · exact logs_pure _
  · split
    · exact logged_fault _
    · refine (logged_newLocal hP r _).bind fun i => ?_
      exact (logged_bindLocal r i).bind fun _ => logs_pure i

theorem logged_registers (rs : List RegisterId) : Logs P (registers s rs) := by
  induction rs with
  | nil => exact logs_pure []
  | cons r rest ih => exact (logged_register hP r).bind fun i => ih.bind fun is => logs_pure (i :: is)

theorem logged_addTargets (targets : List Nat) (st : LoweredState) :
    Logs P (addTargets targets st) := by
  refine logs_get (fun l => ?_) fun _ _ => rfl
  dsimp only
  split
  · exact logs_pure _
  · refine (logged_transition hP).bind fun r => ?_
    exact (logged_insn hP r _ _ _).bind fun i => logs_pure _

end Resources

section Instructions

theorem logged_bindConstant (r : RegisterId) (width : UInt64) (value : Int64) :
    Logs P (bindConstant r width value) :=
  (logged_constant hP width value).bind fun i => logged_bindLocal r i

theorem logged_invert (source target : Nat) : Logs P (invert source target) :=
  (logged_operator hP (by decide) .truth).bind fun unit => logged_emit hP unit _ _ _

theorem logged_binary (op : BinaryOp) (target left right : RegisterId) :
    Logs P (binary s op target left right) := by
  have hkind : ∀ kind, operatorKind? op = some kind →
      Pool.IsPlain kind ∧ ¬ Pool.IsChannel kind ∧ kind ∉ Pool.handoverKinds := by
    cases op <;> simp [operatorKind?, Pool.IsPlain, Pool.IsChannel, channelWriteKind,
      channelReadKind, Pool.handoverKinds, Rtl.taskKind, Rtl.taskReturnKind, Rtl.taskCallKind,
      Rtl.taskReturnValueKind]
  unfold binary
  split
  · exact logged_fault _
  · rename_i kind hop
    refine (logged_operator hP (hkind kind hop) _).bind fun unit => ?_
    refine (logged_register hP left).bind fun x => (logged_register hP right).bind fun y => ?_
    refine (logged_register hP target).bind fun t => ?_
    split
    · refine (logged_storage hP "t_" 0).bind fun result => ?_
      exact (logged_emit hP unit _ _ _).bind fun _ => logged_invert hP result t
    · exact logged_emit hP unit _ _ _

theorem logged_addOwner {e : Entity} (howner : (s.owners.get e).isOwner s.thread = true) (r : Nat) :
    Logs P (addOwner e r) := by
  intro l a l' h
  simp only [addOwner, run_bind_eq_ok, run_get_eq_ok, run_ofExcept_eq_ok, run_modify_eq_ok] at h
  obtain ⟨_, _, hget, links, l₁, ⟨hlinks, rfl⟩, h⟩ := h
  cases hget
  cases h
  refine ⟨[.owner e r], by simpa using hP.owner r howner, ?_, fun R R' hperform => ?_⟩
  · rw [Builder.perform_singleton]
    exact Act.run_owner.mpr ⟨links, hlinks, rfl⟩
  · rw [Builder.perform_singleton] at hperform
    obtain ⟨links', hlinks', heq⟩ := Act.run_owner.mp hperform
    obtain rfl : R' = ⟨links', R.channels⟩ := congrArg Builder.registry heq
    simp only [addOwner, run_bind_eq_ok, run_get_eq_ok, run_ofExcept_eq_ok, run_modify_eq_ok]
    exact ⟨_, _, rfl, links', _, ⟨hlinks', rfl⟩, rfl⟩

theorem logged_addAccessor (e : Entity) (r : Nat) : Logs P (addAccessor e r) :=
  logged_build (.accessor e r) (hP.accessor e r) (fun _ => rfl) fun _ _ => rfl

theorem logged_privateMember {e : Entity} {width : UInt64} {initial : Int64}
    (hdeclared : e.declared? s.machine = some (width, initial)) (r : RegisterId) (write : Bool) :
    Logs P (privateMember s e width initial r write) := by
  refine (logged_build (.member e width initial) (hP.member hdeclared) (fun _ => rfl) fun b R => ?_).bind
    fun member => ?_
  · rw [Builder.memberRegister_setRegistry]
  · refine (logged_register hP r).bind fun own => (logged_assign hP).bind fun unit => ?_
    split <;> exact logged_emit hP unit _ _ _

omit hP in
/-- The owner takes the shared register of a member and sets its width. -/
theorem hold_bind (e : Entity) (width : UInt64) (write : Bool) (f : Nat → Lower α) : (do
    let unit ← resource (·.sharedMember e true write)
    build fun b => ((), { b with pool := b.pool.update unit (·.setWidth width) })
    f unit) = build (·.hold e width) >>= f := rfl

theorem logged_sharedMember {e : Entity} {width : UInt64} {initial : Int64}
    (hdeclared : e.declared? s.machine = some (width, initial))
    (hshared : (s.owners.get e).isShared = true) (r : RegisterId) (write : Bool) :
    Logs P (sharedMember s e width r write) := by
  have hlast : ∀ unit, Logs P (do
      let own ← register s r
      if write then emit unit "" [own] [] else emit unit "" [] [own]) := by
    intro unit
    refine (logged_register hP r).bind fun own => ?_
    split <;> exact logged_emit hP unit _ _ _
  unfold sharedMember
  cases howner : (s.owners.get e).isOwner s.thread with
  | true =>
    -- the width is set as soon as the register is taken
    have hhold : Logs P (build (·.hold e width)) :=
      logged_build (.hold e width) (hP.hold hdeclared hshared howner) (fun _ => rfl) fun _ _ => rfl
    simp only [if_true]
    rw [hold_bind]
    exact hhold.bind fun unit => (logged_addOwner hP howner unit).bind fun _ => hlast unit
  | false =>
    refine Logs.bind ?_ fun unit => (logged_addAccessor hP e unit).bind fun _ => hlast unit
    exact logged_request hP (by cases write <;> decide) fun _ => ⟨rfl, rfl⟩

theorem logged_storedMember {e : Entity} {width : UInt64} {value : Int64} {const : Bool}
    (hdeclared : const = false → e.declared? s.machine = some (width, value)) (r : RegisterId)
    (write : Bool) : Logs P (storedMember s e width value const r write) := by
  unfold storedMember
  split
  · split
    · exact logged_fault _
    · exact logged_bindConstant hP _ _ _
  · rename_i hconst
    replace hdeclared := hdeclared (by simpa using hconst)
    split
    · rename_i hshared
      exact logged_sharedMember hP hdeclared hshared r write
    · exact logged_privateMember hP hdeclared r write

theorem logged_memberAccess (i : Insn) (label : String) (r : RegisterId) (write : Bool) :
    Logs P (memberAccess s i label r write) := by
  refine logs_get (fun l => ?_) fun _ _ => rfl
  refine (logged_ofExcept _).bind fun x => ?_
  obtain ⟨owner, w⟩ := x
  refine (logged_walk w).bind fun _ => ?_
  split
  · exact logged_error _
  · split
    · exact logged_fault _
    · exact logs_pure ()
  · exact logged_fault _
  · rename_i width value const hvalue
    refine logged_storedMember hP (fun hconst => ?_) r write
    simp only [Entity.declared?, hvalue, hconst]
  · rename_i width ordinal const hvalue
    refine logged_storedMember hP (fun hconst => ?_) r write
    simp only [Entity.declared?, hvalue, hconst]

theorem logged_indexed (unit : Nat) (index r : RegisterId) (write : Bool) :
    Logs P (indexed s unit index r write) := by
  refine (logged_register hP index).bind fun i => (logged_register hP r).bind fun own => ?_
  split <;> exact logged_emit hP unit _ _ _

theorem logged_sharedArray (id : Nat) (o : Object) (owner write : Bool) :
    Logs P (resource (·.sharedArray id o owner write)) :=
  logged_request hP (by cases owner <;> cases write <;> decide)
    fun _ => ⟨rfl, rfl⟩

theorem logged_arrayResource (id : Nat) (o : Object) (write : Bool) :
    Logs P (arrayResource s id o write) := by
  unfold arrayResource
  dsimp only
  split
  · exact logged_request hP (by decide) fun _ => ⟨rfl, rfl⟩
  · split
    · rename_i howner
      refine (logged_sharedArray hP id o true false).bind fun unit => ?_
      exact (logged_addOwner hP howner unit).bind fun _ => logs_pure unit
    · refine (logged_sharedArray hP id o false write).bind fun unit => ?_
      exact (logged_addAccessor hP _ unit).bind fun _ => logs_pure unit

theorem logged_arrayAccess (array index r : RegisterId) (write : Bool) :
    Logs P (arrayAccess s array index r write) := by
  refine (logged_heldObject array).bind fun x => ?_
  split
  · split
    · exact (logged_arrayResource hP _ _ write).bind fun unit => logged_indexed hP unit index r write
    · exact logged_fault _
  · exact logged_fault _

theorem logged_memoryAccess (index r : RegisterId) (write : Bool) :
    Logs P (memoryAccess s index r write) :=
  Logs.bind (logged_request hP (by decide) fun _ => ⟨rfl, rfl⟩) fun unit =>
    logged_indexed hP unit index r write

theorem logged_channelAccess (hC : PermitsChannels P) (channel r : RegisterId) (write : Bool) :
    Logs P (channelAccess s channel r write) := by
  refine (logged_heldObject channel).bind fun x => ?_
  split
  · rename_i id o
    split
    · have huse : ∀ unit kind, Logs P (build fun b => ((), { b with
          channels := b.channels.add id o.name o.width kind (b.pool.ref unit) })) :=
        fun unit kind => logged_build (.channel id o.name o.width kind unit)
          (hC.use id o.name o.width kind unit) (fun _ => rfl) fun _ _ => rfl
      refine Logs.bind ?_ fun unit => ?_
      · have hkind : Pool.IsPlain (if write then channelWriteKind else channelReadKind) ∧
            Pool.IsChannel (if write then channelWriteKind else channelReadKind) ∧
            (if write then channelWriteKind else channelReadKind) ∉ Pool.operatorKinds := by
          cases write <;> decide
        exact logged_build (.request _ _) (hC.request ⟨hkind.1, fun _ => by rfl,
          fun _ => by rfl, fun h => absurd h hkind.2.2⟩ hkind.2.1) (fun _ => rfl) fun _ _ => rfl
      · refine (logged_register hP r).bind fun own => ?_
        dsimp only
        split <;> exact (logged_emit hP unit _ _ _).bind fun _ => huse unit _
    · exact logged_fault _
  · exact logged_fault _

theorem logged_transfer (id : Nat) (o : Object) (args : List RegisterId) (store : Bool) :
    Logs P (transfer s id o args store) := by
  have hlast : ∀ unit, Logs P (do
      let inputs ← registers s args
      emit unit (if store then "write" else "read") inputs []) :=
    fun unit => (logged_registers hP args).bind fun inputs => logged_emit hP unit _ _ _
  unfold transfer
  split
  · refine Logs.bind (logged_request hP (by decide) fun _ => ⟨rfl, rfl⟩) fun unit => ?_
    dsimp only
    split
    · exact (logged_addAccessor hP _ unit).bind fun _ => hlast unit
    · exact hlast unit
  · exact logged_fault _

theorem logged_nativeCall (id : Nat) (o : Object) (f : Method) (args : List RegisterId) :
    Logs P (nativeCall s id o f args) := by
  unfold nativeCall
  split
  · exact (logged_ofKind hP _ (by decide)).bind fun unit =>
      (logged_registers hP args).bind fun inputs => logged_emit hP unit _ _ _
  · exact (logged_ofKind hP _ (by decide)).bind fun unit =>
      (logged_registers hP args).bind fun inputs => logged_emit hP unit _ _ _
  · refine (logged_ofKind hP _ (by decide)).bind fun unit => ?_
    refine (logged_registers hP args).bind fun inputs => ?_
    split
    · exact (logged_constant hP 32 1).bind fun one => logged_emit hP unit _ _ _
    · exact logged_emit hP unit _ _ _
  · exact logged_transfer hP id o args false
  · exact logged_transfer hP id o args true
  · exact logged_error _

theorem logged_call (object : RegisterId) (label : String) (args : List RegisterId) :
    Logs P (call s object label args) := by
  refine (logged_heldObject object).bind fun x => ?_
  split
  · exact logged_fault _
  · rename_i id o
    refine logs_get (fun l => ?_) fun _ _ => rfl
    split
    · exact logged_nativeCall hP id o _ args
    · refine (logged_pseudo hP).bind fun unit => ?_
      refine (logged_registers hP args).bind fun inputs => ?_
      exact (logged_insn hP unit _ _ _).bind fun i => logged_push hP _ _ _

theorem logged_callDone (returns : List RegisterId) : Logs P (callDone s returns) := by
  refine logs_get (fun l => ?_) fun _ _ => rfl
  split
  · exact (logged_registers hP returns).bind fun outputs => logs_modify (fun _ => rfl) fun _ _ => rfl
  · exact logged_fault _

theorem logged_instruction (i : Insn) (hi : onChannel i = true → PermitsChannels P) :
    Logs P (instruction s i) := by
  cases i with
  | nop => exact logs_pure ()
  | goto target => exact logged_push hP _ _ _
  | branch cond target =>
    refine (logged_transition hP).bind fun unit => (logged_register hP cond).bind fun c => ?_
    exact (logged_insn hP unit _ _ _).bind fun j => logged_push hP _ _ _
  | num target source =>
    simp only [instruction, num]
    split
    · split
      · exact logged_bindConstant hP _ _ _
      · exact logged_fault _
    · exact logged_fault _
  | assign target source =>
    refine (logged_register hP target).bind fun t => (logged_register hP source).bind fun r => ?_
    exact (logged_assign hP).bind fun unit => logged_emit hP unit _ _ _
  | binary op target left right => exact logged_binary hP op target left right
  | shift right target source amount =>
    refine (logged_constantOf amount _).bind fun n => (logged_register hP source).bind fun r => ?_
    refine (logged_operator hP (by decide) .truth).bind fun unit => ?_
    refine (logged_constant hP 32 n).bind fun c => ?_
    exact (logged_register hP target).bind fun t => logged_emit hP unit _ _ _
  | concat target left right =>
    refine (logged_register hP left).bind fun x => (logged_register hP right).bind fun y => ?_
    refine (logged_operator hP (by decide) .truth).bind fun unit => ?_
    exact (logged_register hP target).bind fun t => logged_emit hP unit _ _ _
  | count down operand =>
    refine (logged_register hP operand).bind fun r => ?_
    refine Logs.bind (logged_operator hP ?_ _) fun unit => ?_
    · cases down <;> decide
    · exact (logged_constant hP _ 1).bind fun one => logged_emit hP unit _ _ _
  | bitRange target source msb lsb =>
    refine (logged_constantOf msb _).bind fun hi => (logged_constantOf lsb _).bind fun lo => ?_
    refine (logged_register hP source).bind fun r => ?_
    refine (logged_operator hP (by decide) .truth).bind fun unit => ?_
    refine (logged_constant hP 32 hi).bind fun h => (logged_constant hP 32 lo).bind fun l => ?_
    exact (logged_register hP target).bind fun t => logged_emit hP unit _ _ _
  | invert logical target source =>
    refine (logged_register hP source).bind fun r => (logged_register hP target).bind fun t => ?_
    exact logged_invert hP r t
  | loadObject target object label =>
    refine logs_get (fun l => ?_) fun _ _ => rfl
    exact (logged_ofExcept _).bind fun w => logged_walk w
  | memberRead target object label => exact logged_memberAccess hP _ label target false
  | memberWrite object label source => exact logged_memberAccess hP _ label source true
  | arrayRead target object index => exact logged_arrayAccess hP object index target false
  | arrayWrite object index source => exact logged_arrayAccess hP object index source true
  | memoryRead target index => exact logged_memoryAccess hP index target false
  | memoryWrite index source => exact logged_memoryAccess hP index source true
  | channelRead target object => exact logged_channelAccess hP (hi rfl) object target false
  | channelWrite object source => exact logged_channelAccess hP (hi rfl) object source true
  | call object label args => exact logged_call hP object label args
  | callDone returns => exact logged_callDone hP returns

end Instructions

section Methods

theorem logged_argumentRegisters (i : Nat) (args : List VarDecl) :
    Logs P (argumentRegisters s i args) := by
  induction args generalizing i with
  | nil => exact logs_pure []
  | cons d rest ih =>
    refine (logged_storage hP d.name _).bind fun r => ?_
    dsimp only
    split
    · exact (logged_bindLocal _ r).bind fun _ => (ih (i + 1)).bind fun rs => logs_pure (r :: rs)
    · exact (ih (i + 1)).bind fun rs => logs_pure (r :: rs)

theorem logged_resultRegisters : Logs P (resultRegisters s) := by
  unfold resultRegisters
  split
  · exact (logged_storage hP "r_" 0).bind fun r => logs_pure [r]
  · exact logged_registers hP _

theorem logged_entry : Logs P (entry s) := by
  refine (logged_pseudo hP).bind fun unit => (logged_insn hP unit _ _ _).bind fun i => ?_
  refine (logged_argumentRegisters hP 0 _).bind fun inputs => ?_
  refine (logged_resultRegisters hP).bind fun outputs => ?_
  split
  · exact logged_error _
  · exact logs_pure _

theorem logged_wait (hT : s.role = .task → PermitsTasks P) (hF : PermitsFlow P) (e : Rtl.Insn) :
    Logs P (wait s e) := by
  refine logs_get (fun l => ?_) fun _ _ => rfl
  dsimp only
  split
  · rename_i htask
    exact (logged_build _ (hT htask).start (fun _ => rfl) fun _ _ => rfl).bind fun unit =>
      logged_emit hP unit _ _ _
  · split
    · refine Logs.bind ?_ fun unit => logged_emit hP unit _ _ _
      exact logged_build (.dataFlow _) (hF _) (fun _ => rfl) fun _ _ => rfl
    · exact (logged_ofKind hP _ (by decide)).bind fun unit => logged_emit hP unit _ _ _

theorem logged_finish (hT : s.role = .task → PermitsTasks P) (e : Rtl.Insn) :
    Logs P (finish s e) := by
  unfold finish
  split
  · rename_i htask
    exact (logged_build _ (hT htask).finish (fun _ => rfl) fun _ _ => rfl).bind fun unit =>
      (logged_insn hP unit _ _ _).bind fun i => logs_pure [i]
  · split
    · exact logs_pure []
    · exact (logged_ofKind hP _ (by decide)).bind fun unit =>
        (logged_insn hP unit _ _ _).bind fun i => logs_pure [i]

theorem logged_code (hC : PermitsChannels P) (is : List Insn) : Logs P (code s is) := by
  induction is with
  | nil => exact logs_pure []
  | cons i rest ih =>
    refine logs_get (fun l => ?_) fun _ _ => rfl
    refine (logged_instruction hP i fun _ => hC).bind fun _ => logs_get (fun l₁ => ?_) fun _ _ => rfl
    dsimp only
    split
    · exact (logged_push hP [] none none).bind fun _ => ih.bind fun starts => logs_pure _
    · exact ih.bind fun starts => logs_pure _

theorem logged_resolveJump (starts : List Nat) (i : Nat) (st : LoweredState) :
    Logs P (resolveJump s starts i st) := by
  unfold resolveJump
  split
  · exact (logged_jumpTarget starts _).bind fun t => logged_addTargets hP _ st
  · exact (logged_jumpTarget starts _).bind fun t => logged_addTargets hP _ st
  · exact logs_pure st

theorem logged_linkStates : Logs P linkStates := by
  refine logs_get (fun l => ?_) fun _ _ => rfl
  refine logged_updateStates fun i st => logs_get (fun l₁ => ?_) fun _ _ => rfl
  dsimp only
  split
  · exact logs_pure st
  · split
    · exact logs_pure st
    · exact logged_addTargets hP _ st

theorem logged_closeLoop (hT : s.role = .task → PermitsTasks P) (e : Rtl.Insn) :
    Logs P (closeLoop s e) := by
  refine logs_get (fun l => ?_) fun _ _ => rfl
  refine logged_updateStates fun i st => ?_
  split
  · exact (logged_finish hP hT e).bind fun insns => logged_addTargets hP _ _
  · exact logs_pure st

theorem logged_opening (hT : s.role = .task → PermitsTasks P)
    (hF : s.role ≠ .inner → PermitsFlow P) : Logs P (opening s) := by
  refine (logged_entry hP).bind fun e => ?_
  dsimp only
  split
  · rename_i hrole
    exact (logged_wait hP hT (hF (by simpa using hrole)) e).bind fun _ => logs_pure e
  · exact logs_pure e

theorem logged_closing (hT : s.role = .task → PermitsTasks P) (e : Rtl.Insn) (starts : List Nat) :
    Logs P (closing s e starts) := by
  refine (logged_push hP [] none none).bind fun _ => logs_get (fun l => ?_) fun _ _ => rfl
  refine (logged_updateStates fun i st => logged_resolveJump hP _ i st).bind fun _ => ?_
  refine (logged_linkStates hP).bind fun _ => ?_
  dsimp only
  split
  · exact (logged_closeLoop hP hT e).bind fun _ => logs_pure e
  · exact logs_pure e

theorem logged_body (hC : PermitsChannels P) (hT : s.role = .task → PermitsTasks P)
    (hF : s.role ≠ .inner → PermitsFlow P) : Logs P (body s) := by
  rw [body_eq]
  exact (logged_opening hP hT hF).bind fun e =>
    (logged_code hP hC _).bind fun starts => logged_closing hP hT e starts

theorem logged_imported : Logs P (imported s) := by
  refine (logged_entry hP).bind fun e => Logs.bind ?_ fun unit => ?_
  · exact logged_request hP (by decide) fun _ => ⟨rfl, rfl⟩
  · refine (logged_emit hP unit _ _ _).bind fun _ => (logged_push hP [] none none).bind fun _ => ?_
    exact (logged_linkStates hP).bind fun _ => logs_pure e

theorem logged_port_unit (name : String) (output : Bool) (width : UInt64) :
    Logs P (resource (·.port name output width)) :=
  logged_request hP (by cases output <;> decide) fun _ => ⟨rfl, rfl⟩

theorem logged_outputInsns (e : Rtl.Insn) : Logs P (outputInsns s e) := by
  unfold outputInsns
  split
  · split
    · exact logged_error _
    · exact (logged_port_unit hP _ true _).bind fun unit => (logged_insn hP unit _ _ _).bind fun i =>
        logs_pure [i]
  · exact logs_pure []

theorem logged_inputInsns (e : Rtl.Insn) : Logs P (inputInsns s e) := by
  unfold inputInsns
  split
  · split
    · exact logged_error _
    · exact (logged_port_unit hP _ false _).bind fun unit => (logged_insn hP unit _ _ _).bind fun i =>
        logs_pure [i]
  · exact logs_pure []

theorem logged_port : Logs P (port s) := by
  refine (logged_entry hP).bind fun e => (logged_outputInsns hP e).bind fun outputs => ?_
  refine (logged_inputInsns hP e).bind fun inputs => (logged_push hP _ none none).bind fun _ => ?_
  exact (logged_push hP [] none none).bind fun _ => (logged_linkStates hP).bind fun _ => logs_pure e

theorem logged_implementation (hC : PermitsChannels P) (hT : s.role = .task → PermitsTasks P)
    (hF : s.role ≠ .inner → PermitsFlow P) : Logs P (implementation s) := by
  unfold implementation
  split
  · exact logged_imported hP
  · split
    · exact logged_port hP
    · exact logged_body hP hC hT hF

end Methods
end Lower
end Synth
end MachineSynth
