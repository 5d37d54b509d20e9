import Mathlib
import MachineSynth.Proofs.Builder

/-! Tidiness: resources and registers are numbered by their positions, and what a table in the
making refers to inside itself is there. -/
namespace MachineSynth

/-- Whether an instruction reads and writes only the first `n` registers. -/
structure Rtl.Insn.Within (n : Nat) (i : Rtl.Insn) : Prop where
  inputs : ∀ r ∈ i.inputs, r < n
  outputs : ∀ r ∈ i.outputs, r < n

theorem Rtl.Insn.Within.mono {n n' : Nat} {i : Rtl.Insn} (h : i.Within n) (hn : n ≤ n') :
    i.Within n' :=
  ⟨fun r hr => (h.inputs r hr).trans_le hn, fun r hr => (h.outputs r hr).trans_le hn⟩

namespace Rtl

/-- Instructions of which one at most leads on: with a condition to one of two states, and else to
one at most. -/
structure Orderly (resources : List Resource) (insns : List Insn) : Prop where
  inside : ∀ i ∈ insns, i.resource < resources.length
  single : (insns.filter (·.isTransition resources)).length ≤ 1
  leads : ∀ i ∈ insns, i.isTransition resources = true →
    i.targets.length = 2 ∧ i.inputs.length = 1 ∨ i.targets.length ≤ 1 ∧ i.inputs = []
  others : ∀ i ∈ insns, i.isTransition resources = false → i.targets = []

/-- Whether instructions have no targets, and none of them is a transition. -/
def Still (resources : List Resource) (insns : List Insn) : Prop :=
  ∀ i ∈ insns, i.targets = [] ∧ ∃ kind, kindAt resources i.resource = some kind ∧
    kind ≠ Resource.transitionKind

variable {resources : List Resource} {insns : List Insn}

theorem exists_kindAt {k : Nat} (h : k < resources.length) : ∃ kind, kindAt resources k = some kind :=
  ⟨_, by rw [kindAt, List.getElem?_eq_getElem h, Option.map_some]⟩

theorem Still.isTransition (h : Still resources insns) :
    ∀ i ∈ insns, i.isTransition resources = false := by
  intro i hi
  obtain ⟨-, kind, hk, hne⟩ := h i hi
  simp [isTransition_eq hk, hne]

theorem Still.filter (h : Still resources insns) :
    insns.filter (·.isTransition resources) = [] :=
  List.filter_eq_nil_iff.mpr fun i hi => by simp [h.isTransition i hi]

/-- Instructions that lead nowhere may be added at the end. -/
theorem Orderly.append {is : List Insn} (h : Orderly resources is)
    (hi : Still resources insns) : Orderly resources (is ++ insns) := by
  refine ⟨fun i hmem => ?_, ?_, fun i hmem htr => ?_, fun i hmem htr => ?_⟩
  · rcases List.mem_append.mp hmem with hmem | hmem
    · exact h.inside i hmem
    · obtain ⟨-, kind, hk, -⟩ := hi i hmem
      exact lt_of_kindAt hk
  · rw [List.filter_append, hi.filter, List.append_nil]
    exact h.single
  · rcases List.mem_append.mp hmem with hmem | hmem
    · exact h.leads i hmem htr
    · rw [hi.isTransition i hmem] at htr
      cases htr
  · rcases List.mem_append.mp hmem with hmem | hmem
    · exact h.others i hmem htr
    · exact (hi i hmem).1

theorem Orderly.perm {is : List Insn} (h : Orderly resources is) (hp : is.Perm insns) :
    Orderly resources insns := by
  refine ⟨fun i hi => h.inside i (hp.mem_iff.mpr hi), ?_, fun i hi => h.leads i (hp.mem_iff.mpr hi),
    fun i hi => h.others i (hp.mem_iff.mpr hi)⟩
  rw [← (hp.filter _).length_eq]
  exact h.single

theorem Orderly.prepend {is : List Insn} (h : Orderly resources is)
    (hi : Still resources insns) : Orderly resources (insns ++ is) :=
  (h.append hi).perm List.perm_append_comm

theorem orderly_nil : Orderly resources [] := ⟨by simp, by simp, by simp, by simp⟩

theorem orderly_of_still (h : Still resources insns) : Orderly resources insns :=
  orderly_nil.append h

theorem orderly_one {i : Insn}
    (hk : kindAt resources i.resource = some Resource.transitionKind)
    (h : i.targets.length = 2 ∧ i.inputs.length = 1 ∨ i.targets.length ≤ 1 ∧ i.inputs = []) :
    Orderly resources [i] := by
  have htr : i.isTransition resources = true := by simp [isTransition_eq hk]
  refine ⟨fun j hj => ?_, List.length_filter_le _ _, fun j hj _ => ?_, fun j hj hfalse => ?_⟩ <;>
    rw [List.mem_singleton.mp hj] at *
  · exact lt_of_kindAt hk
  · exact h
  · rw [htr] at hfalse
    cases hfalse

end Rtl

namespace Synth
namespace Pool

theorem Extends.isTransition {p q : Pool} (hpq : p.Extends q) {i : Rtl.Insn}
    (hi : i.resource < p.resources.length) :
    i.isTransition q.resources = i.isTransition p.resources := by
  obtain ⟨kind, hk⟩ := Rtl.exists_kindAt hi
  rw [Rtl.isTransition_eq hk, Rtl.isTransition_eq (hpq.kindAt hk)]

/-- Instructions stay in order when resources are added. -/
theorem Extends.orderly {p q : Pool} (hpq : p.Extends q) {insns : List Rtl.Insn}
    (h : Rtl.Orderly p.resources insns) : Rtl.Orderly q.resources insns := by
  have heq : ∀ i ∈ insns, i.isTransition q.resources = i.isTransition p.resources :=
    fun i hi => hpq.isTransition (h.inside i hi)
  refine ⟨fun i hi => (h.inside i hi).trans_le hpq.length_le, ?_, fun i hi htr => ?_,
    fun i hi htr => ?_⟩
  · rw [List.filter_congr heq]
    exact h.single
  · exact h.leads i hi (heq i hi ▸ htr)
  · exact h.others i hi (heq i hi ▸ htr)

/-- Resources are numbered by their positions, call nothing yet, and have parents in the same table
only. -/
structure Tidy (p : Pool) : Prop extends p.Sound where
  id : ∀ {k : Nat} {r : Rtl.Resource}, p.resources[k]? = some r → r.id = k + 1
  callee : ∀ {k : Nat} {r : Rtl.Resource}, p.resources[k]? = some r → r.callee = none
  parent : ∀ {k : Nat} {r : Rtl.Resource}, p.resources[k]? = some r → ∀ q ∈ r.parent,
    q.owner = p.place ∧ q.resource < p.resources.length

theorem tidy_empty (place : Rtl.TableRef) : (empty place).Tidy :=
  { sound_empty place with
    id := by simp [empty]
    callee := by simp [empty]
    parent := by simp [empty] }

theorem add_tidy {p : Pool} (h : p.Tidy) (kind : String) : (p.add kind).2.Tidy := by
  have hcases : ∀ {k : Nat} {r : Rtl.Resource}, (p.add kind).2.resources[k]? = some r →
      p.resources[k]? = some r ∨ k = p.resources.length ∧ r = .new (k + 1) kind := by
    intro k r hr
    rcases Nat.lt_trichotomy k p.resources.length with hk | rfl | hk
    · exact .inl (by simpa [add, List.getElem?_append_left hk] using hr)
    · exact .inr ⟨rfl, by simpa [add] using hr.symm⟩
    · simp only [add] at hr
      rw [List.getElem?_eq_none (by simp; omega)] at hr
      cases hr
  refine { add_sound h.toSound kind with
    id := fun {k r} hr => ?_, callee := fun {k r} hr => ?_, parent := fun {k r} hr q hq => ?_ } <;>
    rcases hcases hr with hr' | ⟨rfl, rfl⟩
  · exact h.id hr'
  · rfl
  · exact h.callee hr'
  · rfl
  · obtain ⟨howner, hlt⟩ := h.parent hr' q hq
    refine ⟨howner, ?_⟩
    simp only [add, List.length_append, List.length_singleton]
    omega
  · cases hq

/-- Changing a resource keeps a pool tidy, if the number, kind and callee stay and the parent is in
the same table. -/
theorem update_tidy {p : Pool} (h : p.Tidy) {i : Nat} {f : Rtl.Resource → Rtl.Resource}
    (hid : ∀ r, (f r).id = r.id) (hkind : ∀ r, (f r).kind = r.kind)
    (hcallee : ∀ r, (f r).callee = r.callee)
    (hparent : ∀ r, ∀ q ∈ (f r).parent,
      q ∈ r.parent ∨ q.owner = p.place ∧ q.resource < p.resources.length) :
    (p.update i f).Tidy := by
  have hcases : ∀ {k : Nat} {r : Rtl.Resource}, (p.update i f).resources[k]? = some r →
      ∃ r', p.resources[k]? = some r' ∧ (r = r' ∨ r = f r') := by
    intro k r hr
    simp only [update, List.getElem?_modify] at hr
    obtain ⟨r', hr', heq⟩ := Option.map_eq_some_iff.mp hr
    refine ⟨r', hr', ?_⟩
    split at heq
    · exact .inr heq.symm
    · exact .inl heq.symm
  have hlength : (p.update i f).resources.length = p.resources.length := by simp [update]
  refine { update_sound h.toSound fun r _ => hkind r with
    id := fun {k r} hr => ?_, callee := fun {k r} hr => ?_, parent := fun {k r} hr q hq => ?_ } <;>
    obtain ⟨r', hr', rfl | rfl⟩ := hcases hr
  · exact h.id hr'
  · exact (hid r').trans (h.id hr')
  · exact h.callee hr'
  · exact (hcallee r').trans (h.callee hr')
  · rw [hlength]
    exact h.parent hr' q hq
  · rw [hlength]
    exact (hparent r' q hq).elim (h.parent hr' q) id

structure TakesTidily (take : Pool → Nat × Pool) (kind : String) : Prop extends Takes take kind where
  tidy : ∀ {p : Pool}, p.Tidy → (take p).2.Tidy

/-- A change that leaves the number, the callee and the parent of a resource as they are. -/
structure Prepares (prepare : Rtl.Resource → Rtl.Resource) : Prop where
  id : ∀ r, (prepare r).id = r.id
  kind : ∀ r, (prepare r).kind = r.kind
  callee : ∀ r, (prepare r).callee = r.callee
  parent : ∀ r, (prepare r).parent = r.parent

theorem Prepares.of_eq {prepare : Rtl.Resource → Rtl.Resource}
    (h : ∀ r, ((prepare r).id, (prepare r).kind, (prepare r).callee, (prepare r).parent) =
      (r.id, r.kind, r.callee, r.parent)) : Prepares prepare := by
  simp only [Prod.mk.injEq] at h
  exact ⟨fun r => (h r).1, fun r => (h r).2.1, fun r => (h r).2.2.1, fun r => (h r).2.2.2⟩

theorem request_tidily (k : ResourceKey) {prepare : Rtl.Resource → Rtl.Resource}
    (hp : Prepares prepare) : TakesTidily (·.request k prepare) k.kind := by
  refine { request_takes k hp.kind with tidy := fun {p} h => ?_ }
  have htidy := update_tidy (i := (p.add k.kind).1) (add_tidy h k.kind) hp.id hp.kind hp.callee
    fun r q hq => .inl (by rwa [hp.parent] at hq)
  have hsound := (request_takes k hp.kind).sound h.toSound
  unfold request at hsound ⊢
  split
  · exact h
  · rename_i hnone
    simp only [hnone] at hsound
    exact { hsound with id := htidy.id, callee := htidy.callee, parent := htidy.parent }

theorem ofKind_tidily (kind : String) : TakesTidily (·.ofKind kind) kind :=
  request_tidily _ (.of_eq fun _ => rfl)

theorem operator_tidily (kind : String) (t : Rtl.ValueType) :
    TakesTidily (·.operator kind t) kind := request_tidily _ (.of_eq fun _ => rfl)

theorem sharedMember_tidily (e : Entity) (owner write : Bool) :
    TakesTidily (·.sharedMember e owner write) (sharedKind "shared-reg" owner write) :=
  request_tidily _ (.of_eq fun _ => rfl)

theorem sharedArray_tidily (id : Nat) (o : Object) (owner write : Bool) :
    TakesTidily (·.sharedArray id o owner write) (sharedKind "shared-memory" owner write) :=
  request_tidily _ (.of_eq fun _ => rfl)

theorem privateArray_tidily (id : Nat) (o : Object) : TakesTidily (·.privateArray id o) "array" :=
  request_tidily _ (.of_eq fun _ => rfl)

theorem externalMemory_tidily : TakesTidily externalMemory "array" :=
  request_tidily _ (.of_eq fun _ => rfl)

theorem channel_tidily (id : Nat) (write : Bool) (width : UInt64) :
    TakesTidily (·.channel id write width) (if write then channelWriteKind else channelReadKind) :=
  request_tidily _ (.of_eq fun _ => rfl)

theorem embedded_tidily (module : String) : TakesTidily (·.embedded module) "embedded" :=
  request_tidily _ (.of_eq fun _ => rfl)

theorem port_tidily (name : String) (output : Bool) (width : UInt64) :
    TakesTidily (·.port name output width) (if output then "ext-output" else "ext-input") :=
  request_tidily _ (.of_eq fun _ => rfl)

theorem arrayPort_tidily (id : Nat) (o : Object) (master : Bool) :
    TakesTidily (·.arrayPort id o master)
      (if master then "axi-master-port" else "axi-slave-port") :=
  request_tidily _ (.of_eq fun _ => rfl)

theorem transition_tidily : TakesTidily transition Rtl.Resource.transitionKind := by
  refine { transition_takes.toTakes with tidy := fun {p} h => ?_ }
  unfold transition
  split
  · exact h
  · exact add_tidy h _

theorem dataFlow_tidily (width : UInt64) : TakesTidily (·.dataFlow width) Rtl.dataFlowKind := by
  refine { (dataFlow_takes width).toTakes with tidy := fun {p} h => ?_ }
  have hsound := (dataFlow_takes width).sound h.toSound
  simp only [dataFlow] at hsound ⊢
  split
  · exact h
  · rename_i hnone
    simp only [hnone] at hsound
    have hreg : TakesTidily (·.request ⟨"shared-reg", "$dataflow", 0, .truth⟩ id) "shared-reg" :=
      request_tidily _ (.of_eq fun _ => rfl)
    have hwidth : ∀ w : UInt64, Prepares (·.setWidth w) := fun _ => .of_eq fun _ => rfl
    have h₁ := add_tidy h Rtl.dataFlowKind
    have h₂ := hreg.tidy h₁
    have hlt := Rtl.lt_of_kindAt (hreg.kind h₁.toSound)
    have h₃ := update_tidy (i := ((p.add Rtl.dataFlowKind).2.request
        ⟨"shared-reg", "$dataflow", 0, .truth⟩ id).1) h₂ (hwidth width).id (hwidth width).kind
      (hwidth width).callee fun r q hq => .inl (by rwa [(hwidth width).parent] at hq)
    have h₄ := update_tidy (i := (p.add Rtl.dataFlowKind).1)
      (f := fun r => { r with parent := some (ref _ _) }) h₃ (fun _ => rfl) (fun _ => rfl)
      (fun _ => rfl) fun r q hq => .inr (by
        cases Option.some.inj hq
        exact ⟨rfl, by simpa [update, ref] using hlt⟩)
    exact { hsound with id := h₄.id, callee := h₄.callee, parent := h₄.parent }

end Pool

def Channels.All (P : Rtl.ResourceRef → Prop) (c : Channels) : Prop :=
  ∀ x ∈ c.ends, ∀ r ∈ x.2.writers ++ x.2.readers, P r

theorem Channels.add_all {P : Rtl.ResourceRef → Prop} {c : Channels} (h : c.All P) (object : Nat)
    (name : String) (width : UInt64) (kind : String) {r : Rtl.ResourceRef} (hr : P r) :
    (c.add object name width kind r).All P := by
  have huse : ∀ e : ChannelEnds, (∀ q ∈ e.writers ++ e.readers, P q) →
      ∀ q ∈ (use kind r e).writers ++ (use kind r e).readers, P q := by
    intro e he q hq
    have hcases : q ∈ e.writers ++ e.readers ∨ q = r := by
      unfold use at hq
      split at hq
      · split at hq <;> simp only [List.mem_append, List.mem_singleton] at hq ⊢ <;> tauto
      · split at hq
        · split at hq <;> simp only [List.mem_append, List.mem_singleton] at hq ⊢ <;> tauto
        · exact .inl hq
    rcases hcases with hq | rfl
    · exact he q hq
    · exact hr
  have hall : ∀ ends : List (Nat × ChannelEnds),
      (∀ x ∈ ends, ∀ q ∈ x.2.writers ++ x.2.readers, P q) →
      ∀ x ∈ updateEnds object ⟨name, width, [], []⟩ (use kind r) ends,
        ∀ q ∈ x.2.writers ++ x.2.readers, P q := by
    intro ends hends
    induction ends with
    | nil =>
      intro x hx
      rw [List.mem_singleton.mp hx]
      exact huse _ (by simp)
    | cons y rest ih =>
      intro x hx
      simp only [updateEnds] at hx
      split at hx
      · rcases List.mem_cons.mp hx with rfl | hx
        · exact huse _ (hends y (by simp))
        · exact hends x (List.mem_cons_of_mem _ hx)
      · rcases List.mem_cons.mp hx with rfl | hx
        · exact hends _ (by simp)
        · exact ih (fun z hz => hends z (List.mem_cons_of_mem _ hz)) x hx
  exact hall c.ends h

/-- Whether the uses of channels are resources of the given table, which has `n` of them. -/
def Channels.Within (place : Rtl.TableRef) (n : Nat) (c : Channels) : Prop :=
  c.All fun r => r.owner = place ∧ r.resource < n

theorem Channels.add_within {place : Rtl.TableRef} {n : Nat} {c : Channels}
    (h : c.Within place n) (object : Nat) (name : String) (width : UInt64) (kind : String)
    {r : Rtl.ResourceRef} (howner : r.owner = place) (hr : r.resource < n) :
    (c.add object name width kind r).Within place n :=
  add_all h object name width kind ⟨howner, hr⟩

namespace Builder

structure Tidy (b : Builder) : Prop where
  pool : b.pool.Tidy
  register : ∀ {k : Nat} {r : Rtl.Register}, b.registers[k]? = some r → r.id = k + 1
  member : ∀ {e : Entity} {k : Nat}, b.members.lookup e = some k → k < b.registers.length
  channels : b.channels.Within b.pool.place b.pool.resources.length

theorem tidy_ofPool {p : Pool} (h : p.Tidy) : (ofPool p).Tidy :=
  ⟨h, by simp [ofPool], by simp [ofPool], fun _ hx => by simp [ofPool, Channels.empty] at hx⟩

variable {b : Builder}

theorem Tidy.setPool (h : b.Tidy) {pool : Pool} (hp : pool.Tidy) (hext : b.pool.Extends pool) :
    Tidy { b with pool := pool } :=
  ⟨hp, h.register, h.member, fun x hx r hr => by
    obtain ⟨howner, hlt⟩ := h.channels x hx r hr
    exact ⟨howner.trans hext.place.symm, hlt.trans_le hext.length_le⟩⟩

theorem Tidy.addRegister (h : b.Tidy) (name : String) (type : Rtl.ValueType)
    (kind : Rtl.RegisterKind) (initial : Option Int64) :
    (b.addRegister name type kind initial).2.Tidy := by
  refine ⟨h.pool, fun {k r} hr => ?_, fun hm => ?_, h.channels⟩
  · rcases Nat.lt_trichotomy k b.registers.length with hk | rfl | hk
    · exact h.register (by simpa [Builder.addRegister, List.getElem?_append_left hk] using hr)
    · have hnew : r = ⟨b.registers.length + 1, name, type, kind, initial⟩ := by
        simpa [Builder.addRegister] using hr.symm
      rw [hnew]
    · simp only [Builder.addRegister] at hr
      rw [List.getElem?_eq_none (by simp; omega)] at hr
      cases hr
  · have := h.member hm
    simp only [Builder.addRegister, List.length_append, List.length_singleton]
    omega

theorem Tidy.freshRegister (h : b.Tidy) (stem : String) (type : Rtl.ValueType)
    (kind : Rtl.RegisterKind) (initial : Option Int64) :
    (b.freshRegister stem type kind initial).2.Tidy := by
  have htidy := h.addRegister (registerName stem (freeIndex b.names stem b.names.length b.nameIndex))
    type kind initial
  exact ⟨htidy.pool, htidy.register, htidy.member, htidy.channels⟩

theorem freshRegister_lt (b : Builder) (stem : String) (type : Rtl.ValueType)
    (kind : Rtl.RegisterKind) (initial : Option Int64) :
    (b.freshRegister stem type kind initial).1 <
      (b.freshRegister stem type kind initial).2.registers.length := by
  simp [Builder.freshRegister, Builder.addRegister]

theorem Tidy.memberRegister (h : b.Tidy) (e : Entity) (width : UInt64) (initial : Int64) :
    (b.memberRegister e width initial).2.Tidy ∧
      (b.memberRegister e width initial).1 <
        (b.memberRegister e width initial).2.registers.length := by
  unfold Builder.memberRegister
  split
  · rename_i r hr
    exact ⟨h, h.member hr⟩
  · have htidy := h.freshRegister ("m_" ++ e.member) (.unsigned width) .storage (some initial)
    have hlt := b.freshRegister_lt ("m_" ++ e.member) (.unsigned width) .storage (some initial)
    refine ⟨⟨htidy.pool, htidy.register, fun {e' k} hm => ?_, htidy.channels⟩, hlt⟩
    rw [lookup_cons_eq] at hm
    split at hm
    · cases Option.some.inj hm
      exact hlt
    · exact htidy.member hm

theorem Tidy.newState (h : b.Tidy) : b.newState.2.Tidy :=
  ⟨h.pool, h.register, h.member, h.channels⟩

theorem Tidy.newInsn (h : b.Tidy) : b.newInsn.2.Tidy :=
  ⟨h.pool, h.register, h.member, h.channels⟩

end Builder
end Synth
end MachineSynth
