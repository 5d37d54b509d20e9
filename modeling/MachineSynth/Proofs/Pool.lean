import Mathlib
import MachineSynth.Synth.Pool

/-! Pools grow: a request changes no resource that was there before, except for parameters and
parents, and a key keeps its resource for good. -/
namespace MachineSynth

theorem lookup_cons_eq {α β : Type} [DecidableEq α] (a : α) (b : β) (l : List (α × β)) (k : α) :
    ((a, b) :: l).lookup k = if k = a then some b else l.lookup k := by
  by_cases h : k = a
  · simp [h]
  · simp [List.lookup_cons, h, beq_false_of_ne h]

theorem mem_of_lookup {α β : Type} [DecidableEq α] {l : List (α × β)} {k : α} {b : β}
    (h : l.lookup k = some b) : (k, b) ∈ l := by
  obtain ⟨l₁, l₂, rfl, -⟩ := List.lookup_eq_some_iff.mp h
  simp

namespace Rtl

def kindAt (resources : List Resource) (i : Nat) : Option String := (resources[i]?).map (·.kind)

theorem lt_of_kindAt {resources : List Resource} {i : Nat} {kind : String}
    (h : kindAt resources i = some kind) : i < resources.length := by
  obtain ⟨r, hr, -⟩ := Option.map_eq_some_iff.mp h
  exact (List.getElem?_eq_some_iff.mp hr).1

theorem isTransition_eq {resources : List Resource} {i : Insn} {kind : String}
    (h : kindAt resources i.resource = some kind) :
    i.isTransition resources = decide (kind = Resource.transitionKind) := by
  obtain ⟨r, hr, rfl⟩ := Option.map_eq_some_iff.mp h
  simp [Insn.isTransition, hr, Resource.isTransition]

/-- A later version of a resource. Only its parameters and its parent may have changed. -/
structure Resource.Becomes (r r' : Resource) : Prop where
  id : r'.id = r.id
  kind : r'.kind = r.kind
  inputs : r'.inputs = r.inputs
  outputs : r'.outputs = r.outputs
  callee : r'.callee = r.callee
  array : r'.array = r.array

theorem Resource.Becomes.refl (r : Resource) : r.Becomes r := ⟨rfl, rfl, rfl, rfl, rfl, rfl⟩

theorem Resource.Becomes.trans {a b c : Resource} (h : a.Becomes b) (h' : b.Becomes c) :
    a.Becomes c :=
  ⟨h'.id.trans h.id, h'.kind.trans h.kind, h'.inputs.trans h.inputs, h'.outputs.trans h.outputs,
    h'.callee.trans h.callee, h'.array.trans h.array⟩

end Rtl

namespace Synth
def Pool.portKinds : List String := ["ext-input", "ext-output"]

/-- The kinds of the resources that stand for arrays of the machine or ports of the design. -/
def Pool.trackedKinds : List String := "array" :: portKinds

/-- Whether a key stands for an array of the machine or for a port of the design. -/
def ResourceKey.isTracked (k : ResourceKey) : Bool :=
  k.kind = "array" && k.name = "" || Pool.portKinds.contains k.kind

namespace Pool

open Rtl (kindAt)

/-- A pool later than another. -/
structure Extends (p q : Pool) : Prop where
  place : q.place = p.place
  resource : ∀ {i : Nat} {r : Rtl.Resource}, p.resources[i]? = some r →
    ∃ r', q.resources[i]? = some r' ∧ r.Becomes r'
  key : ∀ {k : ResourceKey} {i : Nat}, p.keys.lookup k = some i → q.keys.lookup k = some i

namespace Extends

theorem refl (p : Pool) : p.Extends p := ⟨rfl, fun h => ⟨_, h, .refl _⟩, id⟩

theorem trans {p q s : Pool} (h : p.Extends q) (h' : q.Extends s) : p.Extends s := by
  refine ⟨h'.place.trans h.place, fun hr => ?_, fun hk => h'.key (h.key hk)⟩
  obtain ⟨r', hr', hb⟩ := h.resource hr
  obtain ⟨r'', hr'', hb'⟩ := h'.resource hr'
  exact ⟨r'', hr'', hb.trans hb'⟩

theorem kindAt {p q : Pool} (h : p.Extends q) {i : Nat} {kind : String}
    (hk : Rtl.kindAt p.resources i = some kind) : Rtl.kindAt q.resources i = some kind := by
  obtain ⟨r, hr, rfl⟩ := Option.map_eq_some_iff.mp hk
  obtain ⟨r', hr', hb⟩ := h.resource hr
  simp [Rtl.kindAt, hr', hb.kind]

theorem length_le {p q : Pool} (h : p.Extends q) : p.resources.length ≤ q.resources.length := by
  by_contra hlt
  have hq : q.resources.length < p.resources.length := by omega
  obtain ⟨r', hr', -⟩ := h.resource (List.getElem?_eq_getElem hq)
  exact absurd (List.getElem?_eq_some_iff.mp hr').1 (lt_irrefl _)

end Extends

/-- Each key stands for one resource, which is of the kind that the key names. -/
structure Sound (p : Pool) : Prop where
  kind : ∀ {k : ResourceKey} {i : Nat}, p.keys.lookup k = some i →
    kindAt p.resources i = some k.kind
  unique : ∀ {k k' : ResourceKey} {i : Nat}, p.keys.lookup k = some i →
    p.keys.lookup k' = some i → k = k'

theorem sound_empty (place : Rtl.TableRef) : (empty place).Sound :=
  ⟨fun h => by simp [empty] at h, fun h => by simp [empty] at h⟩

theorem add_extends (p : Pool) (kind : String) : p.Extends (p.add kind).2 := by
  refine ⟨rfl, fun {i r} hr => ⟨r, ?_, .refl r⟩, id⟩
  have hi : i < p.resources.length := (List.getElem?_eq_some_iff.mp hr).1
  simpa [add, List.getElem?_append_left hi] using hr

theorem kindAt_add (p : Pool) (kind : String) :
    kindAt (p.add kind).2.resources (p.add kind).1 = some kind := by
  simp [add, kindAt, Rtl.Resource.new]

theorem add_sound {p : Pool} (h : p.Sound) (kind : String) : (p.add kind).2.Sound :=
  ⟨fun hk => (p.add_extends kind).kindAt (h.kind hk), fun hk hk' => h.unique hk hk'⟩

theorem update_extends {p : Pool} {i : Nat} {f : Rtl.Resource → Rtl.Resource}
    (hf : ∀ r, p.resources[i]? = some r → r.Becomes (f r)) : p.Extends (p.update i f) := by
  refine ⟨rfl, fun {j r} hr => ?_, id⟩
  by_cases hij : i = j
  · subst hij
    exact ⟨f r, by simp [update, hr], hf r hr⟩
  · exact ⟨r, by simpa [update, List.getElem?_modify, hij] using hr, .refl r⟩

theorem update_sound {p : Pool} (h : p.Sound) {i : Nat} {f : Rtl.Resource → Rtl.Resource}
    (hf : ∀ r, p.resources[i]? = some r → (f r).kind = r.kind) : (p.update i f).Sound := by
  refine ⟨fun {k j} hk => ?_, fun hk hk' => h.unique hk hk'⟩
  obtain ⟨r, hr, hkind⟩ := Option.map_eq_some_iff.mp (h.kind hk)
  by_cases hij : i = j
  · subst hij
    simp [update, kindAt, hr, hf r hr, hkind]
  · simp [update, kindAt, hij, hr, hkind]

theorem Sound.cons {p : Pool} (h : p.Sound) {k : ResourceKey} {i : Nat}
    (hkind : kindAt p.resources i = some k.kind)
    (hfree : ∀ k', p.keys.lookup k' ≠ some i) : Sound { p with keys := (k, i) :: p.keys } := by
  have hcases : ∀ {k' j}, List.lookup k' ((k, i) :: p.keys) = some j →
      (k' = k ∧ j = i) ∨ p.keys.lookup k' = some j := by
    intro k' j hj
    rw [lookup_cons_eq] at hj
    split at hj
    · exact .inl ⟨by assumption, (Option.some.inj hj).symm⟩
    · exact .inr hj
  refine ⟨fun {k' j} hj => ?_, fun {a b j} ha hb => ?_⟩
  · rcases hcases hj with ⟨rfl, rfl⟩ | hj
    · exact hkind
    · exact h.kind hj
  · rcases hcases ha with ⟨rfl, rfl⟩ | ha'
    · rcases hcases hb with ⟨rfl, -⟩ | hb'
      · rfl
      · exact absurd hb' (hfree b)
    · rcases hcases hb with ⟨rfl, rfl⟩ | hb'
      · exact absurd ha' (hfree a)
      · exact h.unique ha' hb'

theorem Sound.lookup_ne_length {p : Pool} (h : p.Sound) (k : ResourceKey) :
    p.keys.lookup k ≠ some p.resources.length :=
  fun hk => absurd (Rtl.lt_of_kindAt (h.kind hk)) (lt_irrefl _)

structure Takes (take : Pool → Nat × Pool) (kind : String) : Prop where
  grows : ∀ p : Pool, p.Extends (take p).2
  sound : ∀ {p : Pool}, p.Sound → (take p).2.Sound
  kind : ∀ {p : Pool}, p.Sound → kindAt (take p).2.resources (take p).1 = some kind

theorem lookup_request (p : Pool) (k : ResourceKey) (prepare : Rtl.Resource → Rtl.Resource) :
    (p.request k prepare).2.keys.lookup k = some (p.request k prepare).1 := by
  unfold request
  split
  · assumption
  · simp [List.lookup_cons_self]

theorem lookup_request_of_ne (p : Pool) {k k' : ResourceKey}
    (prepare : Rtl.Resource → Rtl.Resource) (hne : k' ≠ k) :
    (p.request k prepare).2.keys.lookup k' = p.keys.lookup k' := by
  unfold request
  split
  · rfl
  · simp [lookup_cons_eq, hne, add, update]

/-- What a key stands for after a request, it stood for before, or it is new. -/
theorem of_lookup_request {p : Pool} {k k' : ResourceKey}
    {prepare : Rtl.Resource → Rtl.Resource} {i : Nat}
    (h : (p.request k prepare).2.keys.lookup k' = some i) :
    p.keys.lookup k' = some i ∨ i = p.resources.length := by
  by_cases hk : k' = k
  · subst hk
    rw [lookup_request] at h
    revert h
    unfold request
    split
    · intro h
      exact .inl (by simpa using h ▸ by assumption)
    · intro h
      exact .inr (by simpa [add] using h.symm)
  · exact .inl (by rwa [lookup_request_of_ne p prepare hk] at h)

theorem cons_extends {p : Pool} {k : ResourceKey} (h : p.keys.lookup k = none) (i : Nat) :
    p.Extends { p with keys := (k, i) :: p.keys } := by
  refine ⟨rfl, fun hr => ⟨_, hr, .refl _⟩, fun {k' j} hk => ?_⟩
  have hne : k' ≠ k := by rintro rfl; simp [hk] at h
  simpa [lookup_cons_eq, hne] using hk

theorem request_takes (k : ResourceKey) {prepare : Rtl.Resource → Rtl.Resource}
    (hp : ∀ r, (prepare r).kind = r.kind) : Takes (·.request k prepare) k.kind := by
  -- A new resource is prepared before its key is known, so nothing that was there changes.
  have hnew : ∀ p : Pool, p.Extends ((p.add k.kind).2.update (p.add k.kind).1 prepare) := by
    intro p
    refine ⟨rfl, fun {i r} hr => ⟨r, ?_, .refl r⟩, id⟩
    have hi : i < p.resources.length := (List.getElem?_eq_some_iff.mp hr).1
    have hne : p.resources.length ≠ i := by omega
    simpa [add, update, List.getElem?_modify, hne, List.getElem?_append_left hi] using hr
  refine ⟨fun p => ?_, fun {p} h => ?_, fun {p} h => ?_⟩
  · unfold request
    split
    · exact .refl p
    · rename_i hnone
      exact (hnew p).trans (cons_extends (p := (p.add k.kind).2.update _ prepare) hnone _)
  · unfold request
    split
    · exact h
    · refine (update_sound (add_sound h _) fun r _ => hp r).cons ?_ fun k' => h.lookup_ne_length k'
      simp [add, update, kindAt, Rtl.Resource.new, hp]
  · unfold request
    split
    · exact h.kind (by assumption)
    · simp [add, update, kindAt, Rtl.Resource.new, hp]

/-- A taking that registers nothing for an array of the machine or for a port of the design. -/
structure TakesOther (take : Pool → Nat × Pool) (kind : String) : Prop extends Takes take kind where
  tracked : ∀ (p : Pool) {k : ResourceKey}, k.isTracked = true →
    (take p).2.keys.lookup k = p.keys.lookup k

theorem request_takesOther {k : ResourceKey} {prepare : Rtl.Resource → Rtl.Resource}
    (hp : ∀ r, (prepare r).kind = r.kind) (hk : k.isTracked = false) :
    TakesOther (·.request k prepare) k.kind := by
  refine ⟨request_takes k hp, fun p k' hk' => lookup_request_of_ne p prepare ?_⟩
  rintro rfl
  rw [hk] at hk'
  cases hk'

theorem isTracked_of_kind {kind name : String} {object : Nat} {type : Rtl.ValueType}
    (h : kind ∉ trackedKinds) : (⟨kind, name, object, type⟩ : ResourceKey).isTracked = false := by
  simp only [trackedKinds, List.mem_cons, not_or] at h
  simp [ResourceKey.isTracked, h]

theorem isTracked_of_port {k : ResourceKey} (h : k.kind ∈ portKinds) : k.isTracked = true := by
  simp [ResourceKey.isTracked, h]

theorem ofKind_takes {kind : String} (h : kind ∉ trackedKinds) : TakesOther (·.ofKind kind) kind :=
  request_takesOther (fun _ => rfl) (isTracked_of_kind h)

theorem assign_takes : TakesOther assign "set" := ofKind_takes (by decide)

theorem pseudo_takes : TakesOther pseudo pseudoKind := ofKind_takes (by decide)

theorem operator_takes {kind : String} (h : kind ∉ trackedKinds) (t : Rtl.ValueType) :
    TakesOther (·.operator kind t) kind :=
  request_takesOther (fun _ => rfl) (isTracked_of_kind h)

theorem sharedMember_takes (e : Entity) (owner write : Bool) :
    TakesOther (·.sharedMember e owner write) (sharedKind "shared-reg" owner write) :=
  request_takesOther (fun _ => rfl) (isTracked_of_kind (by cases owner <;> cases write <;> decide))

theorem sharedArray_takes (id : Nat) (o : Object) (owner write : Bool) :
    TakesOther (·.sharedArray id o owner write) (sharedKind "shared-memory" owner write) :=
  request_takesOther (fun _ => rfl) (isTracked_of_kind (by cases owner <;> cases write <;> decide))

theorem privateArray_takes (id : Nat) (o : Object) : Takes (·.privateArray id o) "array" :=
  request_takes _ fun _ => rfl

theorem externalMemory_takes : TakesOther externalMemory "array" :=
  request_takesOther (fun _ => rfl) (by decide)

theorem channel_takes (id : Nat) (write : Bool) (width : UInt64) :
    TakesOther (·.channel id write width) (if write then channelWriteKind else channelReadKind) :=
  request_takesOther (fun _ => rfl) (isTracked_of_kind (by cases write <;> decide))

theorem embedded_takes (module : String) : TakesOther (·.embedded module) "embedded" :=
  request_takesOther (fun _ => rfl) (isTracked_of_kind (by decide))

theorem port_takes (name : String) (output : Bool) (width : UInt64) :
    Takes (·.port name output width) (if output then "ext-output" else "ext-input") :=
  request_takes _ fun _ => rfl

theorem arrayPort_takes (id : Nat) (o : Object) (master : Bool) :
    TakesOther (·.arrayPort id o master) (if master then "axi-master-port" else "axi-slave-port") :=
  request_takesOther (fun _ => rfl) (isTracked_of_kind (by cases master <;> decide))

theorem transition_takes : TakesOther transition Rtl.Resource.transitionKind := by
  refine ⟨⟨fun p => ?_, fun {p} h => ?_, fun {p} _ => ?_⟩, fun p k _ => ?_⟩ <;>
    unfold transition <;> split
  · exact .refl p
  · exact p.add_extends _
  · exact h
  · exact add_sound h _
  · rename_i i hi
    obtain ⟨hlt, hk, -⟩ := List.findIdx?_eq_some_iff_getElem.mp hi
    simp [kindAt, List.getElem?_eq_getElem hlt, of_decide_eq_true hk]
  · exact kindAt_add p _
  · rfl
  · rfl

theorem setWidth_becomes (r : Rtl.Resource) (width : UInt64) : r.Becomes (r.setWidth width) :=
  ⟨rfl, rfl, rfl, rfl, rfl, rfl⟩

/-- The key of the data-flow input, whose parent is made between its resource and its key. -/
theorem dataFlow_takes (width : UInt64) : TakesOther (·.dataFlow width) Rtl.dataFlowKind := by
  have hreg : TakesOther (·.request ⟨"shared-reg", "$dataflow", 0, .truth⟩ id) "shared-reg" :=
    request_takesOther (fun _ => rfl) (by decide)
  have hparent : ∀ (r : Rtl.Resource) (x : Option Rtl.ResourceRef),
      r.Becomes { r with parent := x } := fun _ _ => ⟨rfl, rfl, rfl, rfl, rfl, rfl⟩
  refine ⟨⟨fun p => ?_, fun {p} h => ?_, fun {p} h => ?_⟩, fun p k hk => ?_⟩ <;>
    simp only [dataFlow] <;> split
  · exact .refl p
  · rename_i hnone
    refine Extends.trans ?_ (cons_extends ?_ _)
    · refine Extends.trans (Extends.trans ?_ (update_extends fun r _ => setWidth_becomes r width))
        (update_extends fun r _ => hparent r _)
      exact (p.add_extends _).trans (hreg.grows _)
    · exact (lookup_request_of_ne (p.add Rtl.dataFlowKind).2 _ (by decide)).trans hnone
  · exact h
  · refine Sound.cons (update_sound (update_sound (hreg.sound (add_sound h _)) ?_) ?_) ?_
      fun k' hk' => ?_
    · exact fun _ _ => rfl
    · exact fun _ _ => rfl
    · refine (update_extends fun r _ => hparent r _).kindAt
        ((update_extends fun r _ => setWidth_becomes r width).kindAt ?_)
      exact (hreg.grows _).kindAt (kindAt_add p _)
    · rcases of_lookup_request hk' with hk' | hk'
      · exact h.lookup_ne_length k' hk'
      · simp [add] at hk'
  · exact h.kind (by assumption)
  · refine (update_extends fun r _ => hparent r _).kindAt
      ((update_extends fun r _ => setWidth_becomes r width).kindAt ?_)
    exact (hreg.grows _).kindAt (kindAt_add p _)
  · rfl
  · have hne : k ≠ ⟨Rtl.dataFlowKind, "", 0, .truth⟩ := by
      rintro rfl
      revert hk
      decide
    simpa [lookup_cons_eq, hne, update, add] using hreg.tracked (p.add Rtl.dataFlowKind).2 hk

end Pool
end Synth
end MachineSynth
