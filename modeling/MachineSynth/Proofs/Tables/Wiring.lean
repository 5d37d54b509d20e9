import Mathlib
import MachineSynth.Proofs.Builder
import MachineSynth.Proofs.Planning
import MachineSynth.Synth.Wire

/-! Wiring: calls are wired one after the other, and each adds to a table without taking anything
away. -/
namespace MachineSynth

namespace Rtl

/-- A resource that is looked for is there in the end, at the position that is given, and of the
kind that was asked for. -/
theorem findOrAdd_spec (resources : List Resource) (kind : String) (is : Resource → Bool)
    {p : Resource → Resource} (hp : ∀ r, (p r).kind = r.kind) :
    resources <+: (findOrAdd resources kind is p).2 ∧
      kindAt (findOrAdd resources kind is p).2 (findOrAdd resources kind is p).1 = some kind := by
  unfold findOrAdd
  split
  · rename_i i hi
    obtain ⟨hlt, hk, -⟩ := List.findIdx?_eq_some_iff_getElem.mp hi
    simp only [Bool.and_eq_true, decide_eq_true_eq] at hk
    exact ⟨List.prefix_refl _, by simp [kindAt, List.getElem?_eq_getElem hlt, hk.1]⟩
  · exact ⟨List.prefix_append _ _, by simp [kindAt, hp, Resource.new]⟩

theorem taskCall_spec (resources : List Resource) (callee : TableRef) (theirs : List Resource)
    (member : String) :
    resources <+: (taskCall resources callee theirs member).2 ∧
      kindAt (taskCall resources callee theirs member).2
        (taskCall resources callee theirs member).1 = some taskCallKind :=
  findOrAdd_spec _ _ _ fun r => by
    simp only
    split <;> rfl

theorem taskReturnValue_spec {resources resources' : List Resource} {callee : TableRef}
    {theirs : List Resource} {i : Nat}
    (h : taskReturnValue resources callee theirs = (some i, resources')) :
    resources <+: resources' ∧ kindAt resources' i = some taskReturnValueKind := by
  unfold taskReturnValue at h
  split at h
  · cases h
  · rename_i k _
    have hadd := findOrAdd_spec resources taskReturnValueKind (·.callee = some callee)
      (p := fun r => { r with callee := some callee, parent := some ⟨callee, k⟩ }) fun _ => rfl
    cases h
    exact hadd

theorem dataFlowCaller_spec (resources : List Resource) (register : ResourceRef) (width : UInt64) :
    resources <+: (dataFlowCaller resources register width).2 ∧
      kindAt (dataFlowCaller resources register width).2
        (dataFlowCaller resources register width).1 = some sharedWriterKind :=
  findOrAdd_spec _ _ _ fun _ => rfl

theorem kindAt_of_isPrefix {resources resources' : List Resource} (h : resources <+: resources')
    {i : Nat} {kind : String} (hk : kindAt resources i = some kind) :
    kindAt resources' i = some kind := by
  obtain ⟨r, hr, rfl⟩ := Option.map_eq_some_iff.mp hk
  simp [kindAt, getElem?_of_isPrefix h hr]

end Rtl

namespace Synth
namespace ThreadTable

/-- A table later than another: what it was made from and what stands for entities is as it was,
and everything else is only added to. -/
structure Grows (t t' : ThreadTable) : Prop where
  plan : t'.plan = t.plan
  contexts : t'.contexts = t.contexts
  members : t'.builder.members = t.builder.members
  keys : t'.builder.pool.keys = t.builder.pool.keys
  channels : t'.builder.channels = t.builder.channels
  flowCalls : t'.flowCalls = t.flowCalls
  resources : t.resources <+: t'.resources
  registers : t.builder.registers <+: t'.builder.registers
  length : t'.states.length = t.states.length
  state : ∀ {j : Nat} {s : Rtl.State}, t.states[j]? = some s →
    ∃ s', t'.states[j]? = some s' ∧ s'.id = s.id ∧ s.insns <+: s'.insns

namespace Grows

variable {t t' t'' : ThreadTable}

theorem refl (t : ThreadTable) : t.Grows t :=
  ⟨rfl, rfl, rfl, rfl, rfl, rfl, List.prefix_refl _, List.prefix_refl _, rfl,
    fun h => ⟨_, h, rfl, List.prefix_refl _⟩⟩

theorem trans (h : t.Grows t') (h' : t'.Grows t'') : t.Grows t'' := by
  refine ⟨h'.plan.trans h.plan, h'.contexts.trans h.contexts, h'.members.trans h.members,
    h'.keys.trans h.keys, h'.channels.trans h.channels, h'.flowCalls.trans h.flowCalls,
    h.resources.trans h'.resources,
    h.registers.trans h'.registers, h'.length.trans h.length, fun hs => ?_⟩
  obtain ⟨s', hs', hid, hinsns⟩ := h.state hs
  obtain ⟨s'', hs'', hid', hinsns'⟩ := h'.state hs'
  exact ⟨s'', hs'', hid'.trans hid, hinsns.trans hinsns'⟩

theorem setResources {resources : List Rtl.Resource} (h : t.resources <+: resources) :
    t.Grows (t.setResources resources) :=
  ⟨rfl, rfl, rfl, rfl, rfl, rfl, h, List.prefix_refl _, rfl, fun h => ⟨_, h, rfl, List.prefix_refl _⟩⟩

theorem addInsn (t : ThreadTable) (state resource : Nat) (operand : String)
    (inputs outputs : List Nat) : t.Grows (t.addInsn state resource operand inputs outputs) := by
  refine ⟨rfl, rfl, rfl, rfl, rfl, rfl, List.prefix_refl _, List.prefix_refl _, by
    simp [ThreadTable.addInsn], fun {j s} hs => ?_⟩
  by_cases hj : state = j
  · subst hj
    refine ⟨⟨s.id, s.insns ++ [⟨t.builder.newInsn.1, resource, operand, inputs, outputs, []⟩]⟩, ?_,
      rfl, List.prefix_append _ _⟩
    simp only [ThreadTable.addInsn, List.getElem?_modify_eq, hs]
    rfl
  · exact ⟨s, by simp only [ThreadTable.addInsn, List.getElem?_modify_ne _ _ hj, hs], rfl,
      List.prefix_refl _⟩

theorem dummyArgument (t : ThreadTable) : t.Grows t.dummyArgument.2 :=
  ⟨rfl, rfl, rfl, rfl, rfl, rfl, List.prefix_refl _, List.prefix_append _ _, rfl,
    fun h => ⟨_, h, rfl, List.prefix_refl _⟩⟩

end Grows

variable {m : Machine} {plan : Plan} {tables : List ThreadTable} {t t' : ThreadTable}
  {call : TableCall} {callee : ThreadTable}

theorem callTask_grows (h : callTask m t call callee = .ok t') : t.Grows t' := by
  have hcall := (Rtl.taskCall_spec t.resources callee.plan.place callee.resources
    call.callee.member).1
  have hstart : ∀ r, t.Grows (((t.setResources (Rtl.taskCall t.resources callee.plan.place
      callee.resources call.callee.member).2).addInsn call.state r "" call.inputs [])) :=
    fun r => (Grows.setResources hcall).trans (.addInsn _ _ _ _ _ _)
  simp only [callTask] at h
  split at h
  · cases h
    exact hstart _
  · split at h
    · cases h
    · split at h
      · cases h
        exact hstart _
      · rename_i hreturn
        cases h
        exact ((hstart _).trans (.setResources (Rtl.taskReturnValue_spec hreturn).1)).trans
          (.addInsn _ _ _ _ _ _)

theorem callDataFlow_grows (h : callDataFlow m t call callee = .ok t') : t.Grows t' := by
  unfold callDataFlow at h
  split at h
  · split at h
    · cases h
    · rename_i register _
      have hcaller : ∀ width, t.Grows
          (t.setResources (Rtl.dataFlowCaller t.resources register width).2) :=
        fun width => .setResources (Rtl.dataFlowCaller_spec t.resources register width).1
      simp only at h
      split at h
      · cases h
        exact ((hcaller _).trans (.dummyArgument _)).trans (.addInsn _ _ _ _ _ _)
      · cases h
        exact (hcaller _).trans (.addInsn _ _ _ _ _ _)
  · cases h

theorem find?_mem {p : ThreadPlan → Bool} (h : find? tables p = some callee) :
    callee ∈ tables ∧ p callee.plan = true :=
  ⟨List.mem_of_find?_eq_some h, List.find?_some (p := fun t : ThreadTable => p t.plan) h⟩

/-- Wiring a call is calling the table of some thread. -/
theorem wireTask_eq_ok (h : wireTask m plan tables t call = .ok t') :
    ∃ callee ∈ tables, callTask m t call callee = .ok t' := by
  simp only [wireTask] at h
  split at h
  · cases h
  · split at h
    · cases h
    · rename_i callee hcallee
      exact ⟨callee, (find?_mem hcallee).1, h⟩

theorem wireDataFlow_eq_ok (h : wireDataFlow m plan tables t call = .ok t') :
    ∃ callee ∈ tables, callDataFlow m t call callee = .ok t' := by
  simp only [wireDataFlow] at h
  split at h
  · cases h
  · split at h
    · cases h
    · rename_i callee hcallee
      exact ⟨callee, (find?_mem hcallee).1, h⟩

theorem wireTask_grows (h : wireTask m plan tables t call = .ok t') : t.Grows t' := by
  obtain ⟨callee, -, h⟩ := wireTask_eq_ok h
  exact callTask_grows h

theorem wireDataFlow_grows (h : wireDataFlow m plan tables t call = .ok t') : t.Grows t' := by
  obtain ⟨callee, -, h⟩ := wireDataFlow_eq_ok h
  exact callDataFlow_grows h

theorem wire_rel {R : ThreadTable → ThreadTable → Prop} (hrefl : ∀ t, R t t)
    (htrans : ∀ a b c, R a b → R b c → R a c)
    (htask : ∀ a call b, call ∈ t.taskCalls → wireTask m plan tables a call = .ok b → R a b)
    (hflow : ∀ a call b, call ∈ t.flowCalls → wireDataFlow m plan tables a call = .ok b → R a b)
    (h : wire m plan tables t = .ok t') : R t t' := by
  simp only [wire, except_bind_eq_ok] at h
  obtain ⟨t₁, htasks, hflows⟩ := h
  have hgrows : t.Grows t₁ :=
    foldlM_rel (R := Grows) .refl (fun _ _ _ => .trans) (fun _ _ _ _ => wireTask_grows) htasks
  rw [hgrows.flowCalls] at hflows
  exact htrans _ _ _ (foldlM_rel hrefl htrans htask htasks) (foldlM_rel hrefl htrans hflow hflows)

theorem wire_grows (h : wire m plan tables t = .ok t') : t.Grows t' :=
  wire_rel (R := Grows) .refl (fun _ _ _ => .trans) (fun _ _ _ _ => wireTask_grows)
    (fun _ _ _ _ => wireDataFlow_grows) h

end ThreadTable
end Synth
end MachineSynth
