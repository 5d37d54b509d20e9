import Mathlib
import MachineSynth.Proofs.Sharing

/-! Provenance: a resource of a design is one that its table had when it was built, but for those
that make calls, for the parent that linking gives it and for the number of its channel. -/
namespace MachineSynth

namespace Rtl

theorem Params.filter_set (key value : String) (p : Params) :
    (p.set key value).filter (·.1 ≠ key) = p.filter (·.1 ≠ key) := by
  induction p with
  | nil => simp [set]
  | cons x rest ih =>
    obtain ⟨k, v⟩ := x
    simp only [set]
    split
    · subst_vars
      simp
    · rename_i hne
      simp only [List.filter_cons, ih]

def Resource.unnumbered (r : Resource) : Resource :=
  { r with params := r.params.filter (·.1 ≠ "CHANNEL") }

theorem Resource.eq_of_unnumbered {r r' : Resource} (h : r'.unnumbered = r.unnumbered) :
    r'.kind = r.kind ∧ r'.parent = r.parent ∧
      r'.params.filter (·.1 ≠ "CHANNEL") = r.params.filter (·.1 ≠ "CHANNEL") := by
  simp only [unnumbered, mk.injEq] at h
  tauto

theorem Design.table?_updateTable (d : Design) (t p : TableRef) (f : Table → Table) :
    (d.updateTable t f).table? p = (d.table? p).map fun x => if t = p then f x else x := by
  obtain ⟨module, table⟩ := t
  obtain ⟨module', table'⟩ := p
  simp only [table?, updateTable, List.getElem?_modify, TableRef.mk.injEq]
  cases d.modules[module']? with
  | none => rfl
  | some mod =>
    by_cases hmodule : module = module'
    · simp only [hmodule, true_and, if_true, Option.bind_some]
      by_cases htable : table = table' <;> simp [htable]
    · simp [hmodule]

theorem Design.resource?_updateResource (d : Design) (r p : ResourceRef) (f : Resource → Resource) :
    (d.updateResource r f).resource? p = (d.resource? p).map fun x => if r = p then f x else x := by
  obtain ⟨t, k⟩ := r
  obtain ⟨t', k'⟩ := p
  simp only [resource?, updateResource, table?_updateTable, ResourceRef.mk.injEq]
  cases d.table? t' with
  | none => rfl
  | some x =>
    by_cases ht : t = t'
    · simp only [ht, true_and, if_true, Option.map_some, Option.bind_some, List.getElem?_modify]
      by_cases hk : k = k' <;> simp [hk]
    · simp [ht]

section Calls

def callKinds : List String := [taskCallKind, taskReturnValueKind, sharedWriterKind]

def Adds (kinds : List String) (resources resources' : List Resource) : Prop :=
  ∀ (k : Nat) (r : Resource), resources'[k]? = some r → resources[k]? = some r ∨ r.kind ∈ kinds

variable {kinds : List String}

theorem Adds.refl (resources : List Resource) : Adds kinds resources resources :=
  fun _ _ => .inl

theorem Adds.trans {a b c : List Resource} (h : Adds kinds a b) (h' : Adds kinds b c) :
    Adds kinds a c :=
  fun k r hr => (h' k r hr).elim (h k r) .inr

theorem Adds.mono {kinds' : List String} {a b : List Resource} (h : Adds kinds a b)
    (hkinds : kinds ⊆ kinds') : Adds kinds' a b :=
  fun k r hr => (h k r hr).imp_right fun hkind => hkinds hkind

theorem findOrAdd_adds (resources : List Resource) {kind : String} (hkind : kind ∈ kinds)
    (is : Resource → Bool) {p : Resource → Resource} (hp : ∀ r, (p r).kind = r.kind) :
    Adds kinds resources (findOrAdd resources kind is p).2 := by
  intro k r hr
  refine (findOrAdd_mem hr).imp_right fun ⟨_, hnew⟩ => ?_
  rw [hnew, hp]
  exact hkind

/-- The kinds of the resources with which tables start tasks and receive their results. -/
def taskCallKinds : List String := [taskCallKind, taskReturnValueKind]

theorem taskCall_adds (resources : List Resource) (callee : TableRef) (theirs : List Resource)
    (member : String) : Adds taskCallKinds resources (taskCall resources callee theirs member).2 :=
  findOrAdd_adds _ (by decide) _ fun r => by
    simp only
    split <;> rfl

theorem taskReturnValue_adds {resources resources' : List Resource} {callee : TableRef}
    {theirs : List Resource} {i : Option Nat}
    (h : taskReturnValue resources callee theirs = (i, resources')) :
    Adds taskCallKinds resources resources' := by
  unfold taskReturnValue at h
  split at h
  · cases h
    exact .refl _
  · rename_i k _
    have hadd := findOrAdd_adds resources
      (show taskReturnValueKind ∈ taskCallKinds by decide) (·.callee = some callee)
      (p := fun r => { r with callee := some callee, parent := some ⟨callee, k⟩ }) fun _ => rfl
    cases h
    exact hadd

theorem dataFlowCaller_adds (resources : List Resource) (register : ResourceRef)
    (width : UInt64) : Adds callKinds resources (dataFlowCaller resources register width).2 :=
  findOrAdd_adds _ (by decide) _ fun _ => rfl

end Calls

end Rtl

namespace Synth

theorem Channels.resource?_connectAll {ends : List (Nat × ChannelEnds)} {d d' : Rtl.Design}
    (h : connectAll ends d = (d', none)) (p : Rtl.ResourceRef) :
    (d'.resource? p).map Rtl.Resource.unnumbered = (d.resource? p).map Rtl.Resource.unnumbered := by
  have hset : ∀ (number : String) (r : Rtl.ResourceRef) (d : Rtl.Design),
      ((d.updateResource r (·.setParam "CHANNEL" number)).resource? p).map
        Rtl.Resource.unnumbered = (d.resource? p).map Rtl.Resource.unnumbered := by
    intro number r d
    rw [Rtl.Design.resource?_updateResource, Option.map_map]
    refine congrArg (fun f => Option.map f _) (funext fun x => ?_)
    simp only [Function.comp]
    split
    · simp only [Rtl.Resource.unnumbered, Rtl.Resource.setParam, Rtl.Params.filter_set]
    · rfl
  have hfold : ∀ (number : String) (rs : List Rtl.ResourceRef) (d : Rtl.Design),
      ((rs.foldl (fun d r => d.updateResource r (·.setParam "CHANNEL" number)) d).resource? p).map
        Rtl.Resource.unnumbered = (d.resource? p).map Rtl.Resource.unnumbered := by
    intro number rs
    induction rs with
    | nil => exact fun _ => rfl
    | cons r rest ih => exact fun d => (ih _).trans (hset number r d)
  induction ends generalizing d with
  | nil =>
    cases h
    rfl
  | cons x rest ih =>
    obtain ⟨object, e⟩ := x
    simp only [connectAll] at h
    split at h
    · cases h
    · exact (ih h).trans (hfold _ _ d)

namespace ThreadTable

variable {m : Machine} {plan : Plan} {tables : List ThreadTable} {t t' : ThreadTable}
  {call : TableCall} {callee : ThreadTable}

theorem callTask_adds (h : callTask m t call callee = .ok t') :
    Rtl.Adds Rtl.taskCallKinds t.resources t'.resources := by
  have hstart := Rtl.taskCall_adds t.resources callee.plan.place callee.resources
    call.callee.member
  simp only [callTask] at h
  split at h
  · cases h
    exact hstart
  · split at h
    · cases h
    · split at h
      · cases h
        exact hstart
      · rename_i hreturn
        cases h
        exact hstart.trans (Rtl.taskReturnValue_adds hreturn)

theorem callDataFlow_adds (h : callDataFlow m t call callee = .ok t') :
    Rtl.Adds Rtl.callKinds t.resources t'.resources := by
  unfold callDataFlow at h
  split at h
  · split at h
    · cases h
    · simp only at h
      split at h <;> cases h <;> exact Rtl.dataFlowCaller_adds _ _ _
  · cases h

theorem wire_adds (h : wire m plan tables t = .ok t') :
    Rtl.Adds Rtl.callKinds t.resources t'.resources :=
  wire_rel (R := fun a b => Rtl.Adds Rtl.callKinds a.resources b.resources) (fun _ => .refl _)
    (fun _ _ _ => .trans)
    (fun _ _ _ _ hwire => by
      obtain ⟨callee, -, hrun⟩ := wireTask_eq_ok hwire
      exact (callTask_adds hrun).mono (by decide))
    (fun _ _ _ _ hwire => by
      obtain ⟨callee, -, hrun⟩ := wireDataFlow_eq_ok hwire
      exact callDataFlow_adds hrun) h

end ThreadTable

namespace Synthesis.Staged

variable {m : Machine} {root : Nat} {s : Synthesis} {owners : OwnershipTable} {limit : Nat}
  {built : List ThreadTable} {ps : List (Rtl.ResourceRef × Rtl.ResourceRef)} {b w : ThreadTable}
  {o : Rtl.ResourceRef} {k : Nat} {r : Rtl.Resource}

theorem resource?_iff (h : Staged m root s owners limit built ps) (hw : w ∈ s.tables) :
    (s.design.resource? ⟨w.plan.place, k⟩).map Rtl.Resource.unnumbered =
      (w.resources[k]?).map Rtl.Resource.unnumbered := by
  obtain ⟨n, hn⟩ := List.mem_iff_getElem?.mp hw
  rw [Channels.resource?_connectAll h.connects, Rtl.Design.resource?, h.table?_assemble hn]
  rfl

theorem built_of_resource? (h : Staged m root s owners limit built ps) (hw : w ∈ s.tables)
    (hr : s.design.resource? ⟨w.plan.place, k⟩ = some r) (hkind : r.kind ∉ Rtl.callKinds) :
    ∃ b ∈ built, b.builder.pool.place = w.plan.place ∧ ∃ r₀, b.resources[k]? = some r₀ ∧
      r₀.kind = r.kind ∧ r.parent = (ps.reverse.lookup ⟨w.plan.place, k⟩).or r₀.parent := by
  have hsame := h.resource?_iff (k := k) hw
  rw [hr, Option.map_some] at hsame
  obtain ⟨r₁, hr₁, hunnumbered⟩ := Option.map_eq_some_iff.mp hsame.symm
  obtain ⟨hkind₁, hparent₁, -⟩ := Rtl.Resource.eq_of_unnumbered hunnumbered
  obtain ⟨n, hn⟩ := List.mem_iff_getElem?.mp hw
  obtain ⟨b, w', hb, hw', -, hplan, hplan', -, hwire⟩ := h.thread (h.table hn)
  cases Option.some.inj (hn.symm.trans hw')
  rcases ThreadTable.wire_adds hwire k r₁ hr₁ with hr₁ | hcall
  · obtain ⟨r₀, hr₀, rfl⟩ := getElem?_linked hr₁
    refine ⟨b, List.mem_of_getElem? hb, ?_, r₀, hr₀, hkind₁, ?_⟩
    · rw [(h.toBuilt.sound hb).2, hplan]
    · rw [← hparent₁, hplan]
  · exact absurd (hkind₁ ▸ hcall) hkind

theorem kind_of_lookup (h : Staged m root s owners limit built ps) (hb : b ∈ built)
    (hr : b.resources[k]? = some r) (ho : ps.reverse.lookup ⟨b.builder.pool.place, k⟩ = some o) :
    r.kind ∈ Pool.accessorKinds := by
  obtain ⟨links, hlinks, hps⟩ := h.parents
  obtain ⟨n, hn⟩ := List.mem_iff_getElem?.mp hb
  rw [(h.toBuilt.sound hn).2] at ho
  exact h.toBuilt.kind_of_lookup (gathers_allLinks h.toBuilt.distinct hlinks) hps hb hr ho

end Synthesis.Staged

end Synth
end MachineSynth
