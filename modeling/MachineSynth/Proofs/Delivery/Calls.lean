import Mathlib
import MachineSynth.Proofs.Delivery.Entrances
import MachineSynth.Proofs.Delivery.Outgoing
import MachineSynth.Proofs.Delivery.Posting
import MachineSynth.Proofs.Reach.Guarding
import MachineSynth.Proofs.Storage

/-! Delivery of calls: what the states that call find of the tables that they call. -/
namespace MachineSynth
namespace Synth

/-- Whether the method that is called is run by code of its own. -/
def Callee.isCompiled (m : Machine) (c : Callee) : Bool :=
  (Walker.calledMethod? m (some c.object) c.method).any fun f => decide f.Compiled

namespace Synthesis

theorem positionsOfKind_linked (ps : List (Rtl.ResourceRef × Rtl.ResourceRef)) (t : ThreadTable)
    (kind : String) : Rtl.positionsOfKind (linked ps t).resources kind =
      Rtl.positionsOfKind t.resources kind := by
  simp only [Rtl.positionsOfKind, length_linked]
  refine List.filter_congr fun i hi => ?_
  simp only [linked, ThreadTable.setResources, ThreadTable.resources, List.getElem?_mapIdx]
  cases t.builder.pool.resources[i]? <;> rfl

theorem insnsOfKind_of_leads {resources : List Rtl.Resource} {targets : List Nat} {i : Rtl.Insn}
    {kind : String} (h : Leads resources targets i) (hkind : kind ≠ Rtl.Resource.transitionKind) :
    Rtl.insnsOfKind resources kind [i] = [] := by
  simp [Rtl.insnsOfKind, h.kind, hkind.symm]

theorem entrance?_linked (ps : List (Rtl.ResourceRef × Rtl.ResourceRef)) (t : ThreadTable)
    (kind : String) : (linked ps t).entrance? kind =
      (Rtl.positionsOfKind t.resources kind).head?.map (⟨t.plan.place, ·⟩) := by
  rw [ThreadTable.entrance?, Rtl.firstOfKind?_eq_head?, positionsOfKind_linked]
  rfl

/-- How a table calls a task. The state that makes the call starts the task at its entrance, and the
state behind it, which is the only one that follows, waits for the results if any are bound. A task
that is not run by code of its own has no entrances: it is called without one, and nothing waits for
it. -/
def CallsTask (m : Machine) (plan : Plan) (tables : List ThreadTable) (w : ThreadTable)
    (call : TableCall) : Prop :=
  ∃ callee ∈ tables, plan.task? call.callee.object call.callee.method = some callee.plan ∧
    ∃ s next start, w.states[call.state]? = some s ∧ w.states[call.state + 1]? = some next ∧
      Rtl.successors s.insns = [call.state + 1] ∧
      Rtl.insnsOfKind w.resources Rtl.taskCallKind s.insns = [start] ∧
      (call.callee.isCompiled m = true → ∃ i j,
        Rtl.positionsOfKind callee.resources Rtl.taskKind = [i] ∧
        Rtl.positionsOfKind callee.resources Rtl.taskReturnKind = [j] ∧
        (Post.start callee.plan.place (some ⟨callee.plan.place, i⟩) call.inputs).Done
          w.resources start ∧
        (call.outputs ≠ [] → ∃ wait,
          Rtl.insnsOfKind w.resources Rtl.taskReturnValueKind next.insns = [wait] ∧
          (Post.wait callee.plan.place ⟨callee.plan.place, j⟩ call.outputs).Done
            w.resources wait)) ∧
      (call.callee.isCompiled m = false →
        (Post.start callee.plan.place none call.inputs).Done w.resources start) ∧
      (call.outputs = [] ∨ call.callee.isCompiled m = false →
        Rtl.insnsOfKind w.resources Rtl.taskReturnValueKind next.insns = [])

/-- How a table passes data to another: the state that makes the call writes the shared register
that feeds the only input of the other. -/
def PassesData (plan : Plan) (tables : List ThreadTable) (w : ThreadTable) (call : TableCall) :
    Prop :=
  ∃ callee ∈ tables, plan.thread? call.callee.object call.callee.method = some callee.plan ∧
    ∃ i r register s notify,
      Rtl.positionsOfKind callee.resources Rtl.dataFlowKind = [i] ∧
      callee.resources[i]? = some r ∧ r.parent = some register ∧
      register.owner = callee.plan.place ∧
      Rtl.kindAt callee.resources register.resource = some "shared-reg" ∧
      w.states[call.state]? = some s ∧
      Rtl.insnsOfKind w.resources Rtl.sharedWriterKind s.insns = [notify] ∧
      (Post.notify register call.inputs).Done w.resources notify

variable {m : Machine} {root : Nat} {plan : Plan} {owners : OwnershipTable} {limit : Nat}
  {built : List ThreadTable} {ps : List (Rtl.ResourceRef × Rtl.ResourceRef)} {b : ThreadTable}
  {call : TableCall} {c : Callee} {k : Nat}

/-- Built tables with the parents that linking gives to their resources. -/
structure Linked (m : Machine) (root : Nat) (plan : Plan) (owners : OwnershipTable) (limit : Nat)
    (built : List ThreadTable) (ps : List (Rtl.ResourceRef × Rtl.ResourceRef)) : Prop
    extends Built m root plan owners limit built where
  parents : ∃ links, allLinks built = .ok links ∧ links.parents = (ps, none)

theorem mapM_ok_iff {ε α β : Type} {f : α → Except ε β} {xs : List α} :
    (∃ ys, xs.mapM f = .ok ys) ↔ ∀ x ∈ xs, ∃ y, f x = .ok y := by
  constructor
  · rintro ⟨ys, h⟩ x hx
    obtain ⟨k, hk⟩ := List.mem_iff_getElem?.mp hx
    exact ((mapM_eq_ok h).2 k x hk).imp fun _ hy => hy.2
  · intro h
    cases hys : xs.mapM f with
    | ok ys => exact ⟨ys, rfl⟩
    | error e =>
      obtain ⟨x, hx, he⟩ := mapM_eq_error hys
      obtain ⟨y, hy⟩ := h x hx
      cases hy.symm.trans he

namespace Linked

theorem pool (h : Linked m root plan owners limit built ps) (hb : built[k]? = some b) :
    b.plan.pool.Planned :=
  (Plan.ofRoot_housed h.plans).pool _ (List.mem_of_getElem? (h.thread hb).1)

theorem entrances (h : Linked m root plan owners limit built ps) (hb : built[k]? = some b) :
    b.builder.pool.Entered ∧ ∃ f, Walker.calledMethod? m (some b.plan.object) b.plan.entry = some f ∧
      ThreadTable.Entrances f b :=
  ThreadTable.build_entrances (h.pool hb) (h.thread hb).2

theorem apart (h : Linked m root plan owners limit built ps) :
    ThreadTable.Apart (built.map (linked ps)) := by
  intro a ha b hb hplace
  obtain ⟨a₀, ha₀, rfl⟩ := List.mem_map.mp ha
  obtain ⟨b₀, hb₀, rfl⟩ := List.mem_map.mp hb
  rw [h.eq_of_place ha₀ hb₀ hplace]

theorem uncalled (h : Linked m root plan owners limit built ps) (hb : built[k]? = some b) {i : Nat}
    {r : Rtl.Resource} (hr : (linked ps b).resources[i]? = some r) : r.kind ∉ Rtl.taskCallKinds := by
  obtain ⟨r₀, hr₀, rfl⟩ := getElem?_linked hr
  exact (h.entrances hb).1.uncalled (i := i) (by
    have hat : b.builder.pool.resources[i]? = some r₀ := hr₀
    rw [Rtl.kindAt, hat]
    rfl)

theorem faithful (h : Linked m root plan owners limit built ps) (hb : built[k]? = some b)
    (tables : List ThreadTable) : (linked ps b).Faithful tables := by
  intro r hr callee _ _
  obtain ⟨i, hi⟩ := List.mem_iff_getElem?.mp hr
  have huncalled := h.uncalled hb hi
  exact ⟨fun hkind => absurd (hkind ▸ by decide) huncalled,
    fun hkind => absurd (hkind ▸ by decide) huncalled⟩

/-- A state that makes a call that is left holds nothing yet but the way to the next state. -/
theorem state_of_makes (h : Linked m root plan owners limit built ps) (hb : built[k]? = some b)
    (hmakes : b.Makes m owners limit k call) (hleft : call.callee.isLeft m = true) :
    ∃ s i, (linked ps b).states[call.state]? = some s ∧ s.insns = [i] ∧
      Leads (linked ps b).resources [call.state + 1] i := by
  obtain ⟨s, i, hs, hinsns, hleads⟩ := hmakes.state (h.pool hb).toSound (h.thread hb).2 hleft
  exact ⟨s, i, hs, hinsns, hleads.mono linked_extends⟩

theorem tidy (h : Linked m root plan owners limit built ps) (hb : built[k]? = some b) :
    (linked ps b).Tidy :=
  linked_tidy (ThreadTable.build_tidy (h.pool hb).toTidy (h.thread hb).2).1

theorem map_plan (h : Linked m root plan owners limit built ps) :
    (built.map (linked ps)).map (·.plan) = plan.threads := by
  rw [List.map_map]
  exact map_plan_of_buildTables h.builds

theorem wirable (h : Linked m root plan owners limit built ps) (hnamed : m.SelfNamed)
    (hb : built[k]? = some b) : (linked ps b).Wirable plan (built.map (linked ps)) := by
  have hsettled := Plan.ofRoot_settled h.plans
  obtain ⟨htasks, hflows⟩ := built_calls hsettled h.builds (List.mem_of_getElem? hb)
  refine ⟨h.faithful hb _, (h.tidy hb).inside, fun call hcall => ?_, fun call hcall => ?_,
    fun call hcall => ?_⟩
  · obtain ⟨hmakes, hleft, -⟩ := ThreadTable.makes_of_mem (h.pool hb).toSound
      (h.thread hb).2 false hcall
    obtain ⟨s, i, hs, hinsns, hleads⟩ := h.state_of_makes hb hmakes hleft
    have hfound : Rtl.transition? (linked ps b).resources s.insns = some i := by
      rw [hinsns, Expand.transition?_cons hleads.kind]
    obtain ⟨n, resource, operand, inputs, outputs, targets⟩ := i
    obtain rfl : targets = [call.state + 1] := hleads.targets
    simp [ThreadTable.successor?, hs, Rtl.successor?, hfound]
  · obtain ⟨hmodule, htask⟩ := htasks call hcall
    exact ⟨hmodule, (ThreadTable.find?_isSome h.map_plan _).trans htask⟩
  · obtain ⟨hmodule, hthread⟩ := hflows call hcall
    exact ⟨hmodule, (ThreadTable.find?_isSome h.map_plan _).trans (hthread hnamed)⟩

theorem exists_of_find? (h : Linked m root plan owners limit built ps) {p : ThreadPlan → Bool}
    {callee : ThreadTable} (hfind : ThreadTable.find? (built.map (linked ps)) p = some callee) :
    ∃ (j : Nat) (b' : ThreadTable), built[j]? = some b' ∧ callee = linked ps b' ∧
      plan.threads.find? p = some b'.plan ∧ p b'.plan = true := by
  obtain ⟨hmem, hp⟩ := ThreadTable.find?_mem hfind
  obtain ⟨b', hb', rfl⟩ := List.mem_map.mp hmem
  obtain ⟨j, hj⟩ := List.mem_iff_getElem?.mp hb'
  refine ⟨j, b', hj, rfl, ?_, hp⟩
  rw [← h.map_plan, List.find?_map]
  exact congrArg (Option.map (·.plan)) hfind

theorem entrances_of_call (h : Linked m root plan owners limit built ps) (hb : built[k]? = some b)
    (hobject : b.plan.object = c.object) (hentry : b.plan.entry = c.method) :
    ∃ f, c.isCompiled m = decide f.Compiled ∧ c.isFlow m = f.marks.dataFlowEntry ∧
      ThreadTable.Entrances f b := by
  obtain ⟨-, f, hf, hentrances⟩ := h.entrances hb
  rw [hobject, hentry] at hf
  exact ⟨f, by simp [Callee.isCompiled, hf], by simp [Callee.isFlow, hf], hentrances⟩

theorem fed (h : Linked m root plan owners limit built ps) (hb : built[k]? = some b) {i : Nat}
    (hi : Rtl.positionsOfKind b.resources Rtl.dataFlowKind = [i]) :
    ∃ r register, (linked ps b).resources[i]? = some r ∧ r.parent = some register ∧
      register.owner = b.plan.place ∧
      Rtl.kindAt (linked ps b).resources register.resource = some "shared-reg" := by
  obtain ⟨r₀, hr₀, hkind⟩ : ∃ r₀, b.resources[i]? = some r₀ ∧ r₀.kind = Rtl.dataFlowKind := by
    have hmem : i ∈ Rtl.positionsOfKind b.resources Rtl.dataFlowKind := by simp [hi]
    obtain ⟨r₀, hr₀, hkind⟩ := (Option.any_eq_true _ _).mp (List.mem_filter.mp hmem).2
    exact ⟨r₀, hr₀, of_decide_eq_true hkind⟩
  obtain ⟨j, hj, hparent⟩ :=
    (ThreadTable.build_stored (h.pool hb) (h.thread hb).2).pool.fed i r₀ hr₀ hkind
  obtain ⟨links, hlinks, hps⟩ := h.parents
  -- linking gives parents to accessors only
  have hnone : ps.reverse.lookup ⟨b.plan.place, i⟩ = none := by
    refine Option.eq_none_iff_forall_ne_some.mpr fun o ho => ?_
    have haccess := h.kind_of_lookup (gathers_allLinks h.distinct hlinks) hps
      (List.mem_of_getElem? hb) hr₀ ho
    rw [hkind] at haccess
    exact absurd haccess (by decide)
  obtain ⟨hsound, hplace⟩ := h.sound hb
  refine ⟨r₀, b.builder.pool.ref j, ?_, hparent, hplace,
    linked_extends.kindAt (hsound.pool.kind hj)⟩
  have hat : b.builder.pool.resources[i]? = some r₀ := hr₀
  simp [linked, ThreadTable.setResources, ThreadTable.resources, hat, hnone]

theorem fed_of_feed? (h : Linked m root plan owners limit built ps) (hb : built[k]? = some b)
    {register : Rtl.ResourceRef} (hfeed : (linked ps b).feed? = some register) :
    ∃ i r, Rtl.positionsOfKind b.resources Rtl.dataFlowKind = [i] ∧
      (linked ps b).resources[i]? = some r ∧ r.parent = some register ∧
      register.owner = b.plan.place ∧
      Rtl.kindAt (linked ps b).resources register.resource = some "shared-reg" := by
  unfold ThreadTable.feed? at hfeed
  split at hfeed
  · rename_i i hi
    rw [positionsOfKind_linked] at hi
    obtain ⟨r, register', hr, hparent, hregister⟩ := h.fed hb hi
    rw [hr, Option.bind_some, hparent] at hfeed
    cases hfeed
    exact ⟨i, r, hi, hr, hparent, hregister⟩
  · cases hfeed

/-- Some register feeds a data-flow table exactly if the method that is called has code of its
own. -/
theorem feed?_isSome (h : Linked m root plan owners limit built ps) (hb : built[k]? = some b)
    (hobject : b.plan.object = c.object) (hentry : b.plan.entry = c.method)
    (htask : b.plan.isTask = false) (hflow : c.isFlow m = true) :
    (linked ps b).feed?.isSome = true ↔ c.isCompiled m = true := by
  obtain ⟨f, hcompiled, hmark, hentrances⟩ := h.entrances_of_call hb hobject hentry
  rw [hcompiled, decide_eq_true_iff, ThreadTable.feed?, positionsOfKind_linked]
  constructor
  · intro hsome
    by_contra hnot
    rw [hentrances.shut hnot _ (by decide)] at hsome
    cases hsome
  · intro hcode
    obtain ⟨i, hi⟩ := hentrances.flow hcode htask (hmark ▸ hflow)
    obtain ⟨r, register, hr, hparent, -⟩ := h.fed hb hi
    rw [hi]
    simp [hr, hparent]

theorem recorded (h : Linked m root plan owners limit built ps) (hb : built[k]? = some b)
    (hmakes : b.Makes m owners limit k call) (hleft : call.callee.isLeft m = true) {flow : Bool}
    (hflow : call.callee.isFlow m = flow) :
    b.expansion.callsAt flow call.state = [call] ∧ call ∈ b.expansion.calls flow := by
  have hat : b.expansion.callsAt flow call.state = [call] :=
    (hmakes.callsAt (h.pool hb).toSound (h.thread hb).2 hleft flow).trans (if_pos hflow)
  exact ⟨hat, List.mem_of_mem_filter (hat ▸ List.mem_singleton_self call)⟩

theorem next_of_makes (h : Linked m root plan owners limit built ps) (hb : built[k]? = some b)
    (hmakes : b.Makes m owners limit k call) (hleft : call.callee.isLeft m = true) :
    ∃ next, (linked ps b).states[call.state + 1]? = some next ∧
      Rtl.insnsOfKind (linked ps b).resources Rtl.taskReturnValueKind next.insns = [] := by
  obtain ⟨s, i, hs, hinsns, hleads⟩ := h.state_of_makes hb hmakes hleft
  obtain ⟨-, -, htargets⟩ := (h.tidy hb).insn s (List.mem_of_getElem? hs) i (by simp [hinsns])
  have hlt := htargets (call.state + 1) (by simp [hleads.targets])
  refine ⟨_, List.getElem?_eq_getElem hlt, List.filter_eq_nil_iff.mpr fun x _ hx => ?_⟩
  obtain ⟨r, hr, hkind⟩ := Option.map_eq_some_iff.mp (of_decide_eq_true hx)
  exact h.uncalled hb hr (hkind ▸ by decide)

/-- The register that data is passed to is there exactly if the method that is called has code of
its own. -/
theorem feeds_iff (h : Linked m root plan owners limit built ps) (hnamed : m.SelfNamed)
    (hb : built[k]? = some b) (hcall : call ∈ b.flowCalls) :
    ((ThreadTable.flowTable? (built.map (linked ps)) call.callee).bind (·.feed?)).isSome = true ↔
      call.callee.isCompiled m = true := by
  obtain ⟨callee, hcallee⟩ := Option.isSome_iff_exists.mp ((h.wirable hnamed hb).flow call hcall).2
  obtain ⟨j, b', hb', rfl, -, hp⟩ := h.exists_of_find? hcallee
  simp only [Bool.and_eq_true, decide_eq_true_eq, Bool.not_eq_true'] at hp
  obtain ⟨⟨hobject, htask⟩, hentry⟩ := hp
  obtain ⟨-, -, hflow⟩ :=
    ThreadTable.makes_of_mem (h.pool hb).toSound (h.thread hb).2 true hcall
  rw [hcallee, Option.bind_some]
  exact h.feed?_isSome hb' hobject hentry htask hflow

/-- Wiring succeeds exactly if all methods that data is passed to have code of their own. -/
theorem wires_iff (h : Linked m root plan owners limit built ps) (hnamed : m.SelfNamed) :
    (∃ wired, (built.map (linked ps)).mapM
      (ThreadTable.wire m plan (built.map (linked ps))) = .ok wired) ↔
    ∀ (k : Nat) (b : ThreadTable) (call : TableCall), built[k]? = some b →
      b.Makes m owners limit k call → call.callee.isFlow m = true →
      call.callee.isCompiled m = true := by
  rw [mapM_ok_iff]
  constructor
  · intro hwires k b call hb hmakes hflow
    obtain ⟨-, hmem⟩ := h.recorded hb hmakes (by simp [Callee.isLeft, hflow]) hflow
    have hwire := hwires _ (List.mem_map_of_mem (List.mem_of_getElem? hb))
    exact (h.feeds_iff hnamed hb hmem).mp
      ((ThreadTable.wire_posts h.apart (h.wirable hnamed hb)).1.mp hwire call hmem)
  · intro hcompiled t ht
    obtain ⟨b, hb, rfl⟩ := List.mem_map.mp ht
    obtain ⟨k, hk⟩ := List.mem_iff_getElem?.mp hb
    refine (ThreadTable.wire_posts h.apart (h.wirable hnamed hk)).1.mpr fun call hcall => ?_
    obtain ⟨hmakes, -, hflow⟩ :=
      ThreadTable.makes_of_mem (h.pool hk).toSound (h.thread hk).2 true hcall
    exact (h.feeds_iff hnamed hk hcall).mpr (hcompiled k b call hk hmakes hflow)

end Linked

namespace Wired

variable {wired : List ThreadTable} {w callee : ThreadTable}

theorem toLinked (h : Wired m root plan wired owners limit built ps) :
    Linked m root plan owners limit built ps :=
  ⟨⟨h.plans, h.settles, h.builds⟩, h.parents⟩

theorem exists_table (h : Wired m root plan wired owners limit built ps)
    (hb : built[k]? = some b) :
    ∃ w, wired[k]? = some w ∧
      ThreadTable.wire m plan (built.map (linked ps)) (linked ps b) = .ok w :=
  (mapM_eq_ok h.wires).2 k (linked ps b) (by simp [hb])

theorem wire (h : Wired m root plan wired owners limit built ps) (hb : built[k]? = some b)
    (hw : wired[k]? = some w) :
    ThreadTable.wire m plan (built.map (linked ps)) (linked ps b) = .ok w := by
  obtain ⟨w', hw', hwire⟩ := h.exists_table hb
  cases hw.symm.trans hw'
  exact hwire

theorem positionsOfKind (h : Wired m root plan wired owners limit built ps)
    (hb : built[k]? = some b) (hw : wired[k]? = some w) {kind : String}
    (hkind : kind ∉ Rtl.callKinds) :
    Rtl.positionsOfKind w.resources kind = Rtl.positionsOfKind b.resources kind :=
  (Rtl.positionsOfKind_of_adds (ThreadTable.wire_grows (h.wire hb hw)).resources
    (ThreadTable.wire_adds (h.wire hb hw)) hkind).trans (positionsOfKind_linked ps b kind)

theorem posted (h : Wired m root plan wired owners limit built ps) (hnamed : m.SelfNamed)
    (hb : built[k]? = some b) (hw : wired[k]? = some w) {j : Nat} {s : Rtl.State}
    (hs : (linked ps b).states[j]? = some s) (kind : String) : ∃ s' new, w.states[j]? = some s' ∧
      Rtl.insnsOfKind w.resources kind s'.insns =
        Rtl.insnsOfKind (linked ps b).resources kind s.insns ++ new ∧
      List.Forall₂ (Post.Done w.resources)
        (postsOfKind ((linked ps b).posts (built.map (linked ps))) j kind) new := by
  have hwirable := h.toLinked.wirable hnamed hb
  have hposts := (ThreadTable.wire_posts h.toLinked.apart hwirable).2 w (h.wire hb hw)
  exact hposts.ofKind hs (hwirable.inside s (List.mem_of_getElem? hs)) kind

/-- The state of a call starts the task, and leads to the next state as before. -/
theorem starts (h : Wired m root plan wired owners limit built ps) (hnamed : m.SelfNamed)
    (hb : built[k]? = some b) (hw : wired[k]? = some w) (hmakes : b.Makes m owners limit k call)
    (hleft : call.callee.isLeft m = true) (hflow : call.callee.isFlow m = false)
    (hcallee : ThreadTable.taskTable? (built.map (linked ps)) call.callee = some callee) :
    ∃ s start, w.states[call.state]? = some s ∧ Rtl.successors s.insns = [call.state + 1] ∧
      Rtl.insnsOfKind w.resources Rtl.taskCallKind s.insns = [start] ∧
      (Post.start callee.plan.place (callee.entrance? Rtl.taskKind) call.inputs).Done w.resources
        start := by
  have hat : (linked ps b).taskCalls.filter (·.state = call.state) = [call] :=
    (h.toLinked.recorded hb hmakes hleft hflow).1
  obtain ⟨s, i, hs, hinsns, hleads⟩ := h.toLinked.state_of_makes hb hmakes hleft
  obtain ⟨s', new, hs', hkinds, hnew⟩ := h.posted hnamed hb hw hs Rtl.taskCallKind
  rw [ThreadTable.posts_start, hat, List.flatMap_singleton, hcallee, Option.toList_some,
    List.map_singleton] at hnew
  obtain ⟨start, rfl, hdone⟩ := ThreadTable.eq_singleton_of_done hnew
  rw [hinsns, insnsOfKind_of_leads hleads (by decide), List.nil_append] at hkinds
  have hsuccessors : Rtl.successors s'.insns = [call.state + 1] := by
    have hsame := congrArg (·[call.state]?) (ThreadTable.wire_successors (h.wire hb hw))
    simpa [ThreadTable.successors, hs, hs', hinsns, hleads.targets] using hsame
  exact ⟨s', start, hs', hsuccessors, hkinds, hdone⟩

/-- The state behind that of a call waits for the task if it hands back results that are bound. -/
theorem waits (h : Wired m root plan wired owners limit built ps) (hnamed : m.SelfNamed)
    (hb : built[k]? = some b) (hw : wired[k]? = some w) (hmakes : b.Makes m owners limit k call)
    (hleft : call.callee.isLeft m = true) (hflow : call.callee.isFlow m = false)
    (hcallee : ThreadTable.taskTable? (built.map (linked ps)) call.callee = some callee) :
    ∃ next, w.states[call.state + 1]? = some next ∧
      List.Forall₂ (Post.Done w.resources)
        (if call.outputs.isEmpty then []
          else ((callee.entrance? Rtl.taskReturnKind).map fun entrance =>
            .wait callee.plan.place entrance call.outputs).toList)
        (Rtl.insnsOfKind w.resources Rtl.taskReturnValueKind next.insns) := by
  have hat : (linked ps b).taskCalls.filter (·.state = call.state) = [call] :=
    (h.toLinked.recorded hb hmakes hleft hflow).1
  obtain ⟨next, hnext, hidle⟩ := h.toLinked.next_of_makes hb hmakes hleft
  obtain ⟨next', new, hnext', hkinds, hnew⟩ := h.posted hnamed hb hw hnext Rtl.taskReturnValueKind
  rw [ThreadTable.posts_wait, hat, List.flatMap_singleton, hcallee, Option.toList_some,
    List.flatMap_singleton] at hnew
  rw [hidle, List.nil_append] at hkinds
  exact ⟨next', hnext', hkinds ▸ hnew⟩

/-- The state of a call writes the register that feeds the table that is called. -/
theorem notifies (h : Wired m root plan wired owners limit built ps) (hnamed : m.SelfNamed)
    (hb : built[k]? = some b) (hw : wired[k]? = some w) (hmakes : b.Makes m owners limit k call)
    (hflow : call.callee.isFlow m = true)
    (hcallee : ThreadTable.flowTable? (built.map (linked ps)) call.callee = some callee)
    {register : Rtl.ResourceRef} (hregister : callee.feed? = some register) :
    ∃ s notify, w.states[call.state]? = some s ∧
      Rtl.insnsOfKind w.resources Rtl.sharedWriterKind s.insns = [notify] ∧
      (Post.notify register call.inputs).Done w.resources notify := by
  have hleft : call.callee.isLeft m = true := by simp [Callee.isLeft, hflow]
  have hat : (linked ps b).flowCalls.filter (·.state = call.state) = [call] :=
    (h.toLinked.recorded hb hmakes hleft hflow).1
  obtain ⟨s, i, hs, hinsns, hleads⟩ := h.toLinked.state_of_makes hb hmakes hleft
  obtain ⟨s', new, hs', hkinds, hnew⟩ := h.posted hnamed hb hw hs Rtl.sharedWriterKind
  rw [ThreadTable.posts_notify, hat, List.flatMap_singleton, hcallee, Option.toList_some,
    List.flatMap_singleton, hregister, Option.map_some, Option.toList_some] at hnew
  obtain ⟨notify, rfl, hdone⟩ := ThreadTable.eq_singleton_of_done hnew
  rw [hinsns, insnsOfKind_of_leads hleads (by decide), List.nil_append] at hkinds
  exact ⟨s', notify, hs', hkinds, hdone⟩

theorem callsTask (h : Wired m root plan wired owners limit built ps) (hnamed : m.SelfNamed)
    (hb : built[k]? = some b) (hw : wired[k]? = some w) (hmakes : b.Makes m owners limit k call)
    (houtside : call.callee.outside = true) (hflow : call.callee.isFlow m = false) :
    CallsTask m plan wired w call := by
  have hleft : call.callee.isLeft m = true := by simp [Callee.isLeft, houtside]
  obtain ⟨callee, hcallee⟩ := Option.isSome_iff_exists.mp
    ((h.toLinked.wirable hnamed hb).task call (h.toLinked.recorded hb hmakes hleft hflow).2).2
  obtain ⟨s, start, hs, hsuccessors, hstarts, hdone⟩ :=
    h.starts hnamed hb hw hmakes hleft hflow hcallee
  obtain ⟨next, hnext, hwait⟩ := h.waits hnamed hb hw hmakes hleft hflow hcallee
  -- the table of the task, and its entrances
  obtain ⟨j, b', hb', rfl, htask, hp⟩ := h.toLinked.exists_of_find? hcallee
  simp only [Bool.and_eq_true, decide_eq_true_eq] at hp
  obtain ⟨⟨hobject, hisTask⟩, hentry⟩ := hp
  obtain ⟨f, hcompiled, -, hentrances⟩ := h.toLinked.entrances_of_call hb' hobject hentry
  obtain ⟨w', hw', hwire'⟩ := h.exists_table hb'
  have hplan : w'.plan = b'.plan := (ThreadTable.wire_grows hwire').plan
  rw [entrance?_linked] at hdone hwait
  have hshut (hcode : call.callee.isCompiled m = false) (kind : String)
      (hkind : kind ∈ Pool.entranceKinds) : Rtl.positionsOfKind b'.resources kind = [] := by
    rw [hcompiled, decide_eq_false_iff_not] at hcode
    exact hentrances.shut hcode _ hkind
  refine ⟨w', List.mem_of_getElem? hw', hplan ▸ htask, s, next, start, hs, hnext, hsuccessors,
    hstarts, fun hcode => ?_, fun hcode => ?_, fun hnone => ?_⟩
  · rw [hcompiled, decide_eq_true_iff] at hcode
    obtain ⟨n, o, htaskAt, hreturnAt⟩ := hentrances.task hcode hisTask
    rw [htaskAt] at hdone
    rw [hreturnAt] at hwait
    rw [h.positionsOfKind hb' hw' (by decide), h.positionsOfKind hb' hw' (by decide), hplan]
    refine ⟨n, o, htaskAt, hreturnAt, hdone, fun hbinds => ?_⟩
    rw [if_neg (by simpa using hbinds)] at hwait
    exact ThreadTable.eq_singleton_of_done hwait
  · rw [hshut hcode _ (by decide)] at hdone
    rw [hplan]
    exact hdone
  · refine List.forall₂_nil_left_iff.mp (Eq.mp (congrArg (List.Forall₂ _ · _) ?_) hwait)
    rcases hnone with hnone | hcode
    · rw [hnone]
      rfl
    · rw [hshut hcode _ (by decide)]
      split <;> rfl

theorem passesData (h : Wired m root plan wired owners limit built ps) (hnamed : m.SelfNamed)
    (hb : built[k]? = some b) (hw : wired[k]? = some w) (hmakes : b.Makes m owners limit k call)
    (hflow : call.callee.isFlow m = true) : PassesData plan wired w call := by
  have hwirable := h.toLinked.wirable hnamed hb
  obtain ⟨-, hmem⟩ := h.toLinked.recorded hb hmakes (by simp [Callee.isLeft, hflow]) hflow
  obtain ⟨callee, hcallee⟩ := Option.isSome_iff_exists.mp (hwirable.flow call hmem).2
  -- since the table is wired, some register feeds the other one
  have hfed := (ThreadTable.wire_posts h.toLinked.apart hwirable).1.mp ⟨w, h.wire hb hw⟩ call hmem
  rw [hcallee, Option.bind_some] at hfed
  obtain ⟨register, hregister⟩ := Option.isSome_iff_exists.mp hfed
  obtain ⟨s, notify, hs, hkinds, hdone⟩ := h.notifies hnamed hb hw hmakes hflow hcallee hregister
  obtain ⟨j, b', hb', rfl, hthread, -⟩ := h.toLinked.exists_of_find? hcallee
  obtain ⟨w', hw', hwire'⟩ := h.exists_table hb'
  have hgrows := ThreadTable.wire_grows hwire'
  have hplan : w'.plan = b'.plan := hgrows.plan
  obtain ⟨n, r, hpositions, hr, hparent, howner, hshared⟩ := h.toLinked.fed_of_feed? hb' hregister
  refine ⟨w', List.mem_of_getElem? hw', hplan ▸ hthread, n, r, register, s, notify, ?_,
    getElem?_of_isPrefix hgrows.resources hr, hparent, hplan ▸ howner,
    Rtl.kindAt_of_isPrefix hgrows.resources hshared, hs, hkinds, hdone⟩
  rw [h.positionsOfKind hb' hw' (by decide), hpositions]

end Wired

theorem linked_of_ok {closed : Accesses} {tables : List ThreadTable}
    (hplan : Plan.ofRoot m root = .ok plan) (hsettle : plan.accesses.settle = .ok (owners, closed))
    (hbuilt : buildTables m owners limit 0 plan.threads = .ok built)
    (hlink : link built = .ok tables) :
    ∃ ps, tables = built.map (linked ps) ∧ Linked m root plan owners limit built ps := by
  obtain ⟨links, ps, hlinks, hps, rfl⟩ := link_spec hlink
  exact ⟨ps, rfl, ⟨hplan, ⟨closed, hsettle⟩, hbuilt⟩, links, hlinks, hps⟩

/-- Calls between tables are delivered, but for those of methods that are not run by code of their
own. Wiring fails only when data is passed to such a method. If it succeeds, every copy of a state
that calls a task starts the task, and the state behind it waits for the results that are bound, if
the task is run by code of its own; every copy of a state that passes data writes the register that
feeds the other table. Methods have the names of their slots, as `Listing.selfNamed_of_load` says of
listings. -/
theorem calls_delivered {closed : Accesses} {tables : List ThreadTable} (hnamed : m.SelfNamed)
    (hplan : Plan.ofRoot m root = .ok plan) (hsettle : plan.accesses.settle = .ok (owners, closed))
    (hbuilt : buildTables m owners limit 0 plan.threads = .ok built)
    (hlink : link built = .ok tables) :
    ((∃ wired, tables.mapM (ThreadTable.wire m plan tables) = .ok wired) ↔
      ∀ (k : Nat) (b : ThreadTable) (call : TableCall), built[k]? = some b →
        b.Makes m owners limit k call → call.callee.isFlow m = true →
        call.callee.isCompiled m = true) ∧
    ∀ wired, tables.mapM (ThreadTable.wire m plan tables) = .ok wired →
      ∀ (k : Nat) (b w : ThreadTable) (call : TableCall), built[k]? = some b →
        wired[k]? = some w → b.Makes m owners limit k call →
        (call.callee.isFlow m = false → call.callee.outside = true →
          CallsTask m plan wired w call) ∧
        (call.callee.isFlow m = true → PassesData plan wired w call) := by
  obtain ⟨ps, rfl, h⟩ := linked_of_ok hplan hsettle hbuilt hlink
  refine ⟨h.wires_iff hnamed, fun wired hwired k b w call hb hw hmakes => ?_⟩
  have hwires : Wired m root plan wired owners limit built ps :=
    ⟨hplan, ⟨closed, hsettle⟩, hbuilt, hlink, h.parents, hwired⟩
  exact ⟨fun hflow houtside => hwires.callsTask hnamed hb hw hmakes houtside hflow,
    hwires.passesData hnamed hb hw hmakes⟩

/-- A machine whose main method calls a method of another object, binds its result and passes this
to a data-flow thread of the other. -/
def remoteCalls : Machine :=
  let this := RegisterId.unused
  let method (name : String) (args returns : List VarDecl) (code : List Insn) (flow : Bool) : Slot :=
    ⟨name, .method ⟨name, args, returns, [⟨"v", .num, 8, false, 0⟩, ⟨"o", .object, 0, false, 0⟩], code, "",
      "", "", { Marks.none with dataFlowEntry := flow }⟩⟩
  ⟨[⟨"top", .plain, 0, 0, false, false, [],
      [⟨"sub", .object 1⟩,
        method "main" [] [] [.loadObject 1 this "sub", .call 1 "f" [], .callDone [0],
          .call 1 "feed" [0]] false]⟩,
    ⟨"sub", .plain, 0, 0, false, false, [],
      [method "f" [] [⟨"y", .int, 8⟩] [.nop] false,
        method "feed" [⟨"x", .int, 8⟩] [] [.nop] true]⟩]⟩

/-- The task is started and waited for, and the data is passed on. -/
theorem remoteCalls_delivered : remoteCalls.SelfNamed ∧
    ∃ (plan : Plan) (owners : OwnershipTable) (closed : Accesses)
      (built tables wired : List ThreadTable) (b w : ThreadTable) (start pass : TableCall),
      Plan.ofRoot remoteCalls 0 = .ok plan ∧ plan.accesses.settle = .ok (owners, closed) ∧
      buildTables remoteCalls owners 32 0 plan.threads = .ok built ∧ link built = .ok tables ∧
      tables.mapM (ThreadTable.wire remoteCalls plan tables) = .ok wired ∧
      built[0]? = some b ∧ wired[0]? = some w ∧
      b.Makes remoteCalls owners 32 0 start ∧ b.Makes remoteCalls owners 32 0 pass ∧
      start.outputs ≠ [] ∧ start.callee.isCompiled remoteCalls = true ∧
      CallsTask remoteCalls plan wired w start ∧ PassesData plan wired w pass := by
  have hnamed : remoteCalls.SelfNamed := by decide +kernel
  have h : (Plan.ofRoot remoteCalls 0).toOption.any (fun plan =>
      plan.accesses.settle.toOption.any fun x =>
        (buildTables remoteCalls x.1 32 0 plan.threads).toOption.any fun built =>
          (link built).toOption.any fun tables =>
            (tables.mapM (ThreadTable.wire remoteCalls plan tables)).toOption.any fun wired =>
              (built[0]?).any fun b => (wired[0]?).any fun _ =>
                (b.taskCalls.head?).any fun start => (b.flowCalls.head?).any fun _ =>
                  decide (start.outputs ≠ [] ∧ start.callee.outside = true ∧
                    start.callee.isCompiled remoteCalls = true)) = true := by
    decide +kernel
  obtain ⟨plan, hplan, h⟩ := exists_ok_of_any h
  obtain ⟨⟨owners, closed⟩, hsettle, h⟩ := exists_ok_of_any h
  obtain ⟨built, hbuilt, h⟩ := exists_ok_of_any h
  obtain ⟨tables, hlink, h⟩ := exists_ok_of_any h
  obtain ⟨wired, hwired, h⟩ := exists_ok_of_any h
  obtain ⟨b, hb, h⟩ := (Option.any_eq_true _ _).mp h
  obtain ⟨w, hw, h⟩ := (Option.any_eq_true _ _).mp h
  obtain ⟨start, hstart, h⟩ := (Option.any_eq_true _ _).mp h
  obtain ⟨pass, hpass, h⟩ := (Option.any_eq_true _ _).mp h
  obtain ⟨hbinds, houtside, hcompiled⟩ := of_decide_eq_true h
  obtain ⟨ps, -, hlinked⟩ := linked_of_ok hplan hsettle hbuilt hlink
  obtain ⟨hstarts, -, hstartFlow⟩ := ThreadTable.makes_of_mem
    (hlinked.pool hb).toSound (hlinked.thread hb).2 false (List.mem_of_mem_head? hstart)
  obtain ⟨hpasses, -, hpassFlow⟩ := ThreadTable.makes_of_mem
    (hlinked.pool hb).toSound (hlinked.thread hb).2 true (List.mem_of_mem_head? hpass)
  have hdelivered := (calls_delivered hnamed hplan hsettle hbuilt hlink).2 wired hwired 0 b w
  exact ⟨hnamed, plan, owners, closed, built, tables, wired, b, w, start, pass, hplan, hsettle,
    hbuilt, hlink, hwired, hb, hw, hstarts, hpasses, hbinds, hcompiled,
    (hdelivered start hb hw hstarts).1 hstartFlow houtside,
    (hdelivered pass hb hw hpasses).2 hpassFlow⟩

/-- A machine whose main method calls an imported method of another object and binds its result. -/
def importedCallee : Machine :=
  let this := RegisterId.unused
  ⟨[⟨"top", .plain, 0, 0, false, false, [],
      [⟨"sub", .object 1⟩,
        ⟨"main", .method ⟨"main", [], [], [⟨"v", .num, 8, false, 0⟩, ⟨"o", .object, 0, false, 0⟩],
          [.loadObject 1 this "sub", .call 1 "f" [], .callDone [0]], "", "", "", .none⟩⟩]⟩,
    ⟨"sub", .plain, 0, 0, false, false, [],
      [⟨"f", .method ⟨"f", [], [⟨"", .int, 8⟩], [⟨"$ret0", .num, 8, false, 0⟩], [], "", "", "ext",
        .none⟩⟩]⟩]⟩

/-- The task of the imported method is called without an entrance, and no state waits for it, so
that the result is lost. -/
theorem importedCallee_undelivered : ∃ (plan : Plan) (owners : OwnershipTable) (closed : Accesses)
    (built tables wired : List ThreadTable) (b w : ThreadTable) (call : TableCall)
    (s next : Rtl.State) (start : Rtl.Insn) (r : Rtl.Resource),
    Plan.ofRoot importedCallee 0 = .ok plan ∧ plan.accesses.settle = .ok (owners, closed) ∧
    buildTables importedCallee owners 32 0 plan.threads = .ok built ∧ link built = .ok tables ∧
    tables.mapM (ThreadTable.wire importedCallee plan tables) = .ok wired ∧
    built[0]? = some b ∧ wired[0]? = some w ∧ b.Makes importedCallee owners 32 0 call ∧
    call.outputs ≠ [] ∧ w.states[call.state]? = some s ∧ w.states[call.state + 1]? = some next ∧
    Rtl.insnsOfKind w.resources Rtl.taskCallKind s.insns = [start] ∧
    w.resources[start.resource]? = some r ∧ r.parent = none ∧
    Rtl.insnsOfKind w.resources Rtl.taskReturnValueKind next.insns = [] := by
  have h : (Plan.ofRoot importedCallee 0).toOption.any (fun plan =>
      plan.accesses.settle.toOption.any fun x =>
        (buildTables importedCallee x.1 32 0 plan.threads).toOption.any fun built =>
          (link built).toOption.any fun tables =>
            (tables.mapM (ThreadTable.wire importedCallee plan tables)).toOption.any fun wired =>
              (built[0]?).any fun b => (wired[0]?).any fun w =>
                (b.taskCalls.head?).any fun call => (w.states[call.state]?).any fun s =>
                  (w.states[call.state + 1]?).any fun next =>
                    ((Rtl.insnsOfKind w.resources Rtl.taskCallKind s.insns).head?).any fun start =>
                      (w.resources[start.resource]?).any fun r =>
                        decide (call.outputs ≠ [] ∧
                          Rtl.insnsOfKind w.resources Rtl.taskCallKind s.insns = [start] ∧
                          r.parent = none ∧
                          Rtl.insnsOfKind w.resources Rtl.taskReturnValueKind next.insns = [])) =
      true := by
    decide +kernel
  obtain ⟨plan, hplan, h⟩ := exists_ok_of_any h
  obtain ⟨⟨owners, closed⟩, hsettle, h⟩ := exists_ok_of_any h
  obtain ⟨built, hbuilt, h⟩ := exists_ok_of_any h
  obtain ⟨tables, hlink, h⟩ := exists_ok_of_any h
  obtain ⟨wired, hwired, h⟩ := exists_ok_of_any h
  simp only [Option.any_eq_true, decide_eq_true_eq] at h
  obtain ⟨b, hb, w, hw, call, hcall, s, hs, next, hnext, start, -, r, hr, hbinds, hstart, hparent,
    hwait⟩ := h
  obtain ⟨ps, -, hlinked⟩ := linked_of_ok hplan hsettle hbuilt hlink
  obtain ⟨hmakes, -⟩ := ThreadTable.makes_of_mem (hlinked.pool hb).toSound
    (hlinked.thread hb).2 false (List.mem_of_mem_head? hcall)
  exact ⟨plan, owners, closed, built, tables, wired, b, w, call, s, next, start, r, hplan, hsettle,
    hbuilt, hlink, hwired, hb, hw, hmakes, hbinds, hs, hnext, hstart, hr, hparent, hwait⟩

end Synthesis
end Synth
end MachineSynth
