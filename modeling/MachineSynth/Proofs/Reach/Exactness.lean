import Mathlib
import MachineSynth.Proofs.Reach.Guarding
import MachineSynth.Proofs.Reach.Loops

/-! Exactness: planning comes to an end, and finds the methods that each thread reaches, the tasks
and the data-flow threads that they call, and nothing else. -/
namespace MachineSynth
namespace Synth

namespace Plan

variable {m : Machine} {p : Plan}

theorem Settled.mem_methods_iff (hp : p.Settled m p.threads.length) {k : Nat} {t : ThreadPlan}
    (ht : p.threads[k]? = some t) (name : String) :
    name ∈ t.methods ↔ Reaches m t.object t.entry name := by
  constructor
  · exact hp.reached ht name
  · intro h
    induction h with
    | refl => exact (hp.ready ht).entry
    | tail _ hcall ih => exact (hp.ready ht).own _ ih _ hcall

def RunsTask (p : Plan) (object : Nat) (method : String) (k : Nat) : Prop :=
  ∃ t, p.threads[k]? = some t ∧ t.object = object ∧ t.isTask = true ∧ t.entry = method

theorem Proper.unique_task (hp : p.Proper m) {id : Nat} {method : String}
    (h : (p.task? id method).isSome = true) : ∃! k, p.RunsTask id method k := by
  obtain ⟨t, ht, hobject, htask, hentry⟩ := task?_isSome.mp h
  obtain ⟨k, hk⟩ := List.mem_iff_getElem?.mp ht
  refine ⟨k, ⟨t, hk, hobject, htask, hentry⟩, fun j hj => ?_⟩
  obtain ⟨t', hj, hobject', htask', hentry'⟩ := hj
  have hsame := hobject'.trans hobject.symm
  have hmethod := hentry'.trans hentry.symm
  obtain ⟨hkl, rfl⟩ := List.getElem?_eq_some_iff.mp hk
  obtain ⟨hjl, rfl⟩ := List.getElem?_eq_some_iff.mp hj
  have hpairs := List.pairwise_iff_getElem.mp hp.tasks
  rcases Nat.lt_trichotomy j k with hlt | heq | hlt
  · exact absurd hmethod (hpairs j k hjl hkl hlt htask' htask hsame)
  · exact heq
  · exact absurd hmethod.symm (hpairs k j hkl hjl hlt htask htask' hsame.symm)

end Plan

/-- Whether something is missing that planning provides: a method, a task or a data-flow thread. -/
def Stop.IsGap : Stop → Prop
  | .fault (.notSynthesized _ _) | .fault (.noTask _ _) | .fault (.noFlowThread _ _) => True
  | _ => False

theorem Stop.IsOfPlanning.not_isGap {e : Stop} (h : e.IsOfPlanning) : ¬ e.IsGap := by
  intro hgap
  unfold Stop.IsGap at hgap
  split at hgap
  · exact h
  · exact h
  · exact h
  · exact hgap

theorem Stop.IsOfSynthesis.not_isGap {flows : Prop} {e : Stop} (h : e.IsOfSynthesis flows)
    (hflows : flows) : ¬ e.IsGap := by
  intro hgap
  cases h with
  | @build e thread entry h =>
    cases e with
    | error e => exact hgap
    | fault f => cases f <;> simp_all [Stop.IsOfLowering, Stop.IsOfExpansion, Stop.mapError,
        Stop.IsGap]
  | wire h => cases ‹Fault› <;> simp_all [ThreadTable.IsOfWiring, Stop.IsGap]
  | _ => exact hgap

namespace Synthesis

variable {m : Machine} {root : Nat}

theorem synthesize_finds (hnamed : m.SelfNamed) {depth : Nat} {e : Stop}
    (h : synthesize m root depth = .error e) : ¬ e.IsGap := by
  cases hplan : Plan.ofRoot m root with
  | ok plan => exact (synthesize_stops hplan h).not_isGap hnamed
  | error e' =>
    have hsame : synthesize m root depth = .error e' := by
      rw [synthesize, ofRoot, hplan]
      rfl
    cases hsame.symm.trans h
    exact (Plan.ofRoot_stops root e hplan).not_isGap

/-- Planning ends, also without its bounds. Every thread runs the methods that its entry reaches,
each once, and what they call of other objects has its task or its thread, so that synthesis does
not miss any of them. -/
theorem planning_exact (hnamed : m.SelfNamed) :
    (∀ r, Plan.Plans m root r ↔ r = Plan.ofRoot m root) ∧
    (∀ plan, Plan.ofRoot m root = .ok plan → ∀ {k : Nat} {t : ThreadPlan},
      plan.threads[k]? = some t → t.methods.Nodup ∧
      (∀ name, name ∈ t.methods ↔ Reaches m t.object t.entry name) ∧
      ∀ name ∈ t.methods,
        (∀ object method, Demands m t.object name (.task object method) →
          ∃! j, plan.RunsTask object method j) ∧
        ∀ object method, Demands m t.object name (.flow object method) →
          (plan.thread? object method).isSome = true) ∧
    ∀ depth e, synthesize m root depth = .error e → ¬ e.IsGap := by
  refine ⟨fun r => ⟨fun h => h.unique (Plan.plans_ofRoot m root), ?_⟩, fun plan h {k t} ht => ?_,
    fun _ _ => synthesize_finds hnamed⟩
  · rintro rfl
    exact Plan.plans_ofRoot m root
  · have hsettled := Plan.ofRoot_settled h
    refine ⟨(hsettled.sound.threads t (List.mem_of_getElem? ht)).nodup,
      hsettled.mem_methods_iff ht, fun name hname => ⟨fun object method hd => ?_,
        fun object method hd => hsettled.flows hnamed ht hname hd⟩⟩
    exact hsettled.proper.unique_task (hsettled.met ht name hname _ hd).2

/-- A machine of two objects that hold each other. The main method starts a task and a data-flow
thread of the other, and two methods that call each other; a third is never called. -/
def mutualCalls : Machine :=
  let this := RegisterId.unused
  let method (name : String) (code : List Insn) (marks : Marks) : Slot :=
    ⟨name, .method ⟨name, [], [], [⟨"o", .object, 0, false, 0⟩], code, "", "", "", marks⟩⟩
  ⟨[⟨"top", .plain, 0, 0, false, false, [],
      [⟨"sub", .object 1⟩,
        method "main" [.loadObject 0 this "sub", .call 0 "run" [], .call 0 "feed" [],
          .call this "ping" []] .none,
        method "ping" [.call this "pong" []] .none, method "pong" [.call this "ping" []] .none,
        method "idle" [] .none]⟩,
    ⟨"sub", .plain, 0, 0, false, false, [],
      [⟨"up", .object 0⟩, method "run" [] .none,
        method "feed" [] { Marks.none with dataFlowEntry := true }]⟩]⟩

theorem mutualCalls_exact : mutualCalls.SelfNamed ∧ ∃ plan t, Plan.ofRoot mutualCalls 0 = .ok plan ∧
    plan.threads[0]? = some t ∧ t.object = 0 ∧ t.entry = "main" ∧
    Reaches mutualCalls 0 "main" "pong" ∧ ¬ Reaches mutualCalls 0 "main" "idle" ∧
    (∃! j, plan.RunsTask 1 "run" j) ∧ (plan.thread? 1 "feed").isSome = true ∧
    ∃ e, synthesize mutualCalls 0 0 = .error e ∧ ¬ e.IsGap := by
  have hnamed : mutualCalls.SelfNamed := by decide +kernel
  have h : (Plan.ofRoot mutualCalls 0).toOption.any (fun plan => (plan.threads[0]?).any fun t =>
      decide (t.object = 0 ∧ t.entry = "main" ∧ t.methods = ["main", "ping", "pong"])) = true := by
    decide +kernel
  have herror : stopsWith (fun _ => true) (synthesize mutualCalls 0 0) = true := by decide +kernel
  obtain ⟨plan, hplan, h⟩ := exists_ok_of_any h
  obtain ⟨t, ht, h⟩ := (Option.any_eq_true _ _).mp h
  obtain ⟨hobject, hentry, hmethods⟩ := of_decide_eq_true h
  obtain ⟨e, he, -⟩ := exists_of_stopsWith herror
  obtain ⟨-, hexact, hfinds⟩ := @planning_exact mutualCalls 0 hnamed
  obtain ⟨-, hreaches, hcalls⟩ := hexact plan hplan ht
  rw [hobject, hentry, hmethods] at hreaches
  rw [hobject, hmethods] at hcalls
  obtain ⟨htask, hflow⟩ := hcalls "main" (by simp)
  refine ⟨hnamed, plan, t, hplan, ht, hobject, hentry, (hreaches "pong").mp (by simp),
    fun hidle => ?_, htask 1 "run" ⟨_, rfl, rfl, 1, _, _, rfl, rfl, by decide +kernel⟩,
    hflow 1 "feed" ⟨_, rfl, rfl, 2, _, _, rfl, rfl, by decide +kernel⟩, _, he, hfinds 0 _ he⟩
  simpa using (hreaches "idle").mpr hidle

end Synthesis
end Synth
end MachineSynth
