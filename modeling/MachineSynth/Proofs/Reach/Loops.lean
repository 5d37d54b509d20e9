import Mathlib
import MachineSynth.Proofs.Reach.Demands
import MachineSynth.Proofs.Tables.Assembly

/-! Loops: planning without bounds. Requests for objects are nested as deep as they go, and methods
and threads are scanned as long as there are more. The bounds of the plan are never felt. -/
namespace MachineSynth
namespace Synth
namespace Plan

def busyMembers (members : List (Nat × Object)) : List Nat :=
  (members.filter fun x => x.2.kind = .plain && hasThreads x.2).map (·.1)

/-- Requests for objects, one after the other, each with the module that it comes from. Those of an
object's members are next in turn. -/
inductive Requests (m : Machine) :
    List (Option Nat × Nat) → Plan → Except Fault Plan → Prop
  | done (p : Plan) : Requests m [] p (.ok p)
  | known {caller : Option Nat} {id : Nat} {rest : List (Option Nat × Nat)} {p : Plan}
      {r : Except Fault Plan} (old : (p.module? id).isSome = true) (next : Requests m rest p r) :
      Requests m ((caller, id) :: rest) p r
  | absent {caller : Option Nat} {id : Nat} {rest : List (Option Nat × Nat)} {p : Plan} {f : Fault}
      (new : p.module? id = none) (object : m.object id = .error f) :
      Requests m ((caller, id) :: rest) p (.error f)
  | broken {caller : Option Nat} {id : Nat} {rest : List (Option Nat × Nat)} {p : Plan} {o : Object}
      {f : Fault} (new : p.module? id = none) (object : m.object id = .ok o)
      (members : m.memberObjects id = .error f) : Requests m ((caller, id) :: rest) p (.error f)
  | opens {caller : Option Nat} {id : Nat} {rest : List (Option Nat × Nat)} {p : Plan} {o : Object}
      {xs : List (Nat × Object)} {r : Except Fault Plan} (new : p.module? id = none)
      (object : m.object id = .ok o) (members : m.memberObjects id = .ok xs)
      (next : Requests m ((busyMembers xs).map (some p.modules.length, ·) ++ rest)
        (p.opened id caller o) r) : Requests m ((caller, id) :: rest) p r

theorem Requests.unique {m : Machine} {todo : List (Option Nat × Nat)} {p : Plan}
    {r r' : Except Fault Plan} (h : Requests m todo p r) (h' : Requests m todo p r') : r = r' := by
  induction h generalizing r' with
  | done p =>
    cases h'
    rfl
  | known old next ih =>
    cases h' with
    | known old' next' => exact ih next'
    | absent new | broken new | opens new =>
      rw [new] at old
      cases old
  | absent new object =>
    cases h' with
    | known old =>
      rw [new] at old
      cases old
    | absent new' object' => exact congrArg _ (Except.error.inj (object.symm.trans object'))
    | broken new' object' | opens new' object' => cases object.symm.trans object'
  | broken new object members =>
    cases h' with
    | known old =>
      rw [new] at old
      cases old
    | absent new' object' => cases object.symm.trans object'
    | broken new' object' members' => exact congrArg _ (Except.error.inj (members.symm.trans members'))
    | opens new' object' members' => cases members.symm.trans members'
  | opens new object members next ih =>
    cases h' with
    | known old =>
      rw [new] at old
      cases old
    | absent new' object' => cases object.symm.trans object'
    | broken new' object' members' => cases members.symm.trans members'
    | opens new' object' members' next' =>
      cases object.symm.trans object'
      cases members.symm.trans members'
      exact ih next'

section Requests

variable {m : Machine} {p q : Plan}

theorem Proper.all_open (hp : p.Proper m) (hlen : m.objects.length ≤ p.modules.length) {id : Nat}
    (hid : id < m.objects.length) : (p.module? id).isSome = true := by
  have hsub : p.modules.map (·.object) ⊆ List.range m.objects.length := by
    intro k hk
    obtain ⟨mod, hmod, rfl⟩ := List.mem_map.mp hk
    exact List.mem_range.mpr (hp.known mod hmod)
  have hperm := (List.subperm_of_subset hp.objects hsub).perm_of_length_le (by simpa using hlen)
  obtain ⟨mod, hmod, hobject⟩ := List.mem_map.mp (hperm.mem_iff.mpr (List.mem_range.mpr hid))
  by_contra hnone
  exact module?_eq_none.mp (by simpa using hnone) mod hmod hobject

theorem memberObjects_spec {id : Nat} {xs : List (Nat × Object)} (h : m.memberObjects id = .ok xs) :
    (∀ k ∈ m.members id, ∃ o, (k, o) ∈ xs) ∧
      ∀ x ∈ xs, x.1 ∈ m.members id ∧ m.object? x.1 = some x.2 := by
  obtain ⟨hlen, hat⟩ := mapM_eq_ok h
  have hget : ∀ {i k : Nat}, (m.members id)[i]? = some k →
      ∃ o, xs[i]? = some (k, o) ∧ m.object? k = some o := by
    intro i k hk
    obtain ⟨x, hx, hobject⟩ := hat i k hk
    rw [except_bind_eq_ok] at hobject
    obtain ⟨o, ho, hx'⟩ := hobject
    cases hx'
    exact ⟨o, hx, Machine.object?_of_object ho⟩
  refine ⟨fun k hk => ?_, fun x hx => ?_⟩
  · obtain ⟨i, hi⟩ := List.mem_iff_getElem?.mp hk
    obtain ⟨o, ho, -⟩ := hget hi
    exact ⟨o, List.mem_of_getElem? ho⟩
  · obtain ⟨i, hi⟩ := List.mem_iff_getElem?.mp hx
    have hlt := (List.getElem?_eq_some_iff.mp hi).1
    have hk := List.getElem?_eq_getElem (hlen ▸ hlt)
    obtain ⟨o, ho, hobject⟩ := hget hk
    cases hi.symm.trans ho
    exact ⟨List.mem_of_getElem? hk, hobject⟩

/-- What is left to do after a request, from how it ended. -/
def Resumes (m : Machine) (rest : List (Option Nat × Nat)) (r : Except Fault Plan) :
    Except Fault Plan → Prop
  | .ok q => Requests m rest q r
  | .error f => r = .error f

theorem requests_of_members {depth module : Nat} {xs : List (Nat × Object)}
    {rest : List (Option Nat × Nat)} {r : Except Fault Plan}
    (hrequest : ∀ {p : Plan} {id : Nat} {rest : List (Option Nat × Nat)}, p.Proper m →
      m.objects.length ≤ depth + p.modules.length → id < m.objects.length →
      Resumes m rest r (p.requestObject m depth (some module) id) →
      Requests m ((some module, id) :: rest) p r)
    (hp : p.Proper m) (hdepth : m.objects.length ≤ depth + p.modules.length)
    (hxs : ∀ x ∈ xs, x.1 < m.objects.length)
    (h : Resumes m rest r (xs.foldlM (requestMember m depth module) p)) :
    Requests m ((busyMembers xs).map (some module, ·) ++ rest) p r := by
  induction xs generalizing p with
  | nil => exact h
  | cons x xs ih =>
    have hxs' : ∀ y ∈ xs, y.1 < m.objects.length := fun y hy => hxs y (List.mem_cons_of_mem x hy)
    rw [List.foldlM_cons] at h
    by_cases hbusy : (x.2.kind = .plain && hasThreads x.2) = true
    · have hstep : requestMember m depth module p x = p.requestObject m depth (some module) x.1 :=
        if_pos hbusy
      rw [hstep] at h
      have hcons : busyMembers (x :: xs) = x.1 :: busyMembers xs := by
        rw [busyMembers, List.filter_cons, if_pos hbusy]
        rfl
      rw [hcons]
      refine hrequest hp hdepth (hxs x List.mem_cons_self) ?_
      cases hone : p.requestObject m depth (some module) x.1 with
      | error f =>
        rw [hone] at h
        exact h
      | ok q =>
        rw [hone] at h
        have hmoves : Moves m (fun _ _ => False) p q := requestObject_moves hone
        have hle := hmoves.continues.modules.length_le
        exact ih (hmoves.proper hp) (by omega) hxs' h
    · have hstep : requestMember m depth module p x = .ok p := if_neg hbusy
      rw [hstep] at h
      have hskip : busyMembers (x :: xs) = busyMembers xs := by
        rw [busyMembers, List.filter_cons, if_neg hbusy]
        rfl
      rw [hskip]
      exact ih hp hdepth hxs' h

/-- A bounded request does as an unbounded one does, if the bound is at least the number of objects
without a module. -/
theorem requests_of_requestObject {depth id : Nat} {caller : Option Nat}
    {rest : List (Option Nat × Nat)} {r : Except Fault Plan} (hp : p.Proper m)
    (hdepth : m.objects.length ≤ depth + p.modules.length) (hid : id < m.objects.length)
    (h : Resumes m rest r (p.requestObject m depth caller id)) :
    Requests m ((caller, id) :: rest) p r := by
  induction depth generalizing p caller id rest with
  | zero => exact .known (hp.all_open (by omega) hid) h
  | succ depth ih =>
    unfold requestObject at h
    by_cases hold : (p.module? id).isSome = true
    · rw [if_pos hold] at h
      exact .known hold h
    · rw [if_neg hold] at h
      have hnew : p.module? id = none := by simpa using hold
      obtain ⟨o, ho⟩ : ∃ o, m.object id = .ok o :=
        ⟨m.objects[id], by rw [Machine.object, Machine.object?, List.getElem?_eq_getElem hid]⟩
      rw [ho] at h
      cases hmembers : m.memberObjects id with
      | error f =>
        rw [hmembers] at h
        cases h
        exact .broken hnew ho hmembers
      | ok xs =>
        rw [hmembers] at h
        have hopen : Moves m (fun _ _ => False) p (p.opened id caller o) :=
          .single (.opens caller hnew (Machine.object?_of_object ho))
        have hlen : (p.opened id caller o).modules.length = p.modules.length + 1 := by
          rw [modules_opened]
          simp
        refine .opens hnew ho hmembers
          (requests_of_members ih (hopen.proper hp) (by omega) (fun x hx => ?_) h)
        exact (List.getElem?_eq_some_iff.mp ((memberObjects_spec hmembers).2 x hx).2).1

theorem requests_of_callObject {module id : Nat} (hp : p.Proper m) (hid : id < m.objects.length) :
    Requests m [(some module, id)] p (p.callObject m module id) := by
  refine requests_of_requestObject hp (Nat.le_add_right _ _) hid ?_
  rw [callObject]
  cases p.requestObject m m.objects.length (some module) id with
  | error f => rfl
  | ok q => exact .done q

end Requests

end Plan

namespace ScanSite

def requested? (s : ScanSite) (w : Walker) (i : Insn) : Option Nat :=
  (w.demand? s.machine i).bind (·.object?)

/-- The scan of code, in which requests are not bounded. -/
inductive Runs (s : ScanSite) :
    List Insn → Walker × Plan → Except Stop (Walker × Plan) → Prop
  | done (c : Walker × Plan) : Runs s [] c (.ok c)
  | stop {i : Insn} {rest : List Insn} {c : Walker × Plan} {e : Stop}
      (request : ∀ id ∈ s.requested? c.1 i, Plan.Requests s.machine [(some s.module, id)] c.2
        (c.2.callObject s.machine s.module id))
      (insn : s.insn c i = .error e) : Runs s (i :: rest) c (.error e)
  | next {i : Insn} {rest : List Insn} {c c' : Walker × Plan} {r : Except Stop (Walker × Plan)}
      (request : ∀ id ∈ s.requested? c.1 i, Plan.Requests s.machine [(some s.module, id)] c.2
        (c.2.callObject s.machine s.module id))
      (insn : s.insn c i = .ok c') (next : Runs s rest c' r) : Runs s (i :: rest) c r

def Ends (s : ScanSite) (p : Plan) : Prop :=
  ∀ f, Walker.calledMethod? s.machine (some s.object) s.method = some f → f.isNative = false →
    s.Runs f.code (Walker.start s.object, p) (f.code.foldlM s.insn (Walker.start s.object, p))

theorem lt_of_requested? {s : ScanSite} {w : Walker} {i : Insn} {id : Nat}
    (h : s.requested? w i = some id) : id < s.machine.objects.length := by
  obtain ⟨d, hd, hobject⟩ := Option.bind_eq_some_iff.mp h
  obtain ⟨_, _, _, callee, f, -, -, hf, ⟨-, rfl⟩ | ⟨-, -, rfl⟩ | ⟨-, -, rfl⟩⟩ :=
    Walker.demand?_eq_some hd <;> cases hobject <;> exact lt_of_calledMethod? hf

variable {s : ScanSite} {p : Plan}

/-- Code is scanned as if requests were not bounded. -/
theorem runs_of_foldlM {code : List Insn} {w : Walker} (hp : p.Proper s.machine)
    (hthread : ∃ t, p.threads[s.thread]? = some t) :
    s.Runs code (w, p) (code.foldlM s.insn (w, p)) := by
  induction code generalizing w p with
  | nil => exact .done (w, p)
  | cons i rest ih =>
    have hrequest : ∀ id ∈ s.requested? w i, Plan.Requests s.machine [(some s.module, id)] p
        (p.callObject s.machine s.module id) :=
      fun id hid => Plan.requests_of_callObject hp (lt_of_requested? hid)
    rw [List.foldlM_cons]
    cases hinsn : s.insn (w, p) i with
    | error e => exact .stop hrequest hinsn
    | ok c =>
      obtain ⟨w₁, p₁⟩ := c
      obtain ⟨hmoves, -⟩ := insn_moves hthread hinsn
      obtain ⟨t, ht⟩ := hthread
      obtain ⟨t₁, ht₁, -⟩ := hmoves.continues.thread ht
      exact .next hrequest hinsn (ih (hmoves.proper hp) ⟨t₁, ht₁⟩)

theorem ends (hp : p.Proper s.machine) (hthread : ∃ t, p.threads[s.thread]? = some t) : s.Ends p :=
  fun _ _ _ => runs_of_foldlM hp hthread

end ScanSite

namespace Plan

inductive ScansMethods (m : Machine) (t : ThreadId) : Nat → Plan → Except Stop Plan → Prop
  | done {i : Nat} {p : Plan} {th : ThreadPlan} (thread : p.threads[t]? = some th)
      (last : th.methods[i]? = none) : ScansMethods m t i p (.ok p)
  | stop {i : Nat} {p : Plan} {th : ThreadPlan} {name : String} {e : Stop}
      (thread : p.threads[t]? = some th) (method : th.methods[i]? = some name)
      (ends : ScanSite.Ends ⟨m, t, th.place.module, th.object, name⟩ p)
      (scan : ScanSite.scan ⟨m, t, th.place.module, th.object, name⟩ p = .error e) :
      ScansMethods m t i p (.error (e.mapError (.inScan th.name th.entry)))
  | next {i : Nat} {p q : Plan} {th : ThreadPlan} {name : String} {r : Except Stop Plan}
      (thread : p.threads[t]? = some th) (method : th.methods[i]? = some name)
      (ends : ScanSite.Ends ⟨m, t, th.place.module, th.object, name⟩ p)
      (scan : ScanSite.scan ⟨m, t, th.place.module, th.object, name⟩ p = .ok q)
      (next : ScansMethods m t (i + 1) q r) : ScansMethods m t i p r

inductive ScansThreads (m : Machine) : Nat → Plan → Except Stop Plan → Prop
  | done {t : Nat} {p : Plan} (last : p.threads[t]? = none) : ScansThreads m t p (.ok p)
  | stop {t : Nat} {p : Plan} {th : ThreadPlan} {e : Stop} (thread : p.threads[t]? = some th)
      (scan : ScansMethods m t 0 (p.requestMethod t th.entry) (.error e)) :
      ScansThreads m t p (.error e)
  | next {t : Nat} {p q : Plan} {th : ThreadPlan} {r : Except Stop Plan}
      (thread : p.threads[t]? = some th)
      (scan : ScansMethods m t 0 (p.requestMethod t th.entry) (.ok q))
      (next : ScansThreads m (t + 1) q r) : ScansThreads m t p r

/-- The plan for a top-level object, made without bounds. -/
inductive Plans (m : Machine) (root : Nat) : Except Stop Plan → Prop
  | absent {f : Fault} (object : m.object root = .error f) : Plans m root (.error (.fault f))
  | broken {top : Object} {f : Fault} (object : m.object root = .ok top)
      (request : Requests m [(none, root)] empty (.error f)) : Plans m root (.error (.fault f))
  | idle {top : Object} {p : Plan} (object : m.object root = .ok top)
      (request : Requests m [(none, root)] empty (.ok p))
      (threads : p.threads.any (·.place.module = 0) = false) :
      Plans m root (.error (.error (.noThread top.name)))
  | stop {top : Object} {p : Plan} {e : Stop} (object : m.object root = .ok top)
      (request : Requests m [(none, root)] empty (.ok p))
      (threads : p.threads.any (·.place.module = 0) = true) (scan : ScansThreads m 0 p (.error e)) :
      Plans m root (.error e)
  | done {top : Object} {p q : Plan} (object : m.object root = .ok top)
      (request : Requests m [(none, root)] empty (.ok p))
      (threads : p.threads.any (·.place.module = 0) = true) (scan : ScansThreads m 0 p (.ok q)) :
      Plans m root (((List.range q.modules.length).foldlM (addPorts m) q).mapError .fault)

section Unique

variable {m : Machine} {p : Plan} {r r' : Except Stop Plan}

theorem ScansMethods.unique {t : ThreadId} {i : Nat} (h : ScansMethods m t i p r)
    (h' : ScansMethods m t i p r') : r = r' := by
  induction h generalizing r' with
  | done thread last =>
    cases h' with
    | done => rfl
    | stop thread' method' | next thread' method' =>
      cases thread.symm.trans thread'
      cases last.symm.trans method'
  | stop thread method ends scan =>
    cases h' with
    | done thread' last' =>
      cases thread.symm.trans thread'
      cases method.symm.trans last'
    | stop thread' method' ends' scan' =>
      cases thread.symm.trans thread'
      cases method.symm.trans method'
      cases scan.symm.trans scan'
      rfl
    | next thread' method' ends' scan' =>
      cases thread.symm.trans thread'
      cases method.symm.trans method'
      cases scan.symm.trans scan'
  | next thread method ends scan next ih =>
    cases h' with
    | done thread' last' =>
      cases thread.symm.trans thread'
      cases method.symm.trans last'
    | stop thread' method' ends' scan' =>
      cases thread.symm.trans thread'
      cases method.symm.trans method'
      cases scan.symm.trans scan'
    | next thread' method' ends' scan' next' =>
      cases thread.symm.trans thread'
      cases method.symm.trans method'
      cases scan.symm.trans scan'
      exact ih next'

theorem ScansThreads.unique {t : Nat} (h : ScansThreads m t p r) (h' : ScansThreads m t p r') :
    r = r' := by
  induction h generalizing r' with
  | done last =>
    cases h' with
    | done => rfl
    | stop thread | next thread => cases last.symm.trans thread
  | stop thread scan =>
    cases h' with
    | done last => cases thread.symm.trans last
    | stop thread' scan' =>
      cases thread.symm.trans thread'
      cases scan.unique scan'
      rfl
    | next thread' scan' =>
      cases thread.symm.trans thread'
      cases scan.unique scan'
  | next thread scan next ih =>
    cases h' with
    | done last => cases thread.symm.trans last
    | stop thread' scan' =>
      cases thread.symm.trans thread'
      cases scan.unique scan'
    | next thread' scan' next' =>
      cases thread.symm.trans thread'
      cases scan.unique scan'
      exact ih next'

theorem Plans.unique {root : Nat} (h : Plans m root r) (h' : Plans m root r') : r = r' := by
  cases h with
  | absent object =>
    cases h' with
    | absent object' =>
      cases object.symm.trans object'
      rfl
    | broken object' | idle object' | stop object' | done object' =>
      cases object.symm.trans object'
  | broken object request =>
    cases h' with
    | absent object' => cases object.symm.trans object'
    | broken object' request' =>
      cases request.unique request'
      rfl
    | idle object' request' | stop object' request' | done object' request' =>
      cases request.unique request'
  | idle object request threads =>
    cases h' with
    | absent object' => cases object.symm.trans object'
    | broken object' request' => cases request.unique request'
    | idle object' request' threads' =>
      cases object.symm.trans object'
      rfl
    | stop object' request' threads' | done object' request' threads' =>
      cases request.unique request'
      cases threads.symm.trans threads'
  | stop object request threads scan =>
    cases h' with
    | absent object' => cases object.symm.trans object'
    | broken object' request' => cases request.unique request'
    | idle object' request' threads' =>
      cases request.unique request'
      cases threads.symm.trans threads'
    | stop object' request' threads' scan' =>
      cases request.unique request'
      cases scan.unique scan'
      rfl
    | done object' request' threads' scan' =>
      cases request.unique request'
      cases scan.unique scan'
  | done object request threads scan =>
    cases h' with
    | absent object' => cases object.symm.trans object'
    | broken object' request' => cases request.unique request'
    | idle object' request' threads' =>
      cases request.unique request'
      cases threads.symm.trans threads'
    | stop object' request' threads' scan' =>
      cases request.unique request'
      cases scan.unique scan'
    | done object' request' threads' scan' =>
      cases request.unique request'
      cases scan.unique scan'
      rfl

end Unique

section Loops

variable {m : Machine} {p q : Plan}

theorem scansMethods_of_scanMethods {t : ThreadId} {th : ThreadPlan} {count i : Nat}
    (hsound : p.Sound m) (hproper : p.Proper m) (hth : p.threads[t]? = some th)
    (hcount : ((m.object? th.object).map (·.slots.length)).getD 0 + 1 ≤ i + count) :
    ScansMethods m t i p (p.scanMethods m t count i) := by
  induction count generalizing i p th with
  | zero =>
    have hle := length_methods_le (hsound.threads th (List.mem_of_getElem? hth))
    exact .done hth (List.getElem?_eq_none (by omega))
  | succ count ih =>
    unfold scanMethods
    rw [hth]
    simp only
    split
    · rename_i hnone
      exact .done hth hnone
    · rename_i name hname
      have hends : ScanSite.Ends ⟨m, t, th.place.module, th.object, name⟩ p :=
        ScanSite.ends hproper ⟨th, hth⟩
      cases hscan : ScanSite.scan ⟨m, t, th.place.module, th.object, name⟩ p with
      | error e => exact .stop hth hname hends hscan
      | ok p₁ =>
        obtain ⟨hmoves, -⟩ := ScanSite.scan_moves ⟨th, hth, rfl⟩ hscan
        obtain ⟨hgrows, -⟩ := ScanSite.scan_spec ⟨th, hth, rfl⟩ hscan
        obtain ⟨th₁, hth₁, hbare, -⟩ := hmoves.continues.thread hth
        refine .next hth hname hends hscan
          (ih (hgrows.sound hsound) (hmoves.proper hproper) hth₁ ?_)
        rw [(ThreadPlan.eq_of_bare hbare).1]
        omega

theorem scansMethods_of_scanThread {t : ThreadId} {th : ThreadPlan} (hsound : p.Sound m)
    (hproper : p.Proper m) (hth : p.threads[t]? = some th) :
    ScansMethods m t 0 (p.requestMethod t th.entry) (p.scanThread m t) := by
  unfold scanThread
  rw [hth]
  have hgrows : p.Grows m (some t) (p.requestMethod t th.entry) :=
    .requestMethod fun th' hth' => .inl (Option.some.inj (hth.symm.trans hth') ▸ rfl)
  have hmove : Move m (fun _ _ => True) p (p.requestMethod t th.entry) := .method p trivial
  obtain ⟨th₁, hth₁, hbare, -⟩ := hmove.continues.thread hth
  refine scansMethods_of_scanMethods (hgrows.sound hsound) (hmove.proper hproper) hth₁ ?_
  rw [(ThreadPlan.eq_of_bare hbare).1]
  simp

theorem scansThreads_of_scanThreads {count t : Nat} (hp : p.Settled m t)
    (hcount : threadBound m ≤ t + count) : ScansThreads m t p (p.scanThreads m count t) := by
  induction count generalizing t p with
  | zero =>
    have hle := hp.proper.length_threads_le
    exact .done (List.getElem?_eq_none (by omega))
  | succ count ih =>
    unfold scanThreads
    split
    · rename_i hlt
      have hth : p.threads[t]? = some p.threads[t] := List.getElem?_eq_getElem hlt
      have hmethods := scansMethods_of_scanThread hp.sound hp.proper hth
      cases hscan : p.scanThread m t with
      | error e =>
        rw [hscan] at hmethods
        exact .stop hth hmethods
      | ok p₁ =>
        rw [hscan] at hmethods
        exact .next hth hmethods (ih (scanThread_settled hp hlt hscan) (by omega))
    · rename_i hge
      exact .done (List.getElem?_eq_none (Nat.le_of_not_lt hge))

/-- Planning comes to an end without its bounds, and as it does with them. -/
theorem plans_ofRoot (m : Machine) (root : Nat) : Plans m root (ofRoot m root) := by
  unfold ofRoot
  cases hobject : m.object root with
  | error f => exact .absent hobject
  | ok top =>
    have hlt := (List.getElem?_eq_some_iff.mp (Machine.object?_of_object hobject)).1
    have hrequest : Requests m [(none, root)] empty
        (empty.requestObject m m.objects.length none root) := by
      refine requests_of_requestObject (proper_empty m) (Nat.le_add_right _ _) hlt ?_
      cases empty.requestObject m m.objects.length none root with
      | error f => rfl
      | ok q => exact .done q
    cases hp : empty.requestObject m m.objects.length none root with
    | error f =>
      rw [hp] at hrequest
      exact .broken hobject hrequest
    | ok p =>
      rw [hp] at hrequest
      have hsettled := requested_settled hp
      simp only [Except.mapError, Bind.bind, Except.bind]
      split
      · rename_i hthreads
        have hscans : ScansThreads m 0 p (p.scanThreads m (threadBound m) 0) :=
          scansThreads_of_scanThreads hsettled (by omega)
        cases hscan : p.scanThreads m (threadBound m) 0 with
        | error e =>
          rw [hscan] at hscans
          exact .stop hobject hrequest hthreads hscans
        | ok q =>
          rw [hscan] at hscans
          exact .done hobject hrequest hthreads hscans
      · rename_i hthreads
        exact .idle hobject hrequest (by simpa using hthreads)

end Loops

end Plan
end Synth
end MachineSynth
