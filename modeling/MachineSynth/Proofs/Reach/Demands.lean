import Mathlib
import MachineSynth.Proofs.Builder
import MachineSynth.Proofs.Reach.Moves

/-! Demands: what the calls of a method need of a plan. The scan of a thread meets the demands of
all that the thread can reach, and asks for nothing else. -/
namespace MachineSynth
namespace Synth

namespace Walker

theorem demand?_eq_some {m : Machine} {w : Walker} {i : Insn} {d : Demand}
    (h : w.demand? m i = some d) :
    ∃ object label args callee f, i = .call object label args ∧ w.objectOf? object = some callee ∧
      calledMethod? m (some callee) label = some f ∧
      (f.marks.dataFlowEntry = true ∧ d = .flow callee label ∨
        f.marks.dataFlowEntry = false ∧ callee ≠ w.object ∧ d = .task callee label ∨
        f.marks.dataFlowEntry = false ∧ callee = w.object ∧ d = .own label) := by
  unfold demand? at h
  split at h
  · rename_i object label args
    split at h
    · cases h
    · rename_i callee hcallee
      split at h
      · cases h
      · rename_i f hf
        refine ⟨object, label, args, callee, f, rfl, hcallee, hf, ?_⟩
        split at h
        · cases h
        · split at h
          · rename_i hflow
            cases h
            exact .inl ⟨hflow, rfl⟩
          · rename_i hflow
            have hflow : f.marks.dataFlowEntry = false := by simpa using hflow
            split at h <;> rename_i houtside <;> cases h
            · exact .inr (.inl ⟨hflow, by simpa [isOutsideCall, hcallee] using houtside, rfl⟩)
            · exact .inr (.inr ⟨hflow, by simpa [isOutsideCall, hcallee] using houtside, rfl⟩)
  · cases h

/-- Whether a sequence of instructions needs something, in its turn. -/
def Demands (m : Machine) (w : Walker) (code : List Insn) (d : Demand) : Prop :=
  w.Along m code fun v i => v.demand? m i = some d

end Walker

/-- Whether a method of an object needs something. A native method has no code to be scanned. -/
def Demands (m : Machine) (object : Nat) (name : String) (d : Demand) : Prop :=
  ∃ f, Walker.calledMethod? m (some object) name = some f ∧ f.isNative = false ∧
    (Walker.start object).Demands m f.code d

def Reaches (m : Machine) (object : Nat) : String → String → Prop :=
  Relation.ReflTransGen fun name label => Demands m object name (.own label)

namespace Plan

/-- Whether a plan has what is needed by a call that a thread runs. -/
def Meets (p : Plan) (t : ThreadId) : Demand → Prop
  | .flow object _ => (p.module? object).isSome = true
  | .task object method => (p.module? object).isSome = true ∧ (p.task? object method).isSome = true
  | .own method => ∃ th, p.threads[t]? = some th ∧ method ∈ th.methods

section Meeting

variable {m : Machine} {asked : ThreadId → String → Prop} {p q : Plan} {id : Nat}

theorem Continues.module? (h : Continues asked p q) {k : Nat} (hk : p.module? id = some k) :
    q.module? id = some k := by
  obtain ⟨mods, hmods⟩ := h.modules
  exact module?_append hk hmods.symm

theorem Continues.module?_isSome (h : Continues asked p q) (hid : (p.module? id).isSome = true) :
    (q.module? id).isSome = true := by
  obtain ⟨k, hk⟩ := Option.isSome_iff_exists.mp hid
  exact Option.isSome_iff_exists.mpr ⟨k, h.module? hk⟩

theorem Continues.mem (h : Continues asked p q) {t : ThreadPlan} (ht : t ∈ p.threads) :
    ∃ t' ∈ q.threads, t'.bare = t.bare := by
  obtain ⟨k, hk⟩ := List.mem_iff_getElem?.mp ht
  obtain ⟨t', ht', hbare, -⟩ := h.thread hk
  exact ⟨t', List.mem_of_getElem? ht', hbare⟩

theorem Continues.meets (h : Continues asked p q) {t : ThreadId} {d : Demand} (hd : p.Meets t d) :
    q.Meets t d := by
  cases d with
  | flow object method => exact h.module?_isSome hd
  | task object method =>
    refine ⟨h.module?_isSome hd.1, ?_⟩
    obtain ⟨th, hth, hobject, htask, hentry⟩ := task?_isSome.mp hd.2
    obtain ⟨th', hth', hbare⟩ := h.mem hth
    obtain ⟨hobject', -, -, hentry', htask'⟩ := ThreadPlan.eq_of_bare hbare
    exact task?_isSome.mpr ⟨th', hth', hobject'.trans hobject, htask'.trans htask,
      hentry'.trans hentry⟩
  | own method =>
    obtain ⟨th, hth, hmethod⟩ := hd
    obtain ⟨th', hth', -, hmethods⟩ := h.thread hth
    exact ⟨th', hth', hmethods.subset hmethod⟩

end Meeting

section Opening

variable {m : Machine} {asked : ThreadId → String → Prop} {p q : Plan} {depth id : Nat}
  {caller : Option Nat}

def requestMember (m : Machine) (depth module : Nat) (p : Plan) (x : Nat × Object) :
    Except Fault Plan :=
  if x.2.kind = .plain && hasThreads x.2 then p.requestObject m depth (some module) x.1 else .ok p

theorem requestObject_eq_ok (h : p.requestObject m depth caller id = .ok q) :
    (q = p ∧ (depth = 0 ∨ (p.module? id).isSome = true)) ∨
      ∃ n o members, depth = n + 1 ∧ p.module? id = none ∧ m.object? id = some o ∧
        m.memberObjects id = .ok members ∧
        members.foldlM (requestMember m n p.modules.length) (p.opened id caller o) = .ok q := by
  cases depth with
  | zero =>
    cases h
    exact .inl ⟨rfl, .inl rfl⟩
  | succ n =>
    unfold requestObject at h
    split at h
    · rename_i hsome
      cases h
      exact .inl ⟨rfl, .inr hsome⟩
    · rename_i hnone
      simp only [except_bind_eq_ok] at h
      obtain ⟨o, ho, members, hmembers, h⟩ := h
      exact .inr ⟨n, o, members, rfl, by simpa using hnone, Machine.object?_of_object ho, hmembers, h⟩

theorem requestObject_moves (h : p.requestObject m depth caller id = .ok q) :
    Moves m asked p q := by
  induction depth generalizing caller id p q with
  | zero =>
    cases h
    exact .refl
  | succ depth ih =>
    rcases requestObject_eq_ok h with ⟨rfl, -⟩ | ⟨n, o, members, heq, hnew, ho, -, h⟩
    · exact .refl
    · cases heq
      refine .head (.opens caller hnew ho) ?_
      refine foldlM_rel (fun _ => .refl) (fun _ _ _ => .trans) (fun a x b _ hx => ?_) h
      unfold requestMember at hx
      split at hx
      · exact ih hx
      · cases hx
        exact .refl

theorem modules_opened (p : Plan) (id : Nat) (caller : Option Nat) (o : Object) :
    (p.opened id caller o).modules = p.modules ++ [⟨id, caller⟩] :=
  (prepare_spec { p with modules := p.modules ++ [⟨id, caller⟩] } p.modules.length id o
    caller.isNone).1.1

theorem module?_opened (hnew : p.module? id = none) (o : Object) :
    (p.opened id caller o).module? id = some p.modules.length := by
  rw [module?] at hnew
  rw [module?, modules_opened, List.findIdx?_append]
  simp [hnew]

theorem callObject_opens {module : Nat} (hid : id < m.objects.length)
    (h : p.callObject m module id = .ok q) : (q.module? id).isSome = true := by
  rcases requestObject_eq_ok h with ⟨rfl, hzero | hsome⟩ | ⟨n, o, members, -, hnew, ho, -, h⟩
  · omega
  · exact hsome
  · have hmoves : Moves m (fun _ _ => False) (p.opened id (some module) o) q :=
      foldlM_rel (fun _ => .refl) (fun _ _ _ => .trans) (fun a x b _ hx => by
        unfold requestMember at hx
        split at hx
        · exact requestObject_moves hx
        · cases hx
          exact .refl) h
    exact hmoves.continues.module?_isSome (by rw [module?_opened hnew o]; rfl)

theorem callTask_moves {module : Nat} {method : String} {f : Method}
    (hf : Walker.calledMethod? m (some id) method = some f)
    (h : p.callTask m module id method = .ok q) :
    Moves m asked p q ∧ (q.module? id).isSome = true ∧ (q.task? id method).isSome = true := by
  simp only [callTask, except_bind_eq_ok] at h
  obtain ⟨p₁, hobject, h⟩ := h
  have hmoves : Moves m asked p p₁ := requestObject_moves hobject
  split at h
  · cases h
  · rename_i callee hcallee
    split at h
    · rename_i htask
      cases h
      exact ⟨hmoves, by rw [hcallee]; rfl, htask⟩
    · rename_i htask
      cases h
      have hnew : p₁.task? id method = none := by simpa using htask
      have hmodule : (p₁.module? id).isSome = true := by simp [hcallee]
      refine ⟨hmoves.tail (.task hcallee hnew hf), hmodule, ?_⟩
      exact task?_isSome.mpr ⟨_, List.mem_append_right _ (List.mem_singleton.mpr rfl), rfl, rfl, rfl⟩

theorem mem_requestMethod {t : ThreadId} {th : ThreadPlan} (hth : p.threads[t]? = some th)
    (name : String) : ∃ th', (p.requestMethod t name).threads[t]? = some th' ∧
      name ∈ th'.methods := by
  refine ⟨if th.methods.contains name then th else { th with methods := th.methods ++ [name] },
    by simp [requestMethod, updateThread, hth], ?_⟩
  split
  · rename_i h
    simpa using h
  · simp

end Opening

end Plan

namespace ScanSite

open Plan (Moves Meets)

variable {s : ScanSite} {w w' : Walker} {p q : Plan}

theorem lt_of_calledMethod? {m : Machine} {id : Nat} {label : String} {f : Method}
    (h : Walker.calledMethod? m (some id) label = some f) : id < m.objects.length := by
  obtain ⟨o, ho, -⟩ := Option.bind_eq_some_iff.mp h
  exact (List.getElem?_eq_some_iff.mp ho).1

/-- What the scan of an instruction does to a plan, by what the instruction demands. -/
inductive Effect (s : ScanSite) (p : Plan) : Option Demand → Plan → Prop
  | record (accesses : Accesses) : Effect s p none { p with accesses := accesses }
  | flow {id : Nat} {label : String} {f : Method} {q : Plan}
      (called : Walker.calledMethod? s.machine (some id) label = some f)
      (call : p.callObject s.machine s.module id = .ok q) : Effect s p (some (.flow id label)) q
  | task {id : Nat} {label : String} {f : Method} {q : Plan}
      (called : Walker.calledMethod? s.machine (some id) label = some f)
      (call : p.callTask s.machine s.module id label = .ok q) : Effect s p (some (.task id label)) q
  | own (label : String) (accesses : Accesses) : Effect s p (some (.own label))
      (({ p with accesses := accesses } : Plan).requestMethod s.thread label)

/-- Every instruction does what its demand says, and most do no more than record an access. -/
theorem insn_effect {i : Insn} (h : s.insn (w, p) i = .ok (w', q)) :
    s.Effect p (w.demand? s.machine i) q := by
  obtain ⟨-, _, _, _, -, -, hdemand, hturn⟩ := insn_turn h
  rw [hdemand]
  cases hturn with
  | quiet => exact .record p.accesses
  | @member owner label write accesses => exact .record accesses
  | @array id name write accesses => exact .record accesses
  | @mover id accesses => exact .record accesses
  | flow called call => exact .flow called call
  | task called call => exact .task called call
  | @port label f accesses => exact .own label accesses
  | @own label => exact .own label p.accesses

def Asks (s : ScanSite) (w : Walker) (i : Insn) (t : ThreadId) (name : String) : Prop :=
  t = s.thread ∧ w.demand? s.machine i = some (.own name)

theorem insn_moves {i : Insn} (hthread : ∃ t, p.threads[s.thread]? = some t)
    (h : s.insn (w, p) i = .ok (w', q)) :
    Moves s.machine (s.Asks w i) p q ∧
      ∀ d, w.demand? s.machine i = some d → q.Meets s.thread d := by
  have heffect := insn_effect h
  generalize hdemand : w.demand? s.machine i = demand at heffect ⊢
  cases heffect with
  | record accesses => exact ⟨.single (.record p accesses), fun d hd => by cases hd⟩
  | flow called call =>
    refine ⟨Plan.requestObject_moves call, fun d hd => ?_⟩
    cases hd
    exact Plan.callObject_opens (lt_of_calledMethod? called) call
  | task called call =>
    obtain ⟨hmoves, hmodule, htask⟩ := Plan.callTask_moves called call
    refine ⟨hmoves, fun d hd => ?_⟩
    cases hd
    exact ⟨hmodule, htask⟩
  | own label accesses =>
    refine ⟨.head (.record p accesses) (.single (.method _ ⟨rfl, hdemand⟩)), fun d hd => ?_⟩
    cases hd
    obtain ⟨t, ht⟩ := hthread
    exact Plan.mem_requestMethod (p := { p with accesses := accesses }) ht label

theorem insns_moves {code : List Insn} (hw : w.object = s.object)
    (hthread : ∃ t, p.threads[s.thread]? = some t ∧ t.object = s.object)
    (h : code.foldlM s.insn (w, p) = .ok (w', q)) :
    Moves s.machine (fun t name => t = s.thread ∧ w.Demands s.machine code (.own name)) p q ∧
      ∀ d, w.Demands s.machine code d → q.Meets s.thread d := by
  induction code generalizing w p with
  | nil =>
    cases h
    exact ⟨.refl, fun d hd => absurd hd Walker.along_nil⟩
  | cons i rest ih =>
    rw [List.foldlM_cons, except_bind_eq_ok] at h
    obtain ⟨⟨w₁, p₁⟩, hinsn, h⟩ := h
    obtain ⟨t, ht, hobject⟩ := hthread
    obtain ⟨hstep, -, -⟩ := insn_spec hw
      (fun t' ht' => Option.some.inj (ht.symm.trans ht') ▸ hobject) hinsn
    obtain ⟨hmoves, hmeets⟩ := insn_moves ⟨t, ht⟩ hinsn
    obtain ⟨t₁, ht₁, hbare, -⟩ := hmoves.continues.thread ht
    obtain ⟨hmoves', hmeets'⟩ := ih ((Walker.step_object hstep).trans hw)
      ⟨t₁, ht₁, (ThreadPlan.eq_of_bare hbare).1.trans hobject⟩ h
    refine ⟨(hmoves.mono fun t name hasked => ?_).trans (hmoves'.mono fun t name hasked => ?_),
      fun d hd => ?_⟩
    · exact ⟨hasked.1, (Walker.along_cons hstep).mpr (.inl hasked.2)⟩
    · exact ⟨hasked.1, (Walker.along_cons hstep).mpr (.inr hasked.2)⟩
    · rcases (Walker.along_cons hstep).mp hd with hd | hd
      · exact hmoves'.continues.meets (hmeets d hd)
      · exact hmeets' d hd

theorem scan_moves (hthread : ∃ t, p.threads[s.thread]? = some t ∧ t.object = s.object)
    (h : s.scan p = .ok q) :
    Moves s.machine (fun t name => t = s.thread ∧ Demands s.machine s.object s.method (.own name))
        p q ∧
      ∀ d, Demands s.machine s.object s.method d → q.Meets s.thread d := by
  obtain ⟨o, f, ho, hf, hcases⟩ := scan_cases h
  have hcalled : Walker.calledMethod? s.machine (some s.object) s.method = some f := by
    simp [Walker.calledMethod?, ho, hf]
  rcases hcases with ⟨hnative, rfl, -⟩ | ⟨hnative, w, hcode⟩
  · refine ⟨.refl, fun d hd => ?_⟩
    obtain ⟨g, hg, hnative', -⟩ := hd
    cases hcalled.symm.trans hg
    rw [hnative] at hnative'
    cases hnative'
  · obtain ⟨hmoves, hmeets⟩ := insns_moves rfl hthread hcode
    refine ⟨hmoves.mono fun t name hasked => ⟨hasked.1, f, hcalled, hnative, hasked.2⟩,
      fun d hd => ?_⟩
    obtain ⟨g, hg, -, hd⟩ := hd
    cases hcalled.symm.trans hg
    exact hmeets d hd

end ScanSite

namespace Plan

variable {m : Machine}

def Scanned (m : Machine) (k : ThreadId) (t : ThreadPlan) (name : String) : Prop :=
  ∃ before after, ScanSite.scan ⟨m, k, t.place.module, t.object, name⟩ before = .ok after

theorem Scanned.of_bare {k : ThreadId} {t t' : ThreadPlan} {name : String} (h : Scanned m k t name)
    (hbare : t'.bare = t.bare) : Scanned m k t' name := by
  obtain ⟨hobject, hplace, -⟩ := ThreadPlan.eq_of_bare hbare
  rw [Scanned, hobject, hplace]
  exact h

/-- A thread that is asked only for what its entry reaches runs nothing else. -/
theorem Moves.reached {t : ThreadId} {p q : Plan} {th th' : ThreadPlan}
    (h : Moves m (fun k name => k = t ∧ Reaches m th.object th.entry name) p q)
    (hth : p.threads[t]? = some th) (hth' : q.threads[t]? = some th')
    (hreached : ∀ name ∈ th.methods, Reaches m th.object th.entry name) :
    ∀ name ∈ th'.methods, Reaches m th.object th.entry name := by
  intro name hname
  rcases h.continues.origin hth' hname with hasked | ⟨th₀, hth₀, hname⟩
  · exact hasked.2
  · cases hth.symm.trans hth₀
    exact hreached name hname

/-- Scanning the methods of a thread asks the thread for what they reach. Those that it comes to
are scanned, and their demands are met. -/
theorem scanMethods_moves {t : ThreadId} {count i : Nat} {p q : Plan} {th : ThreadPlan}
    (hth : p.threads[t]? = some th)
    (hreached : ∀ name ∈ th.methods, Reaches m th.object th.entry name)
    (h : p.scanMethods m t count i = .ok q) :
    Moves m (fun k name => k = t ∧ Reaches m th.object th.entry name) p q ∧
      ∀ {th' : ThreadPlan} {j : Nat} {name : String}, q.threads[t]? = some th' → i ≤ j →
        j < i + count → th'.methods[j]? = some name →
        Scanned m t th name ∧ ∀ d, Demands m th.object name d → q.Meets t d := by
  induction count generalizing i p th with
  | zero =>
    cases h
    exact ⟨.refl, fun _ hj hj' => by omega⟩
  | succ count ih =>
    unfold scanMethods at h
    rw [hth] at h
    simp only at h
    split at h
    · rename_i hnone
      cases h
      refine ⟨.refl, fun {th' j name} hth' hj _ hname => ?_⟩
      cases Option.some.inj (hth.symm.trans hth')
      have hle : th.methods.length ≤ i := List.getElem?_eq_none_iff.mp hnone
      rw [List.getElem?_eq_none (by omega)] at hname
      cases hname
    · rename_i name hname
      simp only [except_bind_eq_ok, mapError_eq_ok] at h
      obtain ⟨p₁, hscan, h⟩ := h
      obtain ⟨hmoves, hmeets⟩ := ScanSite.scan_moves ⟨th, hth, rfl⟩ hscan
      -- what the method asks for is reached, since the method is
      have hreach : Moves m (fun k name => k = t ∧ Reaches m th.object th.entry name) p p₁ :=
        hmoves.mono fun k label hasked =>
          ⟨hasked.1, (hreached name (List.mem_of_getElem? hname)).tail hasked.2⟩
      obtain ⟨th₁, hth₁, hbare, hgrown⟩ := hmoves.continues.thread hth
      obtain ⟨hobject, -, -, hentry, -⟩ := ThreadPlan.eq_of_bare hbare
      have hreached₁ : ∀ name ∈ th₁.methods, Reaches m th₁.object th₁.entry name := by
        rw [hobject, hentry]
        exact hreach.reached hth hth₁ hreached
      obtain ⟨hmoves', hrest⟩ := ih hth₁ hreached₁ h
      rw [hobject, hentry] at hmoves'
      refine ⟨hreach.trans hmoves', fun {th' j name'} hth' hj hj' hname' => ?_⟩
      rcases Nat.eq_or_lt_of_le hj with rfl | hlt
      · obtain ⟨th₂, hth₂, -, hgrown'⟩ := hmoves'.continues.thread hth₁
        cases Option.some.inj (hth₂.symm.trans hth')
        have hsame := getElem?_of_isPrefix (hgrown.trans hgrown') hname
        cases hsame.symm.trans hname'
        exact ⟨⟨p, p₁, hscan⟩, fun d hd => hmoves'.continues.meets (hmeets d hd)⟩
      · obtain ⟨hscanned, hmet⟩ := hrest hth' hlt (by omega) hname'
        exact ⟨hscanned.of_bare hbare.symm, fun d hd => hmet d (hobject ▸ hd)⟩

/-- Where planning stands when the threads before `n` are scanned: these run their entries, and
threads run nothing but what they reach, which was scanned and whose demands are met. -/
structure Settled (m : Machine) (n : Nat) (p : Plan) : Prop where
  sound : p.Sound m
  proper : p.Proper m
  entry : ∀ {k : Nat} {t : ThreadPlan}, p.threads[k]? = some t → k < n → t.entry ∈ t.methods
  reached : ∀ {k : Nat} {t : ThreadPlan}, p.threads[k]? = some t →
    ∀ name ∈ t.methods, Reaches m t.object t.entry name
  scanned : ∀ {k : Nat} {t : ThreadPlan}, p.threads[k]? = some t →
    ∀ name ∈ t.methods, Scanned m k t name
  met : ∀ {k : Nat} {t : ThreadPlan}, p.threads[k]? = some t →
    ∀ name ∈ t.methods, ∀ d, Demands m t.object name d → p.Meets k d

variable {n : Nat} {p q : Plan}

theorem Settled.of_moves {asked : ThreadId → String → Prop} (hp : p.Settled m n)
    (h : Moves m asked p q) {k : Nat} (hk : ∀ name, ¬ asked k name) {t' : ThreadPlan}
    (ht' : q.threads[k]? = some t') :
    (k < n → k < p.threads.length → t'.entry ∈ t'.methods) ∧
      ∀ name ∈ t'.methods, Reaches m t'.object t'.entry name ∧ Scanned m k t' name ∧
        ∀ d, Demands m t'.object name d → q.Meets k d := by
  constructor
  · intro hn hlt
    obtain ⟨t₁, ht₁, hbare, hgrown⟩ := h.continues.thread (List.getElem?_eq_getElem hlt)
    cases Option.some.inj (ht₁.symm.trans ht')
    rw [(ThreadPlan.eq_of_bare hbare).2.2.2.1]
    exact hgrown.subset (hp.entry (List.getElem?_eq_getElem hlt) hn)
  · intro name hname
    rcases h.continues.origin ht' hname with hasked | ⟨t, ht, hname⟩
    · exact absurd hasked (hk name)
    · obtain ⟨t₁, ht₁, hbare, -⟩ := h.continues.thread ht
      cases Option.some.inj (ht₁.symm.trans ht')
      obtain ⟨hobject, -, -, hentry, -⟩ := ThreadPlan.eq_of_bare hbare
      rw [hobject, hentry]
      exact ⟨hp.reached ht name hname, (hp.scanned ht name hname).of_bare hbare,
        fun d hd => h.continues.meets (hp.met ht name hname d hd)⟩

theorem scanThread_settled {t : Nat} (hp : p.Settled m t) (hlt : t < p.threads.length)
    (h : p.scanThread m t = .ok q) : q.Settled m (t + 1) := by
  obtain ⟨hgrows, -⟩ := scanThread_spec hp.sound h
  have hsound := hgrows.sound hp.sound
  unfold scanThread at h
  obtain ⟨th, hth⟩ : ∃ th, p.threads[t]? = some th := ⟨_, List.getElem?_eq_getElem hlt⟩
  rw [hth] at h
  simp only at h
  have hentry : Moves m (fun k name => k = t ∧ Reaches m th.object th.entry name) p
      (p.requestMethod t th.entry) := .single (.method p ⟨rfl, .refl⟩)
  obtain ⟨th₁, hth₁, hin⟩ := mem_requestMethod hth th.entry
  obtain ⟨th₀, hth₀, hbare₀, -⟩ := hentry.continues.thread hth
  cases Option.some.inj (hth₁.symm.trans hth₀)
  obtain ⟨hobject₁, -, -, hentry₁, -⟩ := ThreadPlan.eq_of_bare hbare₀
  have hreached₁ : ∀ name ∈ th₁.methods, Reaches m th₁.object th₁.entry name := by
    rw [hobject₁, hentry₁]
    exact hentry.reached hth hth₁ (hp.reached hth)
  obtain ⟨hmoves', hmeets⟩ := scanMethods_moves hth₁ hreached₁ h
  rw [hobject₁, hentry₁] at hmoves'
  have hmoves : Moves m (fun k name => k = t ∧ Reaches m th.object th.entry name) p q :=
    hentry.trans hmoves'
  obtain ⟨th₂, hth₂, hbare₂, hgrown⟩ := hmoves'.continues.thread hth₁
  obtain ⟨hobject₂, -, -, hentry₂, -⟩ := ThreadPlan.eq_of_bare (hbare₂.trans hbare₀)
  have hothers : ∀ {k : Nat}, k ≠ t → ∀ name,
      ¬ (k = t ∧ Reaches m th.object th.entry name) := fun hk _ hasked => hk hasked.1
  -- the scan comes to all methods, since there are no more of them than slots
  have hcomes : ∀ name ∈ th₂.methods, Scanned m t th₁ name ∧
      ∀ d, Demands m th₁.object name d → q.Meets t d := by
    intro name hname
    obtain ⟨j, hj⟩ := List.mem_iff_getElem?.mp hname
    have hle := length_methods_le (hsound.threads _ (List.mem_of_getElem? hth₂))
    have hlen := (List.getElem?_eq_some_iff.mp hj).1
    rw [hobject₂] at hle
    exact hmeets hth₂ (Nat.zero_le _) (by omega) hj
  refine ⟨hsound, hmoves.proper hp.proper, fun {k t'} ht' hk => ?_, fun {k t'} ht' name hname => ?_,
    fun {k t'} ht' name hname => ?_, fun {k t'} ht' name hname d hd => ?_⟩ <;> by_cases hkt : k = t
  · subst hkt
    cases Option.some.inj (hth₂.symm.trans ht')
    rw [hentry₂]
    exact hgrown.subset hin
  · exact (hp.of_moves hmoves (hothers hkt) ht').1 (by omega) (by omega)
  · subst hkt
    cases Option.some.inj (hth₂.symm.trans ht')
    rw [hobject₂, hentry₂]
    exact hmoves.reached hth hth₂ (hp.reached hth) name hname
  · exact ((hp.of_moves hmoves (hothers hkt) ht').2 name hname).1
  · subst hkt
    cases Option.some.inj (hth₂.symm.trans ht')
    exact (hcomes name hname).1.of_bare hbare₂
  · exact ((hp.of_moves hmoves (hothers hkt) ht').2 name hname).2.1
  · subst hkt
    cases Option.some.inj (hth₂.symm.trans ht')
    rw [hobject₂, ← hobject₁] at hd
    exact (hcomes name hname).2 d hd
  · exact ((hp.of_moves hmoves (hothers hkt) ht').2 name hname).2.2 d hd

/-- All threads are scanned, those included that the scan adds: the bound is never reached before. -/
theorem scanThreads_settled {count : Nat} {t : Nat} (hp : p.Settled m t)
    (hcount : threadBound m ≤ t + count) (h : p.scanThreads m count t = .ok q) :
    q.Settled m q.threads.length := by
  induction count generalizing t p with
  | zero =>
    cases h
    have hle := hp.proper.length_threads_le
    exact ⟨hp.sound, hp.proper, fun ht hk => hp.entry ht (by omega), hp.reached, hp.scanned,
      hp.met⟩
  | succ count ih =>
    unfold scanThreads at h
    split at h
    · rename_i hlt
      rw [except_bind_eq_ok] at h
      obtain ⟨p₁, hscan, h⟩ := h
      exact ih (scanThread_settled hp hlt hscan) (by omega) h
    · rename_i hge
      cases h
      exact ⟨hp.sound, hp.proper, fun ht hk => hp.entry ht (hk.trans_le (Nat.le_of_not_lt hge)),
        hp.reached, hp.scanned, hp.met⟩

/-- A later plan with the same threads, which run what they did. -/
def Equips (m : Machine) (p q : Plan) : Prop :=
  Moves m (fun _ _ => False) p q ∧ q.threads.length = p.threads.length

theorem HandsOut.equips (h : p.HandsOut m q) : p.Equips m q := by
  induction h with
  | refl => exact ⟨.refl, rfl⟩
  | array _ t id o ih =>
    exact ⟨ih.1.tail (.pool _ _ fun pool => ((pool.masterPort? id o).2.slavePort? id o).2),
      (List.length_modify _ _ _).trans ih.2⟩
  | @method _ _ _ _ _ f _ accesses _ _ _ _ _ ih =>
    exact ⟨(ih.1.tail (.record _ accesses)).tail (.pool _ _ fun pool => (pool.methodPort? f).2),
      (List.length_modify _ _ _).trans ih.2⟩

theorem Settled.idle (hp : p.Settled m n) (hsound : q.Sound m)
    (h : Moves m (fun _ _ => False) p q) (hn : n ≤ p.threads.length) : q.Settled m n :=
  ⟨hsound, h.proper hp.proper,
    fun ht hk => (hp.of_moves h (fun _ => id) ht).1 hk (hk.trans_le hn),
    fun ht name hname => ((hp.of_moves h (fun _ => id) ht).2 name hname).1,
    fun ht name hname => ((hp.of_moves h (fun _ => id) ht).2 name hname).2.1,
    fun ht name hname => ((hp.of_moves h (fun _ => id) ht).2 name hname).2.2⟩

/-- The plan with the top-level object alone. -/
theorem requested_settled {depth root : Nat} {caller : Option Nat}
    (h : empty.requestObject m depth caller root = .ok p) : p.Settled m 0 := by
  have hempty : empty.Settled m 0 :=
    ⟨⟨.nil, by simp [empty], fun e => by simp [empty, Accesses.empty, Accesses.find, Access.empty]⟩,
      proper_empty m, by simp [empty], by simp [empty], by simp [empty], by simp [empty]⟩
  have hgrows : empty.Grows m none p := (requestObject_enlarges h).grows
  exact hempty.idle (hgrows.sound hempty.sound) (requestObject_moves h) (Nat.zero_le _)

theorem ofRoot_settled {root : Nat} (h : ofRoot m root = .ok p) : p.Settled m p.threads.length := by
  have hsound := (ofRoot_spec h).1
  obtain ⟨top, p₁, p₂, -, hobject, hscan, hports⟩ := ofRoot_eq_ok h
  obtain ⟨hmoves, hlen⟩ := hports.equips
  rw [hlen]
  exact (scanThreads_settled (requested_settled hobject) (by omega) hscan).idle hsound hmoves le_rfl

end Plan
end Synth
end MachineSynth
