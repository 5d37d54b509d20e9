import Mathlib
import MachineSynth.Proofs.Loading
import MachineSynth.Proofs.Reach.Calls

/-! Guarding: once a plan is made, no table stops for want of what the scans looked for. Lowering
comes to every instruction with the walker that the scan of the method had there. -/
namespace MachineSynth

def Slot.isSelfNamed (s : Slot) : Bool :=
  match s.value with
  | .method f => f.name = s.name
  | _ => true

/-- Whether every method has the name of its slot. -/
def Machine.SelfNamed (m : Machine) : Prop :=
  ∀ o ∈ m.objects, ∀ slot ∈ o.slots, slot.isSelfNamed = true

instance (m : Machine) : Decidable m.SelfNamed := inferInstanceAs (Decidable (∀ o ∈ m.objects, _))

theorem Machine.SelfNamed.name_eq {m : Machine} (h : m.SelfNamed) {o : Object} {name : String}
    {f : Method} (ho : o ∈ m.objects) (hf : o.method? name = some f) : f.name = name := by
  unfold Object.method? at hf
  split at hf
  · rename_i g hlookup
    cases hf
    obtain ⟨slot, hslot, hvalue⟩ := Option.map_eq_some_iff.mp hlookup
    have hname : slot.name = name := by simpa using List.find?_some hslot
    have hself := h o ho slot (List.mem_of_find?_eq_some hslot)
    simp only [Slot.isSelfNamed, hvalue, decide_eq_true_eq] at hself
    rw [hself, hname]
  · cases hf

theorem Machine.Closed.selfNamed {m : Machine} (h : m.Closed) : m.SelfNamed := by
  intro o ho slot hslot
  unfold Slot.isSelfNamed
  split
  · rename_i f hvalue
    exact decide_eq_true ((h.objects o ho).methods slot hslot f hvalue).1
  · rfl

theorem Listing.selfNamed_of_load {source : Source} {m : Machine} (h : load source = .ok m) :
    m.SelfNamed :=
  (load_closed h).selfNamed

namespace Synth

/-- What synthesis can stop with after the scans; a data-flow call may miss its thread unless
methods have the names of their slots. -/
inductive Stop.IsOfSynthesis (flows : Prop) : Stop → Prop
  | build {e : Stop} (thread entry : String) (h : e.IsOfLowering ∨ e.IsOfExpansion) :
      IsOfSynthesis flows (e.mapError (.inSynthesis thread entry))
  | settle : IsOfSynthesis flows (.fault .scanClosed)
  | merge (entity : String) : IsOfSynthesis flows (.fault (.severalOwners entity))
  | parent (entity : String) : IsOfSynthesis flows (.error (.noOwner entity))
  | wire {f : Fault} (h : ThreadTable.IsOfWiring flows f) : IsOfSynthesis flows (.fault f)
  | write (channel : String) (count : Nat) :
      IsOfSynthesis flows (.error (.severalWriters channel count))
  | read (channel : String) (count : Nat) :
      IsOfSynthesis flows (.error (.severalReaders channel count))

namespace Plan

variable {m : Machine} {p : Plan}

theorem Settled.ready (hp : p.Settled m p.threads.length) {k : Nat} {t : ThreadPlan}
    (ht : p.threads[k]? = some t) : ThreadTable.Ready m t := by
  refine ⟨(hp.sound.threads t (List.mem_of_getElem? ht)).pool,
    hp.entry ht (List.getElem?_eq_some_iff.mp ht).1,
    fun name hname => (hp.scanned ht name hname).cleared, fun name hname label hd => ?_⟩
  obtain ⟨t', ht', hlabel⟩ := hp.met ht name hname _ hd
  cases ht.symm.trans ht'
  exact hlabel

theorem Proper.thread?_of_flow (hp : p.Proper m) (hnamed : m.SelfNamed) {id : Nat} {label : String}
    {f : Method} (hmodule : (p.module? id).isSome = true)
    (hf : Walker.calledMethod? m (some id) label = some f) (hflow : f.marks.dataFlowEntry = true) :
    (p.thread? id label).isSome = true := by
  obtain ⟨o, ho, hmethod⟩ := Option.bind_eq_some_iff.mp hf
  obtain ⟨k, hk⟩ := Option.isSome_iff_exists.mp hmodule
  obtain ⟨mod, hmod, rfl⟩ := mem_of_module? hk
  have hentry := hp.entries mod (List.mem_of_getElem? hmod) o ho f (Object.mem_methods hmethod)
    (by simp [isEntry, hflow])
  rwa [hnamed.name_eq (List.mem_of_getElem? ho) hmethod] at hentry

theorem Settled.flows (hp : p.Settled m p.threads.length) (hnamed : m.SelfNamed) {k : Nat}
    {t : ThreadPlan} (ht : p.threads[k]? = some t) {name : String} (hname : name ∈ t.methods)
    {id : Nat} {label : String} (hd : Demands m t.object name (.flow id label)) :
    (p.thread? id label).isSome = true := by
  have hmodule := hp.met ht name hname _ hd
  obtain ⟨g, -, -, j, i, v, -, -, hdemand⟩ := hd
  obtain ⟨r, label', args, callee, f, -, -, hf, hcases⟩ := Walker.demand?_eq_some hdemand
  obtain ⟨hflow, heq⟩ | ⟨-, -, heq⟩ | ⟨-, -, heq⟩ := hcases <;> cases heq
  exact hp.proper.thread?_of_flow hnamed hmodule hf hflow

end Plan

namespace Synthesis

variable {m : Machine} {root : Nat} {plan : Plan} {owners : OwnershipTable} {limit : Nat}

theorem buildTables_stops {id : ThreadId} {threads : List ThreadPlan} {e : Stop}
    (h : buildTables m owners limit id threads = .error e) : ∃ k, ∃ t ∈ threads, ∃ e',
      ThreadTable.build m owners limit k t = .error e' ∧
        e = e'.mapError (.inSynthesis t.name t.entry) := by
  induction threads generalizing id with
  | nil => cases h
  | cons t rest ih =>
    simp only [buildTables, except_bind_eq_error] at h
    obtain h | ⟨table, -, h | ⟨tables, -, h⟩⟩ := h
    · obtain ⟨e', he', rfl⟩ := mapError_eq_error.mp h
      exact ⟨id, t, List.mem_cons_self, e', he', rfl⟩
    · obtain ⟨k, t', ht', hrest⟩ := ih h
      exact ⟨k, t', List.mem_cons_of_mem _ ht', hrest⟩
    · cases h

theorem parentsOf_stops {entries : List (Entity × Link Rtl.ResourceRef)}
    {ps : List (Rtl.ResourceRef × Rtl.ResourceRef)} {e : SynthError}
    (h : Links.parentsOf entries = (ps, some e)) : ∃ entity, e = .noOwner entity := by
  induction entries generalizing ps with
  | nil => cases h
  | cons entry rest ih =>
    obtain ⟨entity, link⟩ := entry
    simp only [Links.parentsOf] at h
    split at h
    · exact ih h
    · cases h
      exact ⟨_, rfl⟩
    · exact ih (Prod.ext rfl (Prod.mk.inj h).2)

theorem link_stops {flows : Prop} {tables : List ThreadTable} {e : Stop}
    (h : link tables = .error e) : e.IsOfSynthesis flows := by
  simp only [link, except_bind_eq_error] at h
  obtain h | ⟨links, -, h⟩ := h
  · obtain ⟨f, hf, rfl⟩ := mapError_eq_error.mp h
    obtain ⟨links, x, -, hx⟩ := foldlM_eq_error hf
    obtain ⟨entity, link⟩ := x
    simp only [mergeLink] at hx
    split at hx
    · rw [except_bind_eq_error] at hx
      obtain hx | ⟨_, -, hx⟩ := hx
      · unfold Links.addOwner at hx
        split at hx
        · split at hx <;> cases hx
          exact .merge _
        · cases hx
      · cases hx
    · cases hx
  · split at h
    · rename_i error herror
      cases h
      obtain ⟨entity, rfl⟩ := parentsOf_stops herror
      exact .parent entity
    · cases h

theorem connectAll_stops {flows : Prop} {ends : List (Nat × ChannelEnds)} {d d' : Rtl.Design}
    {e : SynthError} (h : Channels.connectAll ends d = (d', some e)) :
    (Stop.error e).IsOfSynthesis flows := by
  induction ends generalizing d with
  | nil => cases h
  | cons x rest ih =>
    simp only [Channels.connectAll] at h
    split at h
    · rename_i error hconflict
      cases h
      unfold Channels.conflict? at hconflict
      split at hconflict
      · cases hconflict
        exact .write _ _
      · split at hconflict <;> cases hconflict
        exact .read _ _
    · exact ih h

theorem map_plan_of_buildTables {id : ThreadId} {threads : List ThreadPlan}
    {built : List ThreadTable} (h : buildTables m owners limit id threads = .ok built) :
    built.map (·.plan) = threads := by
  obtain ⟨hlen, hat⟩ := buildTables_eq_ok h
  refine List.ext_getElem (by simp [hlen]) fun k hk hk' => ?_
  obtain ⟨b, hb, hbuild⟩ := hat k _ (List.getElem?_eq_getElem hk')
  rw [List.getElem_map, (List.getElem?_eq_some_iff.mp hb).2, ThreadTable.plan_of_build hbuild]

theorem built_calls (hplan : plan.Settled m plan.threads.length) {built : List ThreadTable}
    (h : buildTables m owners limit 0 plan.threads = .ok built) {b : ThreadTable} (hb : b ∈ built) :
    (∀ call ∈ b.taskCalls, (plan.module? call.callee.object).isSome = true ∧
        (plan.task? call.callee.object call.callee.method).isSome = true) ∧
      ∀ call ∈ b.flowCalls, (plan.module? call.callee.object).isSome = true ∧
        (m.SelfNamed → (plan.thread? call.callee.object call.callee.method).isSome = true) := by
  obtain ⟨hlen, hat⟩ := buildTables_eq_ok h
  obtain ⟨k, hk⟩ := List.mem_iff_getElem?.mp hb
  have hlt : k < plan.threads.length := hlen ▸ (List.getElem?_eq_some_iff.mp hk).1
  have ht := List.getElem?_eq_getElem hlt
  obtain ⟨b', hb', hbuild⟩ := hat k _ ht
  cases hk.symm.trans hb'
  obtain ⟨htasks, hflows⟩ := (ThreadTable.build_ends (hplan.ready ht)).2 b hbuild
  refine ⟨fun call hcall => ?_, fun call hcall => ?_⟩
  · obtain ⟨name, hname, hd⟩ := htasks call hcall
    exact hplan.met ht name hname _ hd
  · obtain ⟨name, hname, hd⟩ := hflows call hcall
    exact ⟨hplan.met ht name hname _ hd, fun hnamed => hplan.flows hnamed ht hname hd⟩

theorem synthesize_stops {depth : Nat} {e : Stop} (hplan : Plan.ofRoot m root = .ok plan)
    (h : synthesize m root depth = .error e) : e.IsOfSynthesis m.SelfNamed := by
  have hsettled := Plan.ofRoot_settled hplan
  simp only [synthesize, ofRoot, hplan, except_bind_eq_error] at h
  obtain h | ⟨_, heq, h⟩ := h
  · cases h
  cases heq
  obtain h | ⟨⟨owners, closed⟩, -, h⟩ := h
  · obtain ⟨f, hf, rfl⟩ := mapError_eq_error.mp h
    unfold Accesses.settle at hf
    split at hf <;> cases hf
    exact .settle
  obtain h | ⟨built, hbuilt, h⟩ := h
  · obtain ⟨k, t, ht, e', hbuild, rfl⟩ := buildTables_stops h
    obtain ⟨j, hj⟩ := List.mem_iff_getElem?.mp ht
    exact .build _ _ ((ThreadTable.build_ends (hsettled.ready hj)).1 e' hbuild)
  obtain h | ⟨tables, hlinked, h⟩ := h
  · exact link_stops h
  obtain h | ⟨wired, -, h⟩ := h
  · obtain ⟨f, hf, rfl⟩ := mapError_eq_error.mp h
    obtain ⟨a, ha, hf⟩ := mapM_eq_error hf
    obtain ⟨links, ps, -, -, rfl⟩ := link_spec hlinked
    obtain ⟨b, hb, rfl⟩ := List.mem_map.mp ha
    obtain ⟨htasks, hflows⟩ := built_calls hsettled hbuilt hb
    refine .wire (ThreadTable.wire_stops (a := linked ps b) ?_ htasks hflows hf)
    rw [List.map_map]
    exact map_plan_of_buildTables hbuilt
  · split at h
    · rename_i error herror
      cases h
      exact connectAll_stops herror
    · cases h

end Synthesis

def SynthError.cause : SynthError → SynthError
  | .inScan _ _ e | .inSynthesis _ _ e => e.cause
  | e => e

def Stop.IsOfScan : Stop → Prop
  | .error e =>
    match e.cause with
    | .methodNotFound _ _ | .memberNotFound _ _ | .methodAsMember _ _ | .notImported _ _ _
    | .nativeMethod _ _ | .arrayExpected _ _ | .unresolvedCallee _ _ _ => True
    | _ => False
  | .fault (.accessToMethod _ _) | .fault (.arrayExpected _ _) | .fault (.unresolvedCallee _ _ _)
  | .fault (.loadUnbound _) | .fault (.loadNonObject _ _) | .fault (.notBound _)
  | .fault (.noImplementation _ _) => True
  | _ => False

theorem Stop.IsOfSynthesis.not_isOfScan {flows : Prop} {e : Stop} (h : e.IsOfSynthesis flows) :
    ¬ e.IsOfScan := by
  intro hscan
  cases h with
  | @build e thread entry h =>
    cases e with
    | error e => cases e <;> simp_all [Stop.IsOfLowering, Stop.IsOfExpansion, Stop.mapError,
        Stop.IsOfScan, SynthError.cause]
    | fault f => cases f <;> simp_all [Stop.IsOfLowering, Stop.IsOfExpansion, Stop.mapError,
        Stop.IsOfScan]
  | wire h => cases ‹Fault› <;> simp_all [ThreadTable.IsOfWiring, Stop.IsOfScan]
  | _ => exact hscan

/-- Whether a scan that goes through comes to the instruction at position `k` of its method with a
walker. -/
def ScanSite.ComesTo (s : ScanSite) (k : Nat) (w : Walker) : Prop :=
  ∃ f before after p, Walker.calledMethod? s.machine (some s.object) s.method = some f ∧
    f.isNative = false ∧ s.scan before = .ok after ∧
    (f.code.take k).foldlM s.insn (Walker.start s.object, before) = .ok (w, p)

/-- Whether the lowering of the methods of a thread, one after the other, comes to the instruction
at position `k` of one of them. -/
def ThreadTable.ComesTo (m : Machine) (owners : OwnershipTable) (id : ThreadId) (t : ThreadPlan)
    (name : String) (k : Nat) (l : Lowering) : Prop :=
  ∃ done rest contexts b f x, t.methods = done ++ name :: rest ∧
    lowerAll m owners id t done (.ofPool t.pool) = .ok (contexts, b) ∧
    Walker.calledMethod? m (some t.object) name = some f ∧ f.isNative = false ∧
    (Lower.upTo ⟨m, owners, id, t.object, name, f, roleOf m t name⟩ k).run
      ⟨b, Walker.start t.object, [], []⟩ = .ok (x, l)

theorem ScanSite.ComesTo.walk {s : ScanSite} {k : Nat} {w : Walker} (h : s.ComesTo k w) :
    ∃ f, Walker.calledMethod? s.machine (some s.object) s.method = some f ∧
      (Walker.start s.object).walk s.machine (f.code.take k) = .ok w := by
  obtain ⟨f, before, after, p, hf, -, -, htake⟩ := h
  exact ⟨f, hf, (insns_guarded htake).1⟩

theorem ThreadTable.ComesTo.walk {m : Machine} {owners : OwnershipTable} {id : ThreadId}
    {t : ThreadPlan} {name : String} {k : Nat} {l : Lowering} (hpool : t.pool.Sound)
    (h : ComesTo m owners id t name k l) :
    ∃ f, Walker.calledMethod? m (some t.object) name = some f ∧
      (Walker.start t.object).walk m (f.code.take k) = .ok l.walker := by
  obtain ⟨done, rest, contexts, b, f, x, -, hlower, hf, -, hrun⟩ := h
  obtain ⟨hb, -⟩ := lowerAll_spec (Builder.sound_ofPool hpool) hlower
  simp only [Lower.upTo, run_bind_eq_ok] at hrun
  obtain ⟨e, l₁, hopening, starts, l₂, hcode, hrun⟩ := hrun
  cases run_pure_eq_ok.mp hrun
  obtain ⟨hl₁, hwalker⟩ := Lower.opening_walker (Site.start_sound hb t.object) hopening
  have hat := (Lower.code_spec hl₁ hcode).1
  exact ⟨f, hf, by rw [← hat.walker, hwalker]⟩

namespace Synthesis

/-- Once a plan is made, lowering walks the code of every method as the scan of the method did, and
nothing is missing that the scan looked for. -/
theorem scan_guards_lowering {m : Machine} {root : Nat} {plan : Plan}
    (h : Plan.ofRoot m root = .ok plan) :
    (∀ {id : Nat} {t : ThreadPlan} {name : String} {f : Method}, plan.threads[id]? = some t →
      name ∈ t.methods → Walker.calledMethod? m (some t.object) name = some f →
      f.isNative = false → ∀ k, ∃ w,
        ScanSite.ComesTo ⟨m, id, t.place.module, t.object, name⟩ k w ∧
        (∀ v, ScanSite.ComesTo ⟨m, id, t.place.module, t.object, name⟩ k v → v = w) ∧
        ∀ owners l, ThreadTable.ComesTo m owners id t name k l → l.walker = w) ∧
      ∀ depth e, synthesize m root depth = .error e → ¬ e.IsOfScan := by
  have hsettled := Plan.ofRoot_settled h
  refine ⟨fun {id t name f} ht hname hf hnative k => ?_,
    fun depth e he => (synthesize_stops h he).not_isOfScan⟩
  obtain ⟨before, after, hscan⟩ := hsettled.scanned ht name hname
  obtain ⟨o, f', ho, hf', hcases⟩ := ScanSite.scan_cases hscan
  have hsame : Walker.calledMethod? m (some t.object) name = some f' := by
    simp [Walker.calledMethod?, ho, hf']
  cases hf.symm.trans hsame
  obtain ⟨hnative', -⟩ | ⟨-, w', hcode⟩ := hcases
  · rw [hnative] at hnative'
    cases hnative'
  · obtain ⟨w, p, htake⟩ := ScanSite.insns_take hcode k
    have hwalk := (ScanSite.insns_guarded htake).1
    refine ⟨w, ⟨f, before, after, p, hf, hnative, hscan, htake⟩, fun v hv => ?_, fun owners l hl => ?_⟩
    · obtain ⟨g, hg, hv⟩ := hv.walk
      cases hf.symm.trans hg
      exact Except.ok.inj (hv.symm.trans hwalk)
    · obtain ⟨g, hg, hv⟩ := hl.walk (hsettled.ready ht).pool
      cases hf.symm.trans hg
      exact Except.ok.inj (hv.symm.trans hwalk)

/-- A machine whose main method loads another object, reads a member of it and calls itself. -/
def selfCall : Machine :=
  let this := RegisterId.unused
  ⟨[⟨"top", .plain, 0, 0, false, false, [],
      [⟨"sub", .object 1⟩,
        ⟨"main", .method ⟨"main", [], [], [⟨"o", .object, 0, false, 0⟩, ⟨"v", .num, 8, false, 0⟩],
          [.loadObject 0 this "sub", .memberRead 1 0 "x", .call this "main" []], "", "", "",
          .none⟩⟩]⟩,
    ⟨"sub", .plain, 0, 0, false, false, [], [⟨"x", .num 8 0 false⟩]⟩]⟩

/-- The walkers of scan and lowering hold the other object when its member is read, and synthesis
stops for another reason: the recursion. -/
theorem selfCall_guarded : ∃ plan t owners w l, Plan.ofRoot selfCall 0 = .ok plan ∧
    plan.threads[0]? = some t ∧ "main" ∈ t.methods ∧
    ScanSite.ComesTo ⟨selfCall, 0, t.place.module, t.object, "main"⟩ 1 w ∧
    ThreadTable.ComesTo selfCall owners 0 t "main" 1 l ∧ l.walker = w ∧ w.objectOf? 0 = some 1 ∧
    ∃ e, synthesize selfCall 0 0 = .error e ∧ ¬ e.IsOfScan := by
  have h : (Plan.ofRoot selfCall 0).toOption.any (fun plan =>
      (plan.accesses.settle).toOption.any fun x => (plan.threads[0]?).any fun t =>
        decide (t.methods = ["main"]) &&
        (Walker.calledMethod? selfCall (some t.object) "main").any fun f => !f.isNative &&
        ((Lower.upTo ⟨selfCall, x.1, 0, t.object, "main", f, ThreadTable.roleOf selfCall t "main"⟩
          1).run ⟨.ofPool t.pool, Walker.start t.object, [], []⟩).toOption.any fun y =>
            decide (y.2.walker.objectOf? 0 = some 1)) = true := by
    decide +kernel
  have herror : stopsWith (fun _ => true) (synthesize selfCall 0 0) = true := by decide +kernel
  obtain ⟨plan, hplan, h⟩ := exists_ok_of_any h
  obtain ⟨⟨owners, closed⟩, -, h⟩ := exists_ok_of_any h
  obtain ⟨t, ht, h⟩ := (Option.any_eq_true _ _).mp h
  obtain ⟨hmethods, h⟩ := Bool.and_eq_true_iff.mp h
  obtain ⟨f, hf, h⟩ := (Option.any_eq_true _ _).mp h
  obtain ⟨hnative, h⟩ := Bool.and_eq_true_iff.mp h
  obtain ⟨⟨x, l⟩, hrun, hobject⟩ := exists_ok_of_any h
  replace hmethods : t.methods = ["main"] := of_decide_eq_true hmethods
  replace hnative : f.isNative = false := by simpa using hnative
  obtain ⟨e, he, -⟩ := exists_of_stopsWith herror
  have hmain : "main" ∈ t.methods := by simp [hmethods]
  have hl : ThreadTable.ComesTo selfCall owners 0 t "main" 1 l :=
    ⟨[], [], [], .ofPool t.pool, f, x, hmethods, rfl, hf, hnative, hrun⟩
  obtain ⟨w, hw, -, hwalker⟩ := (scan_guards_lowering hplan).1 ht hmain hf hnative 1
  refine ⟨plan, t, owners, w, l, hplan, ht, hmain, hw, hl, hwalker owners l hl, ?_, _, he,
    (scan_guards_lowering hplan).2 0 _ he⟩
  rw [← hwalker owners l hl]
  exact of_decide_eq_true hobject

end Synthesis
end Synth
end MachineSynth
