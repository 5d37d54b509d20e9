import Mathlib
import MachineSynth.Proofs.Tables.Backing

/-! Ports: a port method belongs to the thread that claims it first, so that its port is in one
table at most. Only the entries of threads are run without a claim. -/
namespace MachineSynth
namespace Synth

namespace Accesses

theorem ports_update {s s' : Accesses} {e : Entity} {f : Access → Access}
    (h : s.update e f = .ok s') : s'.ports = s.ports := by
  unfold update at h
  split at h <;> cases h
  rfl

theorem claimPort_spec {s s' : Accesses} {t : ThreadId} {K : MethodKey} {granted : Bool}
    (h : s.claimPort t K = .ok (granted, s')) :
    (∀ K' k, s.ports.lookup K' = some k → s'.ports.lookup K' = some k) ∧
      (granted = true → s'.ports.lookup K = some t) := by
  unfold claimPort at h
  split at h
  · cases h
  · split at h
    · rename_i t' ht'
      cases h
      refine ⟨fun _ _ => id, fun hgranted => ?_⟩
      rw [ht', of_decide_eq_true hgranted]
    · rename_i hnone
      cases h
      refine ⟨fun K' k hk => ?_, fun _ => ?_⟩
      · simp [List.lookup_append, hk]
      · simp [List.lookup_append, hnone]

theorem claimPort_granted {s s' : Accesses} {t : ThreadId} {K : MethodKey} {granted : Bool}
    (hfree : s.hasPort K = false) (h : s.claimPort t K = .ok (granted, s')) : granted = true := by
  unfold claimPort at h
  split at h
  · cases h
  · split at h
    · rename_i t' ht'
      simp [hasPort, ht'] at hfree
    · cases h
      rfl

end Accesses

namespace Pool

variable {p : Pool} {key : ResourceKey}

theorem lookup_masterPort? (p : Pool) (id : Nat) (o : Object) (h : key.kind ∈ portKinds) :
    (p.masterPort? id o).2.keys.lookup key = p.keys.lookup key := by
  unfold masterPort?
  split
  · exact (arrayPort_takes id o true).tracked p (isTracked_of_port h)
  · rfl

theorem lookup_slavePort? (p : Pool) (id : Nat) (o : Object) (h : key.kind ∈ portKinds) :
    (p.slavePort? id o).2.keys.lookup key = p.keys.lookup key := by
  unfold slavePort?
  split
  · exact (arrayPort_takes id o false).tracked p (isTracked_of_port h)
  · rfl

theorem lookup_methodPort? {f : Method} {i : Nat}
    (h : (p.methodPort? f).2.keys.lookup key = some i) :
    p.keys.lookup key = some i ∨ portName f = key.name := by
  have hport : ∀ {output : Bool} {width : UInt64},
      (p.port (portName f) output width).2.keys.lookup key = some i →
      p.keys.lookup key = some i ∨ portName f = key.name := by
    intro output width h
    by_cases hname : portName f = key.name
    · exact .inr hname
    · refine .inl ((lookup_request_of_ne p _ ?_).symm.trans h)
      rintro rfl
      exact hname rfl
  unfold methodPort? at h
  split at h
  · exact hport h
  · exact hport h
  · exact .inl h

end Pool

def MethodKey.Names (m : Machine) (K : MethodKey) (f : Method) : Prop :=
  ∃ o, m.object? K.object = some o ∧ f ∈ o.methods ∧
    (o.method? K.method = some f ∨ f.name = K.method)

namespace Plan

variable {m : Machine} {p q : Plan}

/-- Whether threads have claimed the port methods that they run, apart from their entries, and
those whose ports are planned for them. -/
structure Claimed (m : Machine) (p : Plan) : Prop where
  method : ∀ {k : ThreadId} {t : ThreadPlan} {name : String} {f : Method},
    p.threads[k]? = some t → name ∈ t.methods → name ≠ t.entry →
    Walker.calledMethod? m (some t.object) name = some f → f.marks.isPort = true →
    p.accesses.ports.lookup ⟨t.object, name⟩ = some k
  pool : ∀ {k : ThreadId} {t : ThreadPlan} {key : ResourceKey} {i : Nat},
    p.threads[k]? = some t → key.kind ∈ Pool.portKinds → t.pool.keys.lookup key = some i →
    ∃ K f, MethodKey.Names m K f ∧ f.marks.isPort = true ∧ Pool.portName f = key.name ∧
      p.accesses.ports.lookup K = some k

namespace Claimed

theorem empty : Plan.empty.Claimed m :=
  ⟨fun h => by simp [Plan.empty] at h, fun h => by simp [Plan.empty] at h⟩

theorem of_threads (hp : p.Claimed m)
    (hthreads : ∀ {k : ThreadId} {t : ThreadPlan}, q.threads[k]? = some t →
      p.threads[k]? = some t ∨ t.methods = [] ∧ t.pool.keys = [])
    (hports : ∀ K k, p.accesses.ports.lookup K = some k → q.accesses.ports.lookup K = some k) :
    q.Claimed m := by
  refine ⟨fun {k t name f} ht hname hne hf hport => ?_, fun {k t key i} ht hkind hkey => ?_⟩
  · rcases hthreads ht with ht | ⟨hnil, -⟩
    · exact hports _ _ (hp.method ht hname hne hf hport)
    · rw [hnil] at hname
      cases hname
  · rcases hthreads ht with ht | ⟨-, hnil⟩
    · obtain ⟨K, f, hf, hport, hname, hclaim⟩ := hp.pool ht hkind hkey
      exact ⟨K, f, hf, hport, hname, hports _ _ hclaim⟩
    · rw [hnil] at hkey
      cases hkey

theorem setAccesses (hp : p.Claimed m) {accesses : Accesses}
    (hports : ∀ K k, p.accesses.ports.lookup K = some k → accesses.ports.lookup K = some k) :
    Claimed m { p with accesses := accesses } :=
  hp.of_threads .inl hports

theorem update (hp : p.Claimed m) {accesses : Accesses} {e : Entity} {f : Access → Access}
    (h : p.accesses.update e f = .ok accesses) : Claimed m { p with accesses := accesses } :=
  hp.setAccesses fun _ _ => by rw [Accesses.ports_update h]; exact id

theorem addThread (hp : p.Claimed m) (module object : Nat) (name entry : String) (isTask : Bool) :
    (p.addThread module object name entry isTask).Claimed m := by
  refine hp.of_threads (fun {k t} ht => ?_) fun _ _ => id
  rcases Nat.lt_or_ge k p.threads.length with hlt | hge
  · exact .inl ((List.getElem?_append_left hlt).symm.trans ht)
  · replace ht := (List.getElem?_append_right hge).symm.trans ht
    cases List.mem_singleton.mp (List.mem_of_getElem? ht)
    exact .inr ⟨rfl, rfl⟩

theorem requestMethod (hp : p.Claimed m) {t : ThreadId} {name : String}
    (hname : ∀ th f, p.threads[t]? = some th →
      Walker.calledMethod? m (some th.object) name = some f → f.marks.isPort = true →
      name = th.entry ∨ p.accesses.ports.lookup ⟨th.object, name⟩ = some t) :
    (p.requestMethod t name).Claimed m := by
  have hthread : ∀ {k : ThreadId} {th : ThreadPlan}, (p.requestMethod t name).threads[k]? = some th →
      ∃ th₀, p.threads[k]? = some th₀ ∧ th.object = th₀.object ∧ th.entry = th₀.entry ∧
        th.pool = th₀.pool ∧ ∀ n ∈ th.methods, n ∈ th₀.methods ∨ k = t ∧ n = name := by
    intro k th hth
    simp only [Plan.requestMethod, updateThread, List.getElem?_modify] at hth
    obtain ⟨th₀, hth₀, rfl⟩ := Option.map_eq_some_iff.mp hth
    refine ⟨th₀, hth₀, ?_⟩
    by_cases hk : t = k
    · subst hk
      rw [if_pos rfl]
      split
      · exact ⟨rfl, rfl, rfl, fun n hn => .inl hn⟩
      · refine ⟨rfl, rfl, rfl, fun n hn => ?_⟩
        rcases List.mem_append.mp hn with hn | hn
        · exact .inl hn
        · exact .inr ⟨rfl, List.mem_singleton.mp hn⟩
    · rw [if_neg hk]
      exact ⟨rfl, rfl, rfl, fun n hn => .inl hn⟩
  refine ⟨fun {k th n f} hth hn hne hf hport => ?_, fun {k th key i} hth hkind hkey => ?_⟩
  · obtain ⟨th₀, hth₀, hobject, hentry, -, hmethods⟩ := hthread hth
    rw [hobject] at hf ⊢
    rw [hentry] at hne
    rcases hmethods n hn with hn | ⟨rfl, rfl⟩
    · exact hp.method hth₀ hn hne hf hport
    · exact (hname th₀ f hth₀ hf hport).resolve_left hne
  · obtain ⟨th₀, hth₀, -, -, hpool, -⟩ := hthread hth
    rw [hpool] at hkey
    exact hp.pool hth₀ hkind hkey

theorem setPool (hp : p.Claimed m) {t : ThreadId} (f : Pool → Pool)
    (hf : ∀ (pool : Pool) {key : ResourceKey} {i : Nat}, key.kind ∈ Pool.portKinds →
      (f pool).keys.lookup key = some i → pool.keys.lookup key = some i ∨
        ∃ K g, MethodKey.Names m K g ∧ g.marks.isPort = true ∧ Pool.portName g = key.name ∧
          p.accesses.ports.lookup K = some t) :
    (p.updateThread t fun th => { th with pool := f th.pool }).Claimed m := by
  have hthread : ∀ {k : ThreadId} {th : ThreadPlan},
      (p.updateThread t fun th => { th with pool := f th.pool }).threads[k]? = some th →
      ∃ th₀, p.threads[k]? = some th₀ ∧ th.object = th₀.object ∧ th.entry = th₀.entry ∧
        th.methods = th₀.methods ∧ (th.pool = th₀.pool ∨ k = t ∧ th.pool = f th₀.pool) := by
    intro k th hth
    simp only [updateThread, List.getElem?_modify] at hth
    obtain ⟨th₀, hth₀, rfl⟩ := Option.map_eq_some_iff.mp hth
    refine ⟨th₀, hth₀, ?_⟩
    by_cases hk : t = k
    · simp [hk]
    · simp [hk]
  refine ⟨fun {k th n g} hth hn hne hg hport => ?_, fun {k th key i} hth hkind hkey => ?_⟩
  · obtain ⟨th₀, hth₀, hobject, hentry, hmethods, -⟩ := hthread hth
    rw [hobject] at hg ⊢
    exact hp.method hth₀ (hmethods ▸ hn) (hentry ▸ hne) hg hport
  · obtain ⟨th₀, hth₀, -, -, -, hpool | ⟨rfl, hpool⟩⟩ := hthread hth
    · rw [hpool] at hkey
      exact hp.pool hth₀ hkind hkey
    · rw [hpool] at hkey
      rcases hf th₀.pool hkind hkey with hkey | hclaimed
      · exact hp.pool hth₀ hkind hkey
      · exact hclaimed

end Claimed

theorem Enlarges.claimed (h : p.Enlarges q) (hp : p.Claimed m) : q.Claimed m := by
  induction h with
  | refl => exact hp
  | module _ _ caller ih => exact ih.of_threads .inl fun _ _ => id
  | thread _ module object name entry isTask ih => exact ih.addThread module object name entry isTask

end Plan

namespace ScanSite

variable {s : ScanSite} {w w' : Walker} {p q : Plan}

/-- A port method of the object itself is claimed before it is run. -/
theorem insn_claimed {i : Insn} (hp : p.Claimed s.machine) (hw : w.object = s.object)
    (hthread : ∀ t, p.threads[s.thread]? = some t → t.object = s.object)
    (h : s.insn (w, p) i = .ok (w', q)) : q.Claimed s.machine := by
  obtain ⟨-, _, _, _, -, -, -, hturn⟩ := insn_turn h
  cases hturn with
  | quiet => exact hp
  | member adds => exact hp.update adds
  | array adds => exact hp.update adds
  | mover adds => exact hp.update adds
  | flow _ call => exact (Plan.requestObject_enlarges call).claimed hp
  | task _ call => exact (Plan.callTask_enlarges call).claimed hp
  | port called claim =>
    obtain ⟨hstands, hgranted⟩ := Accesses.claimPort_spec claim
    refine (hp.setAccesses hstands).requestMethod fun th g hth _ _ => .inr ?_
    rw [hthread th hth, ← hw]
    exact hgranted rfl
  | own called unported =>
    refine hp.requestMethod fun th g hth hg hport => ?_
    rw [hthread th hth, ← hw] at hg
    cases Option.some.inj (called.symm.trans hg)
    exact absurd hport (by simp [unported])

theorem insns_claimed {code : List Insn} (hp : p.Claimed s.machine) (hw : w.object = s.object)
    (hthread : ∃ t, p.threads[s.thread]? = some t ∧ t.object = s.object)
    (h : code.foldlM s.insn (w, p) = .ok (w', q)) : q.Claimed s.machine := by
  induction code generalizing w p with
  | nil =>
    cases h
    exact hp
  | cons i rest ih =>
    rw [List.foldlM_cons, except_bind_eq_ok] at h
    obtain ⟨⟨w₁, p₁⟩, hinsn, h⟩ := h
    obtain ⟨t, ht, hobject⟩ := hthread
    have hsame : ∀ t', p.threads[s.thread]? = some t' → t'.object = s.object :=
      fun t' ht' => Option.some.inj (ht.symm.trans ht') ▸ hobject
    obtain ⟨hstep, hgrows, -⟩ := insn_spec hw hsame hinsn
    obtain ⟨t₁, ht₁, hbecomes⟩ := hgrows.thread ht
    exact ih (insn_claimed hp hw hsame hinsn) ((Walker.step_object hstep).trans hw)
      ⟨t₁, ht₁, hbecomes.object.trans hobject⟩ h

theorem scan_claimed (hp : p.Claimed s.machine)
    (hthread : ∃ t, p.threads[s.thread]? = some t ∧ t.object = s.object)
    (h : s.scan p = .ok q) : q.Claimed s.machine := by
  obtain ⟨o, f, -, -, ⟨-, rfl, -⟩ | ⟨-, w, hcode⟩⟩ := scan_cases h
  · exact hp
  · exact insns_claimed hp rfl hthread hcode

end ScanSite

namespace Plan

variable {m : Machine} {p q : Plan}

theorem scanThreads_claimed {count : Nat} {t : ThreadId} (hp : p.Claimed m)
    (h : p.scanThreads m count t = .ok q) : q.Claimed m := by
  refine scanThreads_keeps (fun {p t th} hp hth => ?_) (fun {p q t th name} hp hth _ hscan => ?_)
    hp h
  · refine hp.requestMethod fun th' f hth' _ _ => .inl ?_
    rw [Option.some.inj (hth.symm.trans hth')]
  · exact ScanSite.scan_claimed hp ⟨th, hth, rfl⟩ hscan

theorem HandsOut.claimed (h : p.HandsOut m q) (hp : p.Claimed m) : q.Claimed m := by
  induction h with
  | refl => exact hp
  | array _ t id o ih =>
    refine ih.setPool (fun pool => ((pool.masterPort? id o).2.slavePort? id o).2)
      fun pool {key i} hkind hkey => .inl ?_
    rwa [Pool.lookup_slavePort? _ id o hkind, Pool.lookup_masterPort? _ id o hkind] at hkey
  | @method _ _ t object o f _ _ ho hf port free claim ih =>
    obtain ⟨hstands, hgranted⟩ := Accesses.claimPort_spec claim
    refine (ih.setAccesses hstands).setPool (fun pool => (pool.methodPort? f).2)
      fun pool {key i} _ hkey => ?_
    refine (Pool.lookup_methodPort? hkey).imp_right fun hname => ?_
    exact ⟨⟨object, f.name⟩, f, ⟨o, ho, hf, .inr rfl⟩, port, hname,
      hgranted (Accesses.claimPort_granted free claim)⟩

theorem ofRoot_claimed {root : Nat} (h : ofRoot m root = .ok p) : p.Claimed m := by
  obtain ⟨top, p₁, p₂, -, hobject, hscan, hports⟩ := ofRoot_eq_ok h
  have hp₁ : p₁.Claimed m := (requestObject_enlarges hobject).claimed .empty
  exact hports.claimed (scanThreads_claimed hp₁ hscan)

end Plan

namespace Synthesis

theorem Built.method_of_drives {m : Machine} {root limit k : Nat} {plan : Plan}
    {owners : OwnershipTable} {built : List ThreadTable} {b : ThreadTable}
    (h : Built m root plan owners limit built) (hb : built[k]? = some b) {name : String} {f : Method}
    (hf : b.Drives name f) :
    name ∈ b.plan.methods ∧ MethodKey.Names m ⟨b.plan.object, name⟩ f ∧
      Walker.calledMethod? m (some b.plan.object) name = some f := by
  obtain ⟨c, hc, rfl, himported, -⟩ := hf
  have hpool := (h.sound_plan hb).pool
  obtain ⟨_, _, _, hlower, -⟩ := ThreadTable.build_spec hpool (h.thread hb).2
  obtain ⟨-, -, -, hall⟩ := ThreadTable.lowerAll_spec (Builder.sound_ofPool hpool) hlower
  obtain ⟨hname, b₁, b₂, hb₁, -, hlowered, -⟩ := hall name c hc
  obtain ⟨o, f, _, _, ho, hf, himpl, -, -, -⟩ := Site.lower_cases hlowered
  -- only imported methods stand in for others
  have hmethod : f = c.method := by
    unfold Site.implementation? at himpl
    split at himpl
    · rw [(Option.filter_eq_some_iff.mp himpl).2] at himported
      cases himported
    · exact Option.some.inj himpl
  subst hmethod
  exact ⟨hname, ⟨o, ho, Object.mem_methods hf, .inl hf⟩, by simp [Walker.calledMethod?, ho, hf]⟩

/-- Every port method has one holder at most, if no thread is entered at a port: only the holder's
table is lowered to the port, and a table has no other ports than those of methods that its thread
holds. -/
theorem ports_exclusive {m : Machine} {root depth : Nat} {s : Synthesis}
    (h : synthesize m root depth = .ok s)
    (hentry : ∀ t ∈ s.plan.threads, ∀ f,
      Walker.calledMethod? m (some t.object) t.entry = some f → f.marks.isPort = false) :
    ∃ holder : MethodKey → Option ThreadId, ∀ k w, s.tables[k]? = some w →
      (∀ name f, w.Drives name f → holder ⟨w.plan.object, name⟩ = some k) ∧
      ∀ key i, key.kind ∈ Pool.portKinds → w.builder.pool.keys.lookup key = some i →
        ∃ K f, MethodKey.Names m K f ∧ f.marks.isPort = true ∧ Pool.portName f = key.name ∧
          holder K = some k := by
  obtain ⟨owners, limit, built, ps, h⟩ := staged_of_ok h
  have hclaimed := Plan.ofRoot_claimed h.plan
  refine ⟨fun K => s.plan.accesses.ports.lookup K, fun k w hw => ?_⟩
  obtain ⟨b, hb, horigin⟩ := h.origin hw
  have hplan : w.plan = b.plan := horigin.grows.plan
  have hthread := (h.toBuilt.thread hb).1
  have hholds : ∀ name f, b.Drives name f → MethodKey.Names m ⟨b.plan.object, name⟩ f ∧
      s.plan.accesses.ports.lookup ⟨b.plan.object, name⟩ = some k := by
    intro name f hf
    obtain ⟨hname, hnames, hcalled⟩ := h.toBuilt.method_of_drives hb hf
    obtain ⟨-, -, -, -, hport⟩ := hf
    refine ⟨hnames, hclaimed.method hthread hname (fun hsame => ?_) hcalled hport⟩
    rw [hentry b.plan (List.mem_of_getElem? hthread) f (hsame ▸ hcalled)] at hport
    cases hport
  refine ⟨fun name f hf => ?_, fun key i hkind hkey => ?_⟩
  · rw [ThreadTable.Drives, horigin.grows.contexts] at hf
    rw [hplan]
    exact (hholds name f hf).2
  · rw [horigin.grows.keys] at hkey
    rcases horigin.obeys.ports hkind hkey with hkey | ⟨name, f, hf, hname⟩
    · exact hclaimed.pool hthread hkind hkey
    · obtain ⟨hnames, hclaim⟩ := hholds name f hf
      obtain ⟨-, -, -, -, hport⟩ := hf
      exact ⟨_, f, hnames, hport, hname, hclaim⟩

def sensor (name : String) : Method :=
  ⟨name, [], [⟨"", .int, 8⟩], [⟨"r", .num, 8, false, 0⟩], [], "", "", "",
    { Marks.none with extInput := true }⟩

/-- A machine of two threads. One of them reads an input port; an output port is left over. -/
def sensorPorts : Machine :=
  let method (name : String) (code : List Insn) : Slot :=
    ⟨name, .method ⟨name, [], [], [⟨"v", .num, 8, false, 0⟩], code, "", "", "", .none⟩⟩
  let alarm : Method :=
    ⟨"alarm", [⟨"v", .int, 8⟩], [], [⟨"v", .num, 8, false, 0⟩], [], "", "", "",
      { Marks.none with extOutput := true }⟩
  ⟨[⟨"top", .plain, 0, 0, false, false, [⟨"watch", "poll"⟩],
      [⟨"sense", .method (sensor "sense")⟩, ⟨"alarm", .method alarm⟩,
        method "main" [.call RegisterId.unused "sense" [], .callDone [0]],
        method "poll" [.goto 0]]⟩]⟩

theorem sensorPorts_exclusive : ∃ s a, synthesize sensorPorts 0 0 = .ok s ∧ s.tables[0]? = some a ∧
    a.Drives "sense" (sensor "sense") ∧
    (a.builder.pool.keys.lookup ⟨"ext-output", "alarm", 0, .truth⟩).isSome ∧
    (∀ t ∈ s.plan.threads, ∀ f, Walker.calledMethod? sensorPorts (some t.object) t.entry = some f →
      f.marks.isPort = false) ∧
    ∃ holder : MethodKey → Option ThreadId, ∀ k w, s.tables[k]? = some w →
      (∀ name f, w.Drives name f → holder ⟨w.plan.object, name⟩ = some k) ∧
      ∀ key i, key.kind ∈ Pool.portKinds → w.builder.pool.keys.lookup key = some i →
        ∃ K f, MethodKey.Names sensorPorts K f ∧ f.marks.isPort = true ∧
        Pool.portName f = key.name ∧
          holder K = some k := by
  have h : (synthesize sensorPorts 0 0).toOption.any (fun s => (s.tables[0]?).any fun a =>
      decide (a.Drives "sense" (sensor "sense") ∧
        (a.builder.pool.keys.lookup ⟨"ext-output", "alarm", 0, .truth⟩).isSome ∧
        ∀ t ∈ s.plan.threads, ((Walker.calledMethod? sensorPorts (some t.object) t.entry).all
          fun f => !f.marks.isPort) = true)) = true := by decide +kernel
  obtain ⟨s, hs, h⟩ := exists_ok_of_any h
  obtain ⟨a, ha, h⟩ := (Option.any_eq_true _ _).mp h
  obtain ⟨hdrives, hleft, hentry⟩ := of_decide_eq_true h
  have hentry' : ∀ t ∈ s.plan.threads, ∀ f,
      Walker.calledMethod? sensorPorts (some t.object) t.entry = some f → f.marks.isPort = false :=
    fun t ht f hf => by simpa [hf] using hentry t ht
  exact ⟨s, a, hs, ha, hdrives, hleft, hentry', ports_exclusive hs hentry'⟩

def enteredPort : Machine :=
  ⟨[⟨"top", .plain, 0, 0, false, false, [⟨"a", "in"⟩],
      [⟨"in", .method (sensor "in")⟩,
        ⟨"main", .method ⟨"main", [], [], [⟨"v", .num, 8, false, 0⟩],
          [.call RegisterId.unused "in" [], .callDone [0]], "", "", "", .none⟩⟩]⟩]⟩

/-- An entry is not claimed, so two tables have the port. -/
theorem enteredPort_shared : ∃ s a b, synthesize enteredPort 0 0 = .ok s ∧
    s.tables[0]? = some a ∧ s.tables[1]? = some b ∧ a.plan.object = b.plan.object ∧
    a.Drives "in" (sensor "in") ∧ b.Drives "in" (sensor "in") ∧
    (a.builder.pool.keys.lookup ⟨"ext-input", "in", 0, .truth⟩).isSome ∧
    (b.builder.pool.keys.lookup ⟨"ext-input", "in", 0, .truth⟩).isSome := by
  have h : (synthesize enteredPort 0 0).toOption.any (fun s => (s.tables[0]?).any fun a =>
      (s.tables[1]?).any fun b => decide (a.plan.object = b.plan.object ∧
        a.Drives "in" (sensor "in") ∧ b.Drives "in" (sensor "in") ∧
        (a.builder.pool.keys.lookup ⟨"ext-input", "in", 0, .truth⟩).isSome ∧
        (b.builder.pool.keys.lookup ⟨"ext-input", "in", 0, .truth⟩).isSome)) = true := by
    decide +kernel
  obtain ⟨s, hs, h⟩ := exists_ok_of_any h
  obtain ⟨a, ha, h⟩ := (Option.any_eq_true _ _).mp h
  obtain ⟨b, hb, h⟩ := (Option.any_eq_true _ _).mp h
  exact ⟨s, a, b, hs, ha, hb, of_decide_eq_true h⟩

end Synthesis
end Synth
end MachineSynth
