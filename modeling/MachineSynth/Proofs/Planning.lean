import Mathlib
import MachineSynth.Proofs.Turns

/-! Planning: what the scan of a machine leaves as it was, and what it has recorded when it is done.
Every access of a method that a thread runs is on record. -/
namespace MachineSynth
namespace Synth

/-- What a thread has on record of an instruction: what it reads or writes, and what it moves. -/
structure Recorded (m : Machine) (accesses : Accesses) (t : ThreadId) (w : Walker) (i : Insn) :
    Prop where
  accessed : ∀ {e : Entity} {write : Bool}, w.accessed? m i = some (e, write) →
    t ∈ (accesses.find e).accessors
  moved : ∀ {e : Entity}, w.moved? m i = some e → (accesses.find e).movers.contains t = true

theorem Recorded.mono {m : Machine} {a b : Accesses} {t : ThreadId} {w : Walker} {i : Insn}
    (h : Recorded m a t w i) (hab : ∀ e, (a.find e).Extends (b.find e)) : Recorded m b t w i :=
  ⟨fun he => (hab _).accessors t (h.accessed he), fun he => (hab _).movers t (h.moved he)⟩

theorem Recorded.of_none {m : Machine} {accesses : Accesses} {t : ThreadId} {w : Walker} {i : Insn}
    (haccessed : w.accessed? m i = none) (hmoved : w.moved? m i = none) :
    Recorded m accesses t w i := by
  constructor
  · intro e write he
    rw [haccessed] at he
    cases he
  · intro e he
    rw [hmoved] at he
    cases he

namespace ScanSite

variable {s : ScanSite} {w w' : Walker} {p q : Plan}

/-- Scanning an instruction moves the walker on and puts on record what the instruction touches. -/
theorem insn_spec {i : Insn} (hw : w.object = s.object)
    (hthread : ∀ t, p.threads[s.thread]? = some t → t.object = s.object)
    (h : s.insn (w, p) i = .ok (w', q)) :
    w.step s.machine i = .ok w' ∧ p.Grows s.machine (some s.thread) q ∧
      Recorded s.machine q.accesses s.thread w i := by
  obtain ⟨hstep, _, _, _, haccessed, hmoved, -, hturn⟩ := insn_turn h
  refine ⟨hstep, ?_⟩
  have hnone : w.accessed? s.machine i = none → w.moved? s.machine i = none → ∀ accesses,
      Recorded s.machine accesses s.thread w i := fun h h' _ => .of_none h h'
  have hrequest : ∀ {label f} {p' : Plan}, p'.threads = p.threads →
      Walker.calledMethod? s.machine (some w.object) label = some f →
      p'.Grows s.machine (some s.thread) (p'.requestMethod s.thread label) := by
    intro label f p' hthreads hf
    refine .requestMethod fun t ht => .inr ⟨f, ?_⟩
    rw [hthread t (hthreads ▸ ht), ← hw]
    exact hf
  cases hturn with
  | quiet => exact ⟨.refl p, hnone haccessed hmoved _⟩
  | member adds =>
    refine ⟨.update adds fun a => a.add_extends _ _, fun he => ?_, fun he => ?_⟩
    · cases haccessed.symm.trans he
      rw [Accesses.find_update adds, if_pos rfl]
      exact Access.mem_add _ _ _
    · cases hmoved.symm.trans he
  | @array id name write accesses adds =>
    refine ⟨.update adds fun a => ?_, fun he => ?_, fun he => ?_⟩
    · have hext := a.add_extends s.thread write
      exact ⟨hext.accessors, hext.movers, hext.nodup⟩
    · cases haccessed.symm.trans he
      rw [Accesses.find_update adds, if_pos rfl]
      exact Access.mem_add _ _ write
    · cases hmoved.symm.trans he
  | mover adds =>
    refine ⟨.update adds fun a => ⟨fun _ => id, fun t ht => ?_, id⟩, fun he => ?_, fun he => ?_⟩
    · rw [BitSet.contains_insert, ht, Bool.or_true]
    · cases haccessed.symm.trans he
    · cases hmoved.symm.trans he
      rw [Accesses.find_update adds, if_pos rfl, BitSet.contains_insert]
      simp
  | flow _ call => exact ⟨(Plan.requestObject_enlarges call).grows, hnone haccessed hmoved _⟩
  | task _ call => exact ⟨(Plan.callTask_enlarges call).grows, hnone haccessed hmoved _⟩
  | port called claim =>
    exact ⟨(Plan.Grows.claimPort claim).trans (hrequest rfl called), hnone haccessed hmoved _⟩
  | own called _ => exact ⟨hrequest rfl called, hnone haccessed hmoved _⟩

theorem insns_spec {code : List Insn} (hw : w.object = s.object)
    (hthread : ∃ t, p.threads[s.thread]? = some t ∧ t.object = s.object)
    (h : code.foldlM s.insn (w, p) = .ok (w', q)) :
    p.Grows s.machine (some s.thread) q ∧ ∀ {k : Nat} {i : Insn} {v : Walker},
      code[k]? = some i → w.walk s.machine (code.take k) = .ok v →
        Recorded s.machine q.accesses s.thread v i := by
  induction code generalizing w p with
  | nil =>
    cases h
    exact ⟨.refl _, fun hi => by simp at hi⟩
  | cons i rest ih =>
    rw [List.foldlM_cons, except_bind_eq_ok] at h
    obtain ⟨⟨w₁, p₁⟩, hinsn, h⟩ := h
    obtain ⟨t, ht, hobject⟩ := hthread
    obtain ⟨hstep, hgrows, hrecorded⟩ := insn_spec hw
      (fun t' ht' => Option.some.inj (ht.symm.trans ht') ▸ hobject) hinsn
    obtain ⟨t₁, ht₁, hbecomes⟩ := hgrows.thread ht
    obtain ⟨hgrows', hrest⟩ := ih ((Walker.step_object hstep).trans hw)
      ⟨t₁, ht₁, hbecomes.object.trans hobject⟩ h
    refine ⟨hgrows.trans hgrows', fun {k j v} hj hv => ?_⟩
    cases k with
    | zero =>
      cases Option.some.inj hj
      cases hv
      exact hrecorded.mono hgrows'.accesses
    | succ k =>
      simp only [List.take_succ_cons, Walker.walk, List.foldlM_cons, except_bind_eq_ok] at hv
      obtain ⟨w₂, hw₂, hv⟩ := hv
      cases hstep.symm.trans hw₂
      exact hrest hj hv

end ScanSite

/-- Whether a thread has all that a method touches on record. A native method has no code to be
run in a design. -/
def Covers (m : Machine) (accesses : Accesses) (t : ThreadId) (object : Nat) (name : String) :
    Prop :=
  ∀ f, Walker.calledMethod? m (some object) name = some f → f.isNative = false →
    ∀ (k : Nat) (i : Insn) (w : Walker), f.code[k]? = some i →
      (Walker.start object).walk m (f.code.take k) = .ok w → Recorded m accesses t w i

theorem Covers.mono {m : Machine} {a b : Accesses} {t : ThreadId} {object : Nat} {name : String}
    (h : Covers m a t object name) (hab : ∀ e, (a.find e).Extends (b.find e)) :
    Covers m b t object name :=
  fun f hf hnative k i w hi hw => (h f hf hnative k i w hi hw).mono hab

theorem ScanSite.scan_spec {s : ScanSite} {p q : Plan}
    (hthread : ∃ t, p.threads[s.thread]? = some t ∧ t.object = s.object)
    (h : s.scan p = .ok q) : p.Grows s.machine (some s.thread) q ∧
      Covers s.machine q.accesses s.thread s.object s.method := by
  obtain ⟨o, f, ho, hf, hcases⟩ := scan_cases h
  have hcalled : Walker.calledMethod? s.machine (some s.object) s.method = some f := by
    simp [Walker.calledMethod?, ho, hf]
  rcases hcases with ⟨hnative, rfl, -⟩ | ⟨-, w, hcode⟩
  · refine ⟨.refl q, fun g hg hnative' => ?_⟩
    cases Option.some.inj (hcalled.symm.trans hg)
    rw [hnative] at hnative'
    cases hnative'
  · obtain ⟨hgrows, hrecorded⟩ := insns_spec rfl hthread hcode
    refine ⟨hgrows, fun g hg _ k i w hi hw => ?_⟩
    cases Option.some.inj (hcalled.symm.trans hg)
    exact hrecorded hi hw

namespace Plan

variable {m : Machine}

theorem scanMethods_spec {t : ThreadId} {count i : Nat} {p q : Plan}
    (h : p.scanMethods m t count i = .ok q) : p.Grows m (some t) q ∧
      ∀ {th : ThreadPlan} {j : Nat} {name : String}, q.threads[t]? = some th → i ≤ j →
        j < i + count → th.methods[j]? = some name → Covers m q.accesses t th.object name := by
  induction count generalizing i p with
  | zero =>
    cases h
    exact ⟨.refl _, fun _ hj hj' => by omega⟩
  | succ count ih =>
    unfold scanMethods at h
    split at h
    · rename_i hnone
      cases h
      exact ⟨.refl _, fun hth => by rw [hnone] at hth; cases hth⟩
    · rename_i th hth
      split at h
      · rename_i hnone
        cases h
        refine ⟨.refl _, fun {th' j name} hth' hj _ hname => ?_⟩
        cases Option.some.inj (hth.symm.trans hth')
        have hle : th.methods.length ≤ i := List.getElem?_eq_none_iff.mp hnone
        rw [List.getElem?_eq_none (by omega)] at hname
        cases hname
      · rename_i name hname
        simp only [except_bind_eq_ok, mapError_eq_ok] at h
        obtain ⟨p₁, hscan, h⟩ := h
        obtain ⟨hgrows, hcovers⟩ := ScanSite.scan_spec ⟨th, hth, rfl⟩ hscan
        obtain ⟨hgrows', hrest⟩ := ih h
        refine ⟨hgrows.trans hgrows', fun {th' j name'} hth' hj hj' hname' => ?_⟩
        rcases Nat.eq_or_lt_of_le hj with rfl | hlt
        · obtain ⟨th₁, hth₁, hbecomes⟩ := (hgrows.trans hgrows').thread hth
          cases Option.some.inj (hth₁.symm.trans hth')
          obtain ⟨rest, hrest'⟩ := hbecomes.methods
          have hlt := (List.getElem?_eq_some_iff.mp hname).1
          rw [← hrest', List.getElem?_append_left hlt, hname] at hname'
          cases hname'
          rw [hbecomes.object]
          exact hcovers.mono hgrows'.accesses
        · exact hrest hth' hlt (by omega) hname'

theorem length_methods_le {th : ThreadPlan} (h : th.Sound m) :
    th.methods.length ≤ ((m.object? th.object).map (·.slots.length)).getD 0 + 1 := by
  have hsub : th.methods ⊆
      th.entry :: ((m.object? th.object).map fun o => o.slots.map (·.name)).getD [] := by
    intro name hname
    rcases h.known name hname with rfl | ⟨f, hf⟩
    · exact List.mem_cons_self
    · refine List.mem_cons_of_mem _ ?_
      obtain ⟨o, ho, hf⟩ := Option.bind_eq_some_iff.mp hf
      replace ho : m.object? th.object = some o := ho
      unfold Object.method? at hf
      split at hf
      · rename_i hlookup
        obtain ⟨slot, hslot, -⟩ := Option.map_eq_some_iff.mp hlookup
        have hname : slot.name = name := by simpa using List.find?_some hslot
        simp only [ho, Option.map_some, Option.getD_some, List.mem_map]
        exact ⟨slot, List.mem_of_find?_eq_some hslot, hname⟩
      · cases hf
  have hle := (List.subperm_of_subset h.nodup hsub).length_le
  cases ho : m.object? th.object with
  | none => simpa [ho] using hle
  | some o => simpa [ho] using hle

def Covered (m : Machine) (p : Plan) : Prop :=
  ∀ (id : ThreadId) (t : ThreadPlan), p.threads[id]? = some t →
    ∀ name ∈ t.methods, Covers m p.accesses id t.object name

theorem Covered.of_others {p q : Plan} {scanned : Option ThreadId} (hp : p.Covered m)
    (h : p.Grows m scanned q) {id : ThreadId} {t : ThreadPlan} (ht : q.threads[id]? = some t)
    (hid : scanned ≠ some id) : ∀ name ∈ t.methods, Covers m q.accesses id t.object name := by
  intro name hname
  rcases h.others ht hid with hnil | ⟨t', ht', hmethods, hobject⟩
  · rw [hnil] at hname
    cases hname
  · rw [hmethods] at hname
    rw [← hobject]
    exact (hp id t' ht' name hname).mono h.accesses

theorem scanThread_spec {t : ThreadId} {p q : Plan} (hp : p.Sound m)
    (h : p.scanThread m t = .ok q) :
    p.Grows m (some t) q ∧ (p.Covered m → q.Covered m) := by
  unfold scanThread at h
  split at h
  · cases h
    exact ⟨.refl p, id⟩
  · rename_i th hth
    obtain ⟨hgrows', hcovers⟩ := scanMethods_spec h
    have hentry : p.Grows m (some t) (p.requestMethod t th.entry) :=
      .requestMethod fun th' hth' => .inl (Option.some.inj (hth.symm.trans hth') ▸ rfl)
    have hgrows := hentry.trans hgrows'
    refine ⟨hgrows, fun hcovered id t' ht' => ?_⟩
    by_cases hid : some t = some id
    · cases hid
      intro name hname
      obtain ⟨j, hj⟩ := List.mem_iff_getElem?.mp hname
      obtain ⟨th', hth', hbecomes⟩ := hgrows.thread hth
      cases Option.some.inj (hth'.symm.trans ht')
      have hle := length_methods_le ((hgrows.sound hp).threads _ (List.mem_of_getElem? ht'))
      have hlt := (List.getElem?_eq_some_iff.mp hj).1
      rw [hbecomes.object] at hle
      exact hcovers ht' (Nat.zero_le _) (by omega) hj
    · exact hcovered.of_others hgrows ht' hid

theorem scanThreads_spec {count : Nat} {t : ThreadId} {p q : Plan} (hp : p.Sound m)
    (hcovered : p.Covered m) (h : p.scanThreads m count t = .ok q) : q.Sound m ∧ q.Covered m := by
  induction count generalizing t p with
  | zero =>
    cases h
    exact ⟨hp, hcovered⟩
  | succ count ih =>
    unfold scanThreads at h
    split at h
    · rw [except_bind_eq_ok] at h
      obtain ⟨p₁, hscan, h⟩ := h
      obtain ⟨hgrows, hcovered'⟩ := scanThread_spec hp hscan
      exact ih (hgrows.sound hp) (hcovered' hcovered) h
    · cases h
      exact ⟨hp, hcovered⟩

section Ports

/-- A pool that a planned thread can come to have. -/
structure Widens (p q : Pool) : Prop where
  sound : p.Sound → q.Sound
  place : q.place = p.place
  arrays : ∀ id, q.keys.lookup ⟨"array", "", id, .truth⟩ = p.keys.lookup ⟨"array", "", id, .truth⟩

theorem Widens.refl (p : Pool) : Widens p p := ⟨id, rfl, fun _ => rfl⟩

theorem Widens.trans {p q r : Pool} (h : Widens p q) (h' : Widens q r) : Widens p r :=
  ⟨fun hp => h'.sound (h.sound hp), h'.place.trans h.place,
    fun id => (h'.arrays id).trans (h.arrays id)⟩

theorem Widens.of_takes {take : Pool → Nat × Pool} {kind : String} (h : Pool.TakesOther take kind)
    (p : Pool) : Widens p (take p).2 :=
  ⟨h.sound, (h.grows p).place, fun _ => h.tracked p rfl⟩

theorem port_widens (p : Pool) (name : String) (output : Bool) (width : UInt64) :
    Widens p (p.port name output width).2 := by
  have htakes := Pool.port_takes name output width
  refine ⟨htakes.sound, (htakes.grows p).place, fun id => ?_⟩
  exact Pool.lookup_request_of_ne p _ (by cases output <;> simp)

theorem masterPort?_widens (p : Pool) (id : Nat) (o : Object) : Widens p (p.masterPort? id o).2 := by
  unfold Pool.masterPort?
  split
  · exact .of_takes (Pool.arrayPort_takes id o true) p
  · exact .refl p

theorem slavePort?_widens (p : Pool) (id : Nat) (o : Object) : Widens p (p.slavePort? id o).2 := by
  unfold Pool.slavePort?
  split
  · exact .of_takes (Pool.arrayPort_takes id o false) p
  · exact .refl p

theorem methodPort?_widens (p : Pool) (f : Method) : Widens p (p.methodPort? f).2 := by
  unfold Pool.methodPort?
  split
  · exact port_widens p _ _ _
  · exact port_widens p _ _ _
  · exact .refl p

theorem Grows.setPool {p : Plan} {t : ThreadId} {f : Pool → Pool} (hf : ∀ q, Widens q (f q)) :
    p.Grows m none (p.updateThread t fun th => { th with pool := f th.pool }) := by
  refine .updateThread (fun th => ⟨rfl, rfl, rfl, List.prefix_refl _⟩) (fun th _ hs => ?_)
    (fun _ _ => rfl)
  exact ⟨(hf _).sound hs.pool, (hf _).place.trans hs.place,
    fun id => ((hf _).arrays id).trans (hs.arrays id), hs.nodup, hs.known⟩

theorem HandsOut.grows {p q : Plan} (h : p.HandsOut m q) : p.Grows m none q := by
  induction h with
  | refl => exact .refl p
  | array _ t id o ih =>
    exact ih.trans (.setPool fun q => (masterPort?_widens q id o).trans (slavePort?_widens _ id o))
  | @method _ _ _ _ _ f _ _ _ _ _ _ claim ih =>
    exact ih.trans ((Grows.claimPort claim).trans (.setPool fun q => methodPort?_widens q f))

end Ports

/-- The plan of a machine: its threads have places of their own, and all that they run is on
record. -/
theorem ofRoot_spec {root : Nat} {p : Plan} (h : ofRoot m root = .ok p) :
    p.Sound m ∧ p.Covered m := by
  obtain ⟨top, p₁, p₂, -, hobject, hscan, hports⟩ := ofRoot_eq_ok h
  have hempty : empty.Sound m := ⟨.nil, by simp [empty], fun e => by
    simp [empty, Accesses.empty, Accesses.find, Access.empty]⟩
  have hnone : empty.Covered m := fun id t ht => by simp [empty] at ht
  have hgrows : empty.Grows m none p₁ := (requestObject_enlarges hobject).grows
  obtain ⟨hsound, hcovered⟩ := scanThreads_spec (hgrows.sound hempty)
    (fun id t ht => hnone.of_others hgrows ht (by simp)) hscan
  exact ⟨hports.grows.sound hsound, fun id t ht => hcovered.of_others hports.grows ht (by simp)⟩

end Plan

end Synth
end MachineSynth
