import Mathlib
import MachineSynth.Proofs.Ownership.Calls
import MachineSynth.Proofs.Reach.Loops
import MachineSynth.Proofs.Scanning
import MachineSynth.Proofs.Sharing

/-! The calls of a scan: planning puts accesses on record one thread after the other, and of each
thread just what the code of its methods does. So the owner of an entity is the lowest thread that
writes it, or the lowest that reads it if none does. -/
namespace MachineSynth
namespace Synth

/-- Whether the code of a method of an object writes an entity, or reads it. -/
def Performs (m : Machine) (object : Nat) (f : Method) (e : Entity) (write : Bool) : Prop :=
  (Walker.start object).Along m f.code fun w i => w.accessed? m i = some (e, write)

/-- Whether the method of a name, if it has code to be run, writes an entity, or reads it. -/
def NamePerforms (m : Machine) (object : Nat) (name : String) (e : Entity) (write : Bool) : Prop :=
  ∃ f, Walker.calledMethod? m (some object) name = some f ∧ f.isNative = false ∧
    Performs m object f e write

/-- Whether a thread runs a method whose code writes an entity, or reads it. -/
def ThreadPlan.Performs (m : Machine) (t : ThreadPlan) (e : Entity) (write : Bool) : Prop :=
  ∃ name ∈ t.methods, NamePerforms m t.object name e write

/-- Whether the thread of a number writes an entity, or reads it. -/
def Plan.Performs (m : Machine) (p : Plan) (t : ThreadId) (e : Entity) (write : Bool) : Prop :=
  ∃ th, p.threads[t]? = some th ∧ th.Performs m e write

namespace Plan

/-- A plan later than another by calls, in the order of threads, by which threads access what they
have cause for and nothing else. -/
def Issues (cause : ThreadId → Entity → Bool → Prop) (p q : Plan) : Prop :=
  ∃ calls answers, p.accesses.run calls = .ok (answers, q.accesses) ∧
    ∀ e, (accessesOf e calls).Pairwise (fun x y => x.1 ≤ y.1) ∧
      ∀ t write, (t, write) ∈ accessesOf e calls ↔ cause t e write

namespace Issues

variable {cause cause' : ThreadId → Entity → Bool → Prop} {p q r : Plan}

theorem of_eq (h : q.accesses = p.accesses) (hcause : ∀ t e write, ¬ cause t e write) :
    Issues cause p q :=
  ⟨[], [], by rw [h]; rfl, fun e => ⟨.nil, fun t write => by simp [hcause]⟩⟩

theorem single {c : Call} {a : Answer} (h : c.run p.accesses = .ok (a, q.accesses))
    (hcause : ∀ t e write, c.access? e = some (t, write) ↔ cause t e write) : Issues cause p q := by
  refine ⟨[c], [a], Accesses.run_cons_eq_ok.mpr ⟨a, _, [], h, rfl, rfl⟩, fun e => ?_⟩
  rw [accessesOf]
  cases haccess : c.access? e with
  | none => exact ⟨by simp [haccess], fun t write => by simp [haccess, ← hcause]⟩
  | some x =>
    refine ⟨by simp [haccess], fun t write => ?_⟩
    rw [← hcause, haccess]
    simp [haccess, eq_comm]

theorem congr (h : Issues cause p q) (hcause : ∀ t e write, cause t e write ↔ cause' t e write) :
    Issues cause' p q := by
  obtain ⟨calls, answers, hrun, hcalls⟩ := h
  exact ⟨calls, answers, hrun, fun e =>
    ⟨(hcalls e).1, fun t write => ((hcalls e).2 t write).trans (hcause t e write)⟩⟩

/-- Calls of threads that come later can follow. -/
theorem trans (h : Issues cause p q) (h' : Issues cause' q r)
    (horder : ∀ t e write t' write', cause t e write → cause' t' e write' → t ≤ t') :
    Issues (fun t e write => cause t e write ∨ cause' t e write) p r := by
  obtain ⟨cs, as, hcs, hc⟩ := h
  obtain ⟨ds, bs, hds, hd⟩ := h'
  refine ⟨cs ++ ds, as ++ bs, Accesses.run_append hcs hds, fun e => ?_⟩
  rw [accessesOf_append]
  refine ⟨List.pairwise_append.mpr ⟨(hc e).1, (hd e).1, fun x hx y hy => ?_⟩, fun t write => ?_⟩
  · exact horder x.1 e x.2 y.1 y.2 (((hc e).2 _ _).mp hx) (((hd e).2 _ _).mp hy)
  · rw [List.mem_append, (hc e).2, (hd e).2]

end Issues

end Plan

namespace ScanSite

open Plan (Issues)

variable {s : ScanSite} {w w' : Walker} {p q : Plan}

/-- Whether an instruction is a cause for the thread that is scanned to write an entity, or to read
it. -/
def causes (s : ScanSite) (w : Walker) (i : Insn) (t : ThreadId) (e : Entity) (write : Bool) :
    Prop :=
  t = s.thread ∧ w.accessed? s.machine i = some (e, write)

theorem issues_of_none {i : Insn} (hi : w.accessed? s.machine i = none)
    (h : q.accesses = p.accesses) : Issues (s.causes w i) p q :=
  .of_eq h fun t e write => by simp [causes, hi]

theorem ite_eq_some_iff {e e' : Entity} {t t' : ThreadId} {write write' : Bool} :
    (if e' = e then some (t', write') else none) = some (t, write) ↔
      t = t' ∧ some (e', write') = some (e, write) := by
  by_cases he : e' = e
  · simp [he, eq_comm]
  · simp [he]

theorem insn_issues {i : Insn} (h : s.insn (w, p) i = .ok (w', q)) :
    Issues (s.causes w i) p q := by
  obtain ⟨-, _, _, _, haccessed, -, -, hturn⟩ := insn_turn h
  have hother : ∀ {c : Call} {a : Answer} {q : Plan}, w.accessed? s.machine i = none →
      c.run p.accesses = .ok (a, q.accesses) → (∀ e, c.access? e = none) →
      Issues (s.causes w i) p q :=
    fun hi hc hnone => .single hc fun t e write => by simp [causes, hnone, hi]
  cases hturn with
  | quiet => exact issues_of_none haccessed rfl
  | @member owner label write accesses adds =>
    refine .single (c := .member s.thread owner label write) (a := .nothing) ?_ fun t e write' => ?_
    · rw [Call.run, adds]
      rfl
    · rw [causes, haccessed]
      exact ite_eq_some_iff
  | @array id name write accesses adds =>
    refine .single (c := .object s.thread id write name) (a := .nothing) ?_ fun t e write' => ?_
    · rw [Call.run, adds]
      rfl
    · rw [causes, haccessed]
      exact ite_eq_some_iff
  | @mover id accesses adds =>
    refine hother (c := .mover s.thread id) (a := .nothing) haccessed ?_ fun _ => rfl
    rw [Call.run, adds]
    rfl
  | flow _ call => exact issues_of_none haccessed (Plan.requestObject_enlarges call).accesses
  | task _ call => exact issues_of_none haccessed (Plan.callTask_enlarges call).accesses
  | @port label f accesses called claim =>
    refine hother (c := .claim s.thread ⟨w.object, label⟩) (a := .granted true) haccessed ?_
      fun _ => rfl
    rw [Call.run, claim]
    rfl
  | own => exact issues_of_none haccessed rfl

/-- The scan of a sequence accesses what the sequence does. -/
theorem insns_issues {code : List Insn} (hw : w.object = s.object)
    (hthread : ∃ t, p.threads[s.thread]? = some t ∧ t.object = s.object)
    (h : code.foldlM s.insn (w, p) = .ok (w', q)) :
    Issues (fun t e write => t = s.thread ∧
      w.Along s.machine code fun v i => v.accessed? s.machine i = some (e, write)) p q := by
  induction code generalizing w p with
  | nil =>
    cases h
    exact .of_eq rfl fun t e write => by simp [Walker.along_nil]
  | cons i rest ih =>
    rw [List.foldlM_cons, except_bind_eq_ok] at h
    obtain ⟨⟨w₁, p₁⟩, hinsn, h⟩ := h
    obtain ⟨t, ht, hobject⟩ := hthread
    obtain ⟨hstep, hgrows, -⟩ := insn_spec hw
      (fun t' ht' => Option.some.inj (ht.symm.trans ht') ▸ hobject) hinsn
    obtain ⟨t₁, ht₁, hbecomes⟩ := hgrows.thread ht
    have hrest := ih ((Walker.step_object hstep).trans hw)
      ⟨t₁, ht₁, hbecomes.object.trans hobject⟩ h
    refine ((insn_issues hinsn).trans hrest fun _ _ _ _ _ hc hc' => ?_).congr fun t e write => ?_
    · exact (hc.1.trans hc'.1.symm).le
    · rw [Walker.along_cons hstep, causes]
      exact and_or_left.symm

theorem scan_issues (hthread : ∃ t, p.threads[s.thread]? = some t ∧ t.object = s.object)
    (h : s.scan p = .ok q) : Issues (fun t e write => t = s.thread ∧
      NamePerforms s.machine s.object s.method e write) p q := by
  obtain ⟨o, f, ho, hf, hcases⟩ := scan_cases h
  have hcalled : Walker.calledMethod? s.machine (some s.object) s.method = some f := by
    simp [Walker.calledMethod?, ho, hf]
  rcases hcases with ⟨hnative, rfl, -⟩ | ⟨hnative, w, hcode⟩
  · refine .of_eq rfl ?_
    rintro t e write ⟨-, f', hf', hnot, -⟩
    cases hcalled.symm.trans hf'
    rw [hnative] at hnot
    cases hnot
  · refine (insns_issues rfl hthread hcode).congr fun t e write => and_congr_right fun _ => ?_
    constructor
    · exact fun hdone => ⟨f, hcalled, hnative, hdone⟩
    · rintro ⟨f', hf', -, hdone⟩
      cases hcalled.symm.trans hf'
      exact hdone

end ScanSite

namespace Plan

variable {m : Machine} {p q : Plan}

theorem Grows.kept {scanned : Option ThreadId} (h : p.Grows m scanned q) {t : ThreadId}
    {th : ThreadPlan} (hth : p.threads[t]? = some th) (ht : scanned ≠ some t) :
    ∃ th', q.threads[t]? = some th' ∧ th'.methods = th.methods ∧ th'.object = th.object := by
  obtain ⟨th', hth', hbecomes⟩ := h.thread hth
  refine ⟨th', hth', ?_, hbecomes.object⟩
  rcases h.others hth' ht with hnil | ⟨th₀, hth₀, hmethods, -⟩
  · have hprefix := hbecomes.methods
    rw [hnil] at hprefix ⊢
    exact (List.prefix_nil.mp hprefix).symm
  · cases hth.symm.trans hth₀
    exact hmethods

/-- A thread that is not scanned does what it did; a new one has no methods yet. -/
theorem Grows.performs_iff {scanned : Option ThreadId} (h : p.Grows m scanned q) {t : ThreadId}
    (ht : scanned ≠ some t) {e : Entity} {write : Bool} :
    q.Performs m t e write ↔ p.Performs m t e write := by
  constructor
  · rintro ⟨th, hth, name, hname, hdone⟩
    rcases h.others hth ht with hnil | ⟨th', hth', hmethods, hobject⟩
    · rw [hnil] at hname
      cases hname
    · exact ⟨th', hth', name, hmethods ▸ hname, hobject ▸ hdone⟩
  · rintro ⟨th, hth, name, hname, hdone⟩
    obtain ⟨th', hth', hmethods, hobject⟩ := h.kept hth ht
    exact ⟨th', hth', name, hmethods ▸ hname, hobject ▸ hdone⟩

theorem ScansMethods.issues {t i : Nat} {r : Except Stop Plan} (h : ScansMethods m t i p r)
    (hr : r = .ok q) : p.Grows m (some t) q ∧ Issues (fun k e write => k = t ∧
      ∃ th j name, q.threads[t]? = some th ∧ i ≤ j ∧ th.methods[j]? = some name ∧
        NamePerforms m th.object name e write) p q := by
  induction h with
  | done thread last =>
    cases hr
    refine ⟨.refl _, .of_eq rfl ?_⟩
    rintro k e write ⟨-, th, j, name, hth, hj, hname, -⟩
    cases thread.symm.trans hth
    rw [List.getElem?_eq_none ((List.getElem?_eq_none_iff.mp last).trans hj)] at hname
    cases hname
  | stop => cases hr
  | next thread method ends scan next ih =>
    rename_i i p p₁ th name r
    obtain ⟨hgrows, -⟩ := ScanSite.scan_spec ⟨th, thread, rfl⟩ scan
    obtain ⟨hgrows', hrest⟩ := ih hr
    have hone := ScanSite.scan_issues ⟨th, thread, rfl⟩ scan
    refine ⟨hgrows.trans hgrows', (hone.trans hrest fun _ _ _ _ _ hc hc' => ?_).congr
      fun k e write => ?_⟩
    · exact (hc.1.trans hc'.1.symm).le
    · obtain ⟨th', hth', hbecomes⟩ := (hgrows.trans hgrows').thread thread
      have hname : th'.methods[i]? = some name := by
        obtain ⟨rest, hrest⟩ := hbecomes.methods
        rw [← hrest, List.getElem?_append_left (List.getElem?_eq_some_iff.mp method).1, method]
      simp only [hth', Option.some.injEq, exists_and_left, exists_eq_left', hbecomes.object]
      constructor
      · rintro (⟨rfl, hdone⟩ | ⟨rfl, j, hj, name', hname', hdone⟩)
        · exact ⟨rfl, i, Nat.le_refl i, name, hname, hdone⟩
        · exact ⟨rfl, j, by omega, name', hname', hdone⟩
      · rintro ⟨rfl, j, hj, name', hname', hdone⟩
        rcases Nat.eq_or_lt_of_le hj with rfl | hlt
        · cases hname.symm.trans hname'
          exact .inl ⟨rfl, hdone⟩
        · exact .inr ⟨rfl, j, hlt, name', hname', hdone⟩

theorem ScansThreads.issues {t : Nat} {r : Except Stop Plan} (h : ScansThreads m t p r)
    (hr : r = .ok q) : (∀ k < t, ∀ th, p.threads[k]? = some th →
      ∃ th', q.threads[k]? = some th' ∧ th'.methods = th.methods ∧ th'.object = th.object) ∧
      Issues (fun k e write => t ≤ k ∧ q.Performs m k e write) p q := by
  induction h with
  | done last =>
    cases hr
    refine ⟨fun k _ th hth => ⟨th, hth, rfl, rfl⟩, .of_eq rfl ?_⟩
    rintro k e write ⟨hk, th, hth, -⟩
    rw [List.getElem?_eq_none ((List.getElem?_eq_none_iff.mp last).trans hk)] at hth
    cases hth
  | stop => cases hr
  | next thread scan next ih =>
    rename_i t p p₁ th r
    obtain ⟨hkept, hrest⟩ := ih hr
    obtain ⟨hgrows', hone⟩ := scan.issues rfl
    have hentry : p.Grows m (some t) (p.requestMethod t th.entry) :=
      .requestMethod fun th' hth' => .inl (Option.some.inj (thread.symm.trans hth') ▸ rfl)
    have hgrows := hentry.trans hgrows'
    replace hone : Issues _ p p₁ := hone
    obtain ⟨th₁, hth₁, -⟩ := hgrows.thread thread
    obtain ⟨th₂, hth₂, hmethods, hobject⟩ := hkept t (Nat.lt_succ_self t) th₁ hth₁
    have hperforms : ∀ e write, q.Performs m t e write ↔
        ∃ (j : Nat) (name : String), th₁.methods[j]? = some name ∧
          NamePerforms m th₁.object name e write := by
      intro e write
      simp only [Performs, hth₂, Option.some.injEq, exists_eq_left', ThreadPlan.Performs, hmethods,
        hobject, List.mem_iff_getElem?]
      constructor
      · rintro ⟨name, ⟨j, hname⟩, hdone⟩
        exact ⟨j, name, hname, hdone⟩
      · rintro ⟨j, name, hname, hdone⟩
        exact ⟨name, ⟨j, hname⟩, hdone⟩
    refine ⟨fun k hk th hth => ?_, (hone.trans hrest fun _ _ _ _ _ hc hc' => ?_).congr
      fun k e write => ?_⟩
    · obtain ⟨th', hth', hmethods', hobject'⟩ :=
        hgrows.kept hth fun heq => absurd (Option.some.inj heq) hk.ne'
      obtain ⟨th'', hth'', hmethods'', hobject''⟩ := hkept k (Nat.lt_succ_of_lt hk) th' hth'
      exact ⟨th'', hth'', hmethods''.trans hmethods', hobject''.trans hobject'⟩
    · rw [hc.1]
      exact (Nat.le_succ t).trans hc'.1
    · simp only [hth₁, Option.some.injEq, exists_and_left, exists_eq_left', Nat.zero_le, true_and]
      constructor
      · rintro (⟨rfl, j, name, hname, hdone⟩ | ⟨hk, hdone⟩)
        · exact ⟨Nat.le_refl _, (hperforms e write).mpr ⟨j, name, hname, hdone⟩⟩
        · exact ⟨(Nat.le_succ t).trans hk, hdone⟩
      · rintro ⟨hk, hdone⟩
        rcases Nat.eq_or_lt_of_le hk with rfl | hlt
        · exact .inl ⟨rfl, (hperforms e write).mp hdone⟩
        · exact .inr ⟨hlt, hdone⟩

theorem HandsOut.issues (h : p.HandsOut m q) : Issues (fun _ _ _ => False) p q := by
  induction h with
  | refl => exact .of_eq rfl fun _ _ _ => id
  | array _ _ _ _ ih => exact ih
  | @method q _ t object _ f granted accesses _ _ _ _ claim ih =>
    have hone : Issues (fun _ _ _ => False) q { q with accesses := accesses } := by
      refine .single (c := .claim t ⟨object, f.name⟩) (a := .granted granted) ?_ fun _ _ _ => ?_
      · rw [Call.run, claim]
        rfl
      · simp [Call.access?]
    exact (ih.trans hone fun _ _ _ _ _ => False.elim).congr fun _ _ _ => or_self_iff

/-- What planning puts on record is what threads do, in the order of threads. -/
theorem ofRoot_issues {root : Nat} (h : ofRoot m root = .ok p) :
    Issues (p.Performs m) empty p := by
  obtain ⟨top, p₁, p₂, -, hobject, hscan, hports⟩ := ofRoot_eq_ok h
  have hscans : ScansThreads m 0 p₁ (.ok p₂) :=
    hscan ▸ scansThreads_of_scanThreads (requested_settled hobject) (Nat.le_add_left _ _)
  have hrequest : Issues (fun _ _ _ => False) empty p₁ :=
    .of_eq (requestObject_enlarges hobject).accesses fun _ _ _ => id
  have hall := (hrequest.trans (hscans.issues rfl).2 fun _ _ _ _ _ hc => hc.elim).trans
    hports.issues fun _ _ _ _ _ _ hc => hc.elim
  refine hall.congr fun t e write => ?_
  simp only [Nat.zero_le, true_and, false_or, or_false]
  exact (hports.grows.performs_iff (by simp)).symm

/-- The lowest thread that writes an entity or, if none does, the lowest that accesses it. -/
def Leads (m : Machine) (p : Plan) (e : Entity) (t : ThreadId) : Prop :=
  IsLeast {k | p.Performs m k e true} t ∨
    (∀ k, ¬ p.Performs m k e true) ∧ IsLeast {k | ∃ write, p.Performs m k e write} t

end Plan

theorem sorted_eraseDups {ts : List ThreadId} (h : ts.Pairwise (· ≤ ·)) :
    ts.eraseDups.Pairwise (· < ·) := by
  induction ts using List.reverseRecOn with
  | nil => exact .nil
  | append_singleton ts t ih =>
    obtain ⟨hts, -, hle⟩ := List.pairwise_append.mp h
    rw [eraseDups_concat]
    split
    · exact ih hts
    · rename_i hnew
      refine List.pairwise_append.mpr ⟨ih hts, by simp, fun u hu v hv => ?_⟩
      cases List.mem_singleton.mp hv
      refine Nat.lt_of_le_of_ne (hle u (List.mem_eraseDups.mp hu) t (by simp)) ?_
      rintro rfl
      exact hnew (List.contains_iff_mem.mpr (List.mem_eraseDups.mp hu))

theorem find?_eq_some_iff_isLeast {ts : List ThreadId} {P : ThreadId → Bool} {Q : ThreadId → Prop}
    (h : ts.Pairwise (· < ·)) (hQ : ∀ k, Q k ↔ k ∈ ts ∧ P k = true) {t : ThreadId} :
    ts.find? P = some t ↔ IsLeast {k | Q k} t := by
  have hleast : ∀ {u}, ts.find? P = some u → IsLeast {k | Q k} u := by
    intro u hfind
    obtain ⟨hP, before, after, rfl, hnone⟩ := List.find?_eq_some_iff_append.mp hfind
    refine ⟨(hQ u).mpr ⟨by simp, hP⟩, fun v hv => ?_⟩
    obtain ⟨hv, hPv⟩ := (hQ v).mp hv
    rcases List.mem_append.mp hv with hv | hv
    · have hnot := hnone v hv
      rw [hPv] at hnot
      cases hnot
    · rcases List.mem_cons.mp hv with rfl | hv
      · exact Nat.le_refl _
      · exact ((List.pairwise_cons.mp (List.pairwise_append.mp h).2.1).1 v hv).le
  refine ⟨hleast, fun ht => ?_⟩
  obtain ⟨hmem, hP⟩ := (hQ t).mp ht.1
  cases hfind : ts.find? P with
  | none => exact absurd hP (List.find?_eq_none.mp hfind t hmem)
  | some u => rw [(hleast hfind).unique ht]

namespace Plan

variable {m : Machine} {p : Plan}

theorem owner_leads {root : Nat} {owners : OwnershipTable} {closed : Accesses}
    (h : ofRoot m root = .ok p) (hsettle : p.accesses.settle = .ok (owners, closed)) (e : Entity)
    (t : ThreadId) : (owners.get e).owner = some t ↔ p.Leads m e t := by
  obtain ⟨calls, answers, hrun, hcalls⟩ := ofRoot_issues h
  obtain ⟨hsorted, hcause⟩ := hcalls e
  have hdocuments := (Accesses.documents_of_settle hrun hsettle).entities e
  generalize owners.get e = o at hdocuments
  have hascend : o.accessors.Pairwise (· < ·) := by
    rw [hdocuments.accessors]
    exact sorted_eraseDups (hsorted.map _ fun _ _ hle => hle)
  have haccessor : ∀ k, (∃ write, p.Performs m k e write) ↔ k ∈ o.accessors := by
    intro k
    simp only [hdocuments.accessors, List.mem_eraseDups, List.mem_map, Prod.exists,
      exists_and_right, exists_eq_right, hcause]
  have hwriter : ∀ k, p.Performs m k e true ↔ k ∈ o.accessors ∧ decide (k ∈ o.writers) = true := by
    intro k
    have hwrites : k ∈ o.writers ↔ p.Performs m k e true :=
      (hdocuments.writers.2 k).trans (hcause k true)
    rw [decide_eq_true_eq, hwrites, ← haccessor]
    exact ⟨fun hk => ⟨⟨true, hk⟩, hk⟩, And.right⟩
  have hnone : (∀ k, ¬ p.Performs m k e true) ↔ o.accessors.find? (· ∈ o.writers) = none := by
    rw [List.find?_eq_none]
    simp only [hwriter, not_and]
  have hany : ∀ k, (∃ write, p.Performs m k e write) ↔ k ∈ o.accessors ∧ true = true :=
    fun k => (haccessor k).trans (and_iff_left rfl).symm
  have hhead : o.accessors.head? = o.accessors.find? fun _ => true := by
    cases o.accessors <;> rfl
  rw [hdocuments.owner, Leads, ← find?_eq_some_iff_isLeast hascend hwriter, hnone, hhead,
    ← find?_eq_some_iff_isLeast hascend hany]
  cases o.accessors.find? (· ∈ o.writers) with
  | none => simp only [Option.none_or, reduceCtorEq, false_or, true_and]
  | some u => simp only [Option.some_or, reduceCtorEq, false_and, or_false]

/-- Ownership is the documented function of the calls that come before it is settled, and nothing
that is called later changes it. In a plan the owner of an entity is the lowest thread whose code
writes it or, if there is none, the lowest whose code accesses it. -/
theorem ownership_follows_calls (calls later : List Call) {root : Nat}
    (h : ofRoot m root = .ok p) :
    (∃ answers s owners closed, Accesses.empty.run calls = .ok (answers, s) ∧
      s.settle = .ok (owners, closed) ∧ owners.Documents calls answers ∧
      owners.Frozen (closed.attempts later)) ∧
    ∃ owners closed, p.accesses.settle = .ok (owners, closed) ∧
      ∀ e t, (owners.get e).owner = some t ↔ p.Leads m e t := by
  constructor
  · obtain ⟨answers, s, hrun⟩ := Accesses.empty.run_of_open calls rfl
    have hopen : s.closed = false := (Accesses.Tallies.empty.run hrun).opened
    obtain ⟨owners, hsettle⟩ := Accesses.settle_eq_ok hopen
    exact ⟨answers, s, owners, _, hrun, hsettle, Accesses.documents_of_settle hrun hsettle,
      Accesses.frozen_of_settle hsettle later⟩
  · obtain ⟨calls, answers, hrun, -⟩ := ofRoot_issues h
    have hopen : p.accesses.closed = false := (Accesses.Tallies.empty.run hrun).opened
    obtain ⟨owners, hsettle⟩ := Accesses.settle_eq_ok hopen
    exact ⟨owners, _, hsettle, owner_leads h hsettle⟩

/-- Calls of three threads for a member and a port method. -/
def rivalAccesses : List Call :=
  [.count ⟨0, "x"⟩, .member 3 0 "x" false, .member 1 0 "x" true, .claim 3 ⟨0, "put"⟩,
    .member 0 0 "x" true, .member 3 0 "x" true, .claim 1 ⟨0, "put"⟩]

/-- The third to access the member is the lowest, but the first has it, as it writes in the end. In
the other run the first thread reads a member that the second writes and owns. -/
theorem movedArray_owned : (∃ answers s owners closed,
    Accesses.empty.run rivalAccesses = .ok (answers, s) ∧
      s.settle = .ok (owners, closed) ∧ (owners.get ⟨0, "x"⟩).accessors = [3, 1, 0] ∧
      (owners.get ⟨0, "x"⟩).owner = some 3 ∧ answers[6]? = some (.granted false) ∧
      owners.Frozen (closed.attempts rivalAccesses)) ∧
    ∃ p owners closed, ofRoot Synthesis.movedArray 0 = .ok p ∧
      p.accesses.settle = .ok (owners, closed) ∧ (owners.get ⟨0, "x"⟩).accessors = [0, 1] ∧
      p.Leads Synthesis.movedArray ⟨0, "x"⟩ 1 := by
  have h : (ofRoot Synthesis.movedArray 0).toOption.any (fun p => p.accesses.settle.toOption.any
      fun x => decide ((x.1.get ⟨0, "x"⟩).accessors = [0, 1] ∧
        (x.1.get ⟨0, "x"⟩).owner = some 1)) = true := by decide +kernel
  obtain ⟨p, hp, h⟩ := exists_ok_of_any h
  obtain ⟨⟨owners, closed⟩, hsettle, h⟩ := exists_ok_of_any h
  obtain ⟨haccessors, howner⟩ := of_decide_eq_true h
  obtain ⟨⟨answers, s, owners', closed', hrun, hsettle', hdocuments, hfrozen⟩, owners'', closed'',
    hsettle'', hleads⟩ := ownership_follows_calls rivalAccesses rivalAccesses hp
  cases hsettle.symm.trans hsettle''
  refine ⟨⟨answers, s, owners', closed', hrun, hsettle', ?_, ?_, ?_, hfrozen⟩, p, owners, closed, hp,
    hsettle, haccessors, (hleads _ _).mp howner⟩
  · rw [(hdocuments.entities _).accessors]
    decide +kernel
  · have hwriters : (3 : ThreadId) ∈ (owners'.get ⟨0, "x"⟩).writers :=
      ((hdocuments.entities _).writers.2 3).mpr (by decide)
    have hfirst : (owners'.get ⟨0, "x"⟩).accessors = [3, 1, 0] := by
      rw [(hdocuments.entities _).accessors]
      decide +kernel
    rw [(hdocuments.entities _).owner, hfirst]
    simp [hwriters]
  · exact hdocuments.claims 6 1 ⟨0, "put"⟩ rfl

end Plan
end Synth
end MachineSynth
