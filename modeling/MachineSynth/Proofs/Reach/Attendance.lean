import Mathlib
import MachineSynth.Proofs.Reach.Loops

/-! Attendance: the objects that are in a design, with the threads that they run by themselves. They
are those that are called, the top-level object, and members of them that have threads. -/
namespace MachineSynth
namespace Synth
namespace Plan

/-- Whether an object has another as a member that is requested along with it. -/
def Keeps (m : Machine) (id k : Nat) : Prop :=
  k ∈ m.members id ∧ ∃ o, m.object? k = some o ∧ o.kind = .plain ∧ hasThreads o = true

inductive Attended (m : Machine) (root : Nat) (p : Plan) : Nat → Prop
  | top : Attended m root p root
  | member {id k : Nat} (outer : Attended m root p id) (keeps : Keeps m id k) : Attended m root p k
  | call {j id : Nat} {t : ThreadPlan} {name : String} {d : Demand} (thread : p.threads[j]? = some t)
      (runs : name ∈ t.methods) (demands : Demands m t.object name d)
      (object : d.object? = some id) : Attended m root p id

/-- What is in turn to be opened is open or still to be requested. -/
def ClosedBut (m : Machine) (todo : List Nat) (p : Plan) : Prop :=
  ∀ mod ∈ p.modules, ∀ k, Keeps m mod.object k → (p.module? k).isSome = true ∨ k ∈ todo

/-- Whether a plan has the objects that it is to have, and no others. -/
structure Attends (m : Machine) (root : Nat) (p : Plan) : Prop where
  top : (p.module? root).isSome = true
  closed : ClosedBut m [] p
  attended : ∀ mod ∈ p.modules, Attended m root p mod.object

variable {m : Machine} {root : Nat} {asked : ThreadId → String → Prop} {p q : Plan}

theorem Attended.mono (h : Continues asked p q) {id : Nat} (hid : Attended m root p id) :
    Attended m root q id := by
  induction hid with
  | top => exact .top
  | member _ keeps ih => exact ih.member keeps
  | call thread runs demands object =>
    obtain ⟨t', ht', hbare, hgrown⟩ := h.thread thread
    exact .call ht' (hgrown.subset runs) ((ThreadPlan.eq_of_bare hbare).1 ▸ demands) object

theorem Attends.congr (h : Attends m root p) (hcontinues : Continues asked p q)
    (hmodules : q.modules = p.modules) : Attends m root q := by
  have hmodule : ∀ id, q.module? id = p.module? id := fun id => by rw [module?, hmodules, module?]
  refine ⟨by rw [hmodule]; exact h.top, fun mod hmod k hk => ?_, fun mod hmod => ?_⟩
  · rw [hmodule]
    exact h.closed mod (hmodules ▸ hmod) k hk
  · exact (h.attended mod (hmodules ▸ hmod)).mono hcontinues

theorem Attends.module?_isSome_iff (h : Attends m root p) (hp : p.Settled m p.threads.length)
    (id : Nat) : (p.module? id).isSome = true ↔ Attended m root p id := by
  constructor
  · intro hid
    obtain ⟨k, hk⟩ := Option.isSome_iff_exists.mp hid
    obtain ⟨mod, hmod, rfl⟩ := mem_of_module? hk
    exact h.attended mod (List.mem_of_getElem? hmod)
  · intro hid
    induction hid with
    | top => exact h.top
    | member _ keeps ih =>
      obtain ⟨k, hk⟩ := Option.isSome_iff_exists.mp ih
      obtain ⟨mod, hmod, rfl⟩ := mem_of_module? hk
      exact (h.closed mod (List.mem_of_getElem? hmod) _ keeps).resolve_right List.not_mem_nil
    | @call j id t name d thread runs demands object =>
      have hmet := hp.met thread name runs d demands
      cases d <;> cases object
      · exact hmet
      · exact hmet.1

section Requests

variable {todo : List (Option Nat × Nat)} {r : Except Fault Plan}

theorem mem_busyMembers {id k : Nat} {xs : List (Nat × Object)} (h : m.memberObjects id = .ok xs) :
    k ∈ busyMembers xs ↔ Keeps m id k := by
  obtain ⟨hmembers, hobjects⟩ := memberObjects_spec h
  simp only [busyMembers, List.mem_map, List.mem_filter, Bool.and_eq_true, decide_eq_true_eq]
  constructor
  · rintro ⟨x, ⟨hx, hplain, hbusy⟩, rfl⟩
    exact ⟨(hobjects x hx).1, x.2, (hobjects x hx).2, hplain, hbusy⟩
  · rintro ⟨hk, o, ho, hplain, hbusy⟩
    obtain ⟨o', ho'⟩ := hmembers k hk
    cases ho.symm.trans (hobjects _ ho').2
    exact ⟨_, ⟨ho', hplain, hbusy⟩, rfl⟩

theorem module?_mono {id : Nat} {mods : List ModulePlan} (h : (p.module? id).isSome = true)
    (hq : q.modules = p.modules ++ mods) : (q.module? id).isSome = true := by
  obtain ⟨k, hk⟩ := Option.isSome_iff_exists.mp h
  exact Option.isSome_iff_exists.mpr ⟨k, module?_append hk hq⟩

theorem Requests.closes (h : Requests m todo p r) (hr : r = .ok q)
    (hp : ClosedBut m (todo.map (·.2)) p) :
    ClosedBut m [] q ∧ (∀ x ∈ todo, (q.module? x.2).isSome = true) ∧
      ∀ id, (p.module? id).isSome = true → (q.module? id).isSome = true := by
  induction h with
  | done p =>
    cases hr
    exact ⟨hp, by simp, fun _ => id⟩
  | @known caller id rest p r old next ih =>
    obtain ⟨hclosed, hall, hkept⟩ := ih hr fun mod hmod k hk => by
      rcases hp mod hmod k hk with hopen | hk
      · exact .inl hopen
      · rcases List.mem_cons.mp hk with rfl | hk
        · exact .inl old
        · exact .inr hk
    refine ⟨hclosed, fun x hx => ?_, hkept⟩
    rcases List.mem_cons.mp hx with rfl | hx
    · exact hkept _ old
    · exact hall x hx
  | absent new object => cases hr
  | broken new object members => cases hr
  | @opens caller id rest p o xs r new object members next ih =>
    have hmodules := modules_opened p id caller o
    have hself : ((p.opened id caller o).module? id).isSome = true := by
      rw [module?_opened new o]
      rfl
    obtain ⟨hclosed, hall, hkept⟩ := ih hr fun mod hmod k hk => by
      rw [hmodules] at hmod
      rw [List.map_append, List.map_map, List.mem_append]
      rcases List.mem_append.mp hmod with hmod | hmod
      · rcases hp mod hmod k hk with hopen | hk
        · exact .inl (module?_mono hopen hmodules)
        · rcases List.mem_cons.mp hk with rfl | hk
          · exact .inl hself
          · exact .inr (.inr hk)
      · cases List.mem_singleton.mp hmod
        exact .inr (.inl (List.mem_map.mpr ⟨k, (mem_busyMembers members).mpr hk, rfl⟩))
    refine ⟨hclosed, fun x hx => ?_, fun k hk => hkept k (module?_mono hk hmodules)⟩
    rcases List.mem_cons.mp hx with rfl | hx
    · exact hkept _ hself
    · exact hall x (List.mem_append_right _ hx)

theorem Requests.within {P : Nat → Prop} (h : Requests m todo p r) (hr : r = .ok q)
    (hkeeps : ∀ id k, P id → Keeps m id k → P k) (htodo : ∀ x ∈ todo, P x.2)
    (hp : ∀ mod ∈ p.modules, P mod.object) : ∀ mod ∈ q.modules, P mod.object := by
  induction h with
  | done p =>
    cases hr
    exact hp
  | known old next ih => exact ih hr (fun x hx => htodo x (List.mem_cons_of_mem _ hx)) hp
  | absent new object => cases hr
  | broken new object members => cases hr
  | @opens caller id rest p o xs r new object members next ih =>
    have hid : P id := htodo (caller, id) List.mem_cons_self
    refine ih hr (fun x hx => ?_) fun mod hmod => ?_
    · rcases List.mem_append.mp hx with hx | hx
      · obtain ⟨k, hk, rfl⟩ := List.mem_map.mp hx
        exact hkeeps id k hid ((mem_busyMembers members).mp hk)
      · exact htodo x (List.mem_cons_of_mem _ hx)
    · rw [modules_opened] at hmod
      rcases List.mem_append.mp hmod with hmod | hmod
      · exact hp mod hmod
      · cases List.mem_singleton.mp hmod
        exact hid

end Requests

theorem Attends.callObject (hp : p.Attends m root) (hproper : p.Proper m) {module id : Nat}
    {q₁ : Plan} (hid : id < m.objects.length) (h : p.callObject m module id = .ok q₁)
    (hmodules : q.modules = q₁.modules) (hcontinues : Continues asked p q)
    (hcalled : Attended m root q id) : q.Attends m root := by
  have hrequests : Requests m [(some module, id)] p (p.callObject m module id) :=
    requests_of_callObject hproper hid
  rw [h] at hrequests
  have hmodule : ∀ k, q.module? k = q₁.module? k := fun k => by rw [module?, hmodules, module?]
  obtain ⟨hclosed, -, hkept⟩ := hrequests.closes rfl fun mod hmod k hk =>
    .inl ((hp.closed mod hmod k hk).resolve_right List.not_mem_nil)
  have hwithin := hrequests.within rfl (P := Attended m root q) (fun _ _ => .member)
    (fun x hx => by rw [List.mem_singleton.mp hx]; exact hcalled)
    fun mod hmod => (hp.attended mod hmod).mono hcontinues
  refine ⟨by rw [hmodule]; exact hkept root hp.top, fun mod hmod k hk => ?_, fun mod hmod => ?_⟩
  · rw [hmodule]
    exact hclosed mod (hmodules ▸ hmod) k hk
  · exact hwithin mod (hmodules ▸ hmod)

end Plan

namespace ScanSite

variable {s : ScanSite} {w w' : Walker} {p q : Plan} {root : Nat}

theorem modules_callTask {m : Machine} {module id : Nat} {method : String}
    (h : p.callTask m module id method = .ok q) :
    ∃ q₁, p.callObject m module id = .ok q₁ ∧ q.modules = q₁.modules := by
  simp only [Plan.callTask, except_bind_eq_ok] at h
  obtain ⟨q₁, hcall, h⟩ := h
  split at h
  · cases h
  · split at h <;> cases h <;> exact ⟨_, hcall, rfl⟩

theorem insn_attends {i : Insn} {t : ThreadPlan} (hp : p.Attends s.machine root)
    (hproper : p.Proper s.machine) (hthread : p.threads[s.thread]? = some t)
    (hobject : t.object = s.object) (hname : s.method ∈ t.methods)
    (hdemands : ∀ d, w.demand? s.machine i = some d → Demands s.machine s.object s.method d)
    (h : s.insn (w, p) i = .ok (w', q)) : q.Attends s.machine root := by
  have hcontinues := (insn_moves ⟨t, hthread⟩ h).1.continues
  obtain ⟨t', ht', hbare, hgrown⟩ := hcontinues.thread hthread
  have hcalled : ∀ {d id}, w.demand? s.machine i = some d → d.object? = some id →
      Plan.Attended s.machine root q id := fun hd hid =>
    .call ht' (hgrown.subset hname)
      ((ThreadPlan.eq_of_bare hbare).1 ▸ hobject ▸ hdemands _ hd) hid
  have heffect := insn_effect h
  generalize hdemand : w.demand? s.machine i = demand at heffect
  cases heffect with
  | record accesses => exact hp.congr hcontinues rfl
  | flow called call =>
    exact hp.callObject hproper (lt_of_calledMethod? called) call rfl hcontinues
      (hcalled hdemand rfl)
  | task called call =>
    obtain ⟨q₁, hcall, hmodules⟩ := modules_callTask call
    exact hp.callObject hproper (lt_of_calledMethod? called) hcall hmodules hcontinues
      (hcalled hdemand rfl)
  | own label accesses => exact hp.congr hcontinues rfl

theorem insns_attends {code : List Insn} {t : ThreadPlan} (hp : p.Attends s.machine root)
    (hproper : p.Proper s.machine) (hthread : p.threads[s.thread]? = some t)
    (hobject : t.object = s.object) (hname : s.method ∈ t.methods) (hw : w.object = s.object)
    (hdemands : ∀ d, w.Demands s.machine code d → Demands s.machine s.object s.method d)
    (h : code.foldlM s.insn (w, p) = .ok (w', q)) : q.Attends s.machine root := by
  induction code generalizing w p t with
  | nil =>
    cases h
    exact hp
  | cons i rest ih =>
    rw [List.foldlM_cons, except_bind_eq_ok] at h
    obtain ⟨⟨w₁, p₁⟩, hinsn, h⟩ := h
    obtain ⟨hstep, -, -⟩ := insn_spec hw
      (fun t' ht' => Option.some.inj (hthread.symm.trans ht') ▸ hobject) hinsn
    have hmoves := (insn_moves ⟨t, hthread⟩ hinsn).1
    obtain ⟨t₁, ht₁, hbare, hgrown⟩ := hmoves.continues.thread hthread
    refine ih ?_ (hmoves.proper hproper) ht₁ ((ThreadPlan.eq_of_bare hbare).1.trans hobject)
      (hgrown.subset hname) ((Walker.step_object hstep).trans hw) (fun d hd => ?_) h
    · exact insn_attends hp hproper hthread hobject hname
        (fun d hd => hdemands d (Walker.along_head hd)) hinsn
    · exact hdemands d ((Walker.along_cons hstep).mpr (.inr hd))

theorem scan_attends {t : ThreadPlan} (hp : p.Attends s.machine root)
    (hproper : p.Proper s.machine) (hthread : p.threads[s.thread]? = some t)
    (hobject : t.object = s.object) (hname : s.method ∈ t.methods) (h : s.scan p = .ok q) :
    q.Attends s.machine root := by
  obtain ⟨o, f, ho, hf, ⟨-, rfl, -⟩ | ⟨hnative, w, hcode⟩⟩ := scan_cases h
  · exact hp
  · refine insns_attends hp hproper hthread hobject hname rfl (fun d hd => ?_) hcode
    exact ⟨f, by simp [Walker.calledMethod?, ho, hf], hnative, hd⟩

end ScanSite

namespace Plan

variable {m : Machine} {root : Nat} {p q : Plan}

theorem scanThreads_attends {count t : Nat} (hp : p.Attends m root) (hproper : p.Proper m)
    (h : p.scanThreads m count t = .ok q) : q.Attends m root := by
  refine (scanThreads_keeps (I := fun p => p.Attends m root ∧ p.Proper m)
    (fun {p t th} hp hth => ?_) (fun {p q t th name} hp hth hname hscan => ?_) ⟨hp, hproper⟩ h).1
  · have hmove : Move m (fun _ _ => True) p (p.requestMethod t th.entry) := .method p trivial
    exact ⟨hp.1.congr hmove.continues rfl, hmove.proper hp.2⟩
  · have hmoves := (ScanSite.scan_moves ⟨th, hth, rfl⟩ hscan).1
    exact ⟨ScanSite.scan_attends hp.1 hp.2 hth rfl hname hscan, hmoves.proper hp.2⟩

theorem HandsOut.modules (h : p.HandsOut m q) : q.modules = p.modules := by
  induction h with
  | refl => rfl
  | array _ _ _ _ ih => exact ih
  | method _ _ _ _ _ _ ih => exact ih

theorem requested_attends {top : Object} (htop : m.object root = .ok top)
    (h : empty.requestObject m m.objects.length none root = .ok p) : p.Attends m root := by
  have hlt := (List.getElem?_eq_some_iff.mp (Machine.object?_of_object htop)).1
  have hrequests : Requests m [(none, root)] empty (.ok p) :=
    requests_of_requestObject (proper_empty m) (Nat.le_add_right _ _) hlt
      (by rw [h]; exact .done p)
  obtain ⟨hclosed, htodo, -⟩ := hrequests.closes rfl fun mod hmod => by cases hmod
  refine ⟨htodo _ List.mem_cons_self, hclosed, ?_⟩
  exact hrequests.within rfl (fun _ _ => .member)
    (fun x hx => by rw [List.mem_singleton.mp hx]; exact .top) fun mod hmod => by cases hmod

/-- A plan has the objects that it is to have when it is done. -/
theorem ofRoot_attends (h : ofRoot m root = .ok p) : p.Attends m root := by
  obtain ⟨top, p₁, p₂, htop, hobject, hscan, hports⟩ := ofRoot_eq_ok h
  have hp₂ := scanThreads_attends (requested_attends htop hobject)
    (requested_settled hobject).proper hscan
  exact hp₂.congr hports.equips.1.continues hports.modules

end Plan

namespace Synthesis

variable {m : Machine} {root depth : Nat} {s : Synthesis}

/-- Whether an object runs an entry by itself in a design: its module has a table of the given name
for a thread that is no task and has that entry. -/
def Runs (s : Synthesis) (object : Nat) (name entry : String) : Prop :=
  ∃ w ∈ s.tables, w.plan.object = object ∧ s.plan.module? object = some w.plan.place.module ∧
    w.plan.isTask = false ∧ w.plan.entry = entry ∧
    ∃ t, s.design.table? w.plan.place = some t ∧ t.name = name

theorem runs_of_thread (h : synthesize m root depth = .ok s) {t : ThreadPlan}
    (ht : t ∈ s.plan.threads) (htask : t.isTask = false) : s.Runs t.object t.name t.entry := by
  obtain ⟨owners, limit, built, ps, hstaged⟩ := staged_of_ok h
  obtain ⟨k, hk⟩ := List.mem_iff_getElem?.mp ht
  obtain ⟨b, w, -, hw, -, -, rfl, -⟩ := hstaged.thread hk
  obtain ⟨table, htable, hstripped⟩ := hstaged.table?_design (List.mem_of_getElem? hw)
  refine ⟨w, List.mem_of_getElem? hw, rfl, ?_, htask, rfl, table, htable, ?_⟩
  · exact (Plan.ofRoot_settled hstaged.plan).proper.home w.plan ht
  · exact congrArg Rtl.Table.name hstripped

/-- In a design, the threads that an object declares and those of its entries are there if and only
if the object is attended: as the top-level object, by a call, or as a member with threads of an
object that is. -/
theorem runs_iff_attended (h : synthesize m root depth = .ok s) {id : Nat} {o : Object}
    (ho : m.object? id = some o) :
    (∀ d ∈ o.threads, s.Runs id d.name d.method ↔ s.plan.Attended m root id) ∧
      ∀ f ∈ o.methods, Plan.isEntry f = true →
        ((∃ name, s.Runs id name f.name) ↔ s.plan.Attended m root id) := by
  obtain ⟨owners, limit, built, ps, hstaged⟩ := staged_of_ok h
  have hsettled := Plan.ofRoot_settled hstaged.plan
  have hiff := (Plan.ofRoot_attends hstaged.plan).module?_isSome_iff hsettled
  have hruns : ∀ {name entry}, s.Runs id name entry → s.plan.Attended m root id := by
    rintro name entry ⟨w, -, -, hmodule, -⟩
    exact (hiff id).mp (Option.isSome_iff_exists.mpr ⟨_, hmodule⟩)
  have hmodule : s.plan.Attended m root id → ∃ mod ∈ s.plan.modules, mod.object = id := by
    intro hid
    obtain ⟨k, hk⟩ := Option.isSome_iff_exists.mp ((hiff id).mpr hid)
    obtain ⟨mod, hmod, hobject⟩ := Plan.mem_of_module? hk
    exact ⟨mod, List.mem_of_getElem? hmod, hobject⟩
  refine ⟨fun d hd => ⟨hruns, fun hid => ?_⟩, fun f hf hentry =>
    ⟨fun ⟨_, hrun⟩ => hruns hrun, fun hid => ?_⟩⟩ <;> obtain ⟨mod, hmod, rfl⟩ := hmodule hid
  · obtain ⟨t, ht, hobject, htask, hname, hmethod⟩ := hsettled.proper.declared mod hmod o ho d hd
    rw [← hobject, ← hname, ← hmethod]
    exact runs_of_thread h ht htask
  · obtain ⟨t, ht, hobject, htask, hmethod⟩ :=
      Plan.thread?_isSome.mp (hsettled.proper.entries mod hmod o ho f hf hentry)
    rw [← hobject, ← hmethod]
    exact ⟨t.name, runs_of_thread h ht htask⟩

/-- A machine of three objects, each inside the one before. The innermost has a thread and an entry;
the one in the middle has none, and is called or not. -/
def nestedThreads (called : Bool) : Machine :=
  let this := RegisterId.unused
  let method (name : String) (code : List Insn) (marks : Marks) : Slot :=
    ⟨name, .method ⟨name, [], [], [⟨"o", .object, 0, false, 0⟩], code, "", "", "", marks⟩⟩
  ⟨[⟨"top", .plain, 0, 0, false, false, [],
      [⟨"mid", .object 1⟩, method "main"
        (if called then [.loadObject 0 this "mid", .call 0 "run" []] else [.nop]) .none]⟩,
    ⟨"mid", .plain, 0, 0, false, false, [], [⟨"deep", .object 2⟩, method "run" [] .none]⟩,
    ⟨"deep", .plain, 0, 0, false, false, [⟨"t", "f"⟩],
      [method "f" [.nop] .none, method "g" [] { Marks.none with extEntry := true }]⟩]⟩

/-- With the call, the object inside the one that is called runs its threads. -/
theorem nestedThreads_runs : ∃ s, synthesize (nestedThreads true) 0 0 = .ok s ∧
    s.plan.Attended (nestedThreads true) 0 2 ∧ s.Runs 2 "t" "f" ∧ ∃ name, s.Runs 2 name "g" := by
  have h : (synthesize (nestedThreads true) 0 0).toOption.any (fun s => (s.plan.threads[0]?).any fun t =>
      decide (t.object = 0 ∧ "main" ∈ t.methods)) = true := by decide +kernel
  obtain ⟨s, hs, h⟩ := exists_ok_of_any h
  obtain ⟨t, ht, h⟩ := (Option.any_eq_true _ _).mp h
  obtain ⟨hobject, hmain⟩ := of_decide_eq_true h
  have hcall : Demands (nestedThreads true) t.object "main" (.task 1 "run") := by
    rw [hobject]
    exact ⟨_, rfl, rfl, 1, _, _, rfl, rfl, by decide +kernel⟩
  have hdeep : s.plan.Attended (nestedThreads true) 0 2 :=
    .member (.call ht hmain hcall rfl) ⟨by decide, _, rfl, rfl, by decide⟩
  obtain ⟨hthreads, hentries⟩ := runs_iff_attended hs (rfl : (nestedThreads true).object? 2 = some _)
  exact ⟨s, hs, hdeep, (hthreads _ List.mem_cons_self).mpr hdeep,
    (hentries _ (List.mem_of_getElem? (i := 1) rfl) rfl).mpr hdeep⟩

/-- Without it, its threads are lost. -/
theorem nestedThreads_loses : ∃ s, synthesize (nestedThreads false) 0 0 = .ok s ∧
    1 ∈ (nestedThreads false).members 0 ∧ 2 ∈ (nestedThreads false).members 1 ∧
    (∃ o, (nestedThreads false).object? 2 = some o ∧ o.threads = [⟨"t", "f"⟩]) ∧
    ∀ name entry, ¬ s.Runs 2 name entry := by
  have h : (synthesize (nestedThreads false) 0 0).toOption.any (fun s =>
      s.tables.all (·.plan.object != 2)) = true := by decide +kernel
  obtain ⟨s, hs, h⟩ := exists_ok_of_any h
  refine ⟨s, hs, by decide, by decide, ⟨_, rfl, rfl⟩, ?_⟩
  rintro name entry ⟨w, hw, hobject, -⟩
  simpa [hobject] using List.all_eq_true.mp h w hw

end Synthesis
end Synth
end MachineSynth
