import Mathlib
import MachineSynth.Proofs.Planning

/-! Moves: the elementary changes that planning is made of, and what holds of every plan that they
lead to. An object has one module, its own threads are there from the start, and no method of it has
two tasks. -/
namespace MachineSynth
namespace Synth

def ThreadPlan.bare (t : ThreadPlan) : ThreadPlan :=
  { t with methods := [], pool := .empty t.place }

theorem ThreadPlan.eq_of_bare {s t : ThreadPlan} (h : s.bare = t.bare) :
    s.object = t.object ∧ s.place = t.place ∧ s.name = t.name ∧ s.entry = t.entry ∧
      s.isTask = t.isTask := by
  simp only [bare, ThreadPlan.mk.injEq] at h
  obtain ⟨hobject, hplace, hname, hentry, htask, -⟩ := h
  exact ⟨hobject, hplace, hname, hentry, htask⟩

namespace Plan

/-- The plan with the module of an object and the threads that the object runs by itself. -/
def opened (p : Plan) (id : Nat) (caller : Option Nat) (o : Object) : Plan :=
  ({ p with modules := p.modules ++ [⟨id, caller⟩] } : Plan).prepare p.modules.length id o
    caller.isNone

/-- The elementary changes of a plan. Threads are asked to run methods only as allowed. -/
inductive Move (m : Machine) (asked : ThreadId → String → Prop) : Plan → Plan → Prop
  | record (p : Plan) (accesses : Accesses) : Move m asked p { p with accesses := accesses }
  | opens {p : Plan} {id : Nat} {o : Object} (caller : Option Nat) (new : p.module? id = none)
      (object : m.object? id = some o) : Move m asked p (p.opened id caller o)
  | task {p : Plan} {id module : Nat} {method : String} {f : Method}
      (housed : p.module? id = some module) (new : p.task? id method = none)
      (called : Walker.calledMethod? m (some id) method = some f) :
      Move m asked p (p.addThread module id method method true)
  | method (p : Plan) {t : ThreadId} {name : String} (allowed : asked t name) :
      Move m asked p (p.requestMethod t name)
  | pool (p : Plan) (t : ThreadId) (f : Pool → Pool) :
      Move m asked p (p.updateThread t fun th => { th with pool := f th.pool })

abbrev Moves (m : Machine) (asked : ThreadId → String → Prop) : Plan → Plan → Prop :=
  Relation.ReflTransGen (Move m asked)

/-- A plan later than another: modules and threads are where they were, threads differ in methods
and pools only, and have no methods but those they had or were asked to run. -/
structure Continues (asked : ThreadId → String → Prop) (p q : Plan) : Prop where
  modules : p.modules <+: q.modules
  thread : ∀ {k : ThreadId} {t : ThreadPlan}, p.threads[k]? = some t →
    ∃ t', q.threads[k]? = some t' ∧ t'.bare = t.bare ∧ t.methods <+: t'.methods
  origin : ∀ {k : ThreadId} {t' : ThreadPlan} {name : String}, q.threads[k]? = some t' →
    name ∈ t'.methods → asked k name ∨ ∃ t, p.threads[k]? = some t ∧ name ∈ t.methods

namespace Continues

variable {asked : ThreadId → String → Prop} {p q r : Plan}

theorem refl (p : Plan) : Continues asked p p :=
  ⟨List.prefix_refl _, fun h => ⟨_, h, rfl, List.prefix_refl _⟩, fun h hname => .inr ⟨_, h, hname⟩⟩

theorem trans (h : Continues asked p q) (h' : Continues asked q r) : Continues asked p r := by
  refine ⟨h.modules.trans h'.modules, fun {k t} ht => ?_, fun {k t name} ht hname => ?_⟩
  · obtain ⟨t₁, ht₁, hbare₁, hmethods₁⟩ := h.thread ht
    obtain ⟨t₂, ht₂, hbare₂, hmethods₂⟩ := h'.thread ht₁
    exact ⟨t₂, ht₂, hbare₂.trans hbare₁, hmethods₁.trans hmethods₂⟩
  · rcases h'.origin ht hname with hasked | ⟨t₁, ht₁, hname₁⟩
    · exact .inl hasked
    · exact h.origin ht₁ hname₁

/-- New threads at the end, which run nothing yet. -/
theorem append {new : List ThreadPlan} (hmodules : p.modules <+: q.modules)
    (hthreads : q.threads = p.threads ++ new) (hnew : ∀ t ∈ new, t.methods = []) :
    Continues asked p q := by
  refine ⟨hmodules, fun {k t} ht => ⟨t, ?_, rfl, List.prefix_refl _⟩, fun {k t name} ht hname => ?_⟩
  · rw [hthreads, List.getElem?_append_left (List.getElem?_eq_some_iff.mp ht).1]
    exact ht
  · rw [hthreads] at ht
    rcases Nat.lt_or_ge k p.threads.length with hlt | hge
    · rw [List.getElem?_append_left hlt] at ht
      exact .inr ⟨t, ht, hname⟩
    · rw [List.getElem?_append_right hge] at ht
      rw [hnew t (List.mem_of_getElem? ht)] at hname
      cases hname

theorem update {t : ThreadId} {f : ThreadPlan → ThreadPlan} (hbare : ∀ th, (f th).bare = th.bare)
    (hmethods : ∀ th : ThreadPlan, th.methods <+: (f th).methods)
    (horigin : ∀ th, ∀ name ∈ (f th).methods, asked t name ∨ name ∈ th.methods) :
    Continues asked p (p.updateThread t f) := by
  refine ⟨List.prefix_refl _, fun {k th} hth => ?_, fun {k th name} hth hname => ?_⟩
  · by_cases heq : t = k
    · subst heq
      exact ⟨f th, by simp [updateThread, hth], hbare th, hmethods th⟩
    · exact ⟨th, by simp [updateThread, hth, heq], rfl, List.prefix_refl _⟩
  · simp only [updateThread, List.getElem?_modify] at hth
    obtain ⟨th₀, hth₀, rfl⟩ := Option.map_eq_some_iff.mp hth
    split at hname
    · rename_i heq
      subst heq
      exact (horigin th₀ name hname).imp id fun hname => ⟨th₀, hth₀, hname⟩
    · exact .inr ⟨th₀, hth₀, hname⟩

end Continues

section Opening

variable {p q : Plan} {module id n : Nat}

/-- A plan with up to `n` more threads, all of them an object's own. -/
def Gains (module id n : Nat) (p q : Plan) : Prop :=
  q.modules = p.modules ∧ ∃ new, q.threads = p.threads ++ new ∧ new.length ≤ n ∧
    ∀ t ∈ new, t.object = id ∧ t.place.module = module ∧ t.isTask = false ∧ t.methods = []

theorem Gains.trans {k : Nat} {r : Plan} (h : Gains module id n p q) (h' : Gains module id k q r) :
    Gains module id (n + k) p r := by
  obtain ⟨hm, new, ht, hlen, hall⟩ := h
  obtain ⟨hm', new', ht', hlen', hall'⟩ := h'
  refine ⟨hm'.trans hm, new ++ new', by rw [ht', ht, List.append_assoc], ?_, fun t h => ?_⟩
  · rw [List.length_append]
    omega
  · exact (List.mem_append.mp h).elim (hall t) (hall' t)

theorem Gains.none (p : Plan) : Gains module id n p p :=
  ⟨rfl, [], by simp, Nat.zero_le n, by simp⟩

theorem gains_addThread (p : Plan) (name entry : String) :
    Gains module id 1 p (p.addThread module id name entry false) :=
  ⟨rfl, _, rfl, le_rfl, fun t ht => by rw [List.mem_singleton.mp ht]; exact ⟨rfl, rfl, rfl, rfl⟩⟩

theorem gains_addEntry (p : Plan) (f : Method) : Gains module id 1 p (addEntry module id p f) := by
  unfold addEntry
  split
  · exact gains_addThread p _ _
  · exact .none p

theorem gains_foldl {α : Type} {f : Plan → α → Plan} (hf : ∀ p x, Gains module id 1 p (f p x))
    (xs : List α) (p : Plan) : Gains module id xs.length p (xs.foldl f p) := by
  induction xs generalizing p with
  | nil => exact .none p
  | cons x rest ih =>
    rw [List.length_cons, Nat.add_comm]
    exact (hf p x).trans (ih (f p x))

/-- What a step does for its element and later steps keep, a fold does for all of them. -/
theorem foldl_forall {α : Type} {P : α → Plan → Prop} {f : Plan → α → Plan}
    (hf : ∀ p x, P x (f p x)) (hkeep : ∀ p x y, P x p → P x (f p y)) (xs : List α) (p : Plan) :
    ∀ x ∈ xs, P x (xs.foldl f p) := by
  have hrest : ∀ {x} (ys : List α) (q : Plan), P x q → P x (ys.foldl f q) := by
    intro x ys
    induction ys with
    | nil => exact fun q hq => hq
    | cons y rest ih => exact fun q hq => ih (f q y) (hkeep q x y hq)
  induction xs generalizing p with
  | nil => simp
  | cons y rest ih =>
    intro x hx
    rcases List.mem_cons.mp hx with rfl | hx
    · exact hrest rest (f p x) (hf p x)
    · exact ih (f p y) x hx

/-- Whether an object has a thread of its own under a name, with an entry. -/
def Runs (p : Plan) (id : Nat) (name entry : String) : Prop :=
  ∃ t ∈ p.threads, t.object = id ∧ t.isTask = false ∧ t.name = name ∧ t.entry = entry

theorem Runs.mono {name entry : String} (h : p.Runs id name entry)
    (hsub : ∀ t ∈ p.threads, t ∈ q.threads) : q.Runs id name entry := by
  obtain ⟨t, ht, hrest⟩ := h
  exact ⟨t, hsub t ht, hrest⟩

theorem Gains.subset {i : Nat} (h : Gains module i n p q) : ∀ t ∈ p.threads, t ∈ q.threads := by
  obtain ⟨-, new, hthreads, -⟩ := h
  intro t ht
  rw [hthreads]
  exact List.mem_append_left _ ht

theorem thread?_isSome {entry : String} :
    (p.thread? id entry).isSome = true ↔
      ∃ t ∈ p.threads, t.object = id ∧ t.isTask = false ∧ t.entry = entry := by
  simp [thread?, List.find?_isSome, and_assoc]

theorem task?_isSome {method : String} :
    (p.task? id method).isSome = true ↔
      ∃ t ∈ p.threads, t.object = id ∧ t.isTask = true ∧ t.entry = method := by
  simp [task?, List.find?_isSome, and_assoc]

theorem thread?_addEntry (p : Plan) {f : Method} (hf : isEntry f = true) :
    ((addEntry module id p f).thread? id f.name).isSome = true := by
  unfold addEntry
  split
  · exact thread?_isSome.mpr ⟨_, List.mem_append_right _ (List.mem_singleton.mpr rfl), rfl, rfl, rfl⟩
  · rename_i h
    simpa [hf, Option.isSome_iff_ne_none] using h

/-- The threads that an object is given: one for each that it declares and for each entry, and for
the main method if it is the top-level object. -/
theorem prepare_spec (p : Plan) (module id : Nat) (o : Object) (top : Bool) :
    Gains module id (1 + o.threads.length + o.methods.length) p (p.prepare module id o top) ∧
      (∀ d ∈ o.threads, (p.prepare module id o top).Runs id d.name d.method) ∧
      (∀ f ∈ o.methods, isEntry f = true →
        ((p.prepare module id o top).thread? id f.name).isSome = true) := by
  have hmain : Gains module id 1 p
      (if top && needsMain o then p.addThread module id mainMethod mainMethod false else p) := by
    split
    · exact gains_addThread p _ _
    · exact .none p
  generalize hp₁ : (if top && needsMain o then p.addThread module id mainMethod mainMethod false
    else p) = p₁ at hmain
  generalize hp₂ : o.threads.foldl (fun p d => p.addThread module id d.name d.method false) p₁ = p₂
  have hdeclared : Gains module id o.threads.length p₁ p₂ :=
    hp₂ ▸ gains_foldl (fun p (d : ThreadDecl) => gains_addThread p d.name d.method) _ _
  have hentries : Gains module id o.methods.length p₂ (o.methods.foldl (addEntry module id) p₂) :=
    gains_foldl gains_addEntry _ _
  have hprepare : p.prepare module id o top = o.methods.foldl (addEntry module id) p₂ := by
    simp only [prepare, hp₁, hp₂]
  rw [hprepare]
  refine ⟨(hmain.trans hdeclared).trans hentries, fun d hd => ?_, fun f hf hentry => ?_⟩
  · refine Runs.mono ?_ hentries.subset
    rw [← hp₂]
    refine foldl_forall (P := fun (d : ThreadDecl) q => Runs q id d.name d.method)
      (fun q d => ?_) (fun q d d' h => h.mono (gains_addThread q _ _).subset) _ p₁ d hd
    exact ⟨_, List.mem_append_right _ (List.mem_singleton.mpr rfl), rfl, rfl, rfl, rfl⟩
  · refine foldl_forall
      (P := fun (f : Method) q => isEntry f = true → (q.thread? id f.name).isSome = true)
      (fun q f => thread?_addEntry q) (fun q f g h hf => ?_) _ p₂ f hf hentry
    obtain ⟨t, ht, hrest⟩ := thread?_isSome.mp (h hf)
    exact thread?_isSome.mpr ⟨t, (gains_addEntry q g).subset t ht, hrest⟩

end Opening

section Proper

/-- A plan as moves keep it. -/
structure Proper (m : Machine) (p : Plan) : Prop where
  objects : (p.modules.map (·.object)).Nodup
  known : ∀ mod ∈ p.modules, mod.object < m.objects.length
  home : ∀ t ∈ p.threads, p.module? t.object = some t.place.module
  declared : ∀ mod ∈ p.modules, ∀ o, m.object? mod.object = some o →
    ∀ d ∈ o.threads, p.Runs mod.object d.name d.method
  entries : ∀ mod ∈ p.modules, ∀ o, m.object? mod.object = some o →
    ∀ f ∈ o.methods, isEntry f = true → (p.thread? mod.object f.name).isSome = true
  own : ∀ id o, m.object? id = some o →
    p.threads.countP (fun t => t.object = id && !t.isTask) ≤
      1 + o.threads.length + o.methods.length
  called : ∀ t ∈ p.threads, t.isTask = true →
    ∃ f, Walker.calledMethod? m (some t.object) t.entry = some f
  tasks : p.threads.Pairwise fun s t =>
    s.isTask = true → t.isTask = true → s.object = t.object → s.entry ≠ t.entry

variable {m : Machine} {asked : ThreadId → String → Prop} {p q : Plan}

theorem proper_empty (m : Machine) : empty.Proper m :=
  ⟨.nil, by simp [empty], by simp [empty], by simp [empty], by simp [empty], by simp [empty],
    by simp [empty], .nil⟩

/-- Methods, pools and accesses do not matter. -/
theorem Proper.congr (hp : p.Proper m) (hmodules : q.modules = p.modules)
    (hthreads : q.threads.map ThreadPlan.bare = p.threads.map ThreadPlan.bare) : q.Proper m := by
  have hmem : ∀ {a b : Plan}, b.threads.map ThreadPlan.bare = a.threads.map ThreadPlan.bare →
      ∀ t ∈ a.threads, ∃ t' ∈ b.threads, t'.bare = t.bare := by
    intro a b h t ht
    have hbare := List.mem_map_of_mem (f := ThreadPlan.bare) ht
    rw [← h] at hbare
    exact List.mem_map.mp hbare
  have hmodule : ∀ id, q.module? id = p.module? id := fun id => by rw [module?, hmodules, module?]
  refine ⟨hmodules ▸ hp.objects, hmodules ▸ hp.known, fun t ht => ?_, fun mod hmod o ho d hd => ?_,
    fun mod hmod o ho f hf hentry => ?_, fun id o ho => ?_, fun t ht htask => ?_, ?_⟩
  · obtain ⟨t', ht', hbare⟩ := hmem hthreads.symm t ht
    obtain ⟨hobject, hplace, -⟩ := ThreadPlan.eq_of_bare hbare
    rw [hmodule, ← hobject, ← hplace]
    exact hp.home t' ht'
  · obtain ⟨t, ht, hobject, htask, hname, hentry⟩ := hp.declared mod (hmodules ▸ hmod) o ho d hd
    obtain ⟨t', ht', hbare⟩ := hmem hthreads t ht
    obtain ⟨hobject', -, hname', hentry', htask'⟩ := ThreadPlan.eq_of_bare hbare
    exact ⟨t', ht', hobject'.trans hobject, htask'.trans htask, hname'.trans hname,
      hentry'.trans hentry⟩
  · obtain ⟨t, ht, hobject, htask, hname⟩ :=
      thread?_isSome.mp (hp.entries mod (hmodules ▸ hmod) o ho f hf hentry)
    obtain ⟨t', ht', hbare⟩ := hmem hthreads t ht
    obtain ⟨hobject', -, -, hentry', htask'⟩ := ThreadPlan.eq_of_bare hbare
    exact thread?_isSome.mpr ⟨t', ht', hobject'.trans hobject, htask'.trans htask,
      hentry'.trans hname⟩
  · have hcount := congrArg (List.countP fun t => t.object = id && !t.isTask) hthreads
    rw [List.countP_map, List.countP_map] at hcount
    exact hcount.trans_le (hp.own id o ho)
  · obtain ⟨t', ht', hbare⟩ := hmem hthreads.symm t ht
    obtain ⟨hobject, -, -, hentry, htask'⟩ := ThreadPlan.eq_of_bare hbare
    rw [← hobject, ← hentry]
    exact hp.called t' ht' (htask'.trans htask)
  · have htasks : (p.threads.map ThreadPlan.bare).Pairwise fun s t =>
        s.isTask = true → t.isTask = true → s.object = t.object → s.entry ≠ t.entry :=
      List.pairwise_map.mpr hp.tasks
    rw [← hthreads] at htasks
    exact List.pairwise_map.mp htasks

theorem updateThread_bare {t : ThreadId} {f : ThreadPlan → ThreadPlan}
    (hf : ∀ th, (f th).bare = th.bare) :
    (p.updateThread t f).threads.map ThreadPlan.bare = p.threads.map ThreadPlan.bare := by
  refine List.ext_getElem? fun i => ?_
  simp only [updateThread, List.getElem?_map, List.getElem?_modify]
  cases p.threads[i]? with
  | none => rfl
  | some th =>
    simp only [Option.map_eq_map, Option.map_some]
    split
    · rw [hf]
    · rfl

theorem module?_append {id : Nat} {mods : List ModulePlan} {k : Nat} (h : p.module? id = some k)
    (hq : q.modules = p.modules ++ mods) : q.module? id = some k := by
  rw [module?, hq, List.findIdx?_append]
  rw [module?] at h
  simp [h]

theorem module?_eq_none {id : Nat} : p.module? id = none ↔ ∀ mod ∈ p.modules, mod.object ≠ id := by
  simp [module?, List.findIdx?_eq_none_iff]

theorem mem_of_module? {id k : Nat} (h : p.module? id = some k) :
    ∃ mod, p.modules[k]? = some mod ∧ mod.object = id := by
  obtain ⟨hlt, hobject, -⟩ := List.findIdx?_eq_some_iff_getElem.mp h
  exact ⟨_, List.getElem?_eq_getElem hlt, by simpa using hobject⟩

/-- An object without a module has no threads yet; with its module it is given those it runs by
itself. -/
theorem Proper.opens (hp : p.Proper m) {id : Nat} {o : Object} (caller : Option Nat)
    (hnew : p.module? id = none) (ho : m.object? id = some o) : (p.opened id caller o).Proper m := by
  obtain ⟨⟨hmodules, new, hthreads, hlen, hall⟩, hruns, hentries⟩ := prepare_spec
    { p with modules := p.modules ++ [⟨id, caller⟩] } p.modules.length id o caller.isNone
  change (p.opened id caller o).modules = p.modules ++ [⟨id, caller⟩] at hmodules
  change (p.opened id caller o).threads = p.threads ++ new at hthreads
  have hfresh : ∀ t ∈ p.threads, t.object ≠ id := by
    intro t ht heq
    have hhome := hp.home t ht
    rw [heq, hnew] at hhome
    cases hhome
  have hself : (p.opened id caller o).module? id = some p.modules.length := by
    rw [module?, hmodules, List.findIdx?_append]
    rw [module?] at hnew
    simp [hnew]
  have hsub : ∀ t ∈ p.threads, t ∈ (p.opened id caller o).threads := fun t ht => by
    rw [hthreads]
    exact List.mem_append_left _ ht
  refine ⟨?_, fun mod hmod => ?_, fun t ht => ?_, fun mod hmod o' ho' d hd => ?_,
    fun mod hmod o' ho' f hf hentry => ?_, fun id' o' ho' => ?_, fun t ht htask => ?_, ?_⟩
  · rw [hmodules, List.map_append]
    refine List.nodup_append'.mpr ⟨hp.objects, by simp, ?_⟩
    simpa using module?_eq_none.mp hnew
  · rw [hmodules] at hmod
    rcases List.mem_append.mp hmod with hmod | hmod
    · exact hp.known mod hmod
    · rw [List.mem_singleton.mp hmod]
      exact (List.getElem?_eq_some_iff.mp ho).1
  · rw [hthreads] at ht
    rcases List.mem_append.mp ht with ht | ht
    · exact module?_append (hp.home t ht) hmodules
    · obtain ⟨hobject, hmodule, -, -⟩ := hall t ht
      rw [hobject, hmodule, hself]
  · rw [hmodules] at hmod
    rcases List.mem_append.mp hmod with hmod | hmod
    · exact (hp.declared mod hmod o' ho' d hd).mono hsub
    · cases List.mem_singleton.mp hmod
      cases ho.symm.trans ho'
      exact hruns d hd
  · rw [hmodules] at hmod
    rcases List.mem_append.mp hmod with hmod | hmod
    · obtain ⟨t, ht, hrest⟩ := thread?_isSome.mp (hp.entries mod hmod o' ho' f hf hentry)
      exact thread?_isSome.mpr ⟨t, hsub t ht, hrest⟩
    · cases List.mem_singleton.mp hmod
      cases ho.symm.trans ho'
      exact hentries f hf hentry
  · rw [hthreads, List.countP_append]
    by_cases hid : id' = id
    · subst hid
      cases ho.symm.trans ho'
      have hzero : p.threads.countP (fun t => t.object = id' && !t.isTask) = 0 :=
        List.countP_eq_zero.mpr fun t ht => by simp [hfresh t ht]
      have := List.countP_le_length (p := fun t : ThreadPlan => t.object = id' && !t.isTask) (l := new)
      omega
    · have hzero : new.countP (fun t => t.object = id' && !t.isTask) = 0 :=
        List.countP_eq_zero.mpr fun t ht => by simp [(hall t ht).1, Ne.symm hid]
      rw [hzero]
      exact hp.own id' o' ho'
  · rw [hthreads] at ht
    rcases List.mem_append.mp ht with ht | ht
    · exact hp.called t ht htask
    · rw [(hall t ht).2.2.1] at htask
      cases htask
  · rw [hthreads]
    refine List.pairwise_append.mpr ⟨hp.tasks, ?_, fun s hs t ht _ htask => ?_⟩
    · refine List.pairwise_of_forall_mem_list fun s hs t ht htask => ?_
      rw [(hall s hs).2.2.1] at htask
      cases htask
    · rw [(hall t ht).2.2.1] at htask
      cases htask

theorem Proper.task (hp : p.Proper m) {id module : Nat} {method : String} {f : Method}
    (hhoused : p.module? id = some module) (hnew : p.task? id method = none)
    (hcalled : Walker.calledMethod? m (some id) method = some f) :
    (p.addThread module id method method true).Proper m := by
  have hsub : ∀ t ∈ p.threads, t ∈ (p.addThread module id method method true).threads :=
    fun t ht => List.mem_append_left _ ht
  refine ⟨hp.objects, hp.known, fun t ht => ?_, fun mod hmod o ho d hd => ?_,
    fun mod hmod o ho f hf hentry => ?_, fun id' o ho => ?_, fun t ht htask => ?_, ?_⟩
  · rcases List.mem_append.mp ht with ht | ht
    · exact hp.home t ht
    · rw [List.mem_singleton.mp ht]
      exact hhoused
  · exact (hp.declared mod hmod o ho d hd).mono hsub
  · obtain ⟨t, ht, hrest⟩ := thread?_isSome.mp (hp.entries mod hmod o ho f hf hentry)
    exact thread?_isSome.mpr ⟨t, hsub t ht, hrest⟩
  · simpa [addThread, List.countP_append] using hp.own id' o ho
  · rcases List.mem_append.mp ht with ht | ht
    · exact hp.called t ht htask
    · rw [List.mem_singleton.mp ht]
      exact ⟨f, hcalled⟩
  · refine List.pairwise_append.mpr ⟨hp.tasks, by simp, fun s hs t ht hs' _ hobject hentry => ?_⟩
    cases List.mem_singleton.mp ht
    have hsome := task?_isSome.mpr ⟨s, hs, hobject, hs', hentry⟩
    rw [hnew] at hsome
    cases hsome

end Proper

section Steps

variable {m : Machine} {asked : ThreadId → String → Prop} {p q : Plan}

theorem requestMethod_bare (t : ThreadId) (name : String) :
    (p.requestMethod t name).threads.map ThreadPlan.bare = p.threads.map ThreadPlan.bare := by
  refine updateThread_bare fun th => ?_
  split <;> rfl

theorem Move.proper (h : Move m asked p q) (hp : p.Proper m) : q.Proper m := by
  cases h with
  | record accesses => exact hp.congr rfl rfl
  | opens caller new object => exact hp.opens caller new object
  | task housed new called => exact hp.task housed new called
  | method allowed => exact hp.congr rfl (requestMethod_bare _ _)
  | pool t f => exact hp.congr rfl (updateThread_bare fun _ => rfl)

theorem Move.continues (h : Move m asked p q) : Continues asked p q := by
  cases h with
  | record accesses => exact .append (List.prefix_refl _) (List.append_nil _).symm (by simp)
  | opens caller new object =>
    rename_i id o
    obtain ⟨⟨hmodules, new, hthreads, -, hall⟩, -⟩ := prepare_spec
      { p with modules := p.modules ++ [⟨id, caller⟩] } p.modules.length id o caller.isNone
    exact .append (hmodules ▸ List.prefix_append _ _) hthreads fun t ht => (hall t ht).2.2.2
  | task housed new called =>
    exact .append (List.prefix_refl _) rfl fun t ht => by rw [List.mem_singleton.mp ht]
  | method allowed =>
    refine .update (fun th => ?_) (fun th => ?_) fun th name hname => ?_
    · split <;> rfl
    · split
      · exact List.prefix_refl _
      · exact List.prefix_append _ _
    · split at hname
      · exact .inr hname
      · rcases List.mem_append.mp hname with hname | hname
        · exact .inr hname
        · rw [List.mem_singleton.mp hname]
          exact .inl allowed
  | pool t f => exact .update (fun _ => rfl) (fun _ => List.prefix_refl _) fun _ _ => .inr

theorem Moves.proper (h : Moves m asked p q) (hp : p.Proper m) : q.Proper m := by
  induction h with
  | refl => exact hp
  | tail _ hmove ih => exact hmove.proper ih

theorem Moves.continues (h : Moves m asked p q) : Continues asked p q := by
  induction h with
  | refl => exact .refl p
  | tail _ hmove ih => exact ih.trans hmove.continues

theorem Moves.mono {asked' : ThreadId → String → Prop} (h : Moves m asked p q)
    (hasked : ∀ t name, asked t name → asked' t name) : Moves m asked' p q := by
  refine Relation.ReflTransGen.mono (fun a b hmove => ?_) p q h
  cases hmove with
  | record accesses => exact .record _ accesses
  | opens caller new object => exact .opens caller new object
  | task housed new called => exact .task housed new called
  | method allowed => exact .method _ (hasked _ _ allowed)
  | pool t f => exact .pool _ t f

end Steps

section Bounds

variable {m : Machine} {p : Plan}

theorem length_methods_le_slots (o : Object) : o.methods.length ≤ o.slots.length :=
  List.length_filterMap_le _ _

theorem Proper.tasks_le (hp : p.Proper m) {id : Nat} {o : Object} (ho : m.object? id = some o) :
    p.threads.countP (fun t => t.object = id && t.isTask) ≤ o.slots.length := by
  have hmem : ∀ {t}, t ∈ p.threads.filter (fun t => t.object = id && t.isTask) →
      t ∈ p.threads ∧ t.object = id ∧ t.isTask = true := by
    intro t ht
    simpa using ht
  have hnodup : ((p.threads.filter fun t => t.object = id && t.isTask).map (·.entry)).Nodup := by
    refine List.pairwise_map.mpr ((hp.tasks.filter _).imp_of_mem fun {s t} hs ht hst => ?_)
    obtain ⟨-, hs, hs'⟩ := hmem hs
    obtain ⟨-, ht, ht'⟩ := hmem ht
    exact hst hs' ht' (hs.trans ht.symm)
  have hsub : ((p.threads.filter fun t => t.object = id && t.isTask).map (·.entry)) ⊆
      o.slots.map (·.name) := by
    intro name hname
    obtain ⟨t, ht, rfl⟩ := List.mem_map.mp hname
    obtain ⟨ht, hid, htask⟩ := hmem ht
    obtain ⟨f, hf⟩ := hp.called t ht htask
    rw [hid] at hf
    simp only [Walker.calledMethod?, Option.bind_some, ho, Object.method?] at hf
    split at hf
    · rename_i hlookup
      obtain ⟨slot, hslot, -⟩ := Option.map_eq_some_iff.mp hlookup
      exact List.mem_map.mpr ⟨slot, List.mem_of_find?_eq_some hslot,
        by simpa using List.find?_some hslot⟩
    · cases hf
  have hle := (List.subperm_of_subset hnodup hsub).length_le
  rwa [List.length_map, List.length_map, ← List.countP_eq_length_filter] at hle

theorem length_eq_sum_countP {α : Type} {f : α → Nat} {n : Nat} {xs : List α}
    (h : ∀ x ∈ xs, f x < n) :
    xs.length = ∑ i : Fin n, xs.countP fun x => f x = i := by
  induction xs with
  | nil => simp
  | cons x rest ih =>
    have hx : f x < n := h x List.mem_cons_self
    have hone : ∑ i : Fin n, (if f x = (i : Nat) then 1 else 0) = 1 := by
      rw [Finset.sum_eq_single ⟨f x, hx⟩ (fun i _ hi => if_neg fun heq => hi (Fin.ext heq.symm))
        (by simp)]
      simp
    simp only [List.length_cons, List.countP_cons, decide_eq_true_eq, Finset.sum_add_distrib, hone,
      ← ih fun y hy => h y (List.mem_cons_of_mem x hy)]

theorem Proper.length_threads_le (hp : p.Proper m) : p.threads.length ≤ threadBound m := by
  have hknown : ∀ t ∈ p.threads, t.object < m.objects.length := by
    intro t ht
    obtain ⟨mod, hmod, hobject⟩ := mem_of_module? (hp.home t ht)
    exact hobject ▸ hp.known mod (List.mem_of_getElem? hmod)
  have hsum : threadBound m = ∑ i : Fin m.objects.length,
      (1 + m.objects[i].threads.length + 2 * m.objects[i].slots.length) := by
    rw [threadBound, ← List.sum_eq_foldr, ← List.sum_ofFn]
    congr 1
    exact List.ext_getElem (by simp) (by simp)
  rw [length_eq_sum_countP hknown, hsum]
  refine Finset.sum_le_sum fun i _ => ?_
  have ho : m.object? i = some m.objects[i] := List.getElem?_eq_getElem i.2
  have hsplit : p.threads.countP (fun t => t.object = (i : Nat)) =
      p.threads.countP (fun t => t.object = (i : Nat) && !t.isTask) +
        p.threads.countP (fun t => t.object = (i : Nat) && t.isTask) := by
    induction p.threads with
    | nil => rfl
    | cons t rest ih =>
      simp only [List.countP_cons, ih]
      cases t.isTask <;> by_cases h : t.object = (i : Nat) <;> simp [h] <;> omega
  have hown := hp.own i _ ho
  have htasks := hp.tasks_le ho
  have hmethods := length_methods_le_slots m.objects[i]
  omega

end Bounds

end Plan
end Synth
end MachineSynth
