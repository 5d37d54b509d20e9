import Mathlib
import MachineSynth.Proofs.Access
import MachineSynth.Proofs.BitSet
import MachineSynth.Proofs.Pool
import MachineSynth.Synth.Plan

/-! Plans: what becomes of a plan as objects, threads and methods are added to it. Threads keep their
places, which are all different. -/
namespace MachineSynth

theorem Machine.object?_of_object {m : Machine} {id : Nat} {o : Object} (h : m.object id = .ok o) :
    m.object? id = some o := by
  unfold object at h
  split at h
  · cases h
    assumption
  · cases h

theorem Object.mem_methods {o : Object} {name : String} {f : Method} (h : o.method? name = some f) :
    f ∈ o.methods := by
  unfold method? at h
  split at h
  · rename_i hlookup
    cases h
    obtain ⟨slot, hslot, hvalue⟩ := Option.map_eq_some_iff.mp hlookup
    refine List.mem_filterMap.mpr ⟨slot, List.mem_of_find?_eq_some hslot, ?_⟩
    rw [hvalue]
  · cases h

namespace Synth

section Except

variable {ε ε' α β : Type}

theorem mapError_eq_ok {f : ε → ε'} {r : Except ε α} {a : α} :
    r.mapError f = .ok a ↔ r = .ok a := by
  cases r <;> simp [Except.mapError]

theorem except_bind_eq_ok {r : Except ε α} {f : α → Except ε β} {b : β} :
    (r >>= f) = .ok b ↔ ∃ a, r = .ok a ∧ f a = .ok b := by
  cases r <;> simp [Bind.bind, Except.bind]

theorem mapError_eq_error {f : ε → ε'} {r : Except ε α} {e : ε'} :
    r.mapError f = .error e ↔ ∃ e', r = .error e' ∧ f e' = e := by
  cases r <;> simp [Except.mapError]

theorem except_bind_eq_error {r : Except ε α} {f : α → Except ε β} {e : ε} :
    (r >>= f) = .error e ↔ r = .error e ∨ ∃ a, r = .ok a ∧ f a = .error e := by
  cases r <;> simp [Bind.bind, Except.bind]

theorem exists_ok_of_any {r : Except ε α} {p : α → Bool} (h : r.toOption.any p = true) :
    ∃ a, r = .ok a ∧ p a = true := by
  cases r with
  | error e => cases h
  | ok a => exact ⟨a, rfl, h⟩

theorem foldlM_eq_error {f : β → α → Except ε β} {xs : List α} {b : β} {e : ε}
    (h : xs.foldlM f b = .error e) : ∃ b', ∃ x ∈ xs, f b' x = .error e := by
  induction xs generalizing b with
  | nil => cases h
  | cons x rest ih =>
    rw [List.foldlM_cons, except_bind_eq_error] at h
    obtain h | ⟨b₁, -, h⟩ := h
    · exact ⟨b, x, List.mem_cons_self, h⟩
    · obtain ⟨b', y, hy, h⟩ := ih h
      exact ⟨b', y, List.mem_cons_of_mem x hy, h⟩

theorem mapM_eq_error {f : α → Except ε β} {xs : List α} {e : ε} (h : xs.mapM f = .error e) :
    ∃ x ∈ xs, f x = .error e := by
  induction xs with
  | nil => cases h
  | cons x rest ih =>
    simp only [List.mapM_cons, except_bind_eq_error] at h
    obtain h | ⟨y, -, h | ⟨ys, -, h⟩⟩ := h
    · exact ⟨x, List.mem_cons_self, h⟩
    · obtain ⟨z, hz, h⟩ := ih h
      exact ⟨z, List.mem_cons_of_mem x hz, h⟩
    · cases h

/-- What every step of a fold does, the whole fold does. -/
theorem foldlM_rel {R : β → β → Prop} (hrefl : ∀ b, R b b)
    (htrans : ∀ a b c, R a b → R b c → R a c) {f : β → α → Except ε β} {xs : List α}
    (hstep : ∀ b x b', x ∈ xs → f b x = .ok b' → R b b') {b b' : β} (h : xs.foldlM f b = .ok b') :
    R b b' := by
  induction xs generalizing b with
  | nil =>
    cases h
    exact hrefl _
  | cons x rest ih =>
    rw [List.foldlM_cons, except_bind_eq_ok] at h
    obtain ⟨b₁, h₁, h⟩ := h
    exact htrans _ _ _ (hstep b x b₁ (by simp) h₁)
      (ih (fun b x b' hx => hstep b x b' (List.mem_cons_of_mem _ hx)) h)

theorem foldl_rel {R : β → β → Prop} (hrefl : ∀ b, R b b)
    (htrans : ∀ a b c, R a b → R b c → R a c) {f : β → α → β} {xs : List α} {b : β}
    (hstep : ∀ b x, x ∈ xs → R b (f b x)) : R b (xs.foldl f b) := by
  induction xs generalizing b with
  | nil => exact hrefl b
  | cons x rest ih =>
    exact htrans _ _ _ (hstep b x (by simp))
      (ih fun b x hx => hstep b x (List.mem_cons_of_mem _ hx))

end Except

/-- A record of accesses later than another. -/
structure Access.Extends (a b : Access) : Prop where
  accessors : ∀ t ∈ a.accessors, t ∈ b.accessors
  movers : ∀ t, a.movers.contains t = true → b.movers.contains t = true
  nodup : a.accessors.Nodup → b.accessors.Nodup

namespace Access.Extends

theorem refl (a : Access) : a.Extends a := ⟨fun _ => id, fun _ => id, id⟩

theorem trans {a b c : Access} (h : a.Extends b) (h' : b.Extends c) : a.Extends c :=
  ⟨fun t ht => h'.accessors t (h.accessors t ht), fun t ht => h'.movers t (h.movers t ht),
    fun hn => h'.nodup (h.nodup hn)⟩

end Access.Extends

theorem Access.add_extends (a : Access) (t : ThreadId) (write : Bool) : a.Extends (a.add t write) := by
  refine ⟨fun t' ht' => ?_, fun _ => id, fun hn => ?_⟩
  · simp only [add]
    split
    · exact ht'
    · exact List.mem_append_left _ ht'
  · simp only [add]
    split
    · exact hn
    · rename_i hnot
      refine List.nodup_append.mpr ⟨hn, by simp, fun x hx y hy hxy => hnot ?_⟩
      cases List.mem_singleton.mp hy
      simpa [hxy] using hx

theorem Access.mem_add (a : Access) (t : ThreadId) (write : Bool) : t ∈ (a.add t write).accessors := by
  simp only [add]
  split
  · rename_i h
    simpa using h
  · simp

namespace Accesses

theorem lookup_updateRecord (e e' : Entity) (f : Access → Access)
    (records : List (Entity × Access)) :
    (updateRecord e f records).lookup e' =
      if e' = e then some (f ((records.lookup e).getD .empty)) else records.lookup e' := by
  induction records with
  | nil =>
    rw [updateRecord, lookup_cons_eq]
    rfl
  | cons entry rest ih =>
    obtain ⟨k, a⟩ := entry
    simp only [updateRecord]
    by_cases hk : k = e
    · subst hk
      simp only [if_true, lookup_cons_eq]
      split <;> simp
    · have hne : ¬ e = k := fun h => hk h.symm
      simp only [hk, if_false, lookup_cons_eq, ih, hne]
      by_cases hek : e' = k
      · subst hek
        simp [hk]
      · simp [hek]

theorem find_update {s s' : Accesses} {e : Entity} {f : Access → Access}
    (h : s.update e f = .ok s') (e' : Entity) :
    s'.find e' = if e' = e then f (s.find e) else s.find e' := by
  unfold update at h
  split at h
  · cases h
  · cases h
    simp only [find, lookup_updateRecord]
    split <;> rfl

theorem find_claimPort {s s' : Accesses} {t : ThreadId} {k : MethodKey} {granted : Bool}
    (h : s.claimPort t k = .ok (granted, s')) (e : Entity) : s'.find e = s.find e := by
  unfold claimPort at h
  split at h
  · cases h
  · split at h <;> cases h <;> rfl

end Accesses

/-- Whether each place counts the earlier ones in the same module. -/
def Ranked (places : List Rtl.TableRef) : Prop :=
  ∀ i r, places[i]? = some r → r.table = ((places.take i).filter (·.module = r.module)).length

theorem Ranked.nil : Ranked [] := fun i r hi => by simp at hi

theorem Ranked.concat {places : List Rtl.TableRef} (h : Ranked places) (module : Nat) :
    Ranked (places ++ [⟨module, (places.filter (·.module = module)).length⟩]) := by
  intro i r hi
  rcases Nat.lt_trichotomy i places.length with hlt | rfl | hgt
  · rw [List.getElem?_append_left hlt] at hi
    rw [List.take_append_of_le_length hlt.le]
    exact h i r hi
  · rw [List.getElem?_concat_length] at hi
    cases hi
    rw [List.take_left']
    rfl
  · rw [List.getElem?_eq_none (by simp; omega)] at hi
    cases hi

theorem Ranked.injective {places : List Rtl.TableRef} (h : Ranked places) {i j : Nat}
    {r : Rtl.TableRef} (hi : places[i]? = some r) (hj : places[j]? = some r) : i = j := by
  have hlt : ∀ {i j : Nat}, places[i]? = some r → places[j]? = some r → ¬ i < j := by
    intro i j hi hj hij
    have hri := h i r hi
    have hrj := h j r hj
    have hsub : ((places.take (i + 1)).filter (·.module = r.module)).length ≤
        ((places.take j).filter (·.module = r.module)).length :=
      (((List.take_sublist_take_left hij).filter _)).length_le
    have hself : [r].filter (·.module = r.module) = [r] := by simp
    rw [List.take_add_one, hi, Option.toList_some, List.filter_append, hself, List.length_append,
      List.length_singleton] at hsub
    omega
  rcases Nat.lt_trichotomy i j with h' | h' | h'
  · exact absurd h' (hlt hi hj)
  · exact h'
  · exact absurd h' (hlt hj hi)

/-- A planned thread: its pool belongs to its table and has none of the arrays yet, and the methods
that it runs are its entry and other methods of its object, none twice. -/
structure ThreadPlan.Sound (m : Machine) (t : ThreadPlan) : Prop where
  pool : t.pool.Sound
  place : t.pool.place = t.place
  arrays : ∀ id, t.pool.keys.lookup ⟨"array", "", id, .truth⟩ = none
  nodup : t.methods.Nodup
  known : ∀ name ∈ t.methods, name = t.entry ∨
    ∃ f, Walker.calledMethod? m (some t.object) name = some f

/-- A thread stays what it is while methods and ports are added. -/
structure ThreadPlan.Becomes (t t' : ThreadPlan) : Prop where
  object : t'.object = t.object
  place : t'.place = t.place
  entry : t'.entry = t.entry
  methods : t.methods <+: t'.methods

theorem ThreadPlan.Becomes.refl (t : ThreadPlan) : t.Becomes t :=
  ⟨rfl, rfl, rfl, List.prefix_refl _⟩

theorem ThreadPlan.Becomes.trans {a b c : ThreadPlan} (h : a.Becomes b) (h' : b.Becomes c) :
    a.Becomes c :=
  ⟨h'.object.trans h.object, h'.place.trans h.place, h'.entry.trans h.entry,
    h.methods.trans h'.methods⟩

namespace Plan

/-- A plan as planning keeps it. -/
structure Sound (m : Machine) (p : Plan) : Prop where
  ranked : Ranked (p.threads.map (·.place))
  threads : ∀ t ∈ p.threads, t.Sound m
  nodup : ∀ e, (p.accesses.find e).accessors.Nodup

/-- A plan later than another, with methods added to no thread but the one that is scanned. -/
structure Grows (m : Machine) (scanned : Option ThreadId) (p q : Plan) : Prop where
  sound : p.Sound m → q.Sound m
  thread : ∀ {id : ThreadId} {t : ThreadPlan}, p.threads[id]? = some t →
    ∃ t', q.threads[id]? = some t' ∧ t.Becomes t'
  others : ∀ {id : ThreadId} {t : ThreadPlan}, q.threads[id]? = some t → scanned ≠ some id →
    t.methods = [] ∨ ∃ t', p.threads[id]? = some t' ∧ t.methods = t'.methods ∧ t'.object = t.object
  accesses : ∀ e, (p.accesses.find e).Extends (q.accesses.find e)

namespace Grows

variable {m : Machine} {scanned : Option ThreadId} {p q r : Plan}

theorem refl (p : Plan) : p.Grows m scanned p :=
  ⟨id, fun h => ⟨_, h, .refl _⟩, fun h _ => .inr ⟨_, h, rfl, rfl⟩, fun _ => .refl _⟩

theorem trans (h : p.Grows m scanned q) (h' : q.Grows m scanned r) : p.Grows m scanned r := by
  refine ⟨fun hp => h'.sound (h.sound hp), fun {id t} ht => ?_, fun {id t} ht hid => ?_,
    fun e => (h.accesses e).trans (h'.accesses e)⟩
  · obtain ⟨t₁, ht₁, hb₁⟩ := h.thread ht
    obtain ⟨t₂, ht₂, hb₂⟩ := h'.thread ht₁
    exact ⟨t₂, ht₂, hb₁.trans hb₂⟩
  · rcases h'.others ht hid with hnil | ⟨t₁, ht₁, hm₁, ho₁⟩
    · exact .inl hnil
    · rcases h.others ht₁ hid with hnil | ⟨t₂, ht₂, hm₂, ho₂⟩
      · exact .inl (hm₁.trans hnil)
      · exact .inr ⟨t₂, ht₂, hm₁.trans hm₂, ho₂.trans ho₁⟩

theorem of_threads_eq (hthreads : q.threads = p.threads)
    (haccesses : ∀ e, (p.accesses.find e).Extends (q.accesses.find e)) :
    p.Grows m scanned q := by
  refine ⟨fun hp => ⟨?_, ?_, fun e => (haccesses e).nodup (hp.nodup e)⟩, fun ht => ?_,
    fun ht _ => ?_, haccesses⟩
  · rw [hthreads]
    exact hp.ranked
  · rw [hthreads]
    exact hp.threads
  · exact ⟨_, hthreads ▸ ht, .refl _⟩
  · exact .inr ⟨_, hthreads ▸ ht, rfl, rfl⟩

theorem modules (modules : List ModulePlan) : p.Grows m scanned { p with modules := modules } :=
  of_threads_eq rfl fun _ => .refl _

theorem update {accesses : Accesses} {e : Entity} {f : Access → Access}
    (h : p.accesses.update e f = .ok accesses) (hf : ∀ a : Access, a.Extends (f a)) :
    p.Grows m scanned { p with accesses := accesses } := by
  refine of_threads_eq rfl fun e' => ?_
  rw [Accesses.find_update h]
  split
  · rename_i heq
    rw [heq]
    exact hf _
  · exact .refl _

theorem claimPort {accesses : Accesses} {t : ThreadId} {k : MethodKey} {granted : Bool}
    (h : p.accesses.claimPort t k = .ok (granted, accesses)) :
    p.Grows m scanned { p with accesses := accesses } :=
  of_threads_eq rfl fun e => by rw [Accesses.find_claimPort h]; exact .refl _

theorem addThread (p : Plan) (module object : Nat) (name entry : String) (isTask : Bool) :
    p.Grows m scanned (p.addThread module object name entry isTask) := by
  have hold : ∀ {id : Nat} {t : ThreadPlan}, p.threads[id]? = some t →
      (p.addThread module object name entry isTask).threads[id]? = some t := by
    intro id t ht
    have hlt := (List.getElem?_eq_some_iff.mp ht).1
    rw [Plan.addThread, List.getElem?_append_left hlt]
    exact ht
  refine ⟨fun hp => ⟨?_, fun t ht => ?_, hp.nodup⟩, fun ht => ⟨_, hold ht, .refl _⟩,
    fun {id t} ht _ => ?_, fun _ => .refl _⟩
  · have hcount : (p.threadsOf module).length =
        ((p.threads.map (·.place)).filter (·.module = module)).length := by
      rw [List.filter_map, List.length_map]
      rfl
    simp only [Plan.addThread, List.map_append, List.map_cons, List.map_nil, hcount]
    exact hp.ranked.concat module
  · rcases List.mem_append.mp ht with ht | ht
    · exact hp.threads t ht
    · cases List.mem_singleton.mp ht
      exact ⟨Pool.sound_empty _, rfl, fun _ => rfl, by simp, by simp⟩
  · rcases Nat.lt_or_ge id p.threads.length with hlt | hge
    · have hget := hold (List.getElem?_eq_getElem hlt)
      cases Option.some.inj (hget.symm.trans ht)
      exact .inr ⟨_, List.getElem?_eq_getElem hlt, rfl, rfl⟩
    · rw [Plan.addThread, List.getElem?_append_right hge] at ht
      cases List.mem_singleton.mp (List.mem_of_getElem? ht)
      exact .inl rfl

theorem updateThread {t : ThreadId} {f : ThreadPlan → ThreadPlan}
    (hbecomes : ∀ th : ThreadPlan, th.Becomes (f th))
    (hsound : ∀ th, p.threads[t]? = some th → th.Sound m → (f th).Sound m)
    (hmethods : scanned ≠ some t → ∀ th, (f th).methods = th.methods) :
    p.Grows m scanned (p.updateThread t f) := by
  refine ⟨fun hp => ⟨?_, fun th hth => ?_, hp.nodup⟩, fun {id th} hth => ?_,
    fun {id th} hth hid => ?_, fun _ => .refl _⟩
  · have hplaces : (p.updateThread t f).threads.map (·.place) = p.threads.map (·.place) := by
      refine List.ext_getElem? fun i => ?_
      simp only [Plan.updateThread, List.getElem?_map, List.getElem?_modify]
      cases p.threads[i]? with
      | none => rfl
      | some th =>
        simp only [Option.map_eq_map, Option.map_some]
        split
        · rw [(hbecomes th).place]
        · rfl
    rw [hplaces]
    exact hp.ranked
  · obtain ⟨i, hi⟩ := List.mem_iff_getElem?.mp hth
    simp only [Plan.updateThread, List.getElem?_modify] at hi
    obtain ⟨th₀, hth₀, rfl⟩ := Option.map_eq_some_iff.mp hi
    have hs := hp.threads th₀ (List.mem_of_getElem? hth₀)
    split
    · rename_i heq
      subst heq
      exact hsound th₀ hth₀ hs
    · exact hs
  · by_cases heq : t = id
    · subst heq
      exact ⟨f th, by simp [Plan.updateThread, hth], hbecomes th⟩
    · exact ⟨th, by simp [Plan.updateThread, hth, heq], .refl _⟩
  · simp only [Plan.updateThread, List.getElem?_modify] at hth
    obtain ⟨th₀, hth₀, rfl⟩ := Option.map_eq_some_iff.mp hth
    refine .inr ⟨th₀, hth₀, ?_, ?_⟩
    · split
      · rename_i heq
        subst heq
        exact hmethods hid th₀
      · rfl
    · split
      · exact (hbecomes th₀).object.symm
      · rfl

theorem requestMethod {t : ThreadId} {name : String}
    (hknown : ∀ th, p.threads[t]? = some th → name = th.entry ∨
      ∃ f, Walker.calledMethod? m (some th.object) name = some f) :
    p.Grows m (some t) (p.requestMethod t name) := by
  refine updateThread (fun th => ?_) (fun th hth hs => ?_) (fun hne => absurd rfl hne)
  · split
    · exact .refl th
    · exact ⟨rfl, rfl, rfl, List.prefix_append _ _⟩
  · split
    · exact hs
    · rename_i hnot
      refine ⟨hs.pool, hs.place, hs.arrays, ?_, fun name' hname' => ?_⟩
      · refine List.nodup_append.mpr ⟨hs.nodup, by simp, fun x hx y hy hxy => hnot ?_⟩
        cases List.mem_singleton.mp hy
        simpa [hxy] using hx
      · rcases List.mem_append.mp hname' with hname' | hname'
        · exact hs.known name' hname'
        · cases List.mem_singleton.mp hname'
          exact hknown th hth

end Grows

/-- A plan later than another, to which only modules and threads were added. -/
inductive Enlarges (p : Plan) : Plan → Prop
  | refl : Enlarges p p
  | module {q : Plan} (h : Enlarges p q) (id : Nat) (caller : Option Nat) :
      Enlarges p { q with modules := q.modules ++ [⟨id, caller⟩] }
  | thread {q : Plan} (h : Enlarges p q) (module object : Nat) (name entry : String)
      (isTask : Bool) : Enlarges p (q.addThread module object name entry isTask)

section Enlarging

variable {m : Machine} {p q r : Plan} {scanned : Option ThreadId}

theorem Enlarges.trans (h : p.Enlarges q) (h' : q.Enlarges r) : p.Enlarges r := by
  induction h' with
  | refl => exact h
  | module _ id caller ih => exact .module ih id caller
  | thread _ module object name entry isTask ih => exact .thread ih module object name entry isTask

theorem Enlarges.grows (h : p.Enlarges q) : p.Grows m scanned q := by
  induction h with
  | refl => exact .refl p
  | module _ id caller ih => exact ih.trans (.modules _)
  | thread _ module object name entry isTask ih => exact ih.trans (.addThread _ _ _ _ _ _)

theorem Enlarges.accesses (h : p.Enlarges q) : q.accesses = p.accesses := by
  induction h with
  | refl => rfl
  | module _ _ _ ih => exact ih
  | thread _ _ _ _ _ _ ih => exact ih

theorem prepare_enlarges (p : Plan) (module object : Nat) (o : Object) (top : Bool) :
    p.Enlarges (p.prepare module object o top) := by
  have hmain : p.Enlarges
      (if top && needsMain o then p.addThread module object mainMethod mainMethod false else p) := by
    split
    · exact .thread .refl _ _ _ _ _
    · exact .refl
  refine hmain.trans (.trans (foldl_rel (fun _ => .refl) (fun _ _ _ => .trans) fun q d _ => ?_)
    (foldl_rel (fun _ => .refl) (fun _ _ _ => .trans) fun q f _ => ?_))
  · exact .thread .refl _ _ _ _ _
  · unfold addEntry
    split
    · exact .thread .refl _ _ _ _ _
    · exact .refl

theorem requestObject_enlarges {depth : Nat} {caller : Option Nat} {id : Nat}
    (h : p.requestObject m depth caller id = .ok q) : p.Enlarges q := by
  induction depth generalizing caller id p q with
  | zero =>
    cases h
    exact .refl
  | succ depth ih =>
    unfold requestObject at h
    split at h
    · cases h
      exact .refl
    · simp only [except_bind_eq_ok] at h
      obtain ⟨o, -, members, -, h⟩ := h
      refine (Enlarges.module .refl id caller).trans
        ((prepare_enlarges _ p.modules.length id o caller.isNone).trans ?_)
      refine foldlM_rel (fun _ => .refl) (fun _ _ _ => .trans) (fun q x q' _ hq => ?_) h
      split at hq
      · exact ih hq
      · cases hq
        exact .refl

theorem callTask_enlarges {module id : Nat} {method : String}
    (h : p.callTask m module id method = .ok q) : p.Enlarges q := by
  simp only [callTask, except_bind_eq_ok] at h
  obtain ⟨p₁, hobject, h⟩ := h
  refine (requestObject_enlarges hobject).trans ?_
  split at h
  · cases h
  · split at h
    · cases h
      exact .refl
    · cases h
      exact .thread .refl _ _ _ _ _

end Enlarging

end Plan
end Synth
end MachineSynth
