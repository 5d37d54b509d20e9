import Mathlib
import MachineSynth.Proofs.Planning
import MachineSynth.Proofs.Tidiness

/-! Modules: an object has one module at most, which stands inside an earlier one, and every thread
has its table in a module of the plan. -/
namespace MachineSynth
namespace Synth

namespace Pool

def plannedKinds : List String := ["axi-master-port", "axi-slave-port", "ext-input", "ext-output"]

structure Planned (p : Pool) : Prop extends p.Tidy where
  ports : ∀ r ∈ p.resources, r.kind ∈ plannedKinds

theorem planned_empty (place : Rtl.TableRef) : (empty place).Planned :=
  { tidy_empty place with ports := by simp [empty] }

theorem request_planned {p : Pool} (h : p.Planned) {k : ResourceKey}
    (hk : k.kind ∈ plannedKinds) {prepare : Rtl.Resource → Rtl.Resource} (hp : Prepares prepare) :
    (p.request k prepare).2.Planned := by
  refine { (request_tidily k hp).tidy h.toTidy with ports := fun r hr => ?_ }
  unfold request at hr
  split at hr
  · exact h.ports r hr
  · obtain ⟨i, hi⟩ := List.mem_iff_getElem?.mp hr
    simp only [add, update, List.getElem?_modify] at hi
    obtain ⟨r₀, hr₀, rfl⟩ := Option.map_eq_some_iff.mp hi
    have hkind : r₀.kind ∈ plannedKinds := by
      rcases List.mem_append.mp (List.mem_of_getElem? hr₀) with hmem | hmem
      · exact h.ports r₀ hmem
      · rw [List.mem_singleton.mp hmem]
        exact hk
    split
    · rw [hp.kind]
      exact hkind
    · exact hkind

theorem masterPort?_planned {p : Pool} (h : p.Planned) (id : Nat) (o : Object) :
    (p.masterPort? id o).2.Planned := by
  unfold masterPort?
  split
  · exact request_planned h (by simp [plannedKinds]) (.of_eq fun _ => rfl)
  · exact h

theorem slavePort?_planned {p : Pool} (h : p.Planned) (id : Nat) (o : Object) :
    (p.slavePort? id o).2.Planned := by
  unfold slavePort?
  split
  · exact request_planned h (by simp [plannedKinds]) (.of_eq fun _ => rfl)
  · exact h

theorem methodPort?_planned {p : Pool} (h : p.Planned) (f : Method) :
    (p.methodPort? f).2.Planned := by
  unfold methodPort?
  split
  · exact request_planned h (by simp [plannedKinds]) (.of_eq fun _ => rfl)
  · exact request_planned h (by simp [plannedKinds]) (.of_eq fun _ => rfl)
  · exact h

end Pool

namespace Plan

structure Housed (p : Plan) : Prop where
  objects : (p.modules.map (·.object)).Nodup
  parent : ∀ {k : Nat} {mod : ModulePlan}, p.modules[k]? = some mod → 0 < k →
    ∃ q, mod.parent = some q ∧ q < k
  module : ∀ t ∈ p.threads, t.place.module < p.modules.length
  pool : ∀ t ∈ p.threads, t.pool.Planned

/-- A later plan is housed if the earlier one is, provided that it has `n` modules at least. -/
structure Houses (n : Nat) (p q : Plan) : Prop where
  modules : p.modules.length ≤ q.modules.length
  housed : n ≤ p.modules.length → p.Housed → q.Housed

namespace Houses

variable {n : Nat} {p q r : Plan}

theorem refl (p : Plan) : Houses n p p := ⟨le_rfl, fun _ => id⟩

theorem trans (h : Houses n p q) (h' : Houses n q r) : Houses n p r :=
  ⟨h.modules.trans h'.modules, fun hn hp => h'.housed (hn.trans h.modules) (h.housed hn hp)⟩

theorem of_eq (hmodules : q.modules = p.modules) (hthreads : q.threads = p.threads) :
    Houses n p q := by
  refine ⟨by rw [hmodules], fun _ hp => ⟨?_, ?_, ?_, ?_⟩⟩
  · rw [hmodules]; exact hp.objects
  · rw [hmodules]; exact hp.parent
  · rw [hmodules, hthreads]; exact hp.module
  · rw [hthreads]; exact hp.pool

theorem addThread (p : Plan) {module : Nat} (h : module < n) (object : Nat) (name entry : String)
    (isTask : Bool) : Houses n p (p.addThread module object name entry isTask) := by
  refine ⟨le_rfl, fun hn hp => ⟨hp.objects, hp.parent, fun t ht => ?_, fun t ht => ?_⟩⟩ <;>
    rcases List.mem_append.mp ht with ht | ht
  · exact hp.module t ht
  · rw [List.mem_singleton.mp ht]
    exact h.trans_le hn
  · exact hp.pool t ht
  · rw [List.mem_singleton.mp ht]
    exact Pool.planned_empty _

theorem updateThread {t : ThreadId} {f : ThreadPlan → ThreadPlan}
    (hplace : ∀ th, (f th).place = th.place) (hpool : ∀ th, th.pool.Planned → (f th).pool.Planned) :
    Houses n p (p.updateThread t f) := by
  have hmem : ∀ {th}, th ∈ (p.updateThread t f).threads →
      ∃ th₀ ∈ p.threads, th = th₀ ∨ th = f th₀ := by
    intro th hth
    obtain ⟨i, hi⟩ := List.mem_iff_getElem?.mp hth
    simp only [Plan.updateThread, List.getElem?_modify] at hi
    obtain ⟨th₀, hth₀, heq⟩ := Option.map_eq_some_iff.mp hi
    refine ⟨th₀, List.mem_of_getElem? hth₀, ?_⟩
    split at heq
    · exact .inr heq.symm
    · exact .inl heq.symm
  refine ⟨le_rfl, fun _ hp => ⟨hp.objects, hp.parent, fun th hth => ?_, fun th hth => ?_⟩⟩ <;>
    obtain ⟨th₀, hth₀, rfl | rfl⟩ := hmem hth
  · exact hp.module th hth₀
  · rw [hplace]
    exact hp.module th₀ hth₀
  · exact hp.pool th hth₀
  · exact hpool th₀ (hp.pool th₀ hth₀)

theorem requestMethod (p : Plan) (t : ThreadId) (name : String) :
    Houses n p (p.requestMethod t name) := by
  refine updateThread (fun th => ?_) fun th hth => ?_ <;> split
  · rfl
  · rfl
  · exact hth
  · exact hth

end Houses

variable {m : Machine} {n : Nat} {p q : Plan}

theorem prepare_houses (p : Plan) {module : Nat} (h : module < n) (object : Nat) (o : Object)
    (top : Bool) : Houses n p (p.prepare module object o top) := by
  have hmain : Houses n p
      (if top && needsMain o then p.addThread module object mainMethod mainMethod false else p) := by
    split
    · exact .addThread _ h _ _ _ _
    · exact .refl p
  refine hmain.trans (.trans (foldl_rel .refl (fun _ _ _ => .trans) fun q d _ => ?_)
    (foldl_rel .refl (fun _ _ _ => .trans) fun q f _ => ?_))
  · exact .addThread _ h _ _ _ _
  · unfold addEntry
    split
    · exact .addThread _ h _ _ _ _
    · exact .refl q

theorem Housed.addModule (hp : p.Housed) {id : Nat} {caller : Option Nat}
    (hnew : p.module? id = none)
    (hcaller : p.modules.length = 0 ∨ ∃ q, caller = some q ∧ q < p.modules.length) :
    Housed { p with modules := p.modules ++ [⟨id, caller⟩] } := by
  refine ⟨?_, fun {k mod} hk hpos => ?_, fun t ht => ?_, hp.pool⟩
  · rw [List.map_append]
    refine List.nodup_append'.mpr ⟨hp.objects, by simp, ?_⟩
    simpa [module?, List.findIdx?_eq_none_iff] using hnew
  · simp only at hk
    rcases Nat.lt_trichotomy k p.modules.length with hlt | rfl | hgt
    · rw [List.getElem?_append_left hlt] at hk
      exact hp.parent hk hpos
    · rw [List.getElem?_concat_length] at hk
      cases hk
      rcases hcaller with hzero | hcaller
      · omega
      · exact hcaller
    · rw [List.getElem?_eq_none (by simp; omega)] at hk
      cases hk
  · have := hp.module t ht
    simp only [List.length_append, List.length_singleton]
    omega

theorem requestObject_houses {depth : Nat} {caller : Option Nat} {id : Nat}
    (hcaller : n = 0 ∧ p.modules.length = 0 ∨ ∃ q, caller = some q ∧ q < n)
    (h : p.requestObject m depth caller id = .ok q) : Houses n p q := by
  induction depth generalizing caller id p q n with
  | zero =>
    cases h
    exact .refl p
  | succ depth ih =>
    unfold requestObject at h
    split at h
    · cases h
      exact .refl p
    · rename_i hnew
      simp only [except_bind_eq_ok] at h
      obtain ⟨o, -, members, -, h⟩ := h
      -- from here on there is the new module, in which all others are nested
      have hrest : Houses (p.modules.length + 1)
          { p with modules := p.modules ++ [⟨id, caller⟩] } q := by
        refine (prepare_houses _ (Nat.lt_succ_self _) id o caller.isNone).trans ?_
        refine foldlM_rel .refl (fun _ _ _ => .trans) (fun q x q' _ hq => ?_) h
        split at hq
        · exact ih (.inr ⟨_, rfl, Nat.lt_succ_self _⟩) hq
        · cases hq
          exact .refl q
      have hle := hrest.modules
      simp only [List.length_append, List.length_singleton] at hle
      refine ⟨by omega, fun hn hp => hrest.housed (by simp) (hp.addModule ?_ ?_)⟩
      · simpa using hnew
      · rcases hcaller with ⟨-, hzero⟩ | ⟨q, hq, hlt⟩
        · exact .inl hzero
        · exact .inr ⟨q, hq, hlt.trans_le hn⟩

theorem callTask_houses {module id : Nat} {method : String} (hmodule : module < n)
    (h : p.callTask m module id method = .ok q) : Houses n p q := by
  simp only [callTask, except_bind_eq_ok] at h
  obtain ⟨p₁, hobject, h⟩ := h
  have hp₁ : Houses n p p₁ := requestObject_houses (.inr ⟨_, rfl, hmodule⟩) hobject
  split at h
  · cases h
  · rename_i callee hcallee
    split at h
    · cases h
      exact hp₁
    · cases h
      have hlt : callee < p₁.modules.length := (List.findIdx?_eq_some_iff_findIdx_eq.mp hcallee).1
      have hadd : Houses p₁.modules.length p₁ (p₁.addThread callee id method method true) :=
        .addThread _ hlt _ _ _ _
      exact ⟨hp₁.modules.trans hadd.modules, fun hn hp => hadd.housed le_rfl (hp₁.housed hn hp)⟩

end Plan

namespace ScanSite

open Plan (Houses)

variable {s : ScanSite} {w w' : Walker} {p q : Plan}

theorem insn_houses {i : Insn} (h : s.insn (w, p) i = .ok (w', q)) :
    Houses (s.module + 1) p q := by
  obtain ⟨-, _, _, _, -, -, -, hturn⟩ := insn_turn h
  cases hturn with
  | quiet => exact .refl p
  | member => exact .of_eq rfl rfl
  | array => exact .of_eq rfl rfl
  | mover => exact .of_eq rfl rfl
  | flow _ call => exact Plan.requestObject_houses (.inr ⟨_, rfl, Nat.lt_succ_self _⟩) call
  | task _ call => exact Plan.callTask_houses (Nat.lt_succ_self _) call
  | @port label f accesses =>
    exact Houses.trans (q := { p with accesses := accesses }) (.of_eq rfl rfl)
      (.requestMethod _ _ _)
  | own => exact .requestMethod _ _ _

theorem scan_houses (h : s.scan p = .ok q) : Houses (s.module + 1) p q := by
  obtain ⟨o, f, -, -, ⟨-, rfl, -⟩ | ⟨-, w, hcode⟩⟩ := scan_cases h
  · exact .refl q
  · exact foldlM_rel (R := fun a b : Walker × Plan => Houses (s.module + 1) a.2 b.2)
      (fun a => .refl a.2) (fun _ _ _ => .trans) (fun _ _ _ _ => insn_houses) hcode

end ScanSite

namespace Plan

variable {m : Machine} {p q : Plan}

theorem scanThreads_housed {count : Nat} {t : ThreadId} (hp : p.Housed)
    (h : p.scanThreads m count t = .ok q) : q.Housed := by
  refine scanThreads_keeps (fun {p t th} hp _ => ?_) (fun {p q t th name} hp hth _ hscan => ?_) hp h
  · exact (Houses.requestMethod _ _ _ : Houses 0 p _).housed (Nat.zero_le _) hp
  · exact (ScanSite.scan_houses hscan).housed (hp.module th (List.mem_of_getElem? hth)) hp

section Ports

theorem Houses.setPool {n : Nat} {t : ThreadId} {f : Pool → Pool}
    (hf : ∀ q : Pool, q.Planned → (f q).Planned) :
    Houses n p (p.updateThread t fun th => { th with pool := f th.pool }) :=
  .updateThread (fun _ => rfl) fun th => hf th.pool

theorem HandsOut.houses (h : p.HandsOut m q) : Houses 0 p q := by
  induction h with
  | refl => exact .refl p
  | array _ t id o ih =>
    exact ih.trans (.setPool fun q hq =>
      Pool.slavePort?_planned (Pool.masterPort?_planned hq id o) id o)
  | @method q _ _ _ _ f _ accesses _ _ _ _ _ ih =>
    exact (ih.trans (.of_eq rfl rfl : Houses 0 q { q with accesses := accesses })).trans
      (.setPool fun q hq => Pool.methodPort?_planned hq f)

end Ports

theorem ofRoot_housed {root : Nat} (h : ofRoot m root = .ok p) : p.Housed := by
  obtain ⟨top, p₁, p₂, -, hobject, hscan, hports⟩ := ofRoot_eq_ok h
  have hempty : empty.Housed := ⟨by simp [empty], by simp [empty], by simp [empty], by simp [empty]⟩
  have hp₁ : Houses 0 empty p₁ := requestObject_houses (.inl ⟨rfl, rfl⟩) hobject
  exact hports.houses.housed (Nat.zero_le _)
    (scanThreads_housed (hp₁.housed (Nat.zero_le _) hempty) hscan)

end Plan
end Synth
end MachineSynth
