import Mathlib
import MachineSynth.Proofs.Lowering.Stops
import MachineSynth.Proofs.Reach.Demands

/-! Clearance: what a scan that went through has made sure of. Lowering walks the code of a method
as the scan did, and then finds what the scan found. -/
namespace MachineSynth
namespace Synth

namespace ScanSite

variable {s : ScanSite} {w w' : Walker} {p q : Plan}

/-- A scan that gets past an instruction has found what the instruction names, and walks on. -/
theorem insn_passes {i : Insn} (h : s.insn (w, p) i = .ok (w', q)) :
    w.step s.machine i = .ok w' ∧ w.Passes s.machine i := by
  refine ⟨(insn_turn h).1, ?_⟩
  cases i with
  | loadObject target object label => exact ⟨w', (insn_turn h).1⟩
  | memberRead target object label =>
    obtain ⟨owner, v, haccess, hv, hkind, -⟩ := access_eq_ok h
    exact ⟨owner, w', v, haccess, hv, hkind⟩
  | memberWrite object label source =>
    obtain ⟨owner, v, haccess, hv, hkind, -⟩ := access_eq_ok h
    exact ⟨owner, w', v, haccess, hv, hkind⟩
  | arrayRead target object index =>
    simp only [insn, except_bind_eq_ok] at h
    obtain ⟨q₁, harray, -⟩ := h
    exact (array_eq_ok harray).1
  | arrayWrite object index source =>
    simp only [insn, except_bind_eq_ok] at h
    obtain ⟨q₁, harray, -⟩ := h
    exact (array_eq_ok harray).1
  | call object label args =>
    simp only [insn, except_bind_eq_ok] at h
    obtain ⟨q₁, hcall, -⟩ := h
    exact (call_eq_ok args hcall).1
  | _ => trivial

/-- At every instruction of code that a scan went through, the scan has the walker that the code
leads to, and gets past the instruction. -/
theorem insns_guarded {code : List Insn} (h : code.foldlM s.insn (w, p) = .ok (w', q)) :
    w.walk s.machine code = .ok w' ∧ w.Guarded s.machine code := by
  induction code generalizing w p with
  | nil =>
    cases h
    exact ⟨rfl, fun k i v hi => by simp at hi⟩
  | cons i rest ih =>
    rw [List.foldlM_cons, except_bind_eq_ok] at h
    obtain ⟨⟨w₁, p₁⟩, hinsn, h⟩ := h
    obtain ⟨hstep, hpasses⟩ := insn_passes hinsn
    obtain ⟨hwalk, hguarded⟩ := ih h
    refine ⟨(Walker.walk_cons hstep rest).trans hwalk, fun k j v hj hv => ?_⟩
    cases k with
    | zero =>
      cases Option.some.inj hj
      cases hv
      exact hpasses
    | succ k =>
      rw [List.take_succ_cons, Walker.walk_cons hstep] at hv
      exact hguarded k j v hj hv

theorem insns_take {code : List Insn} (h : code.foldlM s.insn (w, p) = .ok (w', q)) (k : Nat) :
    ∃ v r, (code.take k).foldlM s.insn (w, p) = .ok (v, r) := by
  rw [← List.take_append_drop k code, List.foldlM_append, except_bind_eq_ok] at h
  obtain ⟨⟨v, r⟩, htake, -⟩ := h
  exact ⟨v, r, htake⟩

end ScanSite

/-- What a scan of a method makes sure of: the method is there and can be implemented, and its code,
if it is to be lowered, is guarded. -/
def Cleared (m : Machine) (object : Nat) (name : String) : Prop :=
  ∃ o f, m.object? object = some o ∧ o.method? name = some f ∧
    (Site.implementation? o f).isSome = true ∧
    (f.isNative = false → (Walker.start object).Guarded m f.code)

theorem Plan.Scanned.cleared {m : Machine} {k : ThreadId} {t : ThreadPlan} {name : String}
    (h : Plan.Scanned m k t name) : Cleared m t.object name := by
  obtain ⟨before, after, hscan⟩ := h
  obtain ⟨o, f, ho, hf, hcases⟩ := ScanSite.scan_cases hscan
  refine ⟨o, f, ho, hf, ?_, fun hnative => ?_⟩
  · rcases hcases with ⟨hnative, -, himported⟩ | ⟨hnative, -⟩
    · simpa [Site.implementation?, hnative] using himported
    · simp [Site.implementation?, hnative]
  · obtain ⟨hnative', -⟩ | ⟨-, w, hcode⟩ := hcases
    · rw [hnative] at hnative'
      cases hnative'
    · exact (ScanSite.insns_guarded hcode).2

namespace Site

variable {m : Machine} {owners : OwnershipTable} {thread : ThreadId} {object : Nat} {slot : String}
  {role : Role} {b b' : Builder} {c : Context}

theorem advances_lowered {o : Object} {f impl : Method} (hb : b.Sound)
    (himpl : implementation? o f = some impl) :
    Lower.Advances ⟨m, owners, thread, object, slot, impl, role⟩
      (f.isNative = false → (Walker.start object).Guarded m f.code)
      (.calling fun c => f.isNative = false ∧
        (Walker.start object).Along m f.code (·.Leaves m object · c))
      (if f.isNative then Lower.imported ⟨m, owners, thread, object, slot, impl, role⟩
        else Lower.implementation ⟨m, owners, thread, object, slot, impl, role⟩)
      ⟨b, Walker.start object, [], []⟩ := by
  split
  · exact Lower.advances_imported _
  · rename_i hnative
    have hnative : f.isNative = false := by simpa using hnative
    have hself : f = impl := by simpa [implementation?, hnative] using himpl
    subst hself
    unfold Lower.implementation
    split
    · exact Lower.advances_imported _
    · split
      · exact Lower.advances_port _
      · exact Lower.advances_body (start_sound hb object) (fun r j hj => by cases hj)
          (fun hguard => hguard hnative) fun c hc => ⟨hnative, hc⟩

/-- A method that was scanned is found again, and lowering it stops only with what a scan does not
look at. -/
theorem lower_stops {e : Stop} (hb : b.Sound) (hcleared : Cleared m object slot)
    (h : lower m owners thread object slot role b = .error e) : e.IsOfLowering := by
  obtain ⟨o, f, ho, hf, himpl, hguarded⟩ := hcleared
  obtain ⟨impl, himpl⟩ := Option.isSome_iff_exists.mp himpl
  unfold lower at h
  rw [ho, Option.bind_some, hf, Option.map_some] at h
  simp only [himpl, except_bind_eq_error] at h
  obtain hrun | ⟨_, -, h⟩ := h
  · exact (advances_lowered hb himpl).1 e hrun hguarded
  · cases h

theorem lower_calls (hb : b.Sound) (h : lower m owners thread object slot role b = .ok (c, b'))
    {st : LoweredState} (hst : st ∈ c.states) {callee : Callee} (hcallee : st.callee = some callee) :
    ∃ f, Walker.calledMethod? m (some object) slot = some f ∧ f.isNative = false ∧
      (Walker.start object).Along m f.code (·.Leaves m object · callee) := by
  obtain ⟨o, f, impl, e, l, ho, hf, himpl, hrun, rfl, rfl⟩ := lower_eq_ok.mp h
  have hmoves := (advances_lowered hb himpl).2 _ _ hrun
  obtain ⟨hnative, hleaves⟩ := Lowering.calls_of_moves hmoves (by simp [Lowering.Calls]) st hst
    callee hcallee
  exact ⟨f, by simp [Walker.calledMethod?, ho, hf], hnative, hleaves⟩

end Site

section Stops

variable {ε ε' α β : Type} {E : ε → Prop}

def Stops (E : ε → Prop) (r : Except ε α) : Prop := ∀ e, r = .error e → E e

theorem stops_ok (a : α) : Stops E (.ok a) := fun _ h => by cases h

theorem stops_error {e : ε} (he : E e) : Stops E (.error e : Except ε α) := fun _ h => by
  cases h
  exact he

theorem Stops.bind {r : Except ε α} {f : α → Except ε β} (hr : Stops E r)
    (hf : ∀ a, Stops E (f a)) : Stops E (r >>= f) := by
  intro e h
  rcases except_bind_eq_error.mp h with h | ⟨a, -, h⟩
  · exact hr e h
  · exact hf a e h

theorem Stops.mapError {E' : ε' → Prop} {r : Except ε α} {f : ε → ε'} (hr : Stops E r)
    (hf : ∀ e, E e → E' (f e)) : Stops E' (r.mapError f) := by
  intro e h
  obtain ⟨e', he', rfl⟩ := mapError_eq_error.mp h
  exact hf e' (hr e' he')

theorem stops_foldlM {f : β → α → Except ε β} (hf : ∀ b x, Stops E (f b x)) (xs : List α) (b : β) :
    Stops E (xs.foldlM f b) := by
  intro e h
  obtain ⟨b', x, -, h⟩ := foldlM_eq_error h
  exact hf b' x e h

end Stops

def IsOfScanning : Fault → Prop
  | .dangling | .scanClosed | .loadUnbound _ | .loadNonObject _ _ | .notMemberAccess
  | .notBound _ => True
  | _ => False

namespace Walker

variable {m : Machine} (w : Walker)

theorem memberObject_stops (id : Nat) : Stops IsOfScanning (memberObject m id) := by
  unfold memberObject
  split
  · exact stops_ok _
  · exact stops_error trivial

theorem load_stops (target object : RegisterId) (label : String) :
    Stops IsOfScanning (w.load m target object label) := by
  unfold load
  split
  · exact stops_error trivial
  · split
    · exact stops_ok _
    · split
      · exact (memberObject_stops _).bind fun _ => stops_ok _
      · exact stops_error trivial

theorem boundObject_stops (r : RegisterId) : Stops IsOfScanning (w.boundObject r) := by
  unfold boundObject
  split
  · exact stops_ok _
  · exact stops_error trivial

theorem access_stops (i : Insn) : Stops IsOfScanning (w.access m i) := by
  unfold access
  split
  · refine (w.boundObject_stops _).bind fun owner => ?_
    split
    · exact (memberObject_stops _).bind fun _ => stops_ok _
    · exact stops_ok _
  · exact (w.boundObject_stops _).bind fun _ => stops_ok _
  · exact stops_error trivial

end Walker

theorem Accesses.update_stops (s : Accesses) (e : Entity) (f : Access → Access) :
    Stops IsOfScanning (s.update e f) := by
  unfold update
  split
  · exact stops_error trivial
  · exact stops_ok _

theorem Accesses.claimPort_stops (s : Accesses) (t : ThreadId) (k : MethodKey) :
    Stops IsOfScanning (s.claimPort t k) := by
  unfold claimPort
  split
  · exact stops_error trivial
  · split <;> exact stops_ok _

theorem object_stops (m : Machine) (id : Nat) : Stops IsOfScanning (m.object id) := by
  unfold Machine.object
  split
  · exact stops_ok _
  · exact stops_error trivial

theorem memberObjects_stops (m : Machine) (id : Nat) :
    Stops IsOfScanning (m.memberObjects id) := by
  intro f h
  obtain ⟨k, -, h⟩ := mapM_eq_error h
  exact ((object_stops m k).bind fun _ => stops_ok _) f h

def Stop.IsOfPlanning : Stop → Prop
  | .error _ => True
  | .fault f => IsOfScanning f

namespace Plan

variable {m : Machine}

theorem requestObject_stops (depth : Nat) (caller : Option Nat) (id : Nat) (p : Plan) :
    Stops IsOfScanning (p.requestObject m depth caller id) := by
  induction depth generalizing caller id p with
  | zero => exact stops_ok _
  | succ depth ih =>
    unfold requestObject
    split
    · exact stops_ok _
    · refine (object_stops m id).bind fun o => (memberObjects_stops m id).bind
        fun members => stops_foldlM (fun p x => ?_) members _
      obtain ⟨k, member⟩ := x
      dsimp only
      split
      · exact ih _ _ _
      · exact stops_ok _

theorem callTask_stops (module id : Nat) (method : String) (p : Plan) :
    Stops IsOfScanning (p.callTask m module id method) := by
  refine (requestObject_stops _ _ _ p).bind fun p => ?_
  split
  · exact stops_error trivial
  · split <;> exact stops_ok _

end Plan

namespace ScanSite

variable (s : ScanSite) (w : Walker) (p : Plan)

theorem faulty_stops {α : Type} {r : Except Fault α} (h : Stops IsOfScanning r) :
    Stops Stop.IsOfPlanning (faulty r) :=
  h.mapError fun _ => id

theorem access_stops (i : Insn) (label : String) (write : Bool) :
    Stops Stop.IsOfPlanning (s.access w p i label write) := by
  refine (faulty_stops (w.access_stops i)).bind fun x => ?_
  have hrecord : ∀ {accesses : Except Fault Accesses}, Stops IsOfScanning accesses →
      Stops Stop.IsOfPlanning (do
        let accesses ← faulty accesses
        return (x.2, { p with accesses := accesses })) :=
    fun h => (faulty_stops h).bind fun _ => stops_ok _
  dsimp only
  split
  · exact stops_error trivial
  · exact stops_error trivial
  · exact stops_ok _
  all_goals
    split
    · exact stops_ok _
    · exact hrecord (p.accesses.update_stops _ _)

theorem array_stops (r : RegisterId) (write : Bool) :
    Stops Stop.IsOfPlanning (s.array w p r write) := by
  unfold array
  split
  · split
    · exact (faulty_stops (p.accesses.update_stops _ _)).bind fun _ => stops_ok _
    · exact stops_error trivial
  · exact stops_error trivial

theorem call_stops (r : RegisterId) (label : String) :
    Stops Stop.IsOfPlanning (s.call w p r label) := by
  unfold call
  split
  · exact stops_error trivial
  · split
    · exact stops_error trivial
    · split
      · split
        · exact (faulty_stops (p.accesses.update_stops _ _)).bind fun _ => stops_ok _
        · exact stops_ok _
      · split
        · exact faulty_stops (Plan.requestObject_stops _ _ _ p)
        · split
          · exact faulty_stops (Plan.callTask_stops _ _ _ p)
          · split
            · refine (faulty_stops (p.accesses.claimPort_stops _ _)).bind fun x => ?_
              dsimp only
              split
              · exact stops_ok _
              · exact stops_error trivial
            · exact stops_ok _

theorem insn_stops (x : Walker × Plan) (i : Insn) : Stops Stop.IsOfPlanning (s.insn x i) := by
  obtain ⟨w, p⟩ := x
  cases i with
  | loadObject target object label =>
    exact (faulty_stops (w.load_stops target object label)).bind fun _ => stops_ok _
  | memberRead target object label => exact s.access_stops w p _ _ _
  | memberWrite object label source => exact s.access_stops w p _ _ _
  | arrayRead target object index => exact (s.array_stops w p _ _).bind fun _ => stops_ok _
  | arrayWrite object index source => exact (s.array_stops w p _ _).bind fun _ => stops_ok _
  | call object label args => exact (s.call_stops w p object label).bind fun _ => stops_ok _
  | _ => exact stops_ok _

theorem scan_stops : Stops Stop.IsOfPlanning (s.scan p) := by
  unfold scan
  split
  · exact stops_error trivial
  · split
    · split
      · exact stops_ok _
      · exact stops_error trivial
    · split
      · exact stops_error trivial
      · exact (stops_foldlM s.insn_stops _ _).bind fun _ => stops_ok _

end ScanSite

namespace Plan

variable {m : Machine}

theorem scanMethods_stops (t : ThreadId) (count i : Nat) (p : Plan) :
    Stops Stop.IsOfPlanning (p.scanMethods m t count i) := by
  induction count generalizing i p with
  | zero => exact stops_ok _
  | succ count ih =>
    unfold scanMethods
    split
    · exact stops_ok _
    · split
      · exact stops_ok _
      · refine Stops.bind ((ScanSite.scan_stops _ p).mapError fun e he => ?_) fun p => ih _ p
        cases e with
        | error e => exact trivial
        | fault f => exact he

theorem scanThreads_stops (count : Nat) (t : ThreadId) (p : Plan) :
    Stops Stop.IsOfPlanning (p.scanThreads m count t) := by
  induction count generalizing t p with
  | zero => exact stops_ok _
  | succ count ih =>
    unfold scanThreads
    split
    · refine Stops.bind ?_ fun p => ih _ p
      unfold scanThread
      split
      · exact stops_ok _
      · exact scanMethods_stops _ _ _ _
    · exact stops_ok _

theorem addPorts_stops (p : Plan) (module : Nat) : Stops IsOfScanning (p.addPorts m module) := by
  unfold addPorts
  split
  · refine (object_stops m _).bind fun o => (memberObjects_stops m _).bind
      fun members => stops_foldlM (fun p f => ?_) _ _
    unfold addMethodPort
    split
    · exact (p.accesses.claimPort_stops _ _).bind fun _ => stops_ok _
    · exact stops_ok _
  · exact stops_ok _

/-- No plan is missed for want of a method, a task or a thread that was to be made. -/
theorem ofRoot_stops (root : Nat) : Stops Stop.IsOfPlanning (ofRoot m root) := by
  refine (ScanSite.faulty_stops (object_stops m root)).bind fun top => ?_
  refine (ScanSite.faulty_stops (requestObject_stops _ _ _ _)).bind fun p => ?_
  split
  · refine (scanThreads_stops _ _ p).bind fun p => ?_
    exact ScanSite.faulty_stops (stops_foldlM addPorts_stops _ p)
  · exact stops_error trivial

end Plan

end Synth
end MachineSynth
