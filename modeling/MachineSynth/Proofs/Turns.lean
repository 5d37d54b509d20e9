import Mathlib
import MachineSynth.Proofs.Plans

/-! Turns: what the scan of an instruction can do to a plan. It goes by what the instruction reads or
writes, what it moves, and what it needs. A plan is made of such turns: what is asked for first,
scans of methods, and the ports that are left over. -/
namespace MachineSynth
namespace Synth
namespace ScanSite

variable {s : ScanSite} {w w' : Walker} {p q : Plan}

theorem faulty_eq_ok {α : Type} {r : Except Fault α} {a : α} : faulty r = .ok a ↔ r = .ok a :=
  mapError_eq_ok

/-- What the scan of an instruction does to a plan: it puts on record what the instruction reads,
writes or moves, and adds what it needs. -/
inductive Turn (s : ScanSite) (w : Walker) (p : Plan) :
    Option (Entity × Bool) → Option Entity → Option Demand → Plan → Prop
  | quiet : Turn s w p none none none p
  | member {owner : Nat} {label : String} {write : Bool} {accesses : Accesses}
      (adds : p.accesses.addMember s.thread owner label write = .ok accesses) :
      Turn s w p (some (⟨owner, label⟩, write)) none none { p with accesses := accesses }
  | array {id : Nat} {name : String} {write : Bool} {accesses : Accesses}
      (adds : p.accesses.addObject s.thread id write name = .ok accesses) :
      Turn s w p (some (.whole id, write)) none none { p with accesses := accesses }
  | mover {id : Nat} {accesses : Accesses}
      (adds : p.accesses.addMover s.thread id = .ok accesses) :
      Turn s w p none (some (.whole id)) none { p with accesses := accesses }
  | flow {id : Nat} {label : String} {f : Method} {q : Plan}
      (called : Walker.calledMethod? s.machine (some id) label = some f)
      (call : p.callObject s.machine s.module id = .ok q) :
      Turn s w p none none (some (.flow id label)) q
  | task {id : Nat} {label : String} {f : Method} {q : Plan}
      (called : Walker.calledMethod? s.machine (some id) label = some f)
      (call : p.callTask s.machine s.module id label = .ok q) :
      Turn s w p none none (some (.task id label)) q
  | port {label : String} {f : Method} {accesses : Accesses}
      (called : Walker.calledMethod? s.machine (some w.object) label = some f)
      (claim : p.accesses.claimPort s.thread ⟨w.object, label⟩ = .ok (true, accesses)) :
      Turn s w p none none (some (.own label))
        (({ p with accesses := accesses } : Plan).requestMethod s.thread label)
  | own {label : String} {f : Method}
      (called : Walker.calledMethod? s.machine (some w.object) label = some f)
      (unported : f.marks.isPort = false) :
      Turn s w p none none (some (.own label)) (p.requestMethod s.thread label)

/-- A member that is read or written is there, and is put on record if it is a stored one. -/
theorem access_eq_ok {i : Insn} {label : String} {write : Bool}
    (h : s.access w p i label write = .ok (w', q)) : ∃ owner v,
      w.access s.machine i = .ok (owner, w') ∧
      (s.machine.object? owner).bind (·.lookup? label) = some v ∧ v.kind ≠ .method ∧
      s.Turn w p ((Walker.storedMember? s.machine owner label).map (·, write)) none none q := by
  simp only [access, except_bind_eq_ok, faulty_eq_ok] at h
  obtain ⟨⟨owner, w₁⟩, haccess, h⟩ := h
  simp only at h
  split at h
  · cases h
  · cases h
  · rename_i hv
    cases h
    refine ⟨owner, _, haccess, hv, by simp [Value.kind], ?_⟩
    simpa [Walker.storedMember?, hv] using Turn.quiet
  all_goals
    rename_i hv
    split at h
    · rename_i hconst
      cases h
      refine ⟨owner, _, haccess, hv, by simp [Value.kind], ?_⟩
      simpa [Walker.storedMember?, hv, hconst] using Turn.quiet
    · rename_i hconst
      simp only [except_bind_eq_ok, faulty_eq_ok] at h
      obtain ⟨accesses, hadd, h⟩ := h
      cases h
      refine ⟨owner, _, haccess, hv, by simp [Value.kind], ?_⟩
      simpa [Walker.storedMember?, hv, hconst] using Turn.member hadd

theorem array_eq_ok {r : RegisterId} {write : Bool} (h : s.array w p r write = .ok q) :
    (∃ id o, w.objectOf? r = some id ∧ s.machine.object? id = some o ∧ o.isArray = true) ∧
      s.Turn w p ((w.array? s.machine r).map (·, write)) none none q := by
  unfold array at h
  split at h
  · rename_i id o hheld
    obtain ⟨id', hid, hheld⟩ := Option.bind_eq_some_iff.mp hheld
    obtain ⟨o', ho, heq⟩ := Option.map_eq_some_iff.mp hheld
    cases heq
    split at h
    · rename_i harray
      simp only [except_bind_eq_ok, faulty_eq_ok] at h
      obtain ⟨accesses, hadd, h⟩ := h
      cases h
      refine ⟨⟨id, o, hid, ho, harray⟩, ?_⟩
      simpa [Walker.array?, hid, ho, harray] using Turn.array hadd
    · cases h
  · cases h

theorem call_eq_ok {r : RegisterId} {label : String} (args : List RegisterId)
    (h : s.call w p r label = .ok q) :
    (∃ callee f, w.objectOf? r = some callee ∧
      Walker.calledMethod? s.machine (some callee) label = some f) ∧
      s.Turn w p none (w.moved? s.machine (.call r label args))
        (w.demand? s.machine (.call r label args)) q := by
  unfold call at h
  split at h
  · cases h
  · rename_i callee hcallee
    split at h
    · cases h
    · rename_i f hf
      refine ⟨⟨callee, f, hcallee, hf⟩, ?_⟩
      have hisNative : w.isNativeCall s.machine r label = true ↔ f.native ≠ "" ∧ f.alt = "" := by
        simp [Walker.isNativeCall, hcallee, hf]
      simp only [Walker.moved?, Walker.demand?, hcallee, hf]
      split at h
      · rename_i hnative
        obtain ⟨-, halt⟩ := hisNative.mp hnative
        rw [if_pos hnative]
        split at h
        · rename_i hop
          simp only [except_bind_eq_ok, faulty_eq_ok] at h
          obtain ⟨accesses, hadd, h⟩ := h
          cases h
          rw [if_pos ⟨halt, by simpa using hop⟩]
          exact .mover hadd
        · rename_i hop
          cases h
          rw [if_neg fun hmoves => hop (by simpa using hmoves.2)]
          exact .quiet
      · rename_i hnative
        have hplain : ¬ (f.alt = "" ∧ (f.native = "load" ∨ f.native = "store")) := by
          rintro ⟨halt, hop⟩
          refine hnative (hisNative.mpr ⟨?_, halt⟩)
          rcases hop with hop | hop <;> simp [hop]
        rw [if_neg hnative, if_neg hplain]
        split at h
        · rename_i hflow
          rw [if_pos hflow]
          exact .flow hf (faulty_eq_ok.mp h)
        · rename_i hflow
          rw [if_neg hflow]
          split at h
          · rename_i houtside
            rw [if_pos houtside]
            exact .task hf (faulty_eq_ok.mp h)
          · rename_i houtside
            rw [if_neg houtside]
            obtain rfl : callee = w.object := by
              simpa [Walker.isOutsideCall, hcallee] using houtside
            split at h
            · simp only [except_bind_eq_ok, faulty_eq_ok] at h
              obtain ⟨⟨granted, accesses⟩, hclaim, h⟩ := h
              simp only at h
              split at h
              · rename_i hgranted
                cases h
                exact .port hf (hgranted ▸ hclaim)
              · cases h
            · rename_i hport
              cases h
              exact .own hf (Bool.not_eq_true _ ▸ hport)

/-- The scan of an instruction moves the walker on, and does to the plan what the instruction
needs. -/
theorem insn_turn {i : Insn} (h : s.insn (w, p) i = .ok (w', q)) :
    w.step s.machine i = .ok w' ∧ ∃ accessed moved demand, w.accessed? s.machine i = accessed ∧
      w.moved? s.machine i = moved ∧ w.demand? s.machine i = demand ∧
      s.Turn w p accessed moved demand q := by
  cases i with
  | loadObject target object label =>
    simp only [insn, except_bind_eq_ok, faulty_eq_ok] at h
    obtain ⟨w₁, hload, h⟩ := h
    cases h
    exact ⟨hload, _, _, _, rfl, rfl, rfl, .quiet⟩
  | memberRead target object label =>
    obtain ⟨owner, v, haccess, -, -, hturn⟩ := access_eq_ok h
    refine ⟨Walker.map_eq_ok.mpr ⟨_, haccess, rfl⟩, _, _, _, ?_, rfl, rfl, hturn⟩
    simp [Walker.accessed?, Walker.objectOf?_of_read haccess]
  | memberWrite object label source =>
    obtain ⟨owner, v, haccess, -, -, hturn⟩ := access_eq_ok h
    refine ⟨Walker.map_eq_ok.mpr ⟨_, haccess, rfl⟩, _, _, _, ?_, rfl, rfl, hturn⟩
    simp [Walker.accessed?, Walker.objectOf?_of_write haccess]
  | arrayRead target object index =>
    simp only [insn, except_bind_eq_ok] at h
    obtain ⟨q₁, harray, h⟩ := h
    cases h
    exact ⟨rfl, _, _, _, rfl, rfl, rfl, (array_eq_ok harray).2⟩
  | arrayWrite object index source =>
    simp only [insn, except_bind_eq_ok] at h
    obtain ⟨q₁, harray, h⟩ := h
    cases h
    exact ⟨rfl, _, _, _, rfl, rfl, rfl, (array_eq_ok harray).2⟩
  | call object label args =>
    simp only [insn, except_bind_eq_ok] at h
    obtain ⟨q₁, hcall, h⟩ := h
    cases h
    exact ⟨rfl, _, _, _, rfl, rfl, rfl, (call_eq_ok args hcall).2⟩
  | _ =>
    cases h
    exact ⟨rfl, _, _, _, rfl, rfl, rfl, .quiet⟩

theorem scan_cases (h : s.scan p = .ok q) :
    ∃ o f, s.machine.object? s.object = some o ∧ o.method? s.method = some f ∧
      ((f.isNative = true ∧ q = p ∧ (o.method? f.alt).any (·.isImported) = true) ∨
        (f.isNative = false ∧
          ∃ w, f.code.foldlM s.insn (Walker.start s.object, p) = .ok (w, q))) := by
  unfold scan at h
  split at h
  · cases h
  · rename_i o f hof
    obtain ⟨o', ho, hf⟩ := Option.bind_eq_some_iff.mp hof
    obtain ⟨f', hf, heq⟩ := Option.map_eq_some_iff.mp hf
    cases heq
    refine ⟨o, f, ho, hf, ?_⟩
    split at h
    · rename_i halt
      split at h
      · rename_i himported
        cases h
        exact .inl ⟨by simp [Method.isNative, halt], rfl, himported⟩
      · cases h
    · split at h
      · cases h
      · rename_i hnative
        rw [except_bind_eq_ok] at h
        obtain ⟨⟨w, q'⟩, hcode, h⟩ := h
        cases h
        exact .inr ⟨by simpa using hnative, w, hcode⟩

end ScanSite

namespace Plan

variable {m : Machine} {p q r : Plan} {I : Plan → Prop}

theorem scanMethods_keeps {t : ThreadId} {count i : Nat}
    (hscan : ∀ {p q th name}, I p → p.threads[t]? = some th → name ∈ th.methods →
      ScanSite.scan ⟨m, t, th.place.module, th.object, name⟩ p = .ok q → I q)
    (hp : I p) (h : p.scanMethods m t count i = .ok q) : I q := by
  induction count generalizing i p with
  | zero =>
    cases h
    exact hp
  | succ count ih =>
    unfold scanMethods at h
    split at h
    · cases h
      exact hp
    · rename_i th hth
      split at h
      · cases h
        exact hp
      · rename_i name hname
        simp only [except_bind_eq_ok, mapError_eq_ok] at h
        obtain ⟨p₁, hone, h⟩ := h
        exact ih (hscan hp hth (List.mem_of_getElem? hname) hone) h

/-- What asking for the entry of a thread and the scan of each method keep true stays true while
threads are scanned. -/
theorem scanThreads_keeps {count : Nat} {t : ThreadId}
    (hentry : ∀ {p t th}, I p → p.threads[t]? = some th → I (p.requestMethod t th.entry))
    (hscan : ∀ {p q t th name}, I p → p.threads[t]? = some th → name ∈ th.methods →
      ScanSite.scan ⟨m, t, th.place.module, th.object, name⟩ p = .ok q → I q)
    (hp : I p) (h : p.scanThreads m count t = .ok q) : I q := by
  induction count generalizing t p with
  | zero =>
    cases h
    exact hp
  | succ count ih =>
    unfold scanThreads at h
    split at h
    · rw [except_bind_eq_ok] at h
      obtain ⟨p₁, hone, h⟩ := h
      refine ih ?_ h
      unfold scanThread at hone
      split at hone
      · cases hone
        exact hp
      · rename_i th hth
        exact scanMethods_keeps hscan (hentry hp hth) hone
    · cases h
      exact hp

/-- A plan later than another, in which threads were given ports that are left over: those of
arrays, and those of methods once they are claimed. -/
inductive HandsOut (m : Machine) (p : Plan) : Plan → Prop
  | refl : HandsOut m p p
  | array {q : Plan} (h : HandsOut m p q) (t : ThreadId) (id : Nat) (o : Object) :
      HandsOut m p (q.updateThread t fun th =>
        { th with pool := ((th.pool.masterPort? id o).2.slavePort? id o).2 })
  | method {q : Plan} (h : HandsOut m p q) {t : ThreadId} {object : Nat} {o : Object} {f : Method}
      {granted : Bool} {accesses : Accesses} (ho : m.object? object = some o) (hf : f ∈ o.methods)
      (port : f.marks.isPort = true) (free : q.accesses.hasPort ⟨object, f.name⟩ = false)
      (claim : q.accesses.claimPort t ⟨object, f.name⟩ = .ok (granted, accesses)) :
      HandsOut m p (({ q with accesses := accesses } : Plan).updateThread t fun th =>
        { th with pool := (th.pool.methodPort? f).2 })

theorem HandsOut.trans (h : p.HandsOut m q) (h' : q.HandsOut m r) : p.HandsOut m r := by
  induction h' with
  | refl => exact h
  | array _ t id o ih => exact .array ih t id o
  | method _ ho hf port free claim ih => exact .method ih ho hf port free claim

theorem addPorts_handsOut {module : Nat} (h : p.addPorts m module = .ok q) : p.HandsOut m q := by
  unfold addPorts at h
  split at h
  · simp only [except_bind_eq_ok] at h
    obtain ⟨o, ho, members, -, h⟩ := h
    refine .trans (foldl_rel (fun _ => .refl) (fun _ _ _ => .trans) fun p x _ => ?_)
      (foldlM_rel (fun _ => .refl) (fun _ _ _ => .trans) (fun p f p' hf hp => ?_) h)
    · unfold addArrayPorts
      split
      · exact .array .refl _ _ _
      · exact .refl
    · unfold addMethodPort at hp
      split at hp
      · rename_i hfree
        simp only [Bool.and_eq_true, Bool.not_eq_true'] at hfree
        rw [except_bind_eq_ok] at hp
        obtain ⟨⟨granted, accesses⟩, hclaim, hp⟩ := hp
        cases hp
        exact .method .refl (Machine.object?_of_object ho) hf hfree.1 hfree.2 hclaim
      · cases hp
        exact .refl
  · cases h
    exact .refl

theorem ofRoot_eq_ok {root : Nat} (h : ofRoot m root = .ok p) : ∃ top p₁ p₂,
    m.object root = .ok top ∧ empty.requestObject m m.objects.length none root = .ok p₁ ∧
      p₁.scanThreads m (threadBound m) 0 = .ok p₂ ∧ p₂.HandsOut m p := by
  simp only [ofRoot, except_bind_eq_ok, mapError_eq_ok] at h
  obtain ⟨top, htop, p₁, hobject, h⟩ := h
  split at h
  · simp only [except_bind_eq_ok, mapError_eq_ok] at h
    obtain ⟨p₂, hscan, h⟩ := h
    exact ⟨top, p₁, p₂, htop, hobject, hscan, foldlM_rel (R := HandsOut m) (fun _ => .refl)
      (fun _ _ _ => .trans) (fun _ _ _ _ => addPorts_handsOut) h⟩
  · cases h

end Plan
end Synth
end MachineSynth
