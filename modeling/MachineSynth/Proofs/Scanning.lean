import Mathlib
import MachineSynth.Proofs.Planning

/-! Scanning: a thread is on record as accessing an entity only if the code of a method that it runs
does so. -/
namespace MachineSynth
namespace Synth

open Plan (Grows)

theorem Access.mem_accessors_add {a : Access} {t k : ThreadId} {write : Bool} :
    k ∈ (a.add t write).accessors ↔ k ∈ a.accessors ∨ k = t := by
  simp only [add]
  split
  · rename_i ht
    have ht : t ∈ a.accessors := by simpa using ht
    exact ⟨.inl, fun h => h.elim id fun h => h ▸ ht⟩
  · simp

/-- Whether the code of a method of an object reads or writes an entity. -/
def Touches (m : Machine) (object : Nat) (f : Method) (e : Entity) : Prop :=
  ∃ k i w write, f.code[k]? = some i ∧ (Walker.start object).walk m (f.code.take k) = .ok w ∧
    w.accessed? m i = some (e, write)

namespace Plan

/-- A plan later than another, in which threads access no more than they have cause for. -/
def Adds (cause : ThreadId → Entity → Prop) (p q : Plan) : Prop :=
  ∀ e, ∀ k ∈ (q.accesses.find e).accessors, k ∈ (p.accesses.find e).accessors ∨ cause k e

namespace Adds

variable {cause cause' : ThreadId → Entity → Prop} {p q r : Plan}

theorem trans (h : Adds cause p q) (h' : Adds cause q r) : Adds cause p r := by
  intro e k hk
  rcases h' e k hk with hk | hk
  · exact h e k hk
  · exact .inr hk

theorem mono (h : Adds cause p q) (hcause : ∀ k e, cause k e → cause' k e) : Adds cause' p q :=
  fun e k hk => (h e k hk).imp_right (hcause k e)

theorem of_find_eq (h : ∀ e, q.accesses.find e = p.accesses.find e) : Adds cause p q :=
  fun e _ hk => .inl (h e ▸ hk)

theorem of_eq (h : q.accesses = p.accesses) : Adds cause p q := of_find_eq fun e => by rw [h]

theorem refl (p : Plan) : Adds cause p p := of_eq rfl

end Adds

end Plan

namespace ScanSite

open Plan (Adds)

variable {s : ScanSite} {w w' : Walker} {p q : Plan}

/-- Whether an instruction is a cause for the thread that is scanned to access an entity. -/
def cause (s : ScanSite) (w : Walker) (i : Insn) (k : ThreadId) (e : Entity) : Prop :=
  k = s.thread ∧ ∃ write, w.accessed? s.machine i = some (e, write)

theorem adds_of_update {cause : ThreadId → Entity → Prop} {accesses : Accesses} {e : Entity}
    {f : Access → Access} (h : p.accesses.update e f = .ok accesses)
    (hf : ∀ a : Access, ∀ k ∈ (f a).accessors, k ∈ a.accessors ∨ cause k e) :
    Adds cause p { p with accesses := accesses } := by
  intro e' k hk
  rw [Accesses.find_update h] at hk
  by_cases he : e' = e
  · subst he
    rw [if_pos rfl] at hk
    exact hf _ k hk
  · rw [if_neg he] at hk
    exact .inl hk

theorem insn_adds {i : Insn} (h : s.insn (w, p) i = .ok (w', q)) : Adds (s.cause w i) p q := by
  obtain ⟨-, _, _, _, haccessed, -, -, hturn⟩ := insn_turn h
  cases hturn with
  | quiet => exact .refl p
  | @member owner label write accesses adds =>
    refine adds_of_update adds fun a k hk => ?_
    rcases Access.mem_accessors_add.mp hk with hk | rfl
    · exact .inl hk
    · exact .inr ⟨rfl, write, haccessed⟩
  | @array id name write accesses adds =>
    refine adds_of_update adds fun a k hk => ?_
    replace hk : k ∈ (a.add s.thread write).accessors := hk
    rcases Access.mem_accessors_add.mp hk with hk | rfl
    · exact .inl hk
    · exact .inr ⟨rfl, write, haccessed⟩
  | mover adds => exact adds_of_update adds fun a k hk => .inl hk
  | flow _ call => exact .of_eq ((Plan.requestObject_enlarges call).accesses)
  | task _ call => exact .of_eq ((Plan.callTask_enlarges call).accesses)
  | port _ claim => exact .of_find_eq fun e => Accesses.find_claimPort claim e
  | own => exact .of_eq rfl

theorem insns_adds {code : List Insn} (hw : w.object = s.object)
    (hthread : ∃ t, p.threads[s.thread]? = some t ∧ t.object = s.object)
    (h : code.foldlM s.insn (w, p) = .ok (w', q)) :
    Adds (fun t e => t = s.thread ∧ ∃ k i v write, code[k]? = some i ∧
      w.walk s.machine (code.take k) = .ok v ∧ v.accessed? s.machine i = some (e, write)) p q := by
  induction code generalizing w p with
  | nil =>
    cases h
    exact .refl _
  | cons i rest ih =>
    rw [List.foldlM_cons, except_bind_eq_ok] at h
    obtain ⟨⟨w₁, p₁⟩, hinsn, h⟩ := h
    obtain ⟨t, ht, hobject⟩ := hthread
    obtain ⟨hstep, hgrows, -⟩ := insn_spec hw
      (fun t' ht' => Option.some.inj (ht.symm.trans ht') ▸ hobject) hinsn
    obtain ⟨t₁, ht₁, hbecomes⟩ := hgrows.thread ht
    refine (insn_adds hinsn).mono ?_ |>.trans ((ih ((Walker.step_object hstep).trans hw)
      ⟨t₁, ht₁, hbecomes.object.trans hobject⟩ h).mono ?_)
    · rintro k e ⟨rfl, write, haccess⟩
      exact ⟨rfl, 0, i, w, write, rfl, rfl, haccess⟩
    · rintro k e ⟨rfl, n, j, v, write, hj, hv, haccess⟩
      refine ⟨rfl, n + 1, j, v, write, hj, ?_, haccess⟩
      simp only [List.take_succ_cons, Walker.walk, List.foldlM_cons, except_bind_eq_ok]
      exact ⟨w₁, hstep, hv⟩

end ScanSite

/-- Whether a thread runs a method whose code reads or writes an entity. -/
def ThreadPlan.Touches (m : Machine) (t : ThreadPlan) (e : Entity) : Prop :=
  ∃ name ∈ t.methods, ∃ f, Walker.calledMethod? m (some t.object) name = some f ∧
    f.isNative = false ∧ Synth.Touches m t.object f e

theorem ThreadPlan.Touches.mono {m : Machine} {t t' : ThreadPlan} {e : Entity}
    (h : t.Touches m e) (hbecomes : t.Becomes t') : t'.Touches m e := by
  obtain ⟨name, hname, hf⟩ := h
  rw [← hbecomes.object] at hf
  exact ⟨name, hbecomes.methods.subset hname, hf⟩

theorem ScanSite.scan_adds {s : ScanSite} {p q : Plan} {t : ThreadPlan}
    (ht : p.threads[s.thread]? = some t) (hobject : t.object = s.object) (hname : s.method ∈ t.methods)
    (h : s.scan p = .ok q) : p.Adds (fun k e => k = s.thread ∧ t.Touches s.machine e) q := by
  obtain ⟨o, f, ho, hf, ⟨-, rfl, -⟩ | ⟨hnative, w, hcode⟩⟩ := scan_cases h
  · exact .refl q
  · refine (insns_adds rfl ⟨t, ht, hobject⟩ hcode).mono ?_
    rintro k e ⟨rfl, htouches⟩
    refine ⟨rfl, s.method, hname, f, ?_, hnative, hobject ▸ htouches⟩
    simp [Walker.calledMethod?, hobject, ho, hf]

namespace Plan

variable {m : Machine}

/-- Whether all that is on record comes from the code of methods that threads run. -/
def Justified (m : Machine) (p : Plan) : Prop :=
  ∀ e, ∀ k ∈ (p.accesses.find e).accessors, ∃ t, p.threads[k]? = some t ∧ t.Touches m e

theorem Justified.step {p q : Plan} {scanned : Option ThreadId}
    {cause : ThreadId → Entity → Prop} (hp : p.Justified m) (hgrows : p.Grows m scanned q)
    (hadds : p.Adds cause q)
    (hcause : ∀ k e, cause k e → ∃ t, p.threads[k]? = some t ∧ t.Touches m e) : q.Justified m := by
  intro e k hk
  obtain ⟨t, ht, htouches⟩ : ∃ t, p.threads[k]? = some t ∧ t.Touches m e := by
    rcases hadds e k hk with hk | hk
    · exact hp e k hk
    · exact hcause k e hk
  obtain ⟨t', ht', hbecomes⟩ := hgrows.thread ht
  exact ⟨t', ht', htouches.mono hbecomes⟩

theorem scanThreads_justified {count : Nat} {t : ThreadId} {p q : Plan} (hp : p.Justified m)
    (h : p.scanThreads m count t = .ok q) : q.Justified m := by
  refine scanThreads_keeps (fun {p t th} hp hth => ?_) (fun {p q t th name} hp hth hname hscan => ?_)
    hp h
  · have hentry : p.Grows m (some t) (p.requestMethod t th.entry) :=
      .requestMethod fun th' hth' => .inl (Option.some.inj (hth.symm.trans hth') ▸ rfl)
    exact hp.step hentry (.of_eq rfl : p.Adds (fun _ _ => False) _) fun _ _ => False.elim
  · obtain ⟨hgrows, -⟩ := ScanSite.scan_spec ⟨th, hth, rfl⟩ hscan
    refine hp.step hgrows (ScanSite.scan_adds hth rfl hname hscan) ?_
    rintro k e ⟨rfl, htouches⟩
    exact ⟨th, hth, htouches⟩

theorem HandsOut.adds {p q : Plan} {cause : ThreadId → Entity → Prop} (h : p.HandsOut m q) :
    p.Adds cause q := by
  induction h with
  | refl => exact .refl p
  | array _ _ _ _ ih => exact ih.trans (.of_eq rfl)
  | method _ _ _ _ _ claim ih =>
    exact ih.trans (.of_find_eq fun e => Accesses.find_claimPort claim e)

theorem ofRoot_justified {root : Nat} {p : Plan} (h : ofRoot m root = .ok p) : p.Justified m := by
  obtain ⟨top, p₁, p₂, -, hobject, hscan, hports⟩ := ofRoot_eq_ok h
  have hempty : p₁.Justified m := by
    intro e k hk
    rw [(requestObject_enlarges hobject).accesses] at hk
    cases hk
  exact (scanThreads_justified hempty hscan).step hports.grows
    (hports.adds : p₂.Adds (fun _ _ => False) p) fun _ _ => False.elim

end Plan
end Synth
end MachineSynth
