import Mathlib
import MachineSynth.Proofs.Lowering.Bindings
import MachineSynth.Proofs.Planning

/-! Stability: a register of a method has one table register, in all states that read or write it,
unless the code makes it stand for a constant. A result that does so is lost. -/
namespace MachineSynth
namespace Synth

/-- Whether some instruction of a method makes a register stand for a constant. -/
def Site.Rebound (s : Site) (r : RegisterId) : Prop :=
  (Walker.start s.object).Along s.machine s.method.code (·.Rebinds s.machine · r)

theorem Walker.along_concat {m : Machine} {w v : Walker} {code : List Insn} {i : Insn}
    {P : Walker → Insn → Prop} (h : w.walk m code = .ok v) :
    w.Along m (code ++ [i]) P ↔ w.Along m code P ∨ P v i := by
  constructor
  · rintro ⟨k, j, x, hj, hx, hP⟩
    rcases Nat.lt_or_ge k code.length with hlt | hge
    · rw [List.getElem?_append_left hlt] at hj
      rw [List.take_append_of_le_length hlt.le] at hx
      exact .inl ⟨k, j, x, hj, hx, hP⟩
    · obtain ⟨hlt, hj⟩ := List.getElem?_eq_some_iff.mp hj
      have hk : k = code.length := by simp at hlt; omega
      subst hk
      rw [List.take_left, h] at hx
      cases hx
      exact .inr (by simpa [hj.symm] using hP)
  · rintro (⟨k, j, x, hj, hx, hP⟩ | hP)
    · have hlt := (List.getElem?_eq_some_iff.mp hj).1
      refine ⟨k, j, x, by rwa [List.getElem?_append_left hlt], ?_, hP⟩
      rwa [List.take_append_of_le_length hlt.le]
    · exact ⟨code.length, i, v, by simp, by rwa [List.take_left], hP⟩

namespace Lower

open Lowering (Move)

variable {s : Site} {l l' : Lowering}

section Methods

variable {e : Rtl.Insn}

theorem entry_outputs (h : (entry s).run l = .ok (e, l')) {n : Nat}
    (hn : n < s.method.returns.length) : ∃ j, e.outputs[n]? = some j ∧
      l'.locals.lookup (s.method.returnRegister (UInt64.ofNat n)) = some j := by
  simp only [entry, run_bind_eq_ok] at h
  obtain ⟨unit, l₁, -, i, l₂, -, inputs, l₃, -, outputs, l₄, houtputs, h⟩ := h
  split at h
  · exact absurd h run_error_ne_ok
  · cases run_pure_eq_ok.mp h
    unfold resultRegisters at houtputs
    split at houtputs
    · rename_i hempty
      simp [List.isEmpty_iff.mp hempty] at hn
    · obtain ⟨-, his⟩ := registers_fetches houtputs
      have hat := congrArg (·[n]?) his
      simp only [List.getElem?_map, List.map_map, List.getElem?_range hn, Option.map_some,
        Function.comp_apply] at hat
      obtain ⟨j, hj, hlookup⟩ := Option.map_eq_some_iff.mp hat
      exact ⟨j, hj, hlookup.symm⟩

/-- Where the lowering stands before the code: the results have table registers. -/
theorem opening_outputs {b : Builder} (hb : b.Sound)
    (h : (opening s).run ⟨b, Walker.start s.object, [], []⟩ = .ok (e, l)) :
    l.states.length = firstState s.role ∧ ∀ n < s.method.returns.length, ∃ j,
      e.outputs[n]? = some j ∧ j < l.builder.registers.length ∧
        l.locals.lookup (s.method.returnRegister (UInt64.ofNat n)) = some j := by
  have hstart : Lowering.Sound ⟨b, Walker.start s.object, [], []⟩ := Site.start_sound hb s.object
  simp only [opening, run_bind_eq_ok] at h
  obtain ⟨e', l₁, he, h⟩ := h
  have hplaced := entry_placed (s := s) hstart
    ⟨fun h => by simp at h, fun h => by simp at h, fun h => by simp at h⟩ he
  have q₁ := entry_quiet (u := .none) hstart he
  split at h
  · rename_i hrole
    replace hrole : s.role ≠ .inner := by simpa using hrole
    rw [run_bind_eq_ok] at h
    obtain ⟨_, l₂, hwait, h⟩ := h
    cases run_pure_eq_ok.mp h
    obtain ⟨st, -, hlocals, hstates⟩ := wait_eq_ok hwait
    have q₂ := wait_step (u := .none) q₁.sound hwait
    refine ⟨by simp [hstates, q₁.states, firstState, hrole], fun n hn => ?_⟩
    obtain ⟨j, hj, hlookup⟩ := entry_outputs he hn
    exact ⟨j, hj, (hplaced.lt hlookup).trans_le q₂.builder.registers.length_le, hlocals ▸ hlookup⟩
  · rename_i hrole
    replace hrole : s.role = .inner := by simpa using hrole
    cases run_pure_eq_ok.mp h
    refine ⟨by simp [q₁.states, firstState, hrole], fun n hn => ?_⟩
    obtain ⟨j, hj, hlookup⟩ := entry_outputs he hn
    exact ⟨j, hj, hplaced.lt hlookup, hlookup⟩

theorem force_moves {may : Allowance} (n : Nat) (l : Lowering) :
    Relation.ReflTransGen (Move s may) l (force n l) := by
  unfold force
  split
  · exact .single (.push l Builder.grows_newState (by simp) (by simp))
  · exact .refl

/-- Where the lowering of the code stands when some of it is done: a register that has been made to
stand for a constant has a table register that was not there before the code. -/
structure Drifts (s : Site) (start : Lowering) (done : List Insn) (l : Lowering) : Prop extends
    Lowering.At s start done l where
  registers : start.builder.registers.length ≤ l.builder.registers.length
  rebound : ∀ r, start.walker.Along s.machine done (·.Rebinds s.machine · r) →
    ∃ j, l.locals.lookup r = some j ∧ start.builder.registers.length ≤ j

theorem Drifts.step {start : Lowering} {done : List Insn} {i : Insn}
    (hl : Drifts s start done l) (h : (instruction s i).run l = .ok ((), l')) :
    Drifts s start (done ++ [i]) (force l.states.length l') := by
  obtain ⟨hat, hgrows⟩ := force_at hl.toAt h
  refine ⟨hat, hl.registers.trans hgrows.builder.registers.length_le, fun r hr => ?_⟩
  have hmoves := (instruction_advances s i l).2 () l' h
  have hrest : Relation.ReflTransGen (Move s .none) l'
      (force l.states.length l') := force_moves _ l'
  by_cases hrebinds : l.walker.Rebinds s.machine i r
  · exact ⟨_, Lowering.kept_of_moves hrest id (instruction_rebinds hrebinds h), hl.registers⟩
  · have hbefore := ((Walker.along_concat hl.walker).mp hr).resolve_right hrebinds
    obtain ⟨j, hj, hle⟩ := hl.rebound r hbefore
    exact ⟨j, Lowering.kept_of_moves hrest id (Lowering.kept_of_moves hmoves hrebinds hj), hle⟩

/-- The code of a method, instruction by instruction: from each on, only registers that stand for
constants are bound anew. -/
theorem code_drifts {start : Lowering} {starts : List Nat} (hl : start.Sound)
    (hwalker : start.walker = Walker.start s.object)
    (h : (code s s.method.code).run start = .ok (starts, l')) :
    Drifts s start s.method.code l' ∧
      Relation.ReflTransGen (Move s (.rebinding s.Rebound)) start l' ∧
      ∀ k i, s.method.code[k]? = some i → ∃ a b,
        Lowering.At s start (s.method.code.take k) a ∧
        (instruction s i).run a = .ok ((), b) ∧
        Relation.ReflTransGen (Move s (.rebinding s.Rebound)) b l' := by
  have hstart : Drifts s start [] start :=
    ⟨⟨hl, rfl, by simp⟩, le_rfl, fun r hr => absurd hr Walker.along_nil⟩
  have hstep : ∀ done i rest a b, s.method.code = done ++ i :: rest →
      Drifts s start done a →
      (instruction s i).run a = .ok ((), b) →
      Drifts s start (done ++ [i]) (force a.states.length b) ∧
        Relation.ReflTransGen (Move s (.rebinding s.Rebound)) a
          (force a.states.length b) := by
    intro done i rest a b hall ha hi
    refine ⟨ha.step hi, .trans ?_ (force_moves _ b)⟩
    refine Relation.ReflTransGen.mono (fun x y hxy => hxy.mono (Allowance.within_rebinding
      fun r hr => ?_)) _ _ ((instruction_advances s i a).2 () b hi)
    refine ⟨done.length, i, a.walker, by simp [hall], ?_, hr⟩
    rw [hall, List.take_left, ← hwalker]
    exact ha.walker
  obtain ⟨hend, hmoves, -, hat⟩ := code_at (fun a => .refl) (fun _ _ _ => .trans)
    (List.nil_append _).symm hstep hstart h
  refine ⟨hend, hmoves, fun k i hi => ?_⟩
  obtain ⟨a, b, ha, hb, -, -, hrest⟩ := hat k i hi
  exact ⟨a, b, ha.toAt, hb, (force_moves _ b).trans hrest⟩

theorem mapStates_getElem? {f : Nat → LoweredState → Lower LoweredState} {k : Nat}
    {sts sts' : List LoweredState} (h : (mapStates f k sts).run l = .ok (sts', l')) {n : Nat}
    {st : LoweredState} (hst : sts[n]? = some st) :
    ∃ st' a b, sts'[n]? = some st' ∧ (f (k + n) st).run a = .ok (st', b) := by
  induction sts generalizing k l sts' n with
  | nil => simp at hst
  | cons st₀ rest ih =>
    simp only [mapStates, run_bind_eq_ok] at h
    obtain ⟨st', l₁, hf, rest', l₂, hrest, h⟩ := h
    cases run_pure_eq_ok.mp h
    cases n with
    | zero =>
      cases Option.some.inj hst
      exact ⟨st', l, l₁, rfl, hf⟩
    | succ n =>
      obtain ⟨st'', a, b, hst'', hrun⟩ := ih hrest hst
      exact ⟨st'', a, b, hst'', by rwa [Nat.add_right_comm] at hrun⟩

def HandsBack (s : Site) : Prop :=
  s.role = .task ∨ s.role = .root ∧ s.method.marks.dataFlowEntry = false

theorem finish_handsBack {fin : List Rtl.Insn} (hs : HandsBack s)
    (h : (finish s e).run l = .ok (fin, l')) : ∃ i ∈ fin, i.inputs = e.outputs := by
  have hone : ∀ {take}, (do
      let unit ← resource take
      return [← insn unit "" e.outputs []]).run l = .ok (fin, l') →
      ∃ i ∈ fin, i.inputs = e.outputs := by
    intro take h
    simp only [run_bind_eq_ok] at h
    obtain ⟨unit, l₁, -, i, l₂, hi, h⟩ := h
    cases run_pure_eq_ok.mp h
    exact ⟨i, List.mem_singleton_self i, (insn_fetches hi).2.1⟩
  unfold finish at h
  split at h
  · exact hone h
  · rename_i hrole
    split at h
    · rename_i hflow
      rcases hs with hs | ⟨-, hs⟩
      · exact absurd hs hrole
      · cases hs.symm.trans hflow
    · exact hone h

theorem closeLoop_handsBack (hs : HandsBack s) (hl : 0 < l.states.length)
    (h : (closeLoop s e).run l = .ok ((), l')) :
    ∃ st ∈ l'.states, ∃ i ∈ st.insns, i.inputs = e.outputs := by
  simp only [closeLoop, updateStates, run_bind_eq_ok, run_get_eq_ok] at h
  obtain ⟨_, _, hget, _, _, hget', sts, l₁, hmap, h⟩ := h
  cases hget
  cases hget'
  cases run_modify_eq_ok.mp h
  obtain ⟨st', a, b, hst', hrun⟩ := mapStates_getElem? hmap
    (List.getElem?_eq_getElem (Nat.sub_one_lt_of_lt hl))
  rw [if_pos (Nat.zero_add _), run_bind_eq_ok] at hrun
  obtain ⟨fin, a₁, hfin, hrun⟩ := hrun
  obtain ⟨i, hi, hinputs⟩ := finish_handsBack hs hfin
  have hrewrites : ∀ st, Rewrites True (fun _ => True) (addTargets [0] st) st a₁ :=
    fun st => rewrites_addTargets [0] st a₁
  obtain ⟨hwidens, -⟩ := (hrewrites _).2 st' b hrun
  obtain ⟨i', hi', hin, -⟩ := hwidens.insns i (List.mem_append_right _ hi)
  exact ⟨st', List.mem_of_getElem? hst', i', hi', hin.trans hinputs⟩

theorem updateStates_length_le {f : Nat → LoweredState → Lower LoweredState}
    (hf : ∀ j st a, Rewrites True (fun _ => True) (f j st) st a)
    (h : (updateStates f).run l = .ok ((), l')) : l.states.length ≤ l'.states.length := by
  simp only [updateStates, run_bind_eq_ok, run_get_eq_ok] at h
  obtain ⟨_, _, hget, sts, l₁, hmap, h⟩ := h
  cases hget
  obtain ⟨hwidens, -⟩ := (mapStates_ends hf l.states 0 l).2 sts l₁ hmap
  cases run_modify_eq_ok.mp h
  exact hwidens.length_eq.le

/-- What comes after the code hands the outputs of the entry back. -/
theorem closing_handsBack {e' : Rtl.Insn} {starts : List Nat} (hs : HandsBack s)
    (h : (closing s e starts).run l = .ok (e', l')) :
    ∃ st ∈ l'.states, ∃ i ∈ st.insns, i.inputs = e.outputs := by
  simp only [closing, run_bind_eq_ok, run_get_eq_ok] at h
  obtain ⟨_, l₁, hpush, _, _, hget, _, l₃, hresolve, _, l₄, hlink, h⟩ := h
  cases hget
  split at h
  · rw [run_bind_eq_ok] at h
    obtain ⟨_, l₅, hclose, h⟩ := h
    cases run_pure_eq_ok.mp h
    refine closeLoop_handsBack hs ?_ hclose
    cases run_push_eq_ok.mp hpush
    simp only [linkStates, run_bind_eq_ok, run_get_eq_ok] at hlink
    obtain ⟨_, _, hget, hlink⟩ := hlink
    cases hget
    refine Nat.lt_of_lt_of_le ?_ ((updateStates_length_le (rewrites_resolveJump _) hresolve).trans
      (updateStates_length_le (rewrites_linkState _) hlink))
    simp
  · rename_i hrole
    rcases hs with hs | ⟨hs, -⟩ <;> simp [hs] at hrole

/-- Every register of a method has one table register: all instructions that read or write it use
that one, and callers receive it if it is a result. Only a register that the code makes stand for a
constant is bound anew, and then what callers receive is not what the register stands for. What
they receive is also what a thread hands back. -/
theorem bindings_stable {b : Builder} (hb : b.Sound)
    (h : (body s).run ⟨b, Walker.start s.object, [], []⟩ = .ok (e, l)) (r : RegisterId) :
    (¬ s.Rebound r → ∀ k i w, s.method.code[k]? = some i →
      (Walker.start s.object).walk s.machine (s.method.code.take k) = .ok w →
      (r ∈ i.operands → l.Carries false (Spans i (s.position k)) r) ∧
        (r ∈ w.results s.machine i → l.Carries true (Spans i (s.position k)) r)) ∧
    (∀ n < s.method.returns.length, s.method.returnRegister (UInt64.ofNat n) = r →
      (e.outputs[n]? = l.locals.lookup r ↔ ¬ s.Rebound r)) ∧
    (HandsBack s → ∃ st ∈ l.states, ∃ i ∈ st.insns, i.inputs = e.outputs) := by
  simp only [body_eq, run_bind_eq_ok] at h
  obtain ⟨e', l₀, hopening, starts, l₁, hcode, hclosing⟩ := h
  obtain ⟨hsound, hwalker⟩ := opening_walker (Site.start_sound hb s.object) hopening
  obtain ⟨hcount, houtputs⟩ := opening_outputs hb hopening
  obtain ⟨hdrifts, hmoves, hat⟩ := code_drifts hsound hwalker hcode
  obtain rfl := closing_returns hclosing
  have hwithin := opening_within (fun r j hj => by cases hj) hopening
  have hcloses : ∀ {rebinds}, Advances s True (.rebinding rebinds) (closing s e starts) l₁ :=
    advances_closing starts trivial
      (hwithin.mono (Lowering.grows_of_moves hmoves).registers.length_le)
  have hlast : ∀ {rebinds}, Relation.ReflTransGen (Move s (.rebinding rebinds)) l₁ l :=
    hcloses.2 e l hclosing
  refine ⟨fun hr k i w hi hw => ?_, fun n hn hreturn => ⟨fun heq hr => ?_, fun hr => ?_⟩,
    fun hs => closing_handsBack hs hclosing⟩
  · obtain ⟨x, y, hx, hy, hrest⟩ := hat k i hi
    have hposition : x.states.length = s.position k := by rw [hx.count, hcount, Site.position]
    obtain rfl : x.walker = w := by
      have hwalk := hx.walker
      rw [hwalker] at hwalk
      exact Except.ok.inj (hwalk.symm.trans hw)
    obtain ⟨hreads, hwrites⟩ := instruction_carries hy
    rw [hposition] at hreads hwrites
    have hkept : ∀ {write}, y.Carries write (Spans i (s.position k)) r →
        l.Carries write (Spans i (s.position k)) r :=
      Lowering.carries_of_moves (hrest.trans hlast) hr
    refine ⟨fun hmem => hkept (hreads r hmem), fun hmem => hkept ?_⟩
    exact (hwrites r hmem).resolve_left fun hrebinds => hr ⟨k, i, x.walker, hi, hw, hrebinds⟩
  · -- What stands for a constant now is newer than what the entry gives out.
    obtain ⟨j, hj, hlt, -⟩ := houtputs n hn
    obtain ⟨j', hj', hle⟩ := hdrifts.rebound r (by rw [hwalker]; exact hr)
    have hfinal := Lowering.kept_of_moves (@hlast fun _ => False) id hj'
    rw [hj, hfinal] at heq
    cases heq
    omega
  · obtain ⟨j, hj, -, hlookup⟩ := houtputs n hn
    rw [hreturn] at hlookup
    rw [hj, Lowering.kept_of_moves (hmoves.trans hlast) hr hlookup]

/-- A method with an argument, a result and a constant, on an object with a constant member. -/
def resultSite (code : List Insn) : Site where
  machine := ⟨[⟨"top", .plain, 0, 0, false, false, [], [⟨"limit", .num 8 5 true⟩]⟩]⟩
  owners := ⟨[], []⟩
  thread := 0
  object := 0
  slot := "f"
  method := ⟨"f", [⟨"n", .int, 8⟩], [⟨"r", .int, 8⟩],
    [⟨"n", .num, 8, false, 0⟩, ⟨"r", .num, 8, false, 0⟩, ⟨"c", .num, 8, true, 5⟩], code, "", "", "", .none⟩
  role := .task

def resultLowering (code : List Insn) : Except Stop (Rtl.Insn × Lowering) :=
  (body (resultSite code)).run ⟨Builder.ofPool (.empty ⟨0, 0⟩), Walker.start 0, [], []⟩

/-- A result that is assigned and then counted up is the same register throughout. -/
theorem resultLowering_stable : (Builder.ofPool (.empty ⟨0, 0⟩)).Sound ∧
    ∃ e l, resultLowering [.assign 1 0, .count false 1] = .ok (e, l) ∧
      l.Carries true (Spans (.assign 1 0) 1) 1 ∧ l.Carries false (Spans (.count false 1) 2) 1 ∧
      l.Carries true (Spans (.count false 1) 2) 1 ∧ e.outputs[0]? = l.locals.lookup 1 ∧
      ∃ st ∈ l.states, ∃ i ∈ st.insns, i.inputs = e.outputs := by
  have hb := Builder.sound_ofPool (Pool.sound_empty ⟨0, 0⟩)
  have h : (resultLowering [.assign 1 0, .count false 1]).toOption.any (fun _ => true) = true := by
    decide +kernel
  obtain ⟨⟨e, l⟩, hrun, -⟩ := exists_ok_of_any h
  have hrebound : ¬ (resultSite [.assign 1 0, .count false 1]).Rebound 1 := by
    rintro ⟨k, i, w, hi, -, hr⟩
    have hmem : i ∈ [.assign 1 0, .count false 1] := List.mem_of_getElem? hi
    simp only [List.mem_cons, List.not_mem_nil, or_false] at hmem
    rcases hmem with rfl | rfl <;> simp [Walker.Rebinds] at hr
  obtain ⟨huses, hreturns, hback⟩ := bindings_stable hb hrun 1
  refine ⟨hb, e, l, hrun, ?_, ?_, ?_, (hreturns 0 (by decide) (by decide)).mpr hrebound,
    hback (.inl rfl)⟩
  · exact (huses hrebound 0 _ _ rfl rfl).2 (by decide)
  · exact (huses hrebound 1 _ _ rfl rfl).1 (by decide)
  · exact (huses hrebound 1 _ _ rfl rfl).2 (by decide)

/-- Whether the lowering gives out a table register that no state writes, while its result stands
for another. -/
def LosesResult (i : Insn) : Prop :=
  ∃ e l, resultLowering [i] = .ok (e, l) ∧ e.outputs = [1] ∧ l.locals.lookup 1 = some 2 ∧
    ∀ st ∈ l.states, ∀ j ∈ st.insns, 1 ∉ j.outputs

/-- A result that is a number, or read from a constant member, is lost. -/
theorem resultLowering_losesResult :
    LosesResult (.num 1 2) ∧ LosesResult (.memberRead 1 RegisterId.unused "limit") := by
  have hloses : ∀ i, (resultLowering [i]).toOption.any (fun x => decide (x.1.outputs = [1] ∧
      x.2.locals.lookup 1 = some 2 ∧ ∀ st ∈ x.2.states, ∀ j ∈ st.insns, 1 ∉ j.outputs)) = true →
      LosesResult i := by
    intro i h
    obtain ⟨⟨e, l⟩, hrun, h⟩ := exists_ok_of_any h
    exact ⟨e, l, hrun, of_decide_eq_true h⟩
  exact ⟨hloses _ (by decide +kernel), hloses _ (by decide +kernel)⟩

end Methods

end Lower
end Synth
end MachineSynth
