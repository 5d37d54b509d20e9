import Mathlib
import MachineSynth.Proofs.Lowering.Instructions

/-! Lowering of code: instructions follow each other, each from where the one before it left the
walker and the states, and none without a state of its own. -/
namespace MachineSynth
namespace Synth

namespace Site

def isPort (s : Site) : Bool := !s.method.isImported && s.method.marks.isPort

/-- How a sequence of instructions uses entities, each in its turn. A port method has its port. -/
def usesOf (s : Site) (w : Walker) (code : List Insn) : Uses where
  own e := ∃ k i v, code[k]? = some i ∧ w.walk s.machine (code.take k) = .ok v ∧ (s.uses v i).own e
  hold e :=
    ∃ k i v, code[k]? = some i ∧ w.walk s.machine (code.take k) = .ok v ∧ (s.uses v i).hold e
  reach e :=
    ∃ k i v, code[k]? = some i ∧ w.walk s.machine (code.take k) = .ok v ∧ (s.uses v i).reach e
  port name := s.isPort = true ∧ Pool.portName s.method = name

theorem uses_le_usesOf {s : Site} {w v : Walker} {code : List Insn} {k : Nat} {i : Insn}
    (hi : code[k]? = some i) (hv : w.walk s.machine (code.take k) = .ok v) :
    s.uses v i ≤ s.usesOf w code :=
  ⟨fun _ h => ⟨k, i, v, hi, hv, h⟩, fun _ h => ⟨k, i, v, hi, hv, h⟩,
    fun _ h => ⟨k, i, v, hi, hv, h⟩, fun _ => False.elim⟩

end Site

namespace Walker

theorem walk_append {m : Machine} {w v : Walker} {code rest : List Insn}
    (h : w.walk m code = .ok v) : w.walk m (code ++ rest) = v.walk m rest := by
  simp only [walk, List.foldlM_append] at h ⊢
  rw [h]
  rfl

theorem walk_concat {m : Machine} {w v x : Walker} {code : List Insn} {i : Insn}
    (h : w.walk m code = .ok v) (hi : v.step m i = .ok x) : w.walk m (code ++ [i]) = .ok x := by
  rw [walk_append h]
  simp [walk, List.foldlM, hi, Bind.bind, Except.bind, pure, Except.pure]

end Walker

namespace Lower

open Lowering (Quiet Step)

variable {s : Site} {u : Uses} {l l' : Lowering}

/-- The number of states that a sequence of instructions takes. -/
def offset (code : List Insn) : Nat := (code.map stateCount).sum

@[simp] theorem offset_nil : offset [] = 0 := rfl

@[simp] theorem offset_cons (i : Insn) (code : List Insn) :
    offset (i :: code) = stateCount i + offset code := by
  simp [offset]

@[simp] theorem offset_append (code rest : List Insn) :
    offset (code ++ rest) = offset code + offset rest := by
  simp [offset]

theorem length_flatMap_marks (is : List Insn) : (is.flatMap marks).length = offset is := by
  simp [List.length_flatMap, offset]

theorem offset_take_le (code : List Insn) (k : Nat) : offset (code.take k) ≤ offset code := by
  conv_rhs => rw [← List.take_append_drop k code, offset_append]
  exact Nat.le_add_right _ _

def pushed (l : Lowering) : Lowering :=
  { l with
    builder := l.builder.newState.2
    states := l.states ++ [⟨l.builder.newState.1, [], none, none⟩] }

theorem pushed_step (hl : l.Sound) : Step u [none] l (pushed l) :=
  push_step hl (fun id => .work id (by simp)) (run_push_eq_ok.mpr rfl)

/-- Adds an empty state if there are only `n` so far. -/
def force (n : Nat) (l : Lowering) : Lowering := if l.states.length = n then pushed l else l

theorem code_cons_eq_ok {i : Insn} {rest : List Insn} {starts : List Nat} :
    (code s (i :: rest)).run l = .ok (starts, l') ↔
      ∃ b starts', (instruction s i).run l = .ok ((), b) ∧
        (code s rest).run (force l.states.length b) = .ok (starts', l') ∧
        starts = l.states.length :: starts' := by
  simp only [code, run_bind_eq_ok, run_get_eq_ok]
  constructor
  · rintro ⟨_, _, hget, _, b, hi, _, _, hget', h⟩
    cases hget
    cases hget'
    refine ⟨b, ?_⟩
    split at h <;> rename_i hlen <;> simp only [run_bind_eq_ok, run_pure_eq_ok] at h
    · obtain ⟨_, c, hpush, starts', c', hrest, h⟩ := h
      cases run_push_eq_ok.mp hpush
      cases h
      exact ⟨starts', hi, by simpa [force, hlen, pushed] using hrest, rfl⟩
    · obtain ⟨starts', c', hrest, h⟩ := h
      cases h
      exact ⟨starts', hi, by simpa [force, hlen, pushed] using hrest, rfl⟩
  · rintro ⟨b, starts', hi, hrest, rfl⟩
    refine ⟨_, _, rfl, (), b, hi, _, _, rfl, ?_⟩
    unfold force at hrest
    split <;> rename_i hlen <;> simp only [hlen, if_true, if_false] at hrest <;>
      simp only [run_bind_eq_ok, run_pure_eq_ok]
    · exact ⟨(), _, run_push_eq_ok.mpr rfl, starts', l', hrest, rfl⟩
    · exact ⟨starts', l', hrest, rfl⟩

/-- What holds before the code and is kept by each instruction holds all along. The invariant is
told which instructions are done, and changes are joined by a preorder. -/
theorem code_at {P : List Insn → Lowering → Prop} {R : Lowering → Lowering → Prop}
    (hrefl : ∀ a, R a a) (htrans : ∀ a b c, R a b → R b c → R a c)
    {all is done : List Insn} {starts : List Nat} (hall : all = done ++ is)
    (hstep : ∀ done i rest a b, all = done ++ i :: rest → P done a →
      (instruction s i).run a = .ok ((), b) →
      P (done ++ [i]) (force a.states.length b) ∧ R a (force a.states.length b))
    (hP : P done l) (h : (code s is).run l = .ok (starts, l')) :
    P all l' ∧ R l l' ∧ starts.length = is.length ∧
      ∀ k i, is[k]? = some i → ∃ a b, P (done ++ is.take k) a ∧
        (instruction s i).run a = .ok ((), b) ∧ starts[k]? = some a.states.length ∧
        R l a ∧ R (force a.states.length b) l' := by
  induction is generalizing l done starts with
  | nil =>
    cases run_pure_eq_ok.mp h
    exact ⟨by simpa [hall] using hP, hrefl _, rfl, fun k i hi => by simp at hi⟩
  | cons j rest ih =>
    obtain ⟨b, starts', hj, hrest, rfl⟩ := code_cons_eq_ok.mp h
    obtain ⟨hPb, hRb⟩ := hstep done j rest l b hall hP hj
    obtain ⟨hP', hR', hlen, hat⟩ := ih (by simp [hall]) hPb hrest
    refine ⟨hP', htrans _ _ _ hRb hR', by simp [hlen], fun k i hi => ?_⟩
    cases k with
    | zero =>
      cases Option.some.inj hi
      exact ⟨l, b, by simpa using hP, hj, rfl, hrefl l, hR'⟩
    | succ k =>
      obtain ⟨a, c, hPa, hic, hstart, hRa, hRc⟩ := hat k i hi
      exact ⟨a, c, by simpa using hPa, hic, hstart, htrans _ _ _ hRb hRa, hRc⟩

theorem force_step {i : Insn} {b : Lowering} (hl : l.Sound)
    (h : (instruction s i).run l = .ok ((), b)) :
    ∃ w, l.walker.step s.machine i = .ok w ∧
      Step (s.uses l.walker i) (marks i) { l with walker := w } (force l.states.length b) := by
  obtain ⟨js, w, hjs, hw, hstep⟩ := instruction_step hl h
  refine ⟨w, hw, ?_⟩
  have hcount : b.states.length = l.states.length + js.length := hstep.count
  unfold force
  obtain rfl | ⟨rfl, hmarks⟩ := hjs
  · have hpos := stateCount_pos i
    rw [length_marks] at hcount
    rw [if_neg (by omega)]
    exact hstep
  · rw [List.length_nil, Nat.add_zero] at hcount
    rw [if_pos hcount, hmarks]
    exact hstep.trans (pushed_step hstep.sound)

end Lower

namespace Lowering

/-- A lowering later than another, with no more uses than allowed. -/
structure Grows (u : Uses) (l l' : Lowering) : Prop where
  builder : l.builder.Extends l'.builder
  covered : Builder.Covered u l.builder l'.builder
  states : l.states.map (·.bare) <+: l'.states.map (·.bare)

theorem Grows.refl (u : Uses) (l : Lowering) : Grows u l l :=
  ⟨.refl _, .refl u _, List.prefix_refl _⟩

theorem Grows.trans {u : Uses} {a b c : Lowering} (h : Grows u a b) (h' : Grows u b c) :
    Grows u a c :=
  ⟨h.builder.trans h'.builder, h.covered.trans h'.covered, h.states.trans h'.states⟩

/-- Where the lowering of a site stands when some of the code is done. -/
structure At (s : Site) (start : Lowering) (done : List Insn) (l : Lowering) : Prop where
  sound : l.Sound
  walker : start.walker.walk s.machine done = .ok l.walker
  jumps : l.jumps = start.jumps ++ done.flatMap Lower.marks

theorem At.count {s : Site} {start l : Lowering} {done : List Insn} (h : At s start done l) :
    l.states.length = start.states.length + Lower.offset done := by
  have hlen := congrArg List.length h.jumps
  rwa [Lowering.jumps, Lowering.jumps, List.length_append, List.length_map, List.length_map,
    Lower.length_flatMap_marks] at hlen

end Lowering

namespace Lower

variable {s : Site} {l l' : Lowering}

theorem force_at {start : Lowering} {done : List Insn} {i : Insn} {b : Lowering}
    (hl : Lowering.At s start done l) (h : (instruction s i).run l = .ok ((), b)) :
    Lowering.At s start (done ++ [i]) (force l.states.length b) ∧
      Lowering.Grows (s.uses l.walker i) l (force l.states.length b) := by
  obtain ⟨w, hw, hstep⟩ := force_step hl.sound h
  refine ⟨⟨hstep.sound, ?_, ?_⟩, ⟨hstep.builder, hstep.covered, hstep.states⟩⟩
  · rw [Walker.walk_concat hl.walker hw, hstep.walker]
  · have hjumps : (force l.states.length b).jumps = l.jumps ++ marks i := hstep.jumps
    rw [hjumps, hl.jumps, List.flatMap_append, List.flatMap_singleton, List.append_assoc]

/-- The code of a method is lowered instruction by instruction, each at the position that the ones
before it lead up to. -/
theorem code_spec {is : List Insn} {starts : List Nat} (hl : l.Sound)
    (h : (code s is).run l = .ok (starts, l')) :
    Lowering.At s l is l' ∧ Lowering.Grows (s.usesOf l.walker is) l l' ∧
      starts.length = is.length ∧
      ∀ k i, is[k]? = some i → ∃ a b, Lowering.At s l (is.take k) a ∧
        (instruction s i).run a = .ok ((), b) ∧ starts[k]? = some a.states.length ∧
        Lowering.Grows (s.usesOf l.walker is) l a ∧
        Lowering.Grows (s.usesOf l.walker is) (force a.states.length b) l' := by
  have hstart : Lowering.At s l [] l := ⟨hl, rfl, by simp⟩
  have hstep : ∀ done i rest a b, is = done ++ i :: rest → Lowering.At s l done a →
      (instruction s i).run a = .ok ((), b) →
      Lowering.At s l (done ++ [i]) (force a.states.length b) ∧
        Lowering.Grows (s.usesOf l.walker is) a (force a.states.length b) := by
    intro done i rest a b hall ha hi
    obtain ⟨hat, hgrows⟩ := force_at ha hi
    have hget : is[done.length]? = some i := by simp [hall]
    have hwalk : l.walker.walk s.machine (is.take done.length) = .ok a.walker := by
      simpa [hall] using ha.walker
    exact ⟨hat, hgrows.builder, hgrows.covered.mono (Site.uses_le_usesOf hget hwalk),
      hgrows.states⟩
  exact code_at (P := Lowering.At s l) (.refl _) (fun _ _ _ => .trans)
    (List.nil_append is).symm hstep hstart h

end Lower
end Synth
end MachineSynth
