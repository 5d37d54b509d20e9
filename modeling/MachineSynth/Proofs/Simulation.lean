import Mathlib
import MachineSynth.Proofs.Interpretation
import MachineSynth.Proofs.Lowering.Computing

/-! Lowering preserves meaning: a method that only computes becomes a machine that passes through
the first states of its instructions in the order in which the code runs them, with the same
values in registers and members. -/
namespace MachineSynth
namespace Synth

open Rtl (kindAt)
open LoweredState (Routed)

def Lowering.step {V : Type} (I : Interpretation V) (l : Lowering) :
    Nat × Store V → Option (Nat × Store V) :=
  (I.meaning l.builder.pool.resources).step l.builder.pool.resources (l.states.map (·.insns))

namespace Interpretation

variable {V : Type} (I : Interpretation V) {resources : List Rtl.Resource} {σ : Store V}

@[simp] theorem effect_nil : I.effect resources [] σ = σ := rfl

theorem effect_singleton {a : Action} {kind : String} {o : Nat} {v : V}
    (hk : kindAt resources a.resource = some kind) (ho : a.outputs = [o])
    (hv : I.operation kind a.operand (a.inputs.map σ) = some v) :
    I.effect resources [a] σ = Function.update σ o v := by
  simp [effect, result, hk, ho, hv]

/-- What reads nothing computes nothing. -/
theorem effect_of_no_inputs {as : List Action} (h : ∀ a ∈ as, a.inputs = []) :
    I.effect resources as σ = σ := by
  have hstep : ∀ a ∈ as, I.result resources σ a = none := by
    intro a ha
    simp only [result, h a ha, List.map_nil]
    cases kindAt resources a.resource <;> rfl
  unfold effect
  refine List.foldlRecOn (motive := (· = σ)) as _ rfl fun τ hτ a ha => ?_
  rw [hstep a ha]
  split
  · simp_all
  · exact hτ

theorem operation_transition (operand : String) (vs : List V) :
    I.operation Rtl.Resource.transitionKind operand vs = none := by
  unfold operation
  split <;> rfl

theorem operation_pseudo (operand : String) (vs : List V) :
    I.operation Pool.pseudoKind operand vs = none := by
  unfold operation
  split <;> rfl

/-- The unit of an operator computes it, up to the order of its operands and a negation. -/
theorem operation_binary {op : BinaryOp} {kind : String} (hk : Lower.operatorKind? op = some kind)
    (σ : Store V) (x y : Nat) : ∃ v, I.operation kind ""
        ((if Lower.swapsOperands op then [y, x] else [x, y]).map σ) = some v ∧
      I.binary op (σ x) (σ y) = if Lower.negatesResult op then I.invert v else v := by
  cases op <;> cases hk <;> exact ⟨_, rfl, rfl⟩

end Interpretation

def Lowering.StandsAt (l : Lowering) (starts : List Nat) (closes : Bool) (j : Nat)
    (st : LoweredState) : Prop :=
  ∃ st', l.states[j]? = some st' ∧
    Routed l.builder.pool.resources starts closes l.states.length j st st'

section Routing

variable {V : Type} {I : Interpretation V} {l : Lowering} {σ : Store V} {starts : List Nat}
  {closes : Bool} {j : Nat} {st st' : LoweredState}

theorem Lowering.step_eq {t : Nat} (hst : l.states[j]? = some st')
    (ht : (I.meaning l.builder.pool.resources).next? l.builder.pool.resources st'.insns σ = some t) :
    l.step I (j, σ) = some (t, I.effect l.builder.pool.resources
      (actions l.builder.pool.resources st'.insns) σ) :=
  Meaning.step_eq (by simp [hst]) ht

theorem Lowering.StandsAt.step_next (h : l.StandsAt starts closes j st) (hjump : st.jump = none)
    (hlt : j + 1 < l.states.length) :
    l.step I (j, σ) = some (j + 1, I.effect l.builder.pool.resources
      (actions l.builder.pool.resources st.insns) σ) := by
  obtain ⟨st', hst, hrouted⟩ := h
  cases hrouted with
  | jump _ jumps => cases jumps <;> cases hjump
  | next _ _ idle leads =>
    rw [Lowering.step_eq hst (leads.next? (transition?_eq_none idle)), actions_append,
      actions_of_transition leads.kind, List.append_nil]
  | last eq => omega
  | close eq => omega

/-- A state that computes a value writes it. -/
theorem Lowering.StandsAt.step_does (h : l.StandsAt starts closes j st)
    (hlt : j + 1 < l.states.length) {kind operand : String} {inputs : List Nat} {o : Nat} {v : V}
    (hdoes : Does l.builder.pool.resources kind operand inputs o st)
    (hv : I.operation kind operand (inputs.map σ) = some v) :
    l.step I (j, σ) = some (j + 1, Function.update σ o v) := by
  obtain ⟨i, hi, hkind, haction⟩ := hdoes.insn
  have htr : kind ≠ Rtl.Resource.transitionKind := by
    rintro rfl
    rw [I.operation_transition] at hv
    cases hv
  have hps : kind ≠ Pool.pseudoKind := by
    rintro rfl
    rw [I.operation_pseudo] at hv
    cases hv
  rw [h.step_next hdoes.jump hlt, hi, actions_of_work hkind htr hps, haction]
  exact congrArg (fun τ => some (j + 1, τ)) (I.effect_singleton hkind rfl hv)

theorem Lowering.StandsAt.step_goto {id t : Nat} {target : UInt64}
    (h : l.StandsAt starts closes j ⟨id, [], some (.goto target), none⟩)
    (ht : starts[target.toNat]? = some t) : l.step I (j, σ) = some (t, σ) := by
  obtain ⟨st', hst, hrouted⟩ := h
  cases hrouted with
  | jump _ jumps =>
    cases jumps with
    | goto _ _ start leads =>
      cases Option.some.inj (start.symm.trans ht)
      have hnext : (I.meaning l.builder.pool.resources).next? l.builder.pool.resources
          ([] ++ [_]) σ = some _ := leads.next? rfl
      rw [Lowering.step_eq hst hnext, actions_of_transition leads.kind, I.effect_nil]
  | next _ none => cases none
  | last _ none => cases none
  | close _ none => cases none

theorem Lowering.StandsAt.step_branch {id t c : Nat} {cond : RegisterId} {target : UInt64}
    {i : Rtl.Insn} (h : l.StandsAt starts closes j ⟨id, [i], some (.branch cond target), none⟩)
    (ht : starts[target.toNat]? = some t) (hi : i.inputs = [c]) :
    l.step I (j, σ) = some (if I.holds (σ c) then t else j + 1, σ) := by
  obtain ⟨st', hst, hrouted⟩ := h
  cases hrouted with
  | jump _ jumps =>
    cases jumps with
    | branch _ _ _ start kind =>
      cases Option.some.inj (start.symm.trans ht)
      have hkind : kindAt l.builder.pool.resources
          ({ i with targets := [t, j + 1] } : Rtl.Insn).resource =
            some Rtl.Resource.transitionKind := kind
      have hnext : (I.meaning l.builder.pool.resources).next? l.builder.pool.resources
          [{ i with targets := [t, j + 1] }] σ = some (if I.holds (σ c) then t else j + 1) := by
        have htr := (Rtl.isTransition_eq hkind).trans (decide_eq_true rfl)
        rw [Meaning.next?, Rtl.transition?, List.find?_singleton, htr]
        simp [Meaning.follow, hi, Interpretation.meaning]
      rw [Lowering.step_eq hst hnext, actions_of_transition hkind, I.effect_nil]
  | next _ none => cases none
  | last _ none => cases none
  | close _ none => cases none

end Routing

namespace Site

variable {s : Site} {k : Nat} {i : Insn}

theorem position_succ (hi : s.method.code[k]? = some i) :
    s.position (k + 1) = s.position k + Lower.stateCount i := by
  simp only [position, List.take_add_one, hi, Option.toList_some, Lower.offset_append,
    Lower.offset_cons, Lower.offset_nil, add_zero, add_assoc]

theorem position_le (s : Site) (k : Nat) : s.position k ≤ s.position s.method.code.length := by
  have h := Lower.offset_take_le s.method.code k
  simp only [position, List.take_length]
  omega

theorem Computes.next_le {V : Type} {I : Interpretation V} {c : Contents V}
    (h : s.Computes i) (hi : s.method.code[k]? = some i) :
    c.next I k i ≤ s.method.code.length := by
  have hk : k + 1 ≤ s.method.code.length := (List.getElem?_eq_some_iff.mp hi).1
  unfold Contents.next
  split
  · exact h
  · split
    · exact h.2
    · exact hk
  · exact hk

end Site

section Instruction

variable {V : Type} {I : Interpretation V} {s : Site} {l : Lowering} {starts : List Nat}
  {c : Contents V} {σ σ' : Store V} {k : Nat} {i : Insn}

theorem Contents.Fixes.exec (h : c.Fixes I s.method) (hi : s.Computes i) :
    (c.exec I i).Fixes I s.method := by
  have hset : ∀ {r v}, s.Writable r → (c.setRegister r v).Fixes I s.method := by
    rintro r v ⟨reg, hreg, hnone⟩ r' reg' w hreg' hw
    have hne : r' ≠ r := by
      rintro rfl
      cases hreg.symm.trans hreg'
      rw [hnone] at hw
      cases hw
    simpa [Contents.setRegister, hne] using h r' reg' w hreg' hw
  cases i with
  | assign target source => exact hset hi.1
  | binary op target left right => exact hset hi.2.1
  | shift right target source amount => exact hset hi.1
  | concat target left right => exact hset hi.1
  | count down operand => exact hset hi
  | bitRange target source msb lsb => exact hset hi.1
  | invert logical target source => exact hset hi.1
  | memberRead target object label => exact hset hi.2.1
  | memberWrite object label source => exact h
  | _ => exact h

/-- From the first state of an instruction the machine passes through all of its states. It is then
where the code goes on, and holds what the code does. -/
def Passes (I : Interpretation V) (s : Site) (l : Lowering) (k : Nat) (i : Insn) (c : Contents V)
    (σ : Store V) : Prop :=
  ∃ σ', run (l.step I) (Lower.stateCount i) (s.position k, σ) =
      some (s.position (c.next I k i), σ') ∧ Holds I s l σ' (c.exec I i) ∧
    ∀ d < Lower.stateCount i, ∃ τ, run (l.step I) d (s.position k, σ) = some (s.position k + d, τ)

theorem Passes.of_step (hcount : Lower.stateCount i = 1)
    (hstep : l.step I (s.position k, σ) = some (s.position (c.next I k i), σ'))
    (hσ' : Holds I s l σ' (c.exec I i)) : Passes I s l k i c σ := by
  refine ⟨σ', ?_, hσ', fun d hd => ?_⟩
  · rw [hcount, run_one]
    exact hstep
  · have hzero : d = 0 := by omega
    subst hzero
    exact ⟨σ, rfl⟩

theorem Built.lt (hl : Built s starts l) (hi : s.method.code[k]? = some i) :
    s.position k + Lower.stateCount i < l.states.length := by
  rw [hl.length, ← Site.position_succ hi]
  exact Nat.lt_succ_of_le (s.position_le (k + 1))

/-- An instruction that is realized by one state, which computes a value. -/
theorem Built.passes_of_does (hl : Built s starts l) (hi : s.method.code[k]? = some i)
    (hcount : Lower.stateCount i = 1) (hnext : c.next I k i = k + 1) {closes : Bool}
    {st : LoweredState} (hst : l.StandsAt starts closes (s.position k) st)
    {kind operand : String} {inputs : List Nat} {o : Nat} {v : V}
    (hdoes : Does l.builder.pool.resources kind operand inputs o st)
    (hv : I.operation kind operand (inputs.map σ) = some v)
    (hσ : Holds I s l (Function.update σ o v) (c.exec I i)) : Passes I s l k i c σ := by
  have hlt := hl.lt hi
  have hsucc := Site.position_succ hi
  rw [hcount] at hlt hsucc
  refine .of_step hcount ?_ hσ
  rw [hst.step_does hlt hdoes hv, hnext, hsucc]

/-- A comparison that is negated takes two states; in between, its result is in a spare register. -/
theorem Built.passes_of_negated (hl : Built s starts l) (hi : s.method.code[k]? = some i)
    (hcount : Lower.stateCount i = 2) (hnext : c.next I k i = k + 1) {closes : Bool}
    {st₁ st₂ : LoweredState} (hst₁ : l.StandsAt starts closes (s.position k) st₁)
    (hst₂ : l.StandsAt starts closes (s.position k + 1) st₂)
    {kind : String} {inputs : List Nat} {z t : Nat} {v : V}
    (hdoes : Does l.builder.pool.resources kind "" inputs z st₁)
    (hv : I.operation kind "" (inputs.map σ) = some v)
    (hinverts : Does l.builder.pool.resources "bit-inv" "" [z] t st₂)
    (hσ : Holds I s l (Function.update (Function.update σ z v) t (I.invert v)) (c.exec I i)) :
    Passes I s l k i c σ := by
  have hlt := hl.lt hi
  have hsucc := Site.position_succ hi
  rw [hcount] at hlt hsucc
  have h₁ : l.step I (s.position k, σ) = some (s.position k + 1, Function.update σ z v) :=
    hst₁.step_does (by omega) hdoes hv
  have h₂ : l.step I (s.position k + 1, Function.update σ z v) =
      some (s.position k + 1 + 1, Function.update (Function.update σ z v) t (I.invert v)) := by
    refine hst₂.step_does hlt hinverts ?_
    simp [Interpretation.operation]
  refine ⟨_, ?_, hσ, fun d hd => ?_⟩
  · rw [hcount, run_succ, run_one, h₁, Option.bind_some, h₂, hnext, hsucc]
  · rw [hcount] at hd
    interval_cases d
    · exact ⟨σ, rfl⟩
    · exact ⟨_, (run_one _ _).trans h₁⟩

theorem Built.passes (hl : Built s starts l) (hi : s.method.code[k]? = some i)
    (hcomputes : s.Computes i) (hc : c.Fixes I s.method) (hσ : Holds I s l σ c) :
    Passes I s l k i c σ := by
  have hlt := hl.lt hi
  have hsucc := Site.position_succ hi
  have hfixed : ∀ {r n value}, (s.method.register? r).bind (·.const) = some value →
      l.Fixed n value → σ n = c.registers r := by
    intro r n value hr hn
    obtain ⟨reg, hreg, hvalue⟩ := Option.bind_eq_some_iff.mp hr
    rw [hσ.fixed hn, hc r reg value hreg hvalue]
  obtain ⟨new, hreal, hat⟩ := hl.realized hi
  replace hat : ∀ d st, new[d]? = some st →
    l.StandsAt starts (s.role != .inner) (s.position k + d) st := hat
  cases hreal with
  | nop id =>
    refine .of_step rfl ?_ hσ
    exact ((hat 0 _ rfl).step_next rfl hlt).trans (congrArg some (Prod.ext hsucc.symm rfl))
  | goto id target =>
    exact .of_step rfl ((hat 0 _ rfl).step_goto (hl.start hcomputes)) hσ
  | branch id cond target place inputs =>
    refine .of_step rfl ?_ hσ
    have hstep := (hat 0 _ rfl).step_branch (I := I) (σ := σ) (hl.start hcomputes.2) inputs
    rw [hσ.register place] at hstep
    refine hstep.trans (congrArg some (Prod.ext ?_ rfl))
    simp only [Contents.next]
    split
    · rfl
    · exact hsucc.symm
  | assign target source does =>
    refine hl.passes_of_does hi rfl rfl (hat 0 _ rfl) does rfl ?_
    rw [hσ.register source]
    exact hσ.setRegister hl.placed target hcomputes.1
  | @binary op target left right kind t x y st hkind plain ht hx hy does =>
    obtain ⟨v, hv, hbinary⟩ := I.operation_binary hkind σ x y
    rw [hσ.register hx, hσ.register hy] at hbinary
    refine hl.passes_of_does hi (by simp [Lower.stateCount, plain]) rfl (hat 0 _ rfl) does hv ?_
    have hexec := hσ.setRegister (v := v) hl.placed ht hcomputes.2.1
    simpa [Contents.exec, hbinary, plain] using hexec
  | @negated op target left right kind t x y z st₁ st₂ hkind negates ht hx hy spare does inverts =>
    obtain ⟨v, hv, hbinary⟩ := I.operation_binary hkind σ x y
    rw [hσ.register hx, hσ.register hy] at hbinary
    refine hl.passes_of_negated hi (by simp [Lower.stateCount, negates]) rfl (hat 0 _ rfl)
      (hat 1 _ rfl) does hv inverts ?_
    have hexec := (hσ.setSpare (v := v) spare).setRegister (v := I.invert v) hl.placed ht
      hcomputes.2.1
    simpa [Contents.exec, hbinary, negates] using hexec
  | @shift right target source amount value t r n st hamount fixed ht hr does =>
    have hinputs : I.operation "shift" (if right then "right" else "left") ([r, n].map σ) =
        some (I.shift right (c.registers source) (c.registers amount)) := by
      rw [List.map_cons, List.map_cons, List.map_nil, hσ.register hr, hfixed hamount fixed]
      cases right <;> rfl
    refine hl.passes_of_does hi rfl rfl (hat 0 _ rfl) does hinputs ?_
    exact hσ.setRegister hl.placed ht hcomputes.1
  | concat target left right does =>
    refine hl.passes_of_does hi rfl rfl (hat 0 _ rfl) does rfl ?_
    rw [hσ.register left, hσ.register right]
    exact hσ.setRegister hl.placed target hcomputes.1
  | @count down r x n st operand fixed does =>
    have hinputs : I.operation (if down then "sub" else "add") "" ([x, n].map σ) =
        some (if down then I.sub (c.registers r) (I.literal 1)
          else I.add (c.registers r) (I.literal 1)) := by
      rw [List.map_cons, List.map_cons, List.map_nil, hσ.register operand, hσ.fixed fixed]
      cases down <;> rfl
    refine hl.passes_of_does hi rfl rfl (hat 0 _ rfl) does hinputs ?_
    exact hσ.setRegister hl.placed operand hcomputes
  | bitRange msb lsb high low target source does =>
    refine hl.passes_of_does hi rfl rfl (hat 0 _ rfl) does rfl ?_
    rw [hσ.register source, hfixed msb high, hfixed lsb low]
    exact hσ.setRegister hl.placed target hcomputes.1
  | invert target source does =>
    refine hl.passes_of_does hi rfl rfl (hat 0 _ rfl) does rfl ?_
    rw [hσ.register source]
    exact hσ.setRegister hl.placed target hcomputes.1
  | memberRead target member does =>
    refine hl.passes_of_does hi rfl rfl (hat 0 _ rfl) does rfl ?_
    rw [hσ.member member]
    exact hσ.setRegister hl.placed target hcomputes.2.1
  | memberWrite source member does =>
    refine hl.passes_of_does hi rfl rfl (hat 0 _ rfl) does rfl ?_
    rw [hσ.register source]
    exact hσ.setMember hl.placed hl.sound member

end Instruction

section Runs

variable {V : Type} {I : Interpretation V} {s : Site} {l : Lowering} {starts : List Nat}
  {c d : Contents V} {σ : Store V} {n pc : Nat}

theorem Built.run (hl : Built s starts l) (hs : s.OnlyComputes) (hc : c.Fixes I s.method)
    (hσ : Holds I s l σ c) (h : run (I.step s.method.code) n (0, c) = some (pc, d)) :
    pc ≤ s.method.code.length ∧ d.Fixes I s.method ∧
      ∃ σ', Synth.run (l.step I) (I.elapsed s.method.code (0, c) n) (s.position 0, σ) =
        some (s.position pc, σ') ∧ Holds I s l σ' d := by
  induction n generalizing pc d with
  | zero =>
    cases Option.some.inj h
    exact ⟨Nat.zero_le _, hc, σ, rfl, hσ⟩
  | succ n ih =>
    rw [run_succ] at h
    obtain ⟨⟨pc₀, d₀⟩, h₀, hstep⟩ := Option.bind_eq_some_iff.mp h
    obtain ⟨-, hc₀, σ₀, hrun₀, hσ₀⟩ := ih h₀
    obtain ⟨i, hi, hpc⟩ := Option.map_eq_some_iff.mp hstep
    cases hpc
    have hcomputes := hs.code i (List.mem_of_getElem? hi)
    obtain ⟨σ', hrun', hσ', -⟩ := hl.passes hi hcomputes hc₀ hσ₀
    have helapsed : I.elapsed s.method.code (0, c) (n + 1) =
        I.elapsed s.method.code (0, c) n + Lower.stateCount i := by
      simp [Interpretation.elapsed, h₀, hi]
    refine ⟨hcomputes.next_le hi, hc₀.exec hcomputes, σ', ?_, hσ'⟩
    rw [helapsed, run_add, hrun₀]
    exact hrun'

/-- A method that others do not contain first waits to be started. -/
theorem Built.begins (hl : Built s starts l) (σ : Store V) :
    Synth.run (l.step I) (Lower.firstState s.role) (0, σ) = some (s.position 0, σ) := by
  by_cases hrole : s.role = .inner
  · simp [Site.position, Lower.firstState, hrole]
  · obtain ⟨st, st', ⟨hjump, hinputs⟩, hst⟩ := hl.waits hrole
    have hstands : l.StandsAt starts (s.role != .inner) 0 st := ⟨st', hst⟩
    have hfirst : Lower.firstState s.role = 1 := by simp [Lower.firstState, hrole]
    have hlt : 0 + 1 < l.states.length := by
      have hle := s.position_le 0
      rw [hl.length]
      simp only [Site.position, hfirst] at hle ⊢
      omega
    have hnothing : ∀ a ∈ actions l.builder.pool.resources st.insns, a.inputs = [] := by
      intro a ha
      obtain ⟨i, hi, rfl⟩ := List.mem_map.mp ha
      exact hinputs i (List.mem_of_mem_filter hi)
    rw [hfirst, run_one, hstands.step_next hjump hlt, I.effect_of_no_inputs hnothing]
    simp [Site.position, hfirst]

/-- Behind its code a method is done. If others do not contain it, it waits again. -/
theorem Built.ends (hl : Built s starts l) (σ : Store V) :
    (l.step I (s.position s.method.code.length, σ)).map Prod.fst =
      if s.role = .inner then none else some 0 := by
  obtain ⟨st, st', hinsns, hst', hrouted⟩ := hl.last
  have hlength := hl.length
  cases hrouted with
  | jump lt => omega
  | next lt => omega
  | last eq none idle stays =>
    have hrole : s.role = .inner := by simpa using stays
    simp [hrole, Lowering.step, Meaning.step, Meaning.next?, hst', transition?_eq_none idle]
  | close eq none idle back works leads =>
    have hrole : s.role ≠ .inner := by simpa using back
    rw [if_neg hrole, Lowering.step_eq hst' (leads.next? ?_)]
    · rfl
    · refine transition?_eq_none fun i hi => ?_
      rcases List.mem_append.mp hi with hi | hi
      · exact idle i hi
      · obtain ⟨-, kind, hk, hne, -⟩ := works i hi
        exact ⟨kind, hk, hne⟩

end Runs

/-- How a machine goes along with the code of a method, from its first state and from values that
both hold. -/
structure Tracks {V : Type} (I : Interpretation V) (s : Site) (l : Lowering) (σ : Store V)
    (c : Contents V) : Prop where
  /-- When the code is in front of an instruction, or behind the last one, the machine is at the
  first state of that instruction, or at the last state, and both hold the same. -/
  reaches : ∀ {n pc : Nat} {d : Contents V}, run (I.step s.method.code) n (0, c) = some (pc, d) →
    pc ≤ s.method.code.length ∧
      ∃ σ', run (l.step I) (Lower.firstState s.role + I.elapsed s.method.code (0, c) n) (0, σ) =
        some (s.position pc, σ') ∧ Holds I s l σ' d
  /-- From there it passes through the states of the instruction, one by one. -/
  between : ∀ {n pc : Nat} {d : Contents V} {i : Insn},
    run (I.step s.method.code) n (0, c) = some (pc, d) → s.method.code[pc]? = some i →
      ∀ j < Lower.stateCount i, ∃ σ',
        run (l.step I) (Lower.firstState s.role + I.elapsed s.method.code (0, c) n + j) (0, σ) =
          some (s.position pc + j, σ')
  /-- Once the code has ended, the machine ends too, or waits to be started again. -/
  ends : ∀ {n : Nat} {d : Contents V},
    run (I.step s.method.code) n (0, c) = some (s.method.code.length, d) →
      (run (l.step I) (Lower.firstState s.role + I.elapsed s.method.code (0, c) n + 1) (0, σ)).map
        Prod.fst = if s.role = .inner then none else some 0

theorem Built.tracks {V : Type} {I : Interpretation V} {s : Site} {l : Lowering}
    {starts : List Nat} {σ : Store V} {c : Contents V} (hl : Built s starts l)
    (hs : s.OnlyComputes) (hc : c.Fixes I s.method) (hσ : Holds I s l σ c) :
    Tracks I s l σ c := by
  refine ⟨fun {n pc d} h => ?_, fun {n pc d i} h hi j hj => ?_, fun {n d} h => ?_⟩
  · obtain ⟨hpc, -, σ', hrun, hσ'⟩ := hl.run hs hc hσ h
    refine ⟨hpc, σ', ?_, hσ'⟩
    rw [run_add, hl.begins]
    exact hrun
  · obtain ⟨-, hd, σ', hrun, hσ'⟩ := hl.run hs hc hσ h
    obtain ⟨-, -, -, hbetween⟩ := hl.passes hi (hs.code i (List.mem_of_getElem? hi)) hd hσ'
    obtain ⟨τ, hτ⟩ := hbetween j hj
    refine ⟨τ, ?_⟩
    rw [Nat.add_assoc, run_add, hl.begins, Option.bind_some, run_add, hrun]
    exact hτ
  · obtain ⟨-, -, σ', hrun, -⟩ := hl.run hs hc hσ h
    rw [Nat.add_assoc, run_add, hl.begins, Option.bind_some, run_succ, hrun]
    exact hl.ends σ'

/-- The first states of instructions are in the order of the code, and all different. -/
theorem Site.position_strictMonoOn (s : Site) :
    StrictMonoOn s.position (Set.Iic s.method.code.length) := by
  refine strictMonoOn_of_lt_add_one Set.ordConnected_Iic fun k _ _ hk => ?_
  have hi := List.getElem?_eq_getElem (Nat.lt_of_succ_le hk)
  rw [Site.position_succ hi]
  exact Nat.lt_add_of_pos_right (Lower.stateCount_pos _)

/-- The registers that an instruction reads or writes. Those that must be constant are fixed in the
table instead. -/
def Insn.registers : Insn → List RegisterId
  | .branch cond _ => [cond]
  | .assign target source | .shift _ target source _ | .bitRange target source _ _
  | .invert _ target source => [target, source]
  | .binary _ target left right | .concat target left right => [target, left, right]
  | .count _ operand => [operand]
  | .memberRead target _ _ => [target]
  | .memberWrite _ _ source => [source]
  | _ => []

def Insn.member? : Insn → Option String
  | .memberRead _ _ label | .memberWrite _ label _ => some label
  | _ => none

/-- All that an instruction reads or writes has a place. -/
theorem Realizes.placed {s : Site} {l : Lowering} {i : Insn} {new : List LoweredState}
    (h : Realizes s l i new) : (∀ r ∈ Insn.registers i, ∃ p, l.locals.lookup r = some p) ∧
      ∀ label ∈ Insn.member? i, ∃ p, l.builder.members.lookup ⟨s.object, label⟩ = some p := by
  cases h <;> simp_all [Insn.registers, Insn.member?]

/-- Lowering preserves meaning. A method that only computes can be lowered, and whatever its units
compute and whatever its registers and members hold, the machine goes along with the code. -/
theorem lowering_preserves_meaning {s : Site} {b : Builder} (hb : b.Sound) (hs : s.OnlyComputes) :
    StrictMonoOn s.position (Set.Iic s.method.code.length) ∧
    ∃ e l, (Lower.body s).run ⟨b, Walker.start s.object, [], []⟩ = .ok (e, l) ∧
      l.states.length = s.position s.method.code.length + 1 ∧
      (∀ i ∈ s.method.code, (∀ r ∈ Insn.registers i, ∃ p, l.locals.lookup r = some p) ∧
        ∀ label ∈ Insn.member? i, ∃ p, l.builder.members.lookup ⟨s.object, label⟩ = some p) ∧
      ∀ (V : Type) (I : Interpretation V) (c : Contents V), c.Fixes I s.method →
        (∃ σ, Holds I s l σ c) ∧ ∀ σ, Holds I s l σ c → Tracks I s l σ c := by
  obtain ⟨e, l, starts, hrun, hl⟩ := body_builds hb hs
  refine ⟨s.position_strictMonoOn, e, l, hrun, hl.length, fun i hi => ?_,
    fun V I c hc => ⟨?_, fun σ hσ => ?_⟩⟩
  · obtain ⟨k, hk⟩ := List.getElem?_of_mem hi
    obtain ⟨new, hreal, -⟩ := hl.realized hk
    exact hreal.placed
  · exact exists_holds hl.placed hl.sound hc
  · exact hl.tracks hs hc hσ

/-- A method that counts a member up to a limit, with a jump back and a comparison that takes two
states. -/
def countingSite : Site where
  machine := ⟨[⟨"top", .plain, 0, 0, false, false, [], [⟨"x", .num 8 0 false⟩]⟩]⟩
  owners := ⟨[], []⟩
  thread := 0
  object := 0
  slot := "f"
  method := ⟨"f", [⟨"n", .int, 8⟩], [],
    [⟨"n", .num, 8, false, 0⟩, ⟨"v", .num, 8, false, 0⟩, ⟨"b", .num, 0, false, 0⟩],
    [.memberRead 1 RegisterId.unused "x", .binary .gte 2 1 0, .branch 2 6, .count false 1,
      .memberWrite RegisterId.unused "x" 1, .goto 0], "", "", "", .none⟩
  role := .root

theorem countingSite_onlyComputes : countingSite.OnlyComputes := by
  have hn : countingSite.Writable 0 := ⟨_, rfl, rfl⟩
  have hv : countingSite.Writable 1 := ⟨_, rfl, rfl⟩
  have hb : countingSite.Writable 2 := ⟨_, rfl, rfl⟩
  have hx : countingSite.OwnMember "x" := ⟨by decide, by decide⟩
  refine ⟨by decide, by simp [countingSite], fun i hi => ?_⟩
  simp only [countingSite, List.mem_cons, List.not_mem_nil, or_false] at hi
  rcases hi with rfl | rfl | rfl | rfl | rfl | rfl
  · exact ⟨rfl, hv, hx⟩
  · exact ⟨rfl, hb, hv.has, hn.has⟩
  · exact ⟨hb.has, by decide⟩
  · exact hv
  · exact ⟨rfl, hv.has, hx⟩
  · exact Nat.zero_le _

/-- The counting method goes along with its code, into an empty table. -/
theorem counting_preserves_meaning :
    (Builder.ofPool (.empty ⟨0, 0⟩)).Sound ∧ countingSite.OnlyComputes ∧
    ∃ e l, (Lower.body countingSite).run
        ⟨Builder.ofPool (.empty ⟨0, 0⟩), Walker.start 0, [], []⟩ = .ok (e, l) ∧
      l.states.length = 9 ∧
      ∀ (V : Type) (I : Interpretation V) (c : Contents V) (σ : Store V),
        Holds I countingSite l σ c → Tracks I countingSite l σ c := by
  have hb := Builder.sound_ofPool (Pool.sound_empty ⟨0, 0⟩)
  obtain ⟨-, e, l, hrun, hlength, -, h⟩ := lowering_preserves_meaning hb countingSite_onlyComputes
  refine ⟨hb, countingSite_onlyComputes, e, l, hrun, hlength, fun V I c σ hσ => ?_⟩
  refine (h V I c fun r reg v hr hv => ?_).2 σ hσ
  have hnone : ∀ x ∈ countingSite.method.registers, x.const = none := by decide
  rw [hnone reg (List.mem_of_getElem? hr)] at hv
  cases hv

end Synth
end MachineSynth
