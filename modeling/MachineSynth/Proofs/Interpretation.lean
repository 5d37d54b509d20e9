import Mathlib
import MachineSynth.Proofs.Lowering.Placement

/-! Interpretations: bytecode and tables read through the same operations on values. -/
namespace MachineSynth
namespace Synth

open Rtl (kindAt)

/-- Any reading of the units that compute, as functions on values of any kind. -/
structure Interpretation (V : Type) where
  /-- The value of a constant. -/
  literal : Int64 → V
  /-- Whether a value counts as true. -/
  holds : V → Bool
  add : V → V → V
  sub : V → V → V
  mul : V → V → V
  gt : V → V → V
  eq : V → V → V
  and : V → V → V
  or : V → V → V
  xor : V → V → V
  invert : V → V
  /-- A shift to the right, or else to the left. -/
  shift : Bool → V → V → V
  concat : V → V → V
  select : V → V → V → V

namespace Interpretation

variable {V : Type} (I : Interpretation V)

/-- What a unit of a kind computes; a unit that assigns gives the value itself. -/
def operation (kind operand : String) : List V → Option V
  | [a] =>
    match kind with
    | "set" => some a
    | "bit-inv" => some (I.invert a)
    | _ => none
  | [a, b] =>
    match kind with
    | "add" => some (I.add a b)
    | "sub" => some (I.sub a b)
    | "mul" => some (I.mul a b)
    | "gt" => some (I.gt a b)
    | "eq" => some (I.eq a b)
    | "and" => some (I.and a b)
    | "or" => some (I.or a b)
    | "xor" => some (I.xor a b)
    | "shift" => some (I.shift (operand = "right") a b)
    | "bit-concat" => some (I.concat a b)
    | _ => none
  | [a, b, c] =>
    match kind with
    | "bit-sel" => some (I.select a b c)
    | _ => none
  | _ => none

/-- The value that an action computes from those held on entry. -/
def result (resources : List Rtl.Resource) (σ : Store V) (a : Action) : Option V :=
  (kindAt resources a.resource).bind fun kind => I.operation kind a.operand (a.inputs.map σ)

/-- All actions of a state read the values held on entry, and write together. -/
def effect (resources : List Rtl.Resource) (as : List Action) (σ : Store V) : Store V :=
  as.foldl (fun τ a =>
    match a.outputs, I.result resources σ a with
    | [o], some v => Function.update τ o v
    | _, _ => τ) σ

def meaning (resources : List Rtl.Resource) : Meaning V := ⟨I.effect resources, I.holds⟩

/-- A bytecode operator, read through the units. -/
def binary : BinaryOp → V → V → V
  | .add, a, b => I.add a b
  | .sub, a, b => I.sub a b
  | .mul, a, b => I.mul a b
  | .eq, a, b => I.eq a b
  | .ne, a, b => I.invert (I.eq a b)
  | .gt, a, b => I.gt a b
  | .lt, a, b => I.gt b a
  | .gte, a, b => I.invert (I.gt b a)
  | .lte, a, b => I.invert (I.gt a b)
  | .and, a, b | .land, a, b => I.and a b
  | .or, a, b | .lor, a, b => I.or a b
  | .xor, a, b => I.xor a b
  | .unknown _, a, _ => a

end Interpretation

/-- What the registers of a method and the members of its object hold. -/
structure Contents (V : Type) where
  registers : RegisterId → V
  members : String → V

namespace Contents

variable {V : Type}

def setRegister (c : Contents V) (r : RegisterId) (v : V) : Contents V :=
  { c with registers := Function.update c.registers r v }

def setMember (c : Contents V) (label : String) (v : V) : Contents V :=
  { c with members := Function.update c.members label v }

def exec (I : Interpretation V) (c : Contents V) : Insn → Contents V
  | .assign target source => c.setRegister target (c.registers source)
  | .binary op target left right =>
    c.setRegister target (I.binary op (c.registers left) (c.registers right))
  | .shift right target source amount =>
    c.setRegister target (I.shift right (c.registers source) (c.registers amount))
  | .concat target left right =>
    c.setRegister target (I.concat (c.registers left) (c.registers right))
  | .count down operand =>
    let one := I.literal 1
    c.setRegister operand
      (if down then I.sub (c.registers operand) one else I.add (c.registers operand) one)
  | .bitRange target source msb lsb =>
    c.setRegister target (I.select (c.registers source) (c.registers msb) (c.registers lsb))
  | .invert _ target source => c.setRegister target (I.invert (c.registers source))
  | .memberRead target _ label => c.setRegister target (c.members label)
  | .memberWrite _ label source => c.setMember label (c.registers source)
  | _ => c

/-- The instruction after one at a position. -/
def next (I : Interpretation V) (c : Contents V) (pc : Nat) : Insn → Nat
  | .goto target => target.toNat
  | .branch cond target => if I.holds (c.registers cond) then target.toNat else pc + 1
  | _ => pc + 1

/-- Whether constant registers hold their values. -/
def Fixes (I : Interpretation V) (m : Method) (c : Contents V) : Prop :=
  ∀ r reg v, m.register? r = some reg → reg.const = some v → c.registers r = I.literal v

end Contents

/-- One step of a method's code. It ends behind the last instruction. -/
def Interpretation.step {V : Type} (I : Interpretation V) (code : List Insn)
    (c : Nat × Contents V) : Option (Nat × Contents V) :=
  (code[c.1]?).map fun i => (c.2.next I c.1 i, c.2.exec I i)

/-- How many states the table passes while the code makes `n` steps. -/
def Interpretation.elapsed {V : Type} (I : Interpretation V) (code : List Insn)
    (c : Nat × Contents V) : Nat → Nat
  | 0 => 0
  | n + 1 => I.elapsed code c n +
    (((run (I.step code) n c).bind fun d => code[d.1]?).map Lower.stateCount).getD 0

/-- Whether a table's registers hold what the places of a method ask for. -/
structure Holds {V : Type} (I : Interpretation V) (s : Site) (l : Lowering) (σ : Store V)
    (c : Contents V) : Prop where
  register : ∀ {r : RegisterId} {i : Nat}, l.locals.lookup r = some i → σ i = c.registers r
  member : ∀ {label : String} {i : Nat},
    l.builder.members.lookup ⟨s.object, label⟩ = some i → σ i = c.members label
  fixed : ∀ {i : Nat} {v : Int64}, l.Fixed i v → σ i = I.literal v

namespace Holds

variable {V : Type} {I : Interpretation V} {s : Site} {l : Lowering} {σ : Store V}
  {c : Contents V} {i : Nat} {v : V}

theorem not_fixed_of_local {r : RegisterId} {w : Int64} (hp : l.Placed s)
    (hr : l.locals.lookup r = some i) (hw : s.Writable r) : ¬ l.Fixed i w := by
  rintro ⟨reg, hreg, hkind, hinitial⟩
  obtain ⟨reg', hreg', hconst⟩ := hp.register hr
  obtain ⟨mreg, hmreg, hnone⟩ := hw
  cases hreg.symm.trans hreg'
  simp [hconst hkind, hmreg, hnone] at hinitial

theorem not_fixed_of_storage {w : Int64}
    (h : ∃ reg, l.builder.registers[i]? = some reg ∧ reg.kind = .storage) : ¬ l.Fixed i w := by
  rintro ⟨reg, hreg, hkind, -⟩
  obtain ⟨reg', hreg', hkind'⟩ := h
  cases hreg.symm.trans hreg'
  rw [hkind] at hkind'
  cases hkind'

theorem setRegister {r : RegisterId} (h : Holds I s l σ c) (hp : l.Placed s)
    (hr : l.locals.lookup r = some i) (hw : s.Writable r) :
    Holds I s l (Function.update σ i v) (c.setRegister r v) := by
  refine ⟨fun {r' j} hj => ?_, fun {label j} hj => ?_, fun {j w} hj => ?_⟩
  · by_cases hji : j = i
    · subst hji
      cases hp.unique hj hr
      simp [Contents.setRegister]
    · have hne : r' ≠ r := by
        rintro rfl
        exact hji (Option.some.inj (hj.symm.trans hr))
      simp [Contents.setRegister, hji, hne, h.register hj]
  · have hji : j ≠ i := by
      rintro rfl
      exact hp.apart hr hj
    simp [Contents.setRegister, hji, h.member hj]
  · have hji : j ≠ i := by
      rintro rfl
      exact not_fixed_of_local hp hr hw hj
    simp [hji, h.fixed hj]

theorem setMember {label : String} (h : Holds I s l σ c) (hp : l.Placed s) (hb : l.builder.Sound)
    (hm : l.builder.members.lookup ⟨s.object, label⟩ = some i) :
    Holds I s l (Function.update σ i v) (c.setMember label v) := by
  refine ⟨fun {r j} hj => ?_, fun {label' j} hj => ?_, fun {j w} hj => ?_⟩
  · have hji : j ≠ i := by
      rintro rfl
      exact hp.apart hj hm
    simp [Contents.setMember, hji, h.register hj]
  · by_cases hji : j = i
    · subst hji
      cases hb.memberUnique hj hm
      simp [Contents.setMember]
    · have hne : label' ≠ label := by
        rintro rfl
        exact hji (Option.some.inj (hj.symm.trans hm))
      simp [Contents.setMember, hji, hne, h.member hj]
  · have hji : j ≠ i := by
      rintro rfl
      exact not_fixed_of_storage (hb.member hm) hj
    simp [hji, h.fixed hj]

theorem setSpare (h : Holds I s l σ c) (hi : l.Spare i) :
    Holds I s l (Function.update σ i v) c := by
  refine ⟨fun {r j} hj => ?_, fun {label j} hj => ?_, fun {j w} hj => ?_⟩
  · have hji : j ≠ i := by
      rintro rfl
      exact hi.noLocal r hj
    simp [hji, h.register hj]
  · have hji : j ≠ i := by
      rintro rfl
      exact hi.noMember _ hj
    simp [hji, h.member hj]
  · have hji : j ≠ i := by
      rintro rfl
      exact not_fixed_of_storage hi.register hj
    simp [hji, h.fixed hj]

end Holds

/-- Any contents can be held, as long as constants have their values. -/
theorem exists_holds {V : Type} {I : Interpretation V} {s : Site} {l : Lowering}
    {c : Contents V} (hp : l.Placed s) (hb : l.builder.Sound) (hc : c.Fixes I s.method) :
    ∃ σ : Store V, Holds I s l σ c := by
  classical
  refine ⟨fun i =>
    if h : ∃ r, l.locals.lookup r = some i then c.registers h.choose
    else if h : ∃ label, l.builder.members.lookup ⟨s.object, label⟩ = some i then
      c.members h.choose
    else if h : ∃ v, l.Fixed i v then I.literal h.choose
    else I.literal 0, fun {r i} hr => ?_, fun {label i} hm => ?_, fun {i v} hf => ?_⟩
  · have h : ∃ r, l.locals.lookup r = some i := ⟨r, hr⟩
    rw [dif_pos h, hp.unique h.choose_spec hr]
  · have hno : ¬ ∃ r, l.locals.lookup r = some i := fun ⟨r, hr⟩ => hp.apart hr hm
    have h : ∃ label, l.builder.members.lookup ⟨s.object, label⟩ = some i := ⟨label, hm⟩
    have hlabel := hb.memberUnique h.choose_spec hm
    rw [dif_neg hno, dif_pos h]
    exact congrArg c.members (congrArg Entity.member hlabel)
  · by_cases h : ∃ r, l.locals.lookup r = some i
    · obtain ⟨reg, hreg, hkind, hinitial⟩ := hf
      obtain ⟨reg', hreg', hconst⟩ := hp.register h.choose_spec
      cases hreg.symm.trans hreg'
      rw [dif_pos h]
      obtain ⟨mreg, hmreg, hv⟩ := Option.bind_eq_some_iff.mp ((hconst hkind).symm.trans hinitial)
      exact hc _ mreg v hmreg hv
    · have hno : ¬ ∃ label, l.builder.members.lookup ⟨s.object, label⟩ = some i :=
        fun ⟨label, hm⟩ => Holds.not_fixed_of_storage (hb.member hm) hf
      have h' : ∃ v, l.Fixed i v := ⟨v, hf⟩
      rw [dif_neg h, dif_neg hno, dif_pos h']
      obtain ⟨reg, hreg, -, hinitial⟩ := hf
      obtain ⟨reg', hreg', -, hinitial'⟩ := h'.choose_spec
      cases hreg.symm.trans hreg'
      exact congrArg I.literal (Option.some.inj (hinitial'.symm.trans hinitial))

end Synth
end MachineSynth
