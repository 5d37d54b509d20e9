import Mathlib
import MachineSynth.Proofs.Constants
import MachineSynth.Proofs.Operators.Registers
import MachineSynth.Proofs.Operators.Units

/-! Fitting: an instruction on an operator reads and writes registers of the types that its resource
has. It does for operands of one type, but for inversions: their resource is one for truth values,
whatever it is that they invert. -/
namespace MachineSynth

open Synth (Pool Builder)

def Rtl.HaveTypes (R : List Register) (js : List Nat) (ts : List ValueType) : Prop :=
  js.map (fun j => (R[j]?).map (·.type)) = ts.map some

def Rtl.Insn.Fits (resources : List Resource) (R : List Register) (i : Insn) : Prop :=
  ∀ r, resources[i.resource]? = some r → r.kind ∈ Pool.operatorKinds →
    HaveTypes R i.inputs r.inputs ∧ HaveTypes R i.outputs r.outputs

instance Rtl.instDecidableHaveTypes (R : List Register) (js : List Nat) (ts : List ValueType) :
    Decidable (HaveTypes R js ts) :=
  inferInstanceAs (Decidable (_ = _))

instance Rtl.instDecidableFits (resources : List Resource) (R : List Register) (i : Insn) :
    Decidable (i.Fits resources R) :=
  inferInstanceAs (Decidable (∀ r ∈ resources[i.resource]?, r.kind ∈ Pool.operatorKinds →
    HaveTypes R i.inputs r.inputs ∧ HaveTypes R i.outputs r.outputs))

namespace Method

/-- Whether the registers of an operator have types that go together: one type for all of them, but
the result of a comparison is a truth value. Only numbers are counted. -/
def Uniform (f : Method) : Insn → Prop
  | .binary op target left right => ∃ t, f.type? left = some t ∧ f.type? right = some t ∧
      f.type? target = some (if op.isComparison then .truth else t)
  | .invert _ target source => ∃ t, f.type? source = some t ∧ f.type? target = some t
  | .count _ operand => ∃ reg, f.register? operand = some reg ∧ reg.kind = .num
  | _ => False

/-- Whether an instruction is an inversion of something other than a truth value. -/
def InvertsWide (f : Method) : Insn → Prop
  | .invert _ _ source => f.type? source ≠ some .truth
  | _ => False

end Method

namespace Rtl

variable {R : List Register} {js : List Nat} {ts us : List ValueType} {i j : Nat} {t u : ValueType}

theorem haveTypes_one (h : (R[i]?).map (·.type) = some t) : HaveTypes R [i] [t] := by
  simp [HaveTypes, h]

theorem haveTypes_two (hi : (R[i]?).map (·.type) = some t) (hj : (R[j]?).map (·.type) = some u) :
    HaveTypes R [i, j] [t, u] := by
  simp [HaveTypes, hi, hj]

theorem HaveTypes.length_eq (h : HaveTypes R js ts) : js.length = ts.length := by
  simpa using congrArg List.length h

theorem HaveTypes.unique (h : HaveTypes R js ts) (h' : HaveTypes R js us) : ts = us :=
  List.map_injective_iff.mpr (Option.some_injective _) (h.symm.trans h')

theorem map_type_mono {R' : List Register} (h : (R[i]?).map (·.type) = some t) (hR : R <+: R') :
    (R'[i]?).map (·.type) = some t := by
  obtain ⟨reg, hreg, htype⟩ := Option.map_eq_some_iff.mp h
  rw [getElem?_of_isPrefix hR hreg, Option.map_some, htype]

theorem HaveTypes.mono {R' : List Register} (h : HaveTypes R js ts) (hR : R <+: R') :
    HaveTypes R' js ts := by
  induction js generalizing ts with
  | nil => exact h
  | cons j rest ih =>
    cases ts with
    | nil => cases h
    | cons t ts =>
      obtain ⟨hj, hrest⟩ := List.cons.inj h
      exact congrArg₂ List.cons (map_type_mono hj hR) (ih hrest)

end Rtl

namespace Synth

/-- Whether a resource of a table is that of an operator with some inputs and outputs. -/
def Builder.Provides (b : Builder) (unit : Nat)
    (types : List Rtl.ValueType × List Rtl.ValueType) : Prop :=
  ∃ r, b.pool.resources[unit]? = some r ∧ r.kind ∈ Pool.operatorKinds ∧
    (r.inputs, r.outputs) = types

/-- Whether an instruction is on a resource with some inputs and outputs, and has registers with
some, the same or others, but as many outputs. -/
structure Builder.Operates (b : Builder) (unit types : List Rtl.ValueType × List Rtl.ValueType)
    (i : Rtl.Insn) : Prop where
  provides : b.Provides i.resource unit
  inputs : Rtl.HaveTypes b.registers i.inputs types.1
  outputs : Rtl.HaveTypes b.registers i.outputs types.2
  arity : types.2.length = unit.2.length

namespace Builder

variable {b b' : Builder} {unit types : List Rtl.ValueType × List Rtl.ValueType} {i : Rtl.Insn}
  {u : Nat}

theorem Provides.mono (h : b.Provides u types) (hext : b.Extends b') : b'.Provides u types := by
  obtain ⟨r, hr, hkind, htypes⟩ := h
  obtain ⟨r', hr', hbecomes⟩ := hext.pool.resource hr
  exact ⟨r', hr', hbecomes.kind ▸ hkind, by rw [hbecomes.inputs, hbecomes.outputs, htypes]⟩

theorem Operates.mono (h : b.Operates unit types i) (hext : b.Extends b') :
    b'.Operates unit types i :=
  ⟨h.provides.mono hext, h.inputs.mono hext.registers, h.outputs.mono hext.registers, h.arity⟩

/-- An instruction of an operator fits if its registers have the types of its resource, and if it is
given no more outputs. -/
theorem Operates.fits_iff (h : b.Operates unit types i) (outputs : List Nat) :
    Rtl.Insn.Fits b.pool.resources b.registers { i with outputs := i.outputs ++ outputs } ↔
      types = unit ∧ outputs = [] := by
  obtain ⟨r, hr, hkind, rfl⟩ := h.provides
  constructor
  · intro hfits
    obtain ⟨hin, hout⟩ := hfits r hr hkind
    have hnone : outputs = [] := by
      have hlength := hout.length_eq
      rw [List.length_append, h.outputs.length_eq, h.arity] at hlength
      exact List.eq_nil_of_length_eq_zero (by simpa using hlength)
    subst hnone
    simp only [List.append_nil] at hin hout
    exact ⟨Prod.ext (h.inputs.unique hin) (h.outputs.unique hout), rfl⟩
  · rintro ⟨rfl, rfl⟩ r' hr' -
    cases Option.some.inj (hr.symm.trans hr')
    rw [List.append_nil]
    exact ⟨h.inputs, h.outputs⟩

end Builder

/-- Where a lowering stands when it can go on to an operator. -/
structure Lowering.Ready (s : Site) (l : Lowering) : Prop where
  sound : l.Sound
  pool : l.builder.pool.Typed
  typed : l.Typed s s.Rebound

/-- A part of the lowering that is left ready again, with some more states. -/
structure Lowering.Adds (s : Site) (sts : List LoweredState) (l l' : Lowering) : Prop where
  ready : l'.Ready s
  builder : l.builder.Extends l'.builder
  states : l'.states = l.states ++ sts

theorem Lowering.Adds.trans {s : Site} {sts sts' : List LoweredState} {a b c : Lowering}
    (h : Adds s sts a b) (h' : Adds s sts' b c) : Adds s (sts ++ sts') a c :=
  ⟨h'.ready, h.builder.trans h'.builder, by rw [h'.states, h.states, List.append_assoc]⟩

def LoweredState.Operates (b : Builder) (unit types : List Rtl.ValueType × List Rtl.ValueType)
    (st : LoweredState) : Prop :=
  ∃ id i, st = ⟨id, [i], none, none⟩ ∧ b.Operates unit types i

theorem LoweredState.Operates.mono {b b' : Builder}
    {unit types : List Rtl.ValueType × List Rtl.ValueType} {st : LoweredState}
    (h : st.Operates b unit types) (hext : b.Extends b') : st.Operates b' unit types := by
  obtain ⟨id, i, hst, hi⟩ := h
  exact ⟨id, i, hst, hi.mono hext⟩

namespace Lower

open Lowering (Ready Adds)

variable {s : Site} {l l' : Lowering} {t u : Rtl.ValueType}
  {unit types : List Rtl.ValueType × List Rtl.ValueType}

section Parts

theorem adds_of_quiet {α : Type} {x : Lower α} {a : α} (hl : l.Ready s)
    (hlogs : Logs Builder.Act.Suits x)
    (hadvances : Advances s True (.rebinding s.Rebound) x l)
    (h : x.run l = .ok (a, l')) (hquiet : Lowering.Quiet .none l l') : l.Adds s [] l' :=
  ⟨⟨hquiet.sound, hlogs.typed h hl.pool, typed_of_run hadvances h hl.typed⟩, hquiet.builder,
    by rw [hquiet.states, List.append_nil]⟩

theorem register_adds {r : RegisterId} {i : Nat} (hl : l.Ready s)
    (h : (register s r).run l = .ok (i, l')) :
    l.Adds s [] l' ∧ (¬ s.Rebound r → s.Holds l'.builder.registers r i) := by
  have hadds : l.Adds s [] l' := adds_of_quiet hl
    (logged_register (permits_suits s.machine s.owners s.thread) r) (advances_register r l) h
    (register_quiet hl.sound h)
  exact ⟨hadds, fun hr => (hadds.ready.typed r i (register_fetches h).2).resolve_left hr⟩

theorem operator_adds {kind : String} {i : Nat} (hl : l.Ready s)
    (hkind : kind ∈ Pool.operatorKinds)
    (h : (resource (·.operator kind t)).run l = .ok (i, l')) :
    l.Adds s [] l' ∧ l'.builder.Provides i (Pool.operatorTypes kind t) := by
  have hfree : ∀ kind ∈ Pool.operatorKinds,
      (Pool.IsPlain kind ∧ ¬ Pool.IsChannel kind ∧ kind ∉ Pool.handoverKinds) ∧
      kind ∉ Pool.trackedKinds := by decide
  obtain ⟨hplain, htracked⟩ := hfree kind hkind
  refine ⟨adds_of_quiet hl
    (logged_operator (permits_suits s.machine s.owners s.thread) hplain t)
    (advances_resource (Pool.operator_tidily kind t) l) h
    (resource_quiet hl.sound (Pool.operator_takes htracked t) h).1, ?_⟩
  cases run_build_eq_ok.mp h
  obtain ⟨-, r, hr, rfl, htypes⟩ := Pool.operator_typed hl.pool hkind t
  exact ⟨r, hr, hkind, htypes⟩

theorem constant_adds {width : UInt64} {value : Int64} {i : Nat} (hl : l.Ready s)
    (h : (build (·.constant width value)).run l = .ok (i, l')) :
    l.Adds s [] l' ∧ (l'.builder.registers[i]?).map (·.type) = some (.unsigned width) := by
  refine ⟨adds_of_quiet hl
    (logged_constant (permits_suits s.machine s.owners s.thread) width value)
    (advances_constant _ _ l) h (constant_quiet hl.sound h), ?_⟩
  cases run_build_eq_ok.mp h
  simp [Builder.constant, Builder.addRegister]

theorem storage_adds {stem : String} {width : UInt64} {i : Nat} (hl : l.Ready s)
    (h : (build (·.storage stem width)).run l = .ok (i, l')) :
    l.Adds s [] l' ∧ (l'.builder.registers[i]?).map (·.type) = some (.unsigned width) := by
  refine ⟨adds_of_quiet hl
    (logged_storage (permits_suits s.machine s.owners s.thread) stem width)
    (advances_storage _ _ l) h (storage_quiet hl.sound h), ?_⟩
  cases run_build_eq_ok.mp h
  simp [Builder.storage, Builder.freshRegister, Builder.addRegister]

theorem emit_adds {i : Nat} {inputs outputs : List Nat} (hl : l.Ready s)
    (hunit : l.builder.Provides i unit)
    (hin : Rtl.HaveTypes l.builder.registers inputs types.1)
    (hout : Rtl.HaveTypes l.builder.registers outputs types.2)
    (harity : types.2.length = unit.2.length)
    (h : (emit i "" inputs outputs).run l = .ok ((), l')) :
    ∃ st, l.Adds s [st] l' ∧ st.Operates l'.builder unit types := by
  have hworks : ∀ kind ∈ Pool.operatorKinds,
      kind ≠ Rtl.Resource.transitionKind ∧ kind ≠ Pool.pseudoKind := by decide
  obtain ⟨r, hr, hkind, hunit⟩ := hunit
  have hk : Rtl.kindAt l.builder.pool.resources i = some r.kind := by
    rw [Rtl.kindAt, hr, Option.map_some]
  have hstep := emit_step (u := .none) hl.sound hk (hworks _ hkind).1 (hworks _ hkind).2 h
  cases run_emit_eq_ok.mp h
  have htyped := hl.typed.mono (b := l.builder.newInsn.2.newState.2) List.prefix_rfl
  exact ⟨_, ⟨⟨hstep.sound, hl.pool, htyped _⟩, hstep.builder, rfl⟩,
    _, _, rfl, ⟨r, hr, hkind, hunit⟩, hin, hout, harity⟩

end Parts

section Operators

/-- An inversion is on a resource for truth values, whatever it inverts. -/
theorem invert_adds {source target : Nat} (hl : l.Ready s)
    (hsource : (l.builder.registers[source]?).map (·.type) = some t)
    (htarget : (l.builder.registers[target]?).map (·.type) = some u)
    (h : (invert source target).run l = .ok ((), l')) :
    ∃ st, l.Adds s [st] l' ∧ st.Operates l'.builder ([.truth], [.truth]) ([t], [u]) := by
  simp only [invert, run_bind_eq_ok] at h
  obtain ⟨unit, l₁, hunit, h⟩ := h
  obtain ⟨a₁, hunit⟩ := operator_adds hl (by decide) hunit
  have hR := a₁.builder.registers
  obtain ⟨st, a₂, hst⟩ : ∃ st, l₁.Adds s [st] l' ∧
      st.Operates l'.builder ([.truth], [.truth]) ([t], [u]) :=
    emit_adds a₁.ready hunit (Rtl.haveTypes_one (Rtl.map_type_mono hsource hR))
      (Rtl.haveTypes_one (Rtl.map_type_mono htarget hR)) rfl h
  exact ⟨st, a₁.trans a₂, hst⟩

theorem operatorTypes_of_kind {op : BinaryOp} {kind : String}
    (h : operatorKind? op = some kind) (t : Rtl.ValueType) : kind ∈ Pool.operatorKinds ∧
      Pool.operatorTypes kind t = ([t, t], [if op.isComparison then .truth else t]) := by
  cases op <;> simp only [operatorKind?, Option.some.injEq, reduceCtorEq] at h <;> subst h <;>
    exact ⟨by decide, rfl⟩

theorem operatorType_eq {op : BinaryOp} {target left : RegisterId}
    (h : s.method.type? (if op.isComparison then left else target) = some t) :
    operatorType s op target left = t := by
  obtain ⟨reg, hreg, htype⟩ := Option.bind_eq_some_iff.mp h
  simp only [operatorType, hreg]
  unfold Register.type? at htype
  split at htype
  case h_1 hkind => simpa [hkind] using htype
  case h_2 hkind => simpa [hkind] using htype
  all_goals cases htype

theorem negatesResult_isComparison {op : BinaryOp} (h : negatesResult op = true) :
    op.isComparison = true := by
  cases op <;> first | rfl | simp [negatesResult] at h

/-- A comparison whose result is inverted in a second state. -/
theorem negated_adds {i target : Nat} {inputs : List Nat} (hl : l.Ready s)
    (hunit : l.builder.Provides i ([t, t], [.truth]))
    (hin : Rtl.HaveTypes l.builder.registers inputs [t, t])
    (htarget : (l.builder.registers[target]?).map (·.type) = some .truth)
    (h : (do
      let result ← build (·.storage "t_" 0)
      emit i "" inputs [result]
      invert result target : Lower Unit).run l = .ok ((), l')) :
    ∃ st st', l.Adds s [st, st'] l' ∧ st.Operates l'.builder ([t, t], [.truth]) ([t, t], [.truth]) ∧
      st'.Operates l'.builder ([.truth], [.truth]) ([.truth], [.truth]) := by
  simp only [run_bind_eq_ok] at h
  obtain ⟨result, l₁, hresult, _, l₂, hemit, h⟩ := h
  obtain ⟨a₁, hresult⟩ := storage_adds hl hresult
  obtain ⟨st, a₂, hst⟩ := emit_adds a₁.ready (hunit.mono a₁.builder)
    (hin.mono a₁.builder.registers) (Rtl.haveTypes_one hresult) rfl hemit
  obtain ⟨st', a₃, hst'⟩ := invert_adds a₂.ready
    (Rtl.map_type_mono hresult a₂.builder.registers)
    (Rtl.map_type_mono htarget (a₁.builder.registers.trans a₂.builder.registers)) h
  exact ⟨st, st', (a₁.trans a₂).trans a₃, hst.mono a₃.builder, hst'⟩

theorem binary_adds {op : BinaryOp} {target left right : RegisterId} (hl : l.Ready s)
    (huniform : s.method.Uniform (.binary op target left right))
    (hr : ∀ r ∈ (Insn.binary op target left right).references, ¬ s.Rebound r)
    (h : (binary s op target left right).run l = .ok ((), l')) :
    ∃ sts, l.Adds s sts l' ∧ sts.length = stateCount (.binary op target left right) ∧
      ∀ st ∈ sts, ∃ types, st.Operates l'.builder types types := by
  obtain ⟨t, hleft, hright, htarget⟩ := huniform
  have htype : operatorType s op target left = t := operatorType_eq (by
    split <;> rename_i hop
    · exact hleft
    · simpa [hop] using htarget)
  unfold binary at h
  split at h
  · exact absurd h run_fault_ne_ok
  · rename_i kind hkind
    simp only [run_bind_eq_ok, htype] at h
    obtain ⟨unit, l₁, hunit, i, l₂, hi, j, l₃, hj, k, l₄, hk, h⟩ := h
    obtain ⟨hmem, htypes⟩ := operatorTypes_of_kind hkind t
    obtain ⟨a₁, hunit⟩ := operator_adds hl hmem hunit
    obtain ⟨a₂, hi⟩ := register_adds a₁.ready hi
    obtain ⟨a₃, hj⟩ := register_adds a₂.ready hj
    obtain ⟨a₄, hk⟩ := register_adds a₃.ready hk
    have a := ((a₁.trans a₂).trans a₃).trans a₄
    replace hi := (hi (hr left (by simp [Insn.references, Insn.uses]))).mono
      (a₃.trans a₄).builder.registers t hleft
    replace hj := (hj (hr right (by simp [Insn.references, Insn.uses]))).mono
      a₄.builder.registers t hright
    replace hk := hk (hr target (by simp [Insn.references, Insn.definitions])) _ htarget
    replace hunit := hunit.mono ((a₂.trans a₃).trans a₄).builder
    rw [htypes] at hunit
    have hinputs : Rtl.HaveTypes l₄.builder.registers
        (if swapsOperands op then [j, i] else [i, j]) [t, t] := by
      split
      · exact Rtl.haveTypes_two hj hi
      · exact Rtl.haveTypes_two hi hj
    split at h
    · rename_i hneg
      have hcmp := negatesResult_isComparison hneg
      simp only [hcmp, if_true] at hunit hk
      obtain ⟨st, st', a₅, hst, hst'⟩ := negated_adds a.ready hunit hinputs hk h
      refine ⟨[st, st'], a.trans a₅, by simp [stateCount, hneg], fun x hx => ?_⟩
      rcases List.mem_cons.mp hx with rfl | hx
      · exact ⟨_, hst⟩
      · exact ⟨_, List.mem_singleton.mp hx ▸ hst'⟩
    · rename_i hneg
      obtain ⟨st, a₅, hst⟩ := emit_adds a.ready hunit hinputs (Rtl.haveTypes_one hk) rfl h
      refine ⟨[st], a.trans a₅, by simp [stateCount, hneg], fun x hx => ?_⟩
      exact ⟨_, List.mem_singleton.mp hx ▸ hst⟩

theorem count_adds {down : Bool} {operand : RegisterId} (hl : l.Ready s)
    (huniform : s.method.Uniform (.count down operand)) (hr : ¬ s.Rebound operand)
    (h : (count s down operand).run l = .ok ((), l')) :
    ∃ st types, l.Adds s [st] l' ∧ st.Operates l'.builder types types := by
  obtain ⟨reg, hreg, hnum⟩ := huniform
  have htype : s.method.type? operand = some (.unsigned reg.width) := by
    rw [Method.type?, hreg, Option.bind_some, Register.type?, hnum]
  simp only [count, run_bind_eq_ok, hreg, Option.map_some, Option.getD_some] at h
  obtain ⟨r, l₁, hreg, unit, l₂, hunit, one, l₃, hone, h⟩ := h
  have hkind : (if down then "sub" else "add") ∈ Pool.operatorKinds ∧
      Pool.operatorTypes (if down then "sub" else "add") (.unsigned reg.width) =
        ([.unsigned reg.width, .unsigned reg.width], [.unsigned reg.width]) := by
    cases down <;> exact ⟨by decide, rfl⟩
  obtain ⟨a₁, hholds⟩ := register_adds hl hreg
  obtain ⟨a₂, hunit⟩ := operator_adds a₁.ready hkind.1 hunit
  obtain ⟨a₃, hone⟩ := constant_adds a₂.ready hone
  have hown := (hholds hr).mono (a₂.trans a₃).builder.registers _ htype
  rw [hkind.2] at hunit
  obtain ⟨st, a₄, hst⟩ := emit_adds a₃.ready (hunit.mono a₃.builder)
    (Rtl.haveTypes_two hown hone) (Rtl.haveTypes_one hown) rfl h
  exact ⟨st, _, ((a₁.trans a₂).trans a₃).trans a₄, hst⟩

theorem operator_states {i : Insn} (hl : l.Ready s) (huniform : s.method.Uniform i)
    (hr : ∀ r ∈ i.references, ¬ s.Rebound r) (h : (instruction s i).run l = .ok ((), l')) :
    ∃ sts, l.Adds s sts l' ∧ sts.length = stateCount i ∧ ∀ st ∈ sts, ∃ unit types,
      st.Operates l'.builder unit types ∧ (types = unit ↔ ¬ s.method.InvertsWide i) := by
  cases i with
  | binary op target left right =>
    obtain ⟨sts, hadds, hlength, hall⟩ := binary_adds hl huniform hr h
    refine ⟨sts, hadds, hlength, fun st hst => ?_⟩
    obtain ⟨types, htypes⟩ := hall st hst
    exact ⟨types, types, htypes, by simp [Method.InvertsWide]⟩
  | count down operand =>
    obtain ⟨st, types, hadds, hst⟩ := count_adds hl huniform
      (hr operand (by simp [Insn.references, Insn.uses])) h
    refine ⟨[st], hadds, rfl, fun x hx => ⟨types, types, ?_, by simp [Method.InvertsWide]⟩⟩
    exact List.mem_singleton.mp hx ▸ hst
  | invert logical target source =>
    obtain ⟨t, hsource, htarget⟩ := huniform
    simp only [instruction, run_bind_eq_ok] at h
    obtain ⟨j, l₁, hj, k, l₂, hk, h⟩ := h
    obtain ⟨a₁, hj⟩ := register_adds hl hj
    obtain ⟨a₂, hk⟩ := register_adds a₁.ready hk
    replace hj := (hj (hr source (by simp [Insn.references, Insn.uses]))).mono
      a₂.builder.registers t hsource
    replace hk := hk (hr target (by simp [Insn.references, Insn.definitions])) t htarget
    obtain ⟨st, a₃, hst⟩ := invert_adds a₂.ready hj hk h
    refine ⟨[st], (a₁.trans a₂).trans a₃, rfl, fun x hx => ?_⟩
    refine ⟨_, _, List.mem_singleton.mp hx ▸ hst, ?_⟩
    simp [Method.InvertsWide, hsource]
  | _ => exact huniform.elim

end Operators

section Methods

variable {b : Builder} {e : Rtl.Insn} {starts : List Nat}

theorem start_ready (hb : b.Sound) (hpool : b.pool.Typed)
    (hargs : ∀ n d t, s.method.args[n]? = some d →
      s.method.type? (UInt64.ofNat n) = some t → t = .unsigned ((argumentWidth? d).getD 0))
    {l₁ l₂ : Lowering} (he : (entry s).run ⟨b, Walker.start s.object, [], []⟩ = .ok (e, l₁))
    (hwait : s.role = .inner ∧ l₂ = l₁ ∨ s.role ≠ .inner ∧ (wait s e).run l₁ = .ok ((), l₂)) :
    l₂.Ready s := by
  have hpermits := permits_suits s.machine s.owners s.thread
  have hstart : Lowering.Ready s ⟨b, Walker.start s.object, [], []⟩ :=
    ⟨Site.start_sound hb s.object, hpool, fun r j hj => by cases hj⟩
  have h₁ : l₁.Ready s := ⟨(entry_quiet (u := .none) hstart.sound he).sound,
    (logged_entry hpermits).typed he hpool, entry_typed hargs hstart.typed he⟩
  obtain ⟨-, rfl⟩ | ⟨-, hwait⟩ := hwait
  · exact h₁
  · exact ⟨(wait_step (u := .none) h₁.sound hwait).sound,
      (logged_wait hpermits (fun _ => permitsTasks_suits) permitsFlow_suits e).typed hwait h₁.pool,
      typed_of_run (advances_wait (entry_inputs he)) hwait h₁.typed⟩

theorem code_ready {done rest : List Insn} (hl : l.Ready s)
    (hwalker : l.walker = Walker.start s.object) (hcode : s.method.code = done ++ rest)
    (h : (code s done).run l = .ok (starts, l')) : l'.Ready s :=
  ⟨(code_spec hl.sound h).1.sound,
    (logged_code (permits_suits s.machine s.owners s.thread) permitsChannels_suits done).typed h
      hl.pool,
    code_typed hl.sound hwalker hcode hl.typed h⟩

/-- Whether an instruction is that of the `n`th state of the operator `i` at `k`. In the last state
it is given the results that come next as more outputs. -/
def Renders (s : Site) (k : Nat) (i : Insn) (n : Nat) (b : Builder) (j : Rtl.Insn) : Prop :=
  ∃ own outputs unit types, j = { own with outputs := own.outputs ++ outputs } ∧
    b.Operates unit types own ∧ (types = unit ↔ ¬ s.method.InvertsWide i) ∧
    outputs.length = if n + 1 = stateCount i then
      (boundResults (s.method.code.drop (k + 1))).length else 0

theorem Renders.mono {k n : Nat} {i : Insn} {j : Rtl.Insn} {b' : Builder}
    (h : Renders s k i n b j) (hext : b.Extends b') : Renders s k i n b' j := by
  obtain ⟨own, outputs, unit, types, hj, hown, htypes, hlength⟩ := h
  exact ⟨own, outputs, unit, types, hj, hown.mono hext, htypes, hlength⟩

theorem Renders.fits_iff {k n : Nat} {i : Insn} {j : Rtl.Insn} (h : Renders s k i n b j) :
    j.Fits b.pool.resources b.registers ↔ ¬ s.method.InvertsWide i ∧
      (n + 1 = stateCount i → boundResults (s.method.code.drop (k + 1)) = []) := by
  obtain ⟨own, outputs, unit, types, rfl, hown, htypes, hlength⟩ := h
  rw [hown.fits_iff, htypes, ← List.length_eq_zero_iff, hlength, ← List.length_eq_zero_iff]
  split <;> simp_all

theorem code_operator {k : Nat} {i : Insn} (hl : l.Ready s)
    (hwalker : l.walker = Walker.start s.object) (hi : s.method.code[k]? = some i)
    (huniform : s.method.Uniform i) (hr : ∀ r ∈ i.references, ¬ s.Rebound r)
    (h : (code s s.method.code).run l = .ok (starts, l')) {n : Nat} (hn : n < stateCount i) :
    ∃ id j, l'.states[l.states.length + offset (s.method.code.take k) + n]? =
        some ⟨id, [j], none, none⟩ ∧ Renders s k i n l'.builder j := by
  have hcode : s.method.code = s.method.code.take k ++ i :: s.method.code.drop (k + 1) := by
    obtain ⟨hlt, rfl⟩ := List.getElem?_eq_some_iff.mp hi
    rw [← List.drop_eq_getElem_cons hlt, List.take_append_drop]
  rw [hcode, code_append, run_bind_eq_ok] at h
  obtain ⟨starts₁, x, hbefore, h⟩ := h
  rw [run_bind_eq_ok] at h
  obtain ⟨starts₂, x', h, hpure⟩ := h
  cases run_pure_eq_ok.mp hpure
  obtain ⟨y, starts₃, hinsn, hafter, -⟩ := code_cons_eq_ok.mp h
  have hx : x.Ready s := code_ready hl hwalker hcode hbefore
  have hcount := (code_spec hl.sound hbefore).1.count
  obtain ⟨sts, hadds, hlength, hall⟩ := operator_states hx huniform hr hinsn
  have hsize : y.states.length = x.states.length + stateCount i := by
    rw [hadds.states, List.length_append, hlength]
  have hforce : force x.states.length y = y := by
    have hpos := stateCount_pos i
    rw [force, if_neg]
    omega
  rw [hforce] at hafter
  have hst : sts[n]? = some (sts.get ⟨n, hlength ▸ hn⟩) := List.getElem?_eq_getElem _
  obtain ⟨unit, types, ⟨id, j, heq, hj⟩, htypes⟩ := hall _ (List.mem_of_getElem? hst)
  rw [heq] at hst
  replace hj := hj.mono (code_spec hadds.ready.sound hafter).2.1.builder
  have hy : y.states[x.states.length + n]? = some ⟨id, [j], none, none⟩ := by
    rw [hadds.states, List.getElem?_append_right (Nat.le_add_right _ _),
      Nat.add_sub_cancel_left]
    exact hst
  rw [← hcount]
  by_cases hlast : n + 1 = stateCount i
  · obtain ⟨outputs, hout, hbound⟩ := code_binds hafter (by omega) hy
    exact ⟨id, _, hbound, j, outputs, unit, types, rfl, hj, htypes, by rw [if_pos hlast, hout]⟩
  · have hkept := (code_retains hafter).state (by omega) hy
    exact ⟨id, j, hkept, j, [], unit, types, by rw [List.append_nil], hj, htypes,
      by rw [if_neg hlast, List.length_nil]⟩

/-- The states of an operator when its method is finished: they are led on to the next ones, and
nothing else is added to them. -/
theorem body_operator (hb : b.Sound) (hpool : b.pool.Typed)
    (hargs : ∀ n d t, s.method.args[n]? = some d →
      s.method.type? (UInt64.ofNat n) = some t → t = .unsigned ((argumentWidth? d).getD 0))
    (h : (body s).run ⟨b, Walker.start s.object, [], []⟩ = .ok (e, l)) {k : Nat} {i : Insn}
    (hi : s.method.code[k]? = some i) (huniform : s.method.Uniform i)
    (hr : ∀ r ∈ i.references, ¬ s.Rebound r) {n : Nat} (hn : n < stateCount i) :
    ∃ st j next, l.states[s.position k + n]? = some st ∧ st.insns = [j, next] ∧
      Renders s k i n l.builder j ∧
      Rtl.kindAt l.builder.pool.resources next.resource = some Rtl.Resource.transitionKind := by
  obtain ⟨l₁, l₂, l₃, starts, he, -, hwait, hstep, hcode, hlinked⟩ :=
    body_spec (u := .none) (Site.start_sound hb s.object) h
  have hready : l₂.Ready s := start_ready hb hpool hargs he hwait
  obtain ⟨id, j, hst, hj⟩ := code_operator hready hstep.walker hi huniform hr hcode hn
  have hposition : l₂.states.length + offset (s.method.code.take k) = s.position k := by
    rw [hstep.count, Site.position, List.length_nil, Nat.zero_add, List.length_replicate]
  rw [hposition] at hst
  have hlt := (List.getElem?_eq_some_iff.mp hst).1
  have hpushed := pushed_step (u := .none) (code_spec hready.sound hcode).1.sound
  obtain ⟨st', hst', hrouted⟩ :=
    hlinked.state (getElem?_of_isPrefix (List.prefix_append _ _) hst)
  rw [hpushed.count, List.length_singleton] at hrouted
  cases hrouted with
  | jump lt jumps => cases jumps
  | next lt none idle leads =>
    exact ⟨_, j, _, hst', rfl, hj.mono (hpushed.builder.trans hlinked.builder), leads.kind⟩
  | last eq => omega
  | close eq => omega

theorem spans_iff {i : Insn} (huniform : s.method.Uniform i) {start n : Nat} :
    Spans i start n ↔ ∃ d < stateCount i, n = start + d := by
  have hown : Spans i start n ↔ start ≤ n ∧ n < start + stateCount i := by
    cases i with
    | callDone returns => exact huniform.elim
    | _ => rfl
  rw [hown]
  constructor
  · intro hn
    exact ⟨n - start, by omega, by omega⟩
  · rintro ⟨d, hd, hn⟩
    omega

/-- The instructions that are lowered from an operator are of the types of their resources, also
when the table is complete, unless it inverts what is no truth value or is given results; then one
is not. -/
theorem body_fits (hb : b.Sound) (hpool : b.pool.Typed)
    (hargs : ∀ n d t, s.method.args[n]? = some d →
      s.method.type? (UInt64.ofNat n) = some t → t = .unsigned ((argumentWidth? d).getD 0))
    (h : (body s).run ⟨b, Walker.start s.object, [], []⟩ = .ok (e, l)) {b' : Builder}
    (hext : l.builder.Extends b') {k : Nat} {i : Insn} (hi : s.method.code[k]? = some i)
    (huniform : s.method.Uniform i) (hr : ∀ r ∈ i.references, ¬ s.Rebound r) :
    (∀ n st, Spans i (s.position k) n → l.states[n]? = some st →
      ∀ j ∈ st.insns, j.Fits b'.pool.resources b'.registers) ↔
      ¬ s.method.InvertsWide i ∧ boundResults (s.method.code.drop (k + 1)) = [] := by
  constructor
  · intro hfits
    -- results would be given to the last state
    have hpos := stateCount_pos i
    obtain ⟨st, j, next, hst, hinsns, hj, -⟩ :=
      body_operator (n := stateCount i - 1) hb hpool hargs h hi huniform hr (by omega)
    have hspans : Spans i (s.position k) (s.position k + (stateCount i - 1)) :=
      (spans_iff huniform).mpr ⟨stateCount i - 1, by omega, rfl⟩
    have hfit := hfits _ st hspans hst j (by simp [hinsns])
    obtain ⟨hwide, hnone⟩ := (hj.mono hext).fits_iff.mp hfit
    exact ⟨hwide, hnone (by omega)⟩
  · rintro ⟨hwide, hnone⟩ n st hn hst j' hj'
    obtain ⟨d, hd, rfl⟩ := (spans_iff huniform).mp hn
    obtain ⟨st', j, next, hst', hinsns, hj, hnext⟩ :=
      body_operator hb hpool hargs h hi huniform hr hd
    cases Option.some.inj (hst.symm.trans hst')
    rw [hinsns] at hj'
    rcases List.mem_cons.mp hj' with rfl | hj'
    · exact (hj.mono hext).fits_iff.mpr ⟨hwide, fun _ => hnone⟩
    · -- transitions are on no operator
      obtain rfl := List.mem_singleton.mp hj'
      intro r hr' hkind
      replace hnext := hext.pool.kindAt hnext
      rw [Rtl.kindAt, hr', Option.map_some, Option.some.injEq] at hnext
      rw [hnext] at hkind
      exact absurd hkind (by decide)

end Methods

end Lower

theorem Site.lower_closed {m : Machine} {owners : OwnershipTable} {thread : ThreadId}
    {object : Nat} {slot : String} {role : Role} {b b' : Builder} {c : Context} (hm : m.Closed)
    (h : lower m owners thread object slot role b = .ok (c, b')) : c.method.Closed := by
  obtain ⟨o, f, e, l, ho, hf, himpl, -⟩ := lower_cases h
  have hclosed := hm.objects o (List.mem_of_getElem? ho)
  unfold implementation? at himpl
  split at himpl
  · exact hclosed.method (Option.filter_eq_some_iff.mp himpl).1
  · exact Option.some.inj himpl ▸ hclosed.method hf

namespace ThreadTable

/-- The operators of a thread: what is lowered from one whose registers have types that go together
has registers of the types of its resource, exactly if it is no inversion of something wider than a
truth value and is not given the results of a call. The registers must not be made to stand for
constants. -/
theorem operators_fit {source : Source} {m : Machine} {root : Nat} {plan : Plan}
    {owners : OwnershipTable} {id : ThreadId} {t : ThreadPlan} {b : Builder}
    {contexts : List (String × Context)} {name : String} {c : Context} {k : Nat} {i : Insn}
    (hload : Listing.load source = .ok m) (hplan : Plan.ofRoot m root = .ok plan)
    (ht : t ∈ plan.threads)
    (hlower : lowerAll m owners id t t.methods (.ofPool t.pool) = .ok (contexts, b))
    (hc : (name, c) ∈ contexts) (hargs : c.method.args.length ≤ UInt64.size)
    (hi : c.code[k]? = some i) (huniform : c.method.Uniform i)
    (hstable : ∀ r ∈ i.references, ¬ (siteOf m owners id t name c).Rebound r) :
    (∀ n st, Lower.Spans i ((siteOf m owners id t name c).position k) n →
      c.states[n]? = some st → ∀ j ∈ st.insns, j.Fits b.pool.resources b.registers) ↔
      ¬ c.method.InvertsWide i ∧
        ∀ returns, c.code[k + 1]? = some (.callDone returns) → returns = [] := by
  have hpool := (Plan.ofRoot_housed hplan).pool t ht
  obtain ⟨b₁, b₂, hb₁, htyped, hsite, hext⟩ :=
    lowerAll_typed (Builder.sound_ofPool hpool.toSound) hpool.typed hlower name c hc
  have hclosed := Site.lower_closed (Listing.load_closed hload) hsite
  obtain ⟨o, f, e, l, -, -, -, hcontext, rfl, hcases⟩ := Site.lower_cases hsite
  have hstates : c.states = l.states := by rw [hcontext]
  rw [hstates]
  rcases hcases with ⟨himported, -⟩ | ⟨-, hport, -⟩ | ⟨-, himported, hport, hrun⟩
  · simp [Context.code, himported] at hi
  · simp [Context.code, hport] at hi
  · have hcode : c.code = c.method.code := by simp [Context.code, himported, hport]
    rw [hcode] at hi ⊢
    rw [← List.head?_drop, ← Lower.boundResults_eq_nil_iff]
    exact Lower.body_fits (s := siteOf m owners id t name c) hb₁ htyped
      (fun n d t hd ht => hclosed.argument_type hargs hd ht) hrun hext hi huniform hstable

def sumsAndInverts : List Insn := [.binary .add 0 1 0, .invert false 0 1]

/-- In such a listing the sum of numbers fits, but not their inversion. -/
theorem constantListing_fits : ∃ m plan t contexts b c,
    Listing.load (Synthesis.constantListing "(add v x v) (not v x)") = .ok m ∧
    Plan.ofRoot m 0 = .ok plan ∧ t ∈ plan.threads ∧
    lowerAll m ⟨[], []⟩ 0 t t.methods (.ofPool t.pool) = .ok (contexts, b) ∧
    ("main", c) ∈ contexts ∧
    (∀ st, c.states[0]? = some st → ∀ j ∈ st.insns, j.Fits b.pool.resources b.registers) ∧
    ¬ ∀ st, c.states[1]? = some st → ∀ j ∈ st.insns, j.Fits b.pool.resources b.registers := by
  have hload : (Listing.load (Synthesis.constantListing "(add v x v) (not v x)")).toOption.any (fun m =>
      decide (m = Synthesis.constantMachine sumsAndInverts)) = true := by
    decide +kernel
  have hrun : (Plan.ofRoot (Synthesis.constantMachine sumsAndInverts) 0).toOption.any (fun plan =>
      plan.threads.any fun t => (lowerAll (Synthesis.constantMachine sumsAndInverts) ⟨[], []⟩ 0 t
        t.methods (.ofPool t.pool)).toOption.any fun x => x.1.any fun named =>
          decide (named.1 = "main" ∧
            roleOf (Synthesis.constantMachine sumsAndInverts) t named.1 = .inner ∧
            named.2.method = ⟨"main", [], [], [⟨"v", .num, 8, false, 0⟩, ⟨"x", .num, 8, false, 0⟩,
              ⟨"c", .num, 8, true, 5⟩], sumsAndInverts, "", "", "", .none⟩)) = true := by
    decide +kernel
  obtain ⟨m, hm, h⟩ := exists_ok_of_any hload
  obtain rfl := of_decide_eq_true h
  obtain ⟨plan, hplan, h⟩ := exists_ok_of_any hrun
  obtain ⟨t, ht, h⟩ := List.any_eq_true.mp h
  obtain ⟨⟨contexts, b⟩, hlower, h⟩ := exists_ok_of_any h
  obtain ⟨⟨name, c⟩, hc, h⟩ := List.any_eq_true.mp h
  obtain ⟨hname, hrole, hmethod⟩ := of_decide_eq_true h
  dsimp only at hname hrole hmethod
  subst hname
  have hcode : c.code = sumsAndInverts := by
    rw [Context.code, hmethod]
    rfl
  have hv : c.method.type? 0 = some (.unsigned 8) := by rw [hmethod]; decide
  have hx : c.method.type? 1 = some (.unsigned 8) := by rw [hmethod]; decide
  have hstable : ∀ r, ¬ (siteOf (Synthesis.constantMachine sumsAndInverts) ⟨[], []⟩ 0 t "main"
      c).Rebound r := by
    rintro r ⟨k, i, w, hi, -, hr⟩
    have hmem : i ∈ c.method.code := List.mem_of_getElem? hi
    simp only [hmethod, sumsAndInverts, List.mem_cons, List.not_mem_nil, or_false] at hmem
    rcases hmem with rfl | rfl <;> simp [Walker.Rebinds] at hr
  have hposition : ∀ k, (siteOf (Synthesis.constantMachine sumsAndInverts) ⟨[], []⟩ 0 t "main"
      c).position k = Lower.offset (sumsAndInverts.take k) := by
    intro k
    simp [Site.position, siteOf, hrole, hmethod, Lower.firstState]
  have hfits := fun k i (hi : c.code[k]? = some i) huniform =>
    operators_fit hm hplan ht hlower hc (by rw [hmethod]; decide) hi huniform
      (fun r _ => hstable r)
  have hadd := (hfits 0 (.binary .add 0 1 0) (by rw [hcode]; rfl)
    ⟨.unsigned 8, hx, hv, hv⟩).mpr
      ⟨id, fun returns hnext => by simp [hcode, sumsAndInverts] at hnext⟩
  have hinvert := (hfits 1 (.invert false 0 1) (by rw [hcode]; rfl)
    ⟨.unsigned 8, hx, hv⟩).not.mpr fun h => h.1 (by rw [Method.InvertsWide, hx]; decide)
  rw [hposition] at hadd hinvert
  refine ⟨_, plan, t, contexts, b, c, hm, hplan, ht, hlower, hc,
    fun st => hadd 0 st ⟨Nat.le_refl 0, Lower.stateCount_pos (.binary .add 0 1 0)⟩, ?_⟩
  refine fun hall => hinvert fun n st hn hst => ?_
  obtain rfl : n = 1 := Nat.le_antisymm (Nat.lt_succ_iff.mp hn.2) hn.1
  exact hall st hst

/-- A listing that inverts a number: in its design the inversion does not fit. -/
theorem constantListing_inverts : ∃ m s,
    Listing.load (Synthesis.constantListing "(not v x)") = .ok m ∧
    synthesize m 0 0 = .ok s ∧ ∃ mod ∈ s.design.modules, ∃ t ∈ mod.tables, ∃ st ∈ t.states,
      ∃ i ∈ st.insns, Rtl.kindAt t.resources i.resource = some "bit-inv" ∧
        ¬ i.Fits t.resources t.registers := by
  have h : (Listing.load (Synthesis.constantListing "(not v x)")).toOption.any (fun m =>
      (synthesize m 0 0).toOption.any fun s => decide (∃ mod ∈ s.design.modules,
        ∃ t ∈ mod.tables, ∃ st ∈ t.states, ∃ i ∈ st.insns,
          Rtl.kindAt t.resources i.resource = some "bit-inv" ∧
            ¬ i.Fits t.resources t.registers)) = true := by decide +kernel
  obtain ⟨m, hm, h⟩ := exists_ok_of_any h
  obtain ⟨s, hs, h⟩ := exists_ok_of_any h
  exact ⟨m, s, hm, hs, of_decide_eq_true h⟩

end ThreadTable
end Synth
end MachineSynth
