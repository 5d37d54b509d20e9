import Mathlib
import MachineSynth.Proofs.Execution
import MachineSynth.Proofs.Lowering.Methods

/-! Placement: the registers and members of a method have table registers of their own, which they
keep. Of each instruction that only computes it is said which states realize it. -/
namespace MachineSynth
namespace Synth

open Rtl (kindAt)

namespace Lowering

variable {s : Site} {a b c l l' : Lowering}

/-- Registers of the method have table registers that nothing else has; only those of constants
are constant. -/
structure Placed (s : Site) (l : Lowering) : Prop where
  register : ∀ {r : RegisterId} {i : Nat}, l.locals.lookup r = some i →
    ∃ reg, l.builder.registers[i]? = some reg ∧
      (reg.kind = .const → reg.initial = (s.method.register? r).bind (·.const))
  unique : ∀ {r r' : RegisterId} {i : Nat}, l.locals.lookup r = some i →
    l.locals.lookup r' = some i → r = r'
  apart : ∀ {r : RegisterId} {i : Nat} {e : Entity}, l.locals.lookup r = some i →
    l.builder.members.lookup e ≠ some i

theorem Placed.lt (h : l.Placed s) {r : RegisterId} {i : Nat} (hr : l.locals.lookup r = some i) :
    i < l.builder.registers.length := by
  obtain ⟨reg, hreg, -⟩ := h.register hr
  exact (List.getElem?_eq_some_iff.mp hreg).1

/-- Registers keep their places, and places given out later are new. -/
structure Keeps (l l' : Lowering) : Prop where
  builder : l.builder.Extends l'.builder
  kept : ∀ {r : RegisterId} {i : Nat}, l.locals.lookup r = some i → l'.locals.lookup r = some i
  new : ∀ {r : RegisterId} {i : Nat}, l'.locals.lookup r = some i →
    l.locals.lookup r = some i ∨ l.builder.registers.length ≤ i

theorem Keeps.refl (l : Lowering) : l.Keeps l := ⟨.refl _, id, .inl⟩

theorem Keeps.trans (h : a.Keeps b) (h' : b.Keeps c) : a.Keeps c := by
  refine ⟨h.builder.trans h'.builder, fun hr => h'.kept (h.kept hr), fun hr => ?_⟩
  rcases h'.new hr with hr | hr
  · exact h.new hr
  · exact .inr (h.builder.registers.length_le.trans hr)

/-- A part of the lowering that keeps places in order. -/
structure Settles (s : Site) (l l' : Lowering) : Prop where
  placed : l.Placed s → l'.Placed s
  keeps : l.Keeps l'

theorem Placed.extend (h : l.Placed s) (hext : l.builder.Extends l'.builder)
    (hlocals : l'.locals = l.locals) : l'.Placed s := by
  refine ⟨fun {r i} hr => ?_, fun {r r' i} hr hr' => ?_, fun {r i e} hr hm => ?_⟩
  · rw [hlocals] at hr
    obtain ⟨reg, hreg, hconst⟩ := h.register hr
    exact ⟨reg, hext.register hreg, hconst⟩
  · rw [hlocals] at hr hr'
    exact h.unique hr hr'
  · rw [hlocals] at hr
    rcases hext.memberNew hm with hm | hm
    · exact h.apart hr hm
    · exact absurd (h.lt hr) (by omega)

theorem Settles.of_extends (hext : l.builder.Extends l'.builder) (hlocals : l'.locals = l.locals) :
    Settles s l l' :=
  ⟨fun h => h.extend hext hlocals, hext, fun hr => by rwa [hlocals],
    fun hr => .inl (by rwa [hlocals] at hr)⟩

def Fixed (l : Lowering) (i : Nat) (value : Int64) : Prop :=
  ∃ reg, l.builder.registers[i]? = some reg ∧ reg.kind = .const ∧ reg.initial = some value

theorem Fixed.mono {i : Nat} {value : Int64} (h : l.Fixed i value) (hk : l.Keeps l') :
    l'.Fixed i value := by
  obtain ⟨reg, hreg, hrest⟩ := h
  exact ⟨reg, hk.builder.register hreg, hrest⟩

/-- A table register for an intermediate result, which is the place of nothing. -/
structure Spare (l : Lowering) (i : Nat) : Prop where
  register : ∃ reg, l.builder.registers[i]? = some reg ∧ reg.kind = .storage
  noLocal : ∀ r, l.locals.lookup r ≠ some i
  noMember : ∀ e, l.builder.members.lookup e ≠ some i

theorem Spare.mono {i : Nat} (h : l.Spare i) (hk : l.Keeps l') : l'.Spare i := by
  obtain ⟨reg, hreg, hkind⟩ := h.register
  have hlt := (List.getElem?_eq_some_iff.mp hreg).1
  refine ⟨⟨reg, hk.builder.register hreg, hkind⟩, fun r hr => ?_, fun e he => ?_⟩
  · rcases hk.new hr with hr | hr
    · exact h.noLocal r hr
    · omega
  · rcases hk.builder.memberNew he with he | he
    · exact h.noMember e he
    · omega

end Lowering

namespace Lower

open Lowering (Placed Keeps Settles Fixed Spare)

variable {s : Site} {l l' : Lowering}

theorem resource_settles {take : Pool → Nat × Pool} {kind : String} {i : Nat}
    (ht : Pool.Takes take kind) (h : (resource take).run l = .ok (i, l')) : Settles s l l' := by
  cases run_build_eq_ok.mp h
  exact .of_extends (Builder.resource_extends _ ht) rfl

theorem constant_settles {width : UInt64} {value : Int64} {i : Nat}
    (h : (build (·.constant width value)).run l = .ok (i, l')) :
    Settles s l l' ∧ l'.Fixed i value := by
  cases run_build_eq_ok.mp h
  refine ⟨.of_extends (Builder.addRegister_extends _ _ _ _ _) rfl, ?_⟩
  simp [Fixed, Builder.constant, Builder.addRegister]

theorem storage_settles {stem : String} {width : UInt64} {i : Nat} (hb : l.builder.Sound)
    (hp : l.Placed s) (h : (build (·.storage stem width)).run l = .ok (i, l')) :
    Settles s l l' ∧ l'.Spare i := by
  cases run_build_eq_ok.mp h
  refine ⟨.of_extends (Builder.freshRegister_extends _ _ _ _ _) rfl, ?_, fun r hr => ?_,
    fun e he => ?_⟩
  · obtain ⟨reg, hreg, hkind, -⟩ := l.builder.getElem?_freshRegister stem (.unsigned width)
      .storage none
    exact ⟨reg, hreg, hkind⟩
  · exact absurd (hp.lt hr) (lt_irrefl _)
  · exact absurd (hb.member_lt he) (lt_irrefl _)

theorem memberRegister_settles {e : Entity} {width : UInt64} {initial : Int64} {i : Nat}
    (h : (build (·.memberRegister e width initial)).run l = .ok (i, l')) :
    Settles s l l' ∧ l'.builder.members.lookup e = some i := by
  cases run_build_eq_ok.mp h
  exact ⟨.of_extends (Builder.memberRegister_extends _ _ _ _) rfl,
    Builder.lookup_memberRegister _ _ _ _⟩

/-- A new table register becomes the place of a register of the method. -/
theorem bindLocal_placed {r : RegisterId} {reg : Rtl.Register} {x : Builder}
    (hb : l.builder.Sound) (hp : l.Placed s) (hext : l.builder.Extends x)
    (hmembers : x.members = l.builder.members)
    (hreg : x.registers[l.builder.registers.length]? = some reg)
    (hconst : reg.kind = .const → reg.initial = (s.method.register? r).bind (·.const)) :
    Placed s { l with builder := x, locals := (r, l.builder.registers.length) :: l.locals } := by
  have hcases : ∀ {r' i}, List.lookup r' ((r, l.builder.registers.length) :: l.locals) = some i →
      (r' = r ∧ i = l.builder.registers.length) ∨ l.locals.lookup r' = some i := by
    intro r' i hi
    rw [lookup_cons_eq] at hi
    split at hi
    · exact .inl ⟨by assumption, (Option.some.inj hi).symm⟩
    · exact .inr hi
  refine ⟨fun {r' i} hr => ?_, fun {r₁ r₂ i} h₁ h₂ => ?_, fun {r' i e} hr hm => ?_⟩
  · rcases hcases hr with ⟨rfl, rfl⟩ | hr
    · exact ⟨reg, hreg, hconst⟩
    · obtain ⟨reg', hreg', hconst'⟩ := hp.register hr
      exact ⟨reg', hext.register hreg', hconst'⟩
  · rcases hcases h₁ with ⟨rfl, rfl⟩ | h₁'
    · rcases hcases h₂ with ⟨rfl, -⟩ | h₂'
      · rfl
      · exact absurd (hp.lt h₂') (lt_irrefl _)
    · rcases hcases h₂ with ⟨rfl, rfl⟩ | h₂'
      · exact absurd (hp.lt h₁') (lt_irrefl _)
      · exact hp.unique h₁' h₂'
  · replace hm : l.builder.members.lookup e = some i := hmembers ▸ hm
    rcases hcases hr with ⟨rfl, rfl⟩ | hr
    · exact absurd (hb.member_lt hm) (lt_irrefl _)
    · exact hp.apart hr hm

theorem newLocal_eq_ok {r : RegisterId} {reg : Register} {i : Nat}
    (hr : s.method.register? r = some reg) (h : (newLocal s r reg).run l = .ok (i, l')) :
    i = l.builder.registers.length ∧ ∃ x reg', l' = { l with builder := x } ∧
      l.builder.Extends x ∧ x.members = l.builder.members ∧
      x.registers[l.builder.registers.length]? = some reg' ∧
      (reg'.kind = .const → reg'.initial = (s.method.register? r).bind (·.const)) := by
  cases hc : reg.const with
  | some value =>
    simp only [newLocal, hc] at h
    cases run_build_eq_ok.mp h
    refine ⟨rfl, _, ⟨l.builder.registers.length + 1, "",
      .unsigned (if reg.kind = .enum then 0 else reg.width), .const, some value⟩, rfl,
      Builder.addRegister_extends _ _ _ _ _, rfl, ?_, fun _ => ?_⟩
    · exact List.getElem?_concat_length
    · simp [hr, hc]
  | none =>
    simp only [newLocal, hc] at h
    cases run_build_eq_ok.mp h
    obtain ⟨reg', hreg', hkind, -⟩ := l.builder.getElem?_freshRegister s!"r{r}_{s.slot}"
      (.unsigned (if reg.kind = .enum then 0 else reg.width)) .storage none
    refine ⟨rfl, _, reg', rfl, Builder.freshRegister_extends _ _ _ _ _, rfl, hreg', fun hk => ?_⟩
    rw [hkind] at hk
    cases hk

/-- The place of a register, which is new on first use and kept from then on. -/
theorem register_settles {r : RegisterId} {i : Nat} (hb : l.builder.Sound)
    (h : (register s r).run l = .ok (i, l')) :
    Settles s l l' ∧ l'.locals.lookup r = some i := by
  simp only [register, run_bind_eq_ok, run_get_eq_ok] at h
  obtain ⟨_, _, hget, h⟩ := h
  cases hget
  split at h
  · cases run_pure_eq_ok.mp h
    exact ⟨.of_extends (.refl _) rfl, by assumption⟩
  · rename_i hnone
    split at h
    · exact absurd h run_fault_ne_ok
    · rename_i reg hreg
      simp only [run_bind_eq_ok] at h
      obtain ⟨j, l₁, hnew, _, l₂, hbind, h⟩ := h
      cases run_pure_eq_ok.mp h
      obtain ⟨rfl, x, reg', rfl, hext, hmembers, hreg', hconst⟩ := newLocal_eq_ok hreg hnew
      cases run_bindLocal_eq_ok.mp hbind
      refine ⟨⟨fun hp => bindLocal_placed hb hp hext hmembers hreg' hconst, hext,
        fun {r' j} hr' => ?_, fun {r' j} hr' => ?_⟩, by simp⟩
      · have hne : r' ≠ r := by rintro rfl; simp [hr'] at hnone
        simpa [lookup_cons_eq, hne] using hr'
      · rw [lookup_cons_eq] at hr'
        split at hr'
        · exact .inr (Option.some.inj hr').le
        · exact .inl hr'

theorem push_settles {insns : List Rtl.Insn} {jump : Option Insn} {callee : Option Callee}
    (h : (push insns jump callee).run l = .ok ((), l')) : Settles s l l' := by
  cases run_push_eq_ok.mp h
  exact .of_extends (Builder.newState_extends _) rfl

theorem emit_settles {unit : Nat} {operand : String} {inputs outputs : List Nat}
    (h : (emit unit operand inputs outputs).run l = .ok ((), l')) : Settles s l l' := by
  cases run_emit_eq_ok.mp h
  exact .of_extends ((Builder.newInsn_extends _).trans (Builder.newState_extends _)) rfl

end Lower

theorem Leads.next? {V : Type} {M : Meaning V} {σ : Store V} {resources : List Rtl.Resource}
    {insns : List Rtl.Insn} {i : Rtl.Insn} {t : Nat} (hi : Leads resources [t] i)
    (h : Rtl.transition? resources insns = none) :
    M.next? resources (insns ++ [i]) σ = some t := by
  rw [Meaning.next?, transition?_append_of_none h hi.kind]
  simp [Meaning.follow, hi.targets]

/-- A state whose only instruction computes one value. -/
structure Does (resources : List Rtl.Resource) (kind operand : String) (inputs : List Nat)
    (output : Nat) (st : LoweredState) : Prop where
  jump : st.jump = none
  insn : ∃ i, st.insns = [i] ∧ kindAt resources i.resource = some kind ∧
    actionOf i = ⟨i.resource, operand, inputs, [output]⟩

theorem Does.mono {p q : Pool} (hpq : p.Extends q) {kind operand : String} {inputs : List Nat}
    {output : Nat} {st : LoweredState} (h : Does p.resources kind operand inputs output st) :
    Does q.resources kind operand inputs output st := by
  obtain ⟨i, hi, hk, ha⟩ := h.insn
  exact ⟨h.jump, i, hi, hpq.kindAt hk, ha⟩

namespace Site

def Has (s : Site) (r : RegisterId) : Prop := ∃ reg, s.method.register? r = some reg

/-- Whether a register of the method can be written: it is no constant. -/
def Writable (s : Site) (r : RegisterId) : Prop :=
  ∃ reg, s.method.register? r = some reg ∧ reg.const = none

theorem Writable.has {s : Site} {r : RegisterId} (h : s.Writable r) : s.Has r := by
  obtain ⟨reg, hreg, -⟩ := h
  exact ⟨reg, hreg⟩

def Constant (s : Site) (r : RegisterId) : Prop :=
  ∃ reg value, s.method.register? r = some reg ∧ reg.const = some value

/-- Whether a label is that of a member of the object itself which can be written and is not
shared with other threads. -/
def OwnMember (s : Site) (label : String) : Prop :=
  Walker.storedMember? s.machine s.object label = some ⟨s.object, label⟩ ∧
    (s.owners.get ⟨s.object, label⟩).isShared = false

/-- The instructions that only compute, with what they need: registers of the method, of which
those written are no constants, constants where values are fixed in the table, and jumps that stay
in the code or go to its end. -/
def Computes (s : Site) : Insn → Prop
  | .nop => True
  | .goto target => target.toNat ≤ s.method.code.length
  | .branch cond target => s.Has cond ∧ target.toNat ≤ s.method.code.length
  | .assign target source => s.Writable target ∧ s.Has source
  | .binary op target left right =>
    (Lower.operatorKind? op).isSome ∧ s.Writable target ∧ s.Has left ∧ s.Has right
  | .shift _ target source amount => s.Writable target ∧ s.Has source ∧ s.Constant amount
  | .concat target left right => s.Writable target ∧ s.Has left ∧ s.Has right
  | .count _ operand => s.Writable operand
  | .bitRange target source msb lsb =>
    s.Writable target ∧ s.Has source ∧ s.Constant msb ∧ s.Constant lsb
  | .invert _ target source => s.Writable target ∧ s.Has source
  | .memberRead target object label =>
    object = RegisterId.unused ∧ s.Writable target ∧ s.OwnMember label
  | .memberWrite object label source =>
    object = RegisterId.unused ∧ s.Has source ∧ s.OwnMember label
  | _ => False

end Site

open Lowering (Fixed Spare) in
/-- The states that realize an instruction, given the places of registers and members. -/
inductive Realizes (s : Site) (l : Lowering) : Insn → List LoweredState → Prop
  | nop (id : Nat) : Realizes s l .nop [⟨id, [], none, none⟩]
  | goto (id : Nat) (target : UInt64) :
      Realizes s l (.goto target) [⟨id, [], some (.goto target), none⟩]
  | branch (id : Nat) (cond : RegisterId) (target : UInt64) {i : Rtl.Insn} {c : Nat}
      (place : l.locals.lookup cond = some c) (inputs : i.inputs = [c]) :
      Realizes s l (.branch cond target) [⟨id, [i], some (.branch cond target), none⟩]
  | assign {target source : RegisterId} {t r : Nat} {st : LoweredState}
      (target' : l.locals.lookup target = some t) (source' : l.locals.lookup source = some r)
      (does : Does l.builder.pool.resources "set" "" [r] t st) :
      Realizes s l (.assign target source) [st]
  | binary {op : BinaryOp} {target left right : RegisterId} {kind : String} {t x y : Nat}
      {st : LoweredState} (kind' : Lower.operatorKind? op = some kind)
      (plain : Lower.negatesResult op = false) (target' : l.locals.lookup target = some t)
      (left' : l.locals.lookup left = some x) (right' : l.locals.lookup right = some y)
      (does : Does l.builder.pool.resources kind ""
        (if Lower.swapsOperands op then [y, x] else [x, y]) t st) :
      Realizes s l (.binary op target left right) [st]
  | negated {op : BinaryOp} {target left right : RegisterId} {kind : String} {t x y z : Nat}
      {st st' : LoweredState} (kind' : Lower.operatorKind? op = some kind)
      (negates : Lower.negatesResult op = true) (target' : l.locals.lookup target = some t)
      (left' : l.locals.lookup left = some x) (right' : l.locals.lookup right = some y)
      (spare : l.Spare z)
      (does : Does l.builder.pool.resources kind ""
        (if Lower.swapsOperands op then [y, x] else [x, y]) z st)
      (inverts : Does l.builder.pool.resources "bit-inv" "" [z] t st') :
      Realizes s l (.binary op target left right) [st, st']
  | shift {right : Bool} {target source amount : RegisterId} {value : Int64} {t r n : Nat}
      {st : LoweredState} (amount' : (s.method.register? amount).bind (·.const) = some value)
      (fixed : l.Fixed n value) (target' : l.locals.lookup target = some t)
      (source' : l.locals.lookup source = some r)
      (does : Does l.builder.pool.resources "shift" (if right then "right" else "left") [r, n] t
        st) : Realizes s l (.shift right target source amount) [st]
  | concat {target left right : RegisterId} {t x y : Nat} {st : LoweredState}
      (target' : l.locals.lookup target = some t) (left' : l.locals.lookup left = some x)
      (right' : l.locals.lookup right = some y)
      (does : Does l.builder.pool.resources "bit-concat" "" [x, y] t st) :
      Realizes s l (.concat target left right) [st]
  | count {down : Bool} {operand : RegisterId} {r one : Nat} {st : LoweredState}
      (operand' : l.locals.lookup operand = some r) (fixed : l.Fixed one 1)
      (does : Does l.builder.pool.resources (if down then "sub" else "add") "" [r, one] r st) :
      Realizes s l (.count down operand) [st]
  | bitRange {target source msb lsb : RegisterId} {high low : Int64} {t r h k : Nat}
      {st : LoweredState} (msb' : (s.method.register? msb).bind (·.const) = some high)
      (lsb' : (s.method.register? lsb).bind (·.const) = some low) (fixedHigh : l.Fixed h high)
      (fixedLow : l.Fixed k low) (target' : l.locals.lookup target = some t)
      (source' : l.locals.lookup source = some r)
      (does : Does l.builder.pool.resources "bit-sel" "" [r, h, k] t st) :
      Realizes s l (.bitRange target source msb lsb) [st]
  | invert {logical : Bool} {target source : RegisterId} {t r : Nat} {st : LoweredState}
      (target' : l.locals.lookup target = some t) (source' : l.locals.lookup source = some r)
      (does : Does l.builder.pool.resources "bit-inv" "" [r] t st) :
      Realizes s l (.invert logical target source) [st]
  | memberRead {target object : RegisterId} {label : String} {t x : Nat} {st : LoweredState}
      (target' : l.locals.lookup target = some t)
      (member : l.builder.members.lookup ⟨s.object, label⟩ = some x)
      (does : Does l.builder.pool.resources "set" "" [x] t st) :
      Realizes s l (.memberRead target object label) [st]
  | memberWrite {object source : RegisterId} {label : String} {r x : Nat} {st : LoweredState}
      (source' : l.locals.lookup source = some r)
      (member : l.builder.members.lookup ⟨s.object, label⟩ = some x)
      (does : Does l.builder.pool.resources "set" "" [r] x st) :
      Realizes s l (.memberWrite object label source) [st]

theorem Realizes.mono {s : Site} {l l' : Lowering} {i : Insn} {sts : List LoweredState}
    (h : Realizes s l i sts) (hk : l.Keeps l') : Realizes s l' i sts := by
  have hpool := hk.builder.pool
  cases h with
  | nop id => exact .nop id
  | goto id target => exact .goto id target
  | branch id cond target place inputs => exact .branch id cond target (hk.kept place) inputs
  | assign t r does => exact .assign (hk.kept t) (hk.kept r) (does.mono hpool)
  | binary kind plain t x y does =>
    exact .binary kind plain (hk.kept t) (hk.kept x) (hk.kept y) (does.mono hpool)
  | negated kind negates t x y spare does inverts =>
    exact .negated kind negates (hk.kept t) (hk.kept x) (hk.kept y) (spare.mono hk)
      (does.mono hpool) (inverts.mono hpool)
  | shift amount fixed t r does =>
    exact .shift amount (fixed.mono hk) (hk.kept t) (hk.kept r) (does.mono hpool)
  | concat t x y does => exact .concat (hk.kept t) (hk.kept x) (hk.kept y) (does.mono hpool)
  | count r fixed does => exact .count (hk.kept r) (fixed.mono hk) (does.mono hpool)
  | bitRange msb lsb high low t r does =>
    exact .bitRange msb lsb (high.mono hk) (low.mono hk) (hk.kept t) (hk.kept r) (does.mono hpool)
  | invert t r does => exact .invert (hk.kept t) (hk.kept r) (does.mono hpool)
  | memberRead t member does =>
    exact .memberRead (hk.kept t) (hk.builder.member member) (does.mono hpool)
  | memberWrite r member does =>
    exact .memberWrite (hk.kept r) (hk.builder.member member) (does.mono hpool)

end Synth
end MachineSynth
