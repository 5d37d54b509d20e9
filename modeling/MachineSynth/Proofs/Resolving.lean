import Mathlib
import MachineSynth.Listing.Method
import MachineSynth.Proofs.Planning

/-! Resolving: a method that is read from a listing refers to its own registers and instructions
only, and its registers start with those of its declarations. -/
namespace MachineSynth

open Synth (except_bind_eq_ok mapError_eq_ok)

def DeclType.kind : DeclType → ValueKind
  | int => .num
  | bool => .enum
  | object | string => .object

def Register.Declares (r : Register) (d : VarDecl) : Prop :=
  r.kind = d.type.kind ∧ r.width = d.width ∧ r.const = none

def Insn.references (i : Insn) : List RegisterId := i.uses ++ i.definitions

def RegisterId.Within (n : Nat) (r : RegisterId) : Prop := r = unused ∨ r.toNat < n

/-- A method whose code refers to nothing else. -/
structure Method.Closed (f : Method) : Prop where
  /-- The registers start with one for each argument, and then one for each return value. -/
  parameters : ∃ params locals, f.registers = params ++ locals ∧
    List.Forall₂ Register.Declares params (f.args ++ f.returns)
  registers : ∀ i ∈ f.code, ∀ r ∈ i.references, r.Within f.registers.length
  /-- A jump may go to the end of the code, not past it. -/
  jumps : ∀ i ∈ f.code, ∀ target ∈ i.jumpTarget?, target.toNat ≤ f.code.length

namespace Listing

/-- Whether a name stands for a register: `this` for none, and any other name for the last register
that has it. -/
inductive Denotes (regs : List Register) : String → RegisterId → Prop
  | this : Denotes regs "this" .unused
  | last {before after : List Register} {reg : Register} (split : regs = before ++ reg :: after)
    (hthis : reg.name ≠ "this") (hlast : reg.name ∉ after.map (·.name)) :
    Denotes regs reg.name (UInt64.ofNat before.length)

def Form.Names (regs : List Register) (f : Form) (r : RegisterId) : Prop :=
  ∃ i name, f.symbol i = .ok name ∧ Denotes regs name r

section Registers

variable {regs : List Register} {f : Form} {name : String} {i j start n : Nat} {r : RegisterId}
  {rs : List RegisterId}

theorem Denotes.within (h : Denotes regs name r) : r.Within regs.length := by
  cases h with
  | this => exact .inl rfl
  | @last before after reg split =>
    refine .inr ?_
    rw [UInt64.toNat_ofNat', split, List.length_append, List.length_cons]
    exact (Nat.mod_le _ _).trans_lt (by omega)

theorem findRegister_eq_none : findRegister name i regs = none ↔ name ∉ regs.map (·.name) := by
  induction regs generalizing i with
  | nil => simp [findRegister]
  | cons reg regs ih =>
    rw [findRegister, List.map_cons, List.mem_cons, not_or, ← ih (i := i + 1)]
    cases findRegister name (i + 1) regs with
    | none => simp [eq_comm]
    | some j => simp

theorem findRegister_eq_some (h : findRegister name i regs = some j) :
    ∃ before reg after, regs = before ++ reg :: after ∧ j = i + before.length ∧
      reg.name = name ∧ name ∉ after.map (·.name) := by
  induction regs generalizing i j with
  | nil => cases h
  | cons reg regs ih =>
    rw [findRegister] at h
    cases hrest : findRegister name (i + 1) regs with
    | none =>
      simp only [hrest, Option.ite_none_right_eq_some, Option.some.injEq] at h
      exact ⟨[], reg, regs, rfl, h.2.symm, h.1, findRegister_eq_none.mp hrest⟩
    | some j' =>
      simp only [hrest, Option.some.injEq] at h
      obtain ⟨before, reg', after, rfl, rfl, hname, hlast⟩ := ih hrest
      refine ⟨reg :: before, reg', after, rfl, ?_, hname, hlast⟩
      rw [← h, List.length_cons]
      omega

theorem names_register (h : f.register regs i = .ok r) : f.Names regs r := by
  simp only [Form.register, except_bind_eq_ok] at h
  obtain ⟨name, hname, h⟩ := h
  split at h
  · rename_i hthis
    cases h
    exact ⟨i, name, hname, hthis ▸ .this⟩
  · rename_i hthis
    split at h
    · rename_i j hj
      cases h
      obtain ⟨before, reg, after, hsplit, rfl, rfl, hlast⟩ := findRegister_eq_some hj
      rw [Nat.zero_add]
      exact ⟨i, reg.name, hname, .last hsplit hthis hlast⟩
    · cases h

theorem names_registers (h : f.registers regs start n = .ok rs) : ∀ r ∈ rs, f.Names regs r := by
  induction n generalizing start rs with
  | zero =>
    cases h
    simp
  | succ n ih =>
    simp only [Form.registers, except_bind_eq_ok] at h
    obtain ⟨r, hr, rs', hrs, h⟩ := h
    cases h
    exact List.forall_mem_cons.mpr ⟨names_register hr, ih hrs⟩

theorem eq_of_mem_ifUsed {object : RegisterId} (hr : r ∈ RegisterId.ifUsed object) : r = object := by
  unfold RegisterId.ifUsed at hr
  split at hr
  · exact List.mem_singleton.mp hr
  · cases hr

end Registers

/-- Whether a reader gives instructions on registers only that are named in their forms. -/
def Resolves (read : InsnReader) : Prop := ∀ (regs : List Register) (f : Form) (i : Insn),
  read regs f = .ok i → ∀ r ∈ i.references, f.Names regs r

theorem resolves_of_registers {read : InsnReader}
    (h : ∀ regs f i, read regs f = .ok i → ∀ r ∈ i.references, ∃ k, f.register regs k = .ok r) :
    Resolves read := by
  intro regs f i hread r hr
  obtain ⟨k, hk⟩ := h regs f i hread r hr
  exact names_register hk

theorem resolves_registerReaders : ∀ p ∈ registerReaders, Resolves p.2.2 := by
  simp only [registerReaders, List.forall_mem_cons, List.not_mem_nil, false_imp_iff,
    implies_true, and_true]
  refine ⟨?_, ?_, ?_, ?_, ?_, ?_, ?_, ?_, ?_, ?_, ?_, ?_, ?_⟩
  all_goals
    refine resolves_of_registers fun regs f i h r hr => ?_
    simp only [except_bind_eq_ok, pure, Except.pure, Except.ok.injEq] at h
    grind [Insn.references, Insn.uses, Insn.definitions]

theorem resolves_accessReaders : ∀ p ∈ accessReaders, Resolves p.2.2 := by
  simp only [accessReaders, List.forall_mem_cons, List.not_mem_nil, false_imp_iff,
    implies_true, and_true]
  refine ⟨?_, ?_, ?_, ?_, ?_, ?_, ?_, ?_⟩
  all_goals
    refine resolves_of_registers fun regs f i h r hr => ?_
    simp only [except_bind_eq_ok, pure, Except.pure, Except.ok.injEq] at h
    grind [Insn.references, Insn.uses, Insn.definitions, RegisterId.ifUsed]

theorem resolves_readBinary (op : BinaryOp) : Resolves (readBinary op) := by
  refine resolves_of_registers fun regs f i h r hr => ?_
  simp only [readBinary, except_bind_eq_ok, pure, Except.pure, Except.ok.injEq] at h
  grind [Insn.references, Insn.uses, Insn.definitions]

theorem resolves_fixedReaders : ∀ p ∈ fixedReaders, Resolves p.2.2 := by
  intro p hp
  simp only [fixedReaders, List.mem_append] at hp
  obtain (hp | hp) | hp := hp
  · exact resolves_registerReaders p hp
  · obtain ⟨⟨name, op⟩, -, rfl⟩ := List.mem_map.mp hp
    exact resolves_readBinary op
  · exact resolves_accessReaders p hp

theorem resolves_readLoadObject : Resolves readLoadObject := by
  refine resolves_of_registers fun regs f i h r hr => ?_
  unfold readLoadObject at h
  split at h
  · simp only [except_bind_eq_ok, pure, Except.pure, Except.ok.injEq] at h
    grind [Insn.references, Insn.uses, Insn.definitions, RegisterId.ifUsed]
  · split at h
    · simp only [except_bind_eq_ok, pure, Except.pure, Except.ok.injEq] at h
      grind [Insn.references, Insn.uses, Insn.definitions, RegisterId.ifUsed]
    · cases h

theorem resolves_readCall : Resolves readCall := by
  intro regs f i h r hr
  unfold readCall at h
  split at h
  · cases h
  · simp only [except_bind_eq_ok] at h
    obtain ⟨object, hobject, label, -, args, hargs, h⟩ := h
    cases h
    simp only [Insn.references, Insn.uses, Insn.definitions, List.append_nil,
      List.mem_append] at hr
    rcases hr with hr | hr
    · exact eq_of_mem_ifUsed hr ▸ names_register hobject
    · exact names_registers hargs r hr

theorem resolves_readCallDone : Resolves readCallDone := by
  intro regs f i h r hr
  simp only [readCallDone, except_bind_eq_ok] at h
  obtain ⟨returns, hreturns, h⟩ := h
  cases h
  exact names_registers hreturns r hr

end Listing

namespace Dispatch

variable {ε α : Type} {P : Located → List Located → α → Prop} {d : Dispatch ε α}

/-- Whether the rules give only values that go with the term, in some sense. -/
def Yields (P : Located → List Located → α → Prop) (d : Dispatch ε α) : Prop :=
  ∀ p ∈ d.rules, ∀ t items a, p.2 t items = .ok a → P t items a

theorem Yields.add {name : String} {rule : Rule ε α} (h : d.Yields P)
    (hrule : ∀ t items a, rule t items = .ok a → P t items a) : (d.add name rule).Yields P :=
  List.forall_mem_cons.mpr ⟨hrule, h⟩

theorem Yields.addArity {name : String} {n : Int} {rule : Rule ε α} (h : d.Yields P)
    (hrule : ∀ t items a, rule t items = .ok a → P t items a) : (d.addArity name n rule).Yields P := by
  refine h.add fun t items a ha => ?_
  split at ha
  · exact hrule t items a ha
  · cases ha

theorem Yields.apply {t : Located} {a : α} (h : d.Yields P) (ha : d.apply t = .ok a) :
    ∃ span items, t = .list span items ∧ P t items a := by
  unfold Dispatch.apply at ha
  split at ha
  · cases ha
  · split at ha
    · split at ha
      · cases ha
      · split at ha
        · cases ha
        · rename_i rule hrule
          split at ha <;> cases ha
          exact ⟨_, _, rfl, h _ (mem_of_lookup hrule) _ _ _ ‹_›⟩
    · cases ha

end Dispatch

namespace Listing

def OnNamed (regs : List Register) (f : Form) (i : Insn) : Prop := ∀ r ∈ i.references, f.Names regs r

theorem insnRules_yields (regs : List Register) :
    (insnRules regs).Yields fun t items i => OnNamed regs ⟨t.span, items⟩ i := by
  have hrule : ∀ {read : InsnReader}, Resolves read → ∀ t items i,
      insnRule regs read t items = .ok i → OnNamed regs ⟨t.span, items⟩ i :=
    fun hread t items i hi => hread regs ⟨t.span, items⟩ i (mapError_eq_ok.mp hi)
  have hfixed : ∀ (readers : List (String × Int × InsnReader)) (d : Dispatch Cause Insn),
      (∀ p ∈ readers, Resolves p.2.2) →
      d.Yields (fun t items i => OnNamed regs ⟨t.span, items⟩ i) →
      (readers.foldl (fun d p => d.addArity p.1 p.2.1 (insnRule regs p.2.2)) d).Yields
        fun t items i => OnNamed regs ⟨t.span, items⟩ i := by
    intro readers
    induction readers with
    | nil => exact fun _ _ hd => hd
    | cons p readers ih =>
      intro d hreaders hd
      obtain ⟨hp, hreaders⟩ := List.forall_mem_cons.mp hreaders
      exact ih _ hreaders (hd.addArity (hrule hp))
  have hempty : (⟨Located.span, .mismatch, []⟩ : Dispatch Cause Insn).Yields
      fun t items i => OnNamed regs ⟨t.span, items⟩ i := by simp [Dispatch.Yields]
  exact (((hfixed _ _ resolves_fixedReaders hempty).add (hrule resolves_readLoadObject)).add
    (hrule resolves_readCall)).add (hrule resolves_readCallDone)

section Method

variable {regs regs' : List Register} {size : Nat} {ts : List Located} {code : List Insn}

theorem readInsns_closed (h : readInsns regs size ts = .ok code) :
    List.Forall₂ (fun t i => ∃ f : Form, t = .list f.span f.items ∧ OnNamed regs f i) ts code ∧
      ∀ i ∈ code, ∀ target ∈ i.jumpTarget?, target.toNat ≤ size := by
  induction ts generalizing code with
  | nil =>
    cases h
    exact ⟨.nil, by simp⟩
  | cons t ts ih =>
    simp only [readInsns, except_bind_eq_ok] at h
    obtain ⟨i, hi, h⟩ := h
    split at h
    · cases h
    · rename_i hsize
      simp only [except_bind_eq_ok] at h
      obtain ⟨rest, hrest, h⟩ := h
      cases h
      obtain ⟨hnamed, hjumps⟩ := ih hrest
      obtain ⟨span, items, rfl, hi⟩ := (insnRules_yields regs).apply hi
      refine ⟨.cons ⟨⟨span, items⟩, rfl, hi⟩ hnamed,
        List.forall_mem_cons.mpr ⟨fun target htarget => ?_, hjumps⟩⟩
      rw [Option.mem_def.mp htarget] at hsize
      exact Nat.le_of_not_lt hsize

/-- Names that are declared after others: each is new, and none is `this`. -/
structure Fresh (names earlier : List String) : Prop where
  nodup : names.Nodup
  disjoint : ∀ name ∈ names, name ∉ earlier
  this : "this" ∉ names

/-- The locals come after the registers declared already, under new names. -/
theorem addLocals_eq_append {fs : List Form} (h : addLocals regs fs = .ok regs') :
    ∃ locals, regs' = regs ++ locals ∧ Fresh (locals.map (·.name)) (regs.map (·.name)) := by
  induction fs generalizing regs with
  | nil =>
    cases h
    exact ⟨[], (List.append_nil _).symm, List.nodup_nil, by simp, by simp⟩
  | cons f fs ih =>
    simp only [addLocals, except_bind_eq_ok] at h
    obtain ⟨r, -, h⟩ := h
    split at h
    · cases h
    · rename_i hnew
      rw [Bool.or_eq_true, decide_eq_true_eq, not_or, Option.not_isSome_iff_eq_none,
        findRegister_eq_none] at hnew
      obtain ⟨hthis, hnew⟩ := hnew
      obtain ⟨locals, rfl, hfresh⟩ := ih h
      have hdisjoint : ∀ name ∈ locals.map (·.name), name ≠ r.name ∧ name ∉ regs.map (·.name) := by
        simpa [not_or, and_comm] using hfresh.disjoint
      refine ⟨r :: locals, by simp, List.nodup_cons.mpr ⟨fun hr => ?_, hfresh.nodup⟩,
        List.forall_mem_cons.mpr ⟨hnew, fun name hname => (hdisjoint name hname).2⟩,
        List.not_mem_cons_of_ne_of_not_mem (Ne.symm hthis) hfresh.this⟩
      exact (hdisjoint _ hr).1 rfl

def Sized (d : VarDecl) : Prop := d.type ≠ .int → d.width = 0

theorem declRegister_declares {d : VarDecl} (name : String) (h : Sized d) :
    (declRegister name d).Declares d := by
  obtain ⟨_, type, width⟩ := d
  cases type with
  | int => exact ⟨rfl, rfl, rfl⟩
  | bool => exact ⟨rfl, (h (by simp)).symm, rfl⟩
  | object => exact ⟨rfl, (h (by simp)).symm, rfl⟩
  | string => exact ⟨rfl, (h (by simp)).symm, rfl⟩

theorem readType_sized {f : Form} {i : Nat} {type : DeclType} {width : UInt64}
    (h : readType f i = .ok (type, width)) : type ≠ .int → width = 0 := by
  simp only [readType, except_bind_eq_ok] at h
  obtain ⟨kind, -, h⟩ := h
  split at h
  · simp only [except_bind_eq_ok] at h
    obtain ⟨w, -, h⟩ := h
    cases h
    exact fun hint => absurd rfl hint
  · cases h
    exact fun _ => rfl
  · cases h
    exact fun _ => rfl
  · cases h
    exact fun _ => rfl
  · cases h

theorem readDecl_sized {named : Bool} {t : Located} {d : VarDecl} (h : readDecl named t = .ok d) :
    Sized d := by
  unfold readDecl at h
  split at h
  · dsimp only at h
    split at h
    · simp only [except_bind_eq_ok] at h
      obtain ⟨name, -, ⟨type, width⟩, htype, h⟩ := h
      cases h
      exact readType_sized htype
    · simp only [except_bind_eq_ok] at h
      obtain ⟨⟨type, width⟩, htype, h⟩ := h
      cases h
      exact readType_sized htype
  · cases h

theorem readDecls_sized {named : Bool} {ds : List VarDecl} (h : readDecls named ts = .ok ds) :
    ∀ d ∈ ds, Sized d := by
  induction ts generalizing ds with
  | nil =>
    cases h
    simp
  | cons t ts ih =>
    simp only [readDecls, except_bind_eq_ok] at h
    obtain ⟨d, hd, rest, hrest, h⟩ := h
    cases h
    exact List.forall_mem_cons.mpr ⟨readDecl_sized hd, ih hrest⟩

def Clauses.Named (name : String) (c : Clauses) : Prop :=
  c.method.name = name ∧ ∀ d ∈ c.method.args ++ c.method.returns, Sized d

variable {c c' : Clauses} {name : String}

theorem readClause_named {f : Form} (hc : c.Named name) (h : readClause c f ts = .ok c') :
    c'.Named name := by
  obtain ⟨hname, hsized⟩ := hc
  obtain ⟨hargs, hreturns⟩ := List.forall_mem_append.mp hsized
  unfold readClause at h
  split at h
  case h_1 =>
    simp only [except_bind_eq_ok] at h
    obtain ⟨ds, hds, h⟩ := h
    cases h
    exact ⟨hname, List.forall_mem_append.mpr ⟨readDecls_sized hds, hreturns⟩⟩
  case h_2 =>
    simp only [except_bind_eq_ok] at h
    obtain ⟨ds, hds, h⟩ := h
    cases h
    exact ⟨hname, List.forall_mem_append.mpr ⟨hargs, readDecls_sized hds⟩⟩
  case h_8 =>
    cases h
    exact ⟨hname, hsized⟩
  case h_9 => cases h
  all_goals
    simp only [except_bind_eq_ok] at h
    obtain ⟨_, -, h⟩ := h
    cases h
    exact ⟨hname, hsized⟩

theorem readClauses_named (hc : c.Named name) (h : readClauses c ts = .ok c') : c'.Named name := by
  fun_induction readClauses c ts with
  | case1 c =>
    cases h
    exact hc
  | case2 c span s head arguments rest ih =>
    simp only [except_bind_eq_ok] at h
    obtain ⟨c₁, hc₁, h⟩ := h
    exact ih c₁ (readClause_named hc hc₁) h
  | case3 => cases h

theorem declRegisters_declares {m : Method} (h : ∀ d ∈ m.args ++ m.returns, Sized d) :
    List.Forall₂ Register.Declares (declRegisters m) (m.args ++ m.returns) := by
  obtain ⟨hargs, hreturns⟩ := List.forall_mem_append.mp h
  refine List.rel_append ?_ ?_
  · refine List.forall₂_map_left_iff.mpr (List.forall₂_same.mpr fun d hd => ?_)
    exact declRegister_declares d.name (hargs d hd)
  · refine List.forall₂_iff_get.mpr ⟨List.length_mapIdx, fun i hi hi' => ?_⟩
    simp only [List.get_eq_getElem, List.getElem_mapIdx]
    exact declRegister_declares _ (hreturns _ (List.getElem_mem hi'))

theorem readMethod_closed {m : Method} (h : readMethod name ts = .ok m) :
    m.name = name ∧ m.Closed := by
  simp only [readMethod, except_bind_eq_ok] at h
  obtain ⟨c, hc, regs, hregs, code, hcode, h⟩ := h
  cases h
  obtain ⟨hname, hsized⟩ : c.Named name := readClauses_named (by simp [Clauses.Named]) hc
  obtain ⟨locals, rfl, -⟩ := addLocals_eq_append hregs
  obtain ⟨hnamed, hjumps⟩ := readInsns_closed hcode
  refine ⟨hname, ⟨declRegisters c.method, locals, rfl, declRegisters_declares hsized⟩,
    fun i hi r hr => ?_, fun i hi target htarget => ?_⟩
  · obtain ⟨n, hn, rfl⟩ := List.getElem_of_mem hi
    obtain ⟨f, -, hi⟩ := hnamed.get (hnamed.length_eq ▸ hn) hn
    obtain ⟨k, name, -, hdenotes⟩ := hi r hr
    exact hdenotes.within
  · rw [← hnamed.length_eq]
    exact hjumps i hi target htarget

end Method

end Listing
end MachineSynth
