import Mathlib
import MachineSynth.Proofs.Slots

/-! Register names: how the registers of a method that is read from a listing are named, and what
its code refers to by these names. Locals never share a name with other registers; arguments may. -/
namespace MachineSynth

open Synth (except_bind_eq_ok exists_ok_of_any)

namespace Method

def registerNames (f : Method) : List String := f.registers.map (·.name)

def argumentNames (f : Method) : List String := f.args.map (·.name)

def returnNames (f : Method) : List String := (List.range f.returns.length).map fun i => s!"$ret{i}"

/-- Registers that have names of their own, none of them `this`. -/
def Unambiguous (f : Method) : Prop := f.registerNames.Nodup ∧ "this" ∉ f.registerNames

instance (f : Method) : Decidable f.Unambiguous := inferInstanceAs (Decidable (_ ∧ _))

/-- Arguments that have names of their own, none of them `this` or that of a return value. -/
structure ArgumentsApart (f : Method) : Prop where
  nodup : f.argumentNames.Nodup
  this : "this" ∉ f.argumentNames
  returns : ∀ name ∈ f.argumentNames, name ∉ f.returnNames

theorem nodup_returnNames (f : Method) : f.returnNames.Nodup := by
  refine List.nodup_range.map fun i j h => Nat.repr_inj.mp ?_
  simpa [toString] using h

theorem this_notMem_returnNames (f : Method) : "this" ∉ f.returnNames := by
  intro h
  obtain ⟨i, -, h⟩ := List.mem_map.mp h
  have hhead := congrArg (fun s => s.toList.head?) h
  simp [toString] at hhead

end Method

namespace Listing

section Names

variable {f : Method} {regs : List Register} {name : String} {r : RegisterId}

/-- How the registers of a method are named: after the arguments, then for the return values, and
then as locals, whose names are new. -/
def NamesInOrder (f : Method) : Prop := ∃ locals,
  f.registerNames = f.argumentNames ++ f.returnNames ++ locals ∧
    Fresh locals (f.argumentNames ++ f.returnNames)

theorem NamesInOrder.unambiguous_iff (h : NamesInOrder f) : f.Unambiguous ↔ f.ArgumentsApart := by
  obtain ⟨locals, hnames, hnodup, hdisjoint, hthis⟩ := h
  rw [Method.Unambiguous, hnames, List.nodup_append', List.nodup_append', List.mem_append,
    List.mem_append]
  constructor
  · rintro ⟨⟨⟨hargs, -, hapart⟩, -, -⟩, hnone⟩
    exact ⟨hargs, fun hmem => hnone (.inl (.inl hmem)), hapart⟩
  · rintro ⟨hargs, hnone, hapart⟩
    refine ⟨⟨⟨hargs, f.nodup_returnNames, hapart⟩, hnodup, fun name hname hlocal =>
      hdisjoint name hlocal hname⟩, ?_⟩
    rintro ((hmem | hmem) | hmem)
    · exact hnone hmem
    · exact f.this_notMem_returnNames hmem
    · exact hthis hmem

/-- Whether a name stands for the only register that has it. -/
def DenotesOnly (regs : List Register) (name : String) (r : RegisterId) : Prop :=
  ∃ before reg after, regs = before ++ reg :: after ∧ reg.name = name ∧
    name ∉ (before ++ after).map (·.name) ∧ r = UInt64.ofNat before.length

/-- The last register of a name is the only one, if names are unambiguous. -/
theorem Denotes.only (h : Denotes regs name r) (hne : name ≠ "this")
    (hnodup : (regs.map (·.name)).Nodup) : DenotesOnly regs name r := by
  cases h with
  | this => exact absurd rfl hne
  | @last before after reg hsplit _ hlast =>
    refine ⟨before, reg, after, hsplit, rfl, ?_, rfl⟩
    rw [hsplit, List.map_append, List.map_cons] at hnodup
    rw [List.map_append]
    exact (List.nodup_middle.mp hnodup).notMem

end Names

section Reading

variable {f : Method} {name : String} {ts : List Located}

theorem declRegister_name (name : String) (d : VarDecl) : (declRegister name d).name = name := by
  unfold declRegister
  split <;> rfl

theorem names_declRegisters (m : Method) :
    (declRegisters m).map (·.name) = m.argumentNames ++ m.returnNames := by
  have hreturns : (m.returns.mapIdx fun i d => declRegister s!"$ret{i}" d).map (·.name) =
      m.returnNames := by
    refine List.ext_getElem (by simp [Method.returnNames]) fun i hi hi' => ?_
    simp [Method.returnNames, declRegister_name]
  rw [declRegisters, List.map_append, hreturns, List.map_map]
  simp only [Function.comp_def, declRegister_name, Method.argumentNames]

def Clauses.empty (name : String) : Clauses := ⟨⟨name, [], [], [], [], "", "", "", .none⟩, [], []⟩

theorem readMethod_names (h : readMethod name ts = .ok f) : NamesInOrder f ∧
    ∃ c, readClauses (.empty name) ts = .ok c ∧
      List.Forall₂ (fun t i => ∃ form : Form, t = .list form.span form.items ∧
        OnNamed f.registers form i) c.code f.code := by
  simp only [readMethod, except_bind_eq_ok] at h
  obtain ⟨c, hc, regs, hregs, code, hcode, h⟩ := h
  cases h
  obtain ⟨locals, rfl, hfresh⟩ := addLocals_eq_append hregs
  rw [names_declRegisters] at hfresh
  refine ⟨⟨locals.map (·.name), ?_, hfresh⟩, c, hc, (readInsns_closed hcode).1⟩
  rw [Method.registerNames, List.map_append, names_declRegisters]
  rfl

end Reading

section Declared

variable {o : Object} {f : Method} {source : Source} {m : Machine}

theorem load_methods {s : Slot} (h : load source = .ok m) (ho : o ∈ m.objects) (hs : s ∈ o.slots)
    (hf : s.value = .method f) : f = .ofNative s.name ∨ ∃ root clauses,
      source.term = .ok (some root) ∧ root.DeclaresMethod s.name clauses ∧
      readMethod s.name clauses = .ok f := by
  obtain ⟨root, hterm, hgives⟩ := exists_gives_of_load h
  cases hgives o ho s hs with
  | native =>
    cases hf
    exact .inl rfl
  | method declares read =>
    cases hf
    exact .inr ⟨root, _, hterm, declares, read⟩
  | value _ none => exact absurd hf (none f)

theorem namesInOrder_ofNative (op : String) : NamesInOrder (.ofNative op) :=
  ⟨[], rfl, List.nodup_nil, by simp, by simp⟩

/-- The registers of a method of a loaded machine: they have names of their own, and none of them
is `this`, exactly if the arguments are apart from each other, from the return values and from
`this`; nothing else can be in the way. Each instruction is on registers that its form names, where
a name stands for the last register that has it, and so for the only one if the arguments are
apart. -/
theorem loaded_registers {s : Slot} {f : Method} (h : load source = .ok m) (ho : o ∈ m.objects)
    (hs : s ∈ o.slots) (hf : s.value = .method f) :
    NamesInOrder f ∧ (f.Unambiguous ↔ f.ArgumentsApart) ∧
      (f = .ofNative s.name ∨ ∃ root clauses c, source.term = .ok (some root) ∧
        root.DeclaresMethod s.name clauses ∧ readClauses (.empty s.name) clauses = .ok c ∧
        List.Forall₂ (fun t i => ∃ form : Form, t = .list form.span form.items ∧
          OnNamed f.registers form i) c.code f.code) ∧
      (f.ArgumentsApart → ∀ name r, Denotes f.registers name r → name ≠ "this" →
        DenotesOnly f.registers name r) := by
  have horigin := load_methods h ho hs hf
  have horder : NamesInOrder f := by
    obtain rfl | ⟨root, clauses, -, -, hread⟩ := horigin
    · exact namesInOrder_ofNative s.name
    · exact (readMethod_names hread).1
  refine ⟨horder, horder.unambiguous_iff, horigin.imp_right ?_, fun hapart name r hdenotes hne =>
    hdenotes.only hne (horder.unambiguous_iff.mpr hapart).1⟩
  rintro ⟨root, clauses, hterm, hdeclares, hread⟩
  obtain ⟨c, hc, hcode⟩ := (readMethod_names hread).2
  exact ⟨root, clauses, c, hterm, hdeclares, hc, hcode⟩

theorem exists_slot_of_load {s : Slot} (h : (load source).toOption.any (fun m =>
    m.objects.any fun o => decide (s ∈ o.slots)) = true) :
    ∃ m o, load source = .ok m ∧ o ∈ m.objects ∧ s ∈ o.slots := by
  obtain ⟨m, hm, h⟩ := exists_ok_of_any h
  obtain ⟨o, ho, h⟩ := List.any_eq_true.mp h
  exact ⟨m, o, hm, ho, of_decide_eq_true h⟩

def distinctNames : Source := .ofString "" <|
  "(object top (method step (args (x int 8)) (returns (int 8)) (regs (k const 8 5)) " ++
    "(code (add $ret0 x k))))"

theorem distinctNames_unambiguous : ∃ m o s f, load distinctNames = .ok m ∧ o ∈ m.objects ∧
    s ∈ o.slots ∧
    s.value = .method f ∧ s.name = "step" ∧ f.Unambiguous := by
  let f : Method := ⟨"step", [⟨"x", .int, 8⟩], [⟨"", .int, 8⟩],
    [⟨"x", .num, 8, false, 0⟩, ⟨"$ret0", .num, 8, false, 0⟩, ⟨"k", .num, 8, true, 5⟩],
    [.binary .add 1 0 2], "", "", "", .none⟩
  obtain ⟨m, o, hm, ho, hs⟩ : ∃ m o, load distinctNames = .ok m ∧ o ∈ m.objects ∧
      ⟨"step", .method f⟩ ∈ o.slots := exists_slot_of_load (by decide +kernel)
  exact ⟨m, o, _, f, hm, ho, hs, rfl, rfl,
    (loaded_registers hm ho hs rfl).2.1.mpr ⟨by decide, by decide, by decide⟩⟩

/-- A method two of whose arguments have one name: it is loaded, and its code reads and writes the
second of them only. -/
def repeatedArgument : Source := .ofString ""
  "(object top (method main (args (x int 8) (x int 16)) (code (num x x))))"

theorem repeatedArgument_ambiguous : ∃ m o s f, load repeatedArgument = .ok m ∧ o ∈ m.objects ∧
    s ∈ o.slots ∧
    s.value = .method f ∧ f.registerNames = ["x", "x"] ∧ f.code = [.num 1 1] ∧
    ¬ f.Unambiguous := by
  let f : Method := ⟨"main", [⟨"x", .int, 8⟩, ⟨"x", .int, 16⟩], [],
    [⟨"x", .num, 8, false, 0⟩, ⟨"x", .num, 16, false, 0⟩], [.num 1 1], "", "", "", .none⟩
  obtain ⟨m, o, hm, ho, hs⟩ : ∃ m o, load repeatedArgument = .ok m ∧ o ∈ m.objects ∧
      ⟨"main", .method f⟩ ∈ o.slots := exists_slot_of_load (by decide +kernel)
  exact ⟨m, o, _, f, hm, ho, hs, rfl, rfl, rfl, by decide⟩

end Declared

end Listing
end MachineSynth
