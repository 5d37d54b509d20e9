import Mathlib
import MachineSynth.Proofs.Journal.Acts

/-! Fresh names: the name of a register ends in its number, and the registers that a thread
allocates are numbered in turn. So no two have the same name, whatever their stems are. -/
namespace MachineSynth
namespace Synth
namespace Builder

/-- The digits that a name ends in are those of its number: what stands before them is an
underscore. -/
theorem rtakeWhile_registerName (stem : String) (k : Nat) :
    (registerName stem k).toList.rtakeWhile Char.isDigit = Nat.toDigits 10 k := by
  have hlist : (registerName stem k).toList = stem.toList ++ '_' :: Nat.toDigits 10 k := by
    simp [registerName, toString]
  have hdigits : ∀ c ∈ (Nat.toDigits 10 k).reverse, c.isDigit = true := fun c hc =>
    Nat.isDigit_of_mem_toDigits (by decide) (by decide) (List.mem_reverse.mp hc)
  rw [hlist, List.rtakeWhile, List.reverse_append, List.reverse_cons, List.append_assoc,
    List.takeWhile_append_of_pos hdigits]
  simp

/-- Names with different numbers are different. -/
theorem index_of_registerName {stem stem' : String} {i j : Nat}
    (h : registerName stem i = registerName stem' j) : i = j := by
  have hdigits : Nat.toDigits 10 i = Nat.toDigits 10 j := by
    rw [← rtakeWhile_registerName stem i, h, rtakeWhile_registerName]
  exact Nat.repr_inj.mp (congrArg String.ofList hdigits)

def numbered (stems : List String) : List String := stems.mapIdx fun k stem => registerName stem k

theorem numbered_concat (stems : List String) (stem : String) :
    numbered (stems ++ [stem]) = numbered stems ++ [registerName stem stems.length] :=
  List.mapIdx_concat

theorem registerName_notMem_numbered {stems : List String} {stem : String} {k : Nat}
    (h : stems.length ≤ k) : registerName stem k ∉ numbered stems := by
  intro hmem
  obtain ⟨i, hi, hname⟩ := List.mem_mapIdx.mp hmem
  have := index_of_registerName hname
  omega

theorem nodup_numbered (stems : List String) : (numbered stems).Nodup := by
  induction stems using List.reverseRecOn with
  | nil => exact List.nodup_nil
  | append_singleton stems stem ih =>
    rw [numbered_concat, ← List.concat_eq_append, List.nodup_concat]
    exact ⟨registerName_notMem_numbered le_rfl, ih⟩

/-- Whether registers with the given stems are what has been allocated, in this order. -/
structure Named (b : Builder) (stems : List String) : Prop where
  names : b.names.reverse = numbered stems
  index : b.nameIndex = stems.length
  registers : (numbered stems).Sublist (b.registers.map (·.name))

section Named

variable {b c : Builder} {stems : List String}

theorem named_ofPool (pool : Pool) : (ofPool pool).Named [] := ⟨rfl, rfl, .slnil⟩

theorem Named.extend (h : b.Named stems) (hnames : c.names = b.names)
    (hindex : c.nameIndex = b.nameIndex) (hregisters : b.registers <+: c.registers) :
    c.Named stems :=
  ⟨hnames ▸ h.names, hindex.trans h.index, h.registers.trans (hregisters.map _).sublist⟩

/-- The next name is not taken, whatever its stem is. -/
theorem Named.untaken (h : b.Named stems) (stem : String) :
    registerName stem b.nameIndex ∉ b.names := by
  rw [← List.mem_reverse, h.names]
  exact registerName_notMem_numbered h.index.ge

/-- The search for a name that is not taken ends with the first one. -/
theorem Named.freeIndex_eq (h : b.Named stems) (stem : String) (tries : Nat) :
    freeIndex b.names stem tries b.nameIndex = b.nameIndex := by
  cases tries with
  | zero => rfl
  | succ tries => simp [freeIndex, h.untaken stem]

theorem Named.names_freshRegister (h : b.Named stems) (stem : String) (type : Rtl.ValueType)
    (kind : Rtl.RegisterKind) (initial : Option Int64) :
    (b.freshRegister stem type kind initial).2.names =
      registerName stem stems.length :: b.names := by
  simp only [freshRegister, addRegister, h.freeIndex_eq]
  rw [h.index]

theorem Named.freshRegister (h : b.Named stems) (stem : String) (type : Rtl.ValueType)
    (kind : Rtl.RegisterKind) (initial : Option Int64) :
    (b.freshRegister stem type kind initial).2.Named (stems ++ [stem]) where
  names := by
    rw [h.names_freshRegister, List.reverse_cons, h.names, numbered_concat]
  index := by
    simp only [Builder.freshRegister, addRegister, h.freeIndex_eq]
    rw [h.index, List.length_append, List.length_singleton]
  registers := by
    simp only [Builder.freshRegister, addRegister, h.freeIndex_eq, List.map_append, List.map_cons,
      List.map_nil]
    rw [h.index, numbered_concat]
    exact h.registers.append_right _

end Named

def Act.stem? (b : Builder) : Act → Option String
  | fresh stem _ _ _ => some stem
  | member e _ _ => if (b.members.lookup e).isSome then none else some ("m_" ++ e.member)
  | _ => none

/-- The stems of the registers that acts allocate, in this order. -/
def allocated : List Act → Builder → List String
  | [], _ => []
  | act :: rest, b =>
    match act.run b with
    | .ok c => (act.stem? b).toList ++ allocated rest c
    | .error _ => []

section Acts

variable {b c : Builder} {act : Act} {acts : List Act} {stems : List String}

theorem Named.run (h : b.Named stems) (hrun : act.run b = .ok c) :
    c.Named (stems ++ (act.stem? b).toList) := by
  cases act with
  | fresh stem type kind initial =>
    cases hrun
    exact h.freshRegister stem type kind initial
  | member e width initial =>
    cases hrun
    rw [memberRegister_eq, Act.stem?]
    split
    · rename_i r hr
      simpa [hr] using h
    · rename_i hr
      rw [hr]
      exact (h.freshRegister _ _ _ _).extend rfl rfl (List.prefix_refl _)
  | register name type kind initial =>
    cases hrun
    exact (List.append_nil stems).symm ▸ h.extend rfl rfl (List.prefix_append _ _)
  | owner e r =>
    obtain ⟨links, -, rfl⟩ := Act.run_owner.mp hrun
    exact (List.append_nil stems).symm ▸ h.extend rfl rfl (List.prefix_refl _)
  | _ =>
    cases hrun
    exact (List.append_nil stems).symm ▸ h.extend rfl rfl (List.prefix_refl _)

theorem Named.perform (h : b.Named stems) (hperform : perform acts b = .ok c) :
    c.Named (stems ++ allocated acts b) := by
  induction acts generalizing b stems with
  | nil =>
    cases hperform
    simpa [allocated] using h
  | cons act rest ih =>
    obtain ⟨b₁, hrun, hrest⟩ := perform_cons.mp hperform
    have hnamed := ih (h.run hrun) hrest
    rw [List.append_assoc] at hnamed
    simpa only [allocated, hrun] using hnamed

/-- Whatever a thread does, the registers that it allocates are numbered in turn, and so their names
are distinct. The next register has the next number, whatever its stem is, and it is found with the
first attempt. -/
theorem names_distinct {pool : Pool} (h : perform acts (ofPool pool) = .ok b) :
    b.names.reverse = numbered (allocated acts (ofPool pool)) ∧ b.names.Nodup ∧
      b.names.reverse.Sublist (b.registers.map (·.name)) ∧
      ∀ stem type kind initial, registerName stem b.nameIndex ∉ b.names ∧
        ((b.freshRegister stem type kind initial).2.registers[
          (b.freshRegister stem type kind initial).1]?).map (·.name) =
            some (registerName stem b.names.length) := by
  have hnamed : b.Named (allocated acts (ofPool pool)) := (named_ofPool pool).perform h
  have hlength : b.nameIndex = b.names.length := by
    have hreverse : b.names.length = b.names.reverse.length := List.length_reverse.symm
    rw [hnamed.index, hreverse, hnamed.names, numbered,
      List.length_mapIdx]
  refine ⟨hnamed.names, ?_, hnamed.names ▸ hnamed.registers,
    fun stem type kind initial => ⟨hnamed.untaken stem, ?_⟩⟩
  · rw [← List.nodup_reverse, hnamed.names]
    exact nodup_numbered _
  · simp only [freshRegister, addRegister, hnamed.freeIndex_eq]
    simp [hlength]

/-- Stems that look like names: an argument, two more that imitate what follows, and a member that is
used twice. -/
theorem imitated_names_distinct :
    let acts : List Act := [.fresh "x" .truth .storage none, .fresh "x_0" .truth .storage none,
      .member ⟨0, "x_1"⟩ 8 0, .member ⟨0, "x_1"⟩ 8 0, .fresh "x_0" .truth .storage none]
    ∃ b, perform acts (ofPool default) = .ok b ∧
      b.names.reverse = ["x_0", "x_0_1", "m_x_1_2", "x_0_3"] ∧ b.names.Nodup := by
  intro acts
  have hperform : perform acts (ofPool default) = .ok _ := rfl
  exact ⟨_, hperform, by decide, (names_distinct hperform).2.1⟩

end Acts
end Builder
end Synth
end MachineSynth
