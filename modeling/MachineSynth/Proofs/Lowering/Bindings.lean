import Mathlib
import MachineSynth.Proofs.Lowering.Stops

/-! Bindings: the states of an instruction read and write the table registers of what the
instruction reads and writes, and what they have is not taken from them later. -/
namespace MachineSynth

/-- The registers whose values an instruction reads when it runs. Objects are known before, and so
are the constants that are fixed in the table. -/
def Insn.operands : Insn → List RegisterId
  | nop | goto _ | num _ _ | loadObject _ _ _ | memberRead _ _ _ | channelRead _ _
  | callDone _ => []
  | branch cond _ => [cond]
  | assign _ source | invert _ _ source | shift _ _ source _ | bitRange _ source _ _
  | memberWrite _ _ source | channelWrite _ source => [source]
  | binary _ _ left right | concat _ left right => [left, right]
  | count _ operand => [operand]
  | arrayRead _ _ index | memoryRead _ index => [index]
  | arrayWrite _ index source | memoryWrite index source => [index, source]
  | call _ _ args => args

/-- The registers that an instruction of a table reads or writes. -/
def Rtl.Insn.ports (write : Bool) (i : Rtl.Insn) : List Nat := if write then i.outputs else i.inputs

namespace Synth

namespace Lowering

variable {s : Site} {may : Allowance} {l l' : Lowering} {spans : Nat → Prop} {write : Bool}
  {r : RegisterId} {j : Nat}

/-- Whether a register of the method has a table register which a state, at one of some positions,
reads or writes. -/
def Carries (write : Bool) (spans : Nat → Prop) (r : RegisterId) (l : Lowering) : Prop :=
  ∃ j n st i, l.locals.lookup r = some j ∧ spans n ∧ l.states[n]? = some st ∧ i ∈ st.insns ∧
    j ∈ i.ports write

theorem Move.kept (h : Move s may l l') (hr : ¬ may.rebinds r)
    (hj : l.locals.lookup r = some j) : l'.locals.lookup r = some j := by
  cases h with
  | build | push | walk | link => exact hj
  | @bind r' i _ new =>
    have hne : r ≠ r' := by
      rintro rfl
      rcases new with ⟨hnone, -⟩ | hrebinds
      · cases hj.symm.trans hnone
      · exact hr hrebinds
    rwa [lookup_cons_eq, if_neg hne]

theorem kept_of_moves (h : Relation.ReflTransGen (Move s may) l l')
    (hr : ¬ may.rebinds r) (hj : l.locals.lookup r = some j) : l'.locals.lookup r = some j :=
  preserved_of_steps (P := fun l => l.locals.lookup r = some j) (fun hmove => hmove.kept hr) h hj

theorem Move.carries (h : Move s may l l') (hr : ¬ may.rebinds r)
    (hl : l.Carries write spans r) : l'.Carries write spans r := by
  obtain ⟨j, n, st, i, hj, hn, hst, hi, hport⟩ := hl
  have hj' := h.kept hr hj
  cases h with
  | build | walk | bind => exact ⟨j, n, st, i, hj', hn, hst, hi, hport⟩
  | push =>
    exact ⟨j, n, st, i, hj', hn, getElem?_of_isPrefix (List.prefix_append _ _) hst, hi, hport⟩
  | link _ widens =>
    obtain ⟨st', hst', hwidens⟩ := exists_getElem?_of_forall₂ widens hst
    obtain ⟨i', hi', hin, hout⟩ := hwidens.insns i hi
    refine ⟨j, n, st', i', hj', hn, hst', hi', ?_⟩
    cases write
    · exact (congrArg (j ∈ ·) hin).mpr hport
    · exact hout.subset hport

theorem carries_of_moves (h : Relation.ReflTransGen (Move s may) l l')
    (hr : ¬ may.rebinds r) (hl : l.Carries write spans r) : l'.Carries write spans r :=
  preserved_of_steps (fun hmove => hmove.carries hr) h hl

end Lowering

namespace Lower

open Lowering (Move Fetches)

variable {s : Site} {l l' : Lowering}

/-- The positions of the states that carry the operands and the results of an instruction: those
of its own, but the results of a call go to the state just before. -/
def Spans (i : Insn) (start n : Nat) : Prop :=
  match i with
  | .callDone _ => n + 1 = start
  | i => start ≤ n ∧ n < start + stateCount i

/-- Whether states carry all of some registers that are read, and of some that are written. -/
structure Serves (spans : Nat → Prop) (rs ws : List RegisterId) (l : Lowering) : Prop where
  reads : ∀ r ∈ rs, l.Carries false spans r
  writes : ∀ r ∈ ws, l.Carries true spans r

section Serving

variable {spans : Nat → Prop} {rs ws : List RegisterId} {a : Lowering}

/-- Whether registers of the method have table registers in a list. -/
def Found (l : Lowering) (rs : List RegisterId) (is : List Nat) : Prop :=
  ∀ r ∈ rs, ∃ j ∈ is, l.locals.lookup r = some j

theorem found_registers {is : List Nat} (h : is.map some = rs.map fun r => l.locals.lookup r) :
    Found l rs is := by
  intro r hr
  have hmem := List.mem_map_of_mem (f := fun r => l.locals.lookup r) hr
  rw [← h] at hmem
  obtain ⟨j, hj, heq⟩ := List.mem_map.mp hmem
  exact ⟨j, hj, heq.symm⟩

theorem Found.mono {is : List Nat} (h : Found l rs is) (hf : l.Fetches l') : Found l' rs is := by
  intro r hr
  obtain ⟨j, hj, hlookup⟩ := h r hr
  exact ⟨j, hj, hf.kept hlookup⟩

/-- A new state whose instruction has the registers. -/
theorem push_serves {i : Rtl.Insn} {jump : Option Insn} {callee : Option Callee}
    (hf : l.Fetches a) (hspans : spans l.states.length) (hin : Found a rs i.inputs)
    (hout : Found a ws i.outputs) (h : (push [i] jump callee).run a = .ok ((), l')) :
    Serves spans rs ws l' := by
  cases run_push_eq_ok.mp h
  have hnew : (a.states ++ [⟨a.builder.newState.1, [i], jump, callee⟩])[l.states.length]? =
      some ⟨a.builder.newState.1, [i], jump, callee⟩ := by
    rw [← hf.states]
    exact List.getElem?_concat_length
  refine ⟨fun r hr => ?_, fun r hr => ?_⟩
  · obtain ⟨j, hj, hlookup⟩ := hin r hr
    exact ⟨j, _, _, i, hlookup, hspans, hnew, List.mem_singleton_self i, hj⟩
  · obtain ⟨j, hj, hlookup⟩ := hout r hr
    exact ⟨j, _, _, i, hlookup, hspans, hnew, List.mem_singleton_self i, hj⟩

theorem emit_serves {unit : Nat} {operand : String} {inputs outputs : List Nat}
    (hf : l.Fetches a) (hspans : spans l.states.length) (hin : Found a rs inputs)
    (hout : Found a ws outputs) (h : (emit unit operand inputs outputs).run a = .ok ((), l')) :
    Serves spans rs ws l' := by
  simp only [emit, run_bind_eq_ok] at h
  obtain ⟨i, a', hi, h⟩ := h
  obtain ⟨f, rfl, rfl⟩ := insn_fetches hi
  exact push_serves (hf.trans f) hspans (hin.mono f) (hout.mono f) h

theorem Serves.moves {may : Allowance} (h : Serves spans rs ws a)
    (hmoves : Relation.ReflTransGen (Move s may) a l') (hnone : ∀ r, ¬ may.rebinds r) :
    Serves spans rs ws l' :=
  ⟨fun r hr => Lowering.carries_of_moves hmoves (hnone r) (h.reads r hr),
    fun r hr => Lowering.carries_of_moves hmoves (hnone r) (h.writes r hr)⟩

theorem access_carries {unit : Nat} {i : Nat} {r : RegisterId} {write : Bool} {others : List Nat}
    (hf : l.Fetches a) (hspans : spans l.states.length) (hi : a.locals.lookup r = some i)
    (h : (if write then emit unit "" [i] others else emit unit "" others [i]).run a =
      .ok ((), l')) : l'.Carries (!write) spans r := by
  cases write
  · have hserves : Serves spans [] [r] l' :=
      emit_serves hf hspans (by simp [Found]) (by simp [Found, hi]) h
    exact hserves.writes r (by simp)
  · have hserves : Serves spans [r] [] l' :=
      emit_serves hf hspans (by simp [Found, hi]) (by simp [Found]) h
    exact hserves.reads r (by simp)

end Serving

section Instructions

variable {r : RegisterId}

theorem sharedMember_carries {e : Entity} {width : UInt64} {write : Bool} {spans : Nat → Prop}
    (hspans : spans l.states.length)
    (h : (sharedMember s e width r write).run l = .ok ((), l')) :
    l'.Carries (!write) spans r := by
  simp only [sharedMember, run_bind_eq_ok] at h
  obtain ⟨unit, l₁, hunit, h⟩ := h
  have hlast : ∀ {l₂ : Lowering}, l.Fetches l₂ → (do
      let own ← register s r
      if write then emit unit "" [own] [] else emit unit "" [] [own]).run l₂ = .ok ((), l') →
      l'.Carries (!write) spans r := by
    intro l₂ f h
    rw [run_bind_eq_ok] at h
    obtain ⟨own, l₃, hown, h⟩ := h
    obtain ⟨f', hi⟩ := register_fetches hown
    exact access_carries (f.trans f') hspans hi h
  have f₁ := resource_fetches (Pool.sharedMember_tidily e _ write) hunit
  split at h
  · obtain ⟨_, l₂, hwidth, h⟩ := run_bind_eq_ok.mp h
    obtain ⟨_, l₃, howner, h⟩ := run_bind_eq_ok.mp h
    exact hlast ((f₁.trans (setWidth_fetches hwidth)).trans (addOwner_fetches howner)) h
  · obtain ⟨_, l₂, haccessor, h⟩ := run_bind_eq_ok.mp h
    exact hlast (f₁.trans (addAccessor_fetches haccessor)) h

theorem privateMember_carries {e : Entity} {width : UInt64} {initial : Int64} {write : Bool}
    {spans : Nat → Prop} (hspans : spans l.states.length)
    (h : (privateMember s e width initial r write).run l = .ok ((), l')) :
    l'.Carries (!write) spans r := by
  simp only [privateMember, run_bind_eq_ok] at h
  obtain ⟨member, l₁, hmember, own, l₂, hown, unit, l₃, hunit, h⟩ := h
  obtain ⟨f₂, hi⟩ := register_fetches hown
  have f₁ := (memberRegister_fetches hmember).1
  have f₃ := resource_fetches (Pool.ofKind_tidily "set") hunit
  exact access_carries ((f₁.trans f₂).trans f₃) hspans (f₃.kept hi) h

/-- A constant takes a new table register, which becomes that of the register. -/
theorem bindConstant_lookup {width : UInt64} {value : Int64}
    (h : (bindConstant r width value).run l = .ok ((), l')) :
    l'.locals.lookup r = some l.builder.registers.length := by
  simp only [bindConstant, run_bind_eq_ok] at h
  obtain ⟨i, l₁, hi, h⟩ := h
  cases run_build_eq_ok.mp hi
  cases run_bindLocal_eq_ok.mp h
  simp [Builder.constant, Builder.addRegister]

theorem storedMember_carries {e : Entity} {width : UInt64} {value : Int64} {const write : Bool}
    {spans : Nat → Prop} (hspans : spans l.states.length)
    (h : (storedMember s e width value const r write).run l = .ok ((), l')) :
    const = true ∧ write = false ∧ l'.locals.lookup r = some l.builder.registers.length ∨
      const = false ∧ l'.Carries (!write) spans r := by
  unfold storedMember at h
  split at h
  · rename_i hconst
    split at h
    · exact absurd h run_fault_ne_ok
    · rename_i hread
      exact .inl ⟨hconst, by simpa using hread, bindConstant_lookup h⟩
  · rename_i hconst
    refine .inr ⟨by simpa using hconst, ?_⟩
    split at h
    · exact sharedMember_carries hspans h
    · exact privateMember_carries hspans h

/-- What an access to a member does with the register, given the member: nothing for an object, a
new binding for a constant, and a state for any other. -/
theorem memberAccess_carries {i : Insn} {label : String} {write : Bool} (spans : Nat → Prop)
    (hspans : spans l.states.length)
    (h : (memberAccess s i label r write).run l = .ok ((), l')) :
    ∃ owner w v, l.walker.access s.machine i = .ok (owner, w) ∧
      (s.machine.object? owner).bind (·.lookup? label) = some v ∧
      ((∃ id, v = .object id) ∧ write = false ∨
        v.isConstant = true ∧ write = false ∧
          l'.locals.lookup r = some l.builder.registers.length ∨
        v.isConstant = false ∧ l'.Carries (!write) spans r) := by
  obtain ⟨owner, w, v, haccess, hlookup, hcases⟩ := memberAccess_eq_ok h
  refine ⟨owner, w, v, haccess, hlookup, ?_⟩
  rcases hcases with ⟨hobject, hread, -⟩ | ⟨width, value, const, hv, hrun⟩
  · exact .inl ⟨hobject, hread⟩
  · rw [hv.isConstant_eq]
    exact .inr (storedMember_carries (l := { l with walker := w }) hspans hrun)

theorem indexed_serves {a : Lowering} {unit : Nat} {index : RegisterId} {write : Bool}
    {spans : Nat → Prop} (hf : l.Fetches a) (hspans : spans l.states.length)
    (h : (indexed s unit index r write).run a = .ok ((), l')) :
    Serves spans (index :: if write then [r] else []) (if write then [] else [r]) l' := by
  simp only [indexed, run_bind_eq_ok] at h
  obtain ⟨i, l₁, hindex, own, l₂, hown, h⟩ := h
  obtain ⟨f₁, hi⟩ := register_fetches hindex
  obtain ⟨f₂, hj⟩ := register_fetches hown
  replace hi := f₂.kept hi
  have f : l.Fetches l₂ := (hf.trans f₁).trans f₂
  cases write
  · exact emit_serves f hspans (by simp [Found, hi]) (by simp [Found, hj]) h
  · exact emit_serves f hspans (by simp [Found, hi, hj]) (by simp [Found]) h

theorem arrayAccess_serves {array index : RegisterId} {write : Bool} {spans : Nat → Prop}
    (hspans : spans l.states.length)
    (h : (arrayAccess s array index r write).run l = .ok ((), l')) :
    Serves spans (index :: if write then [r] else []) (if write then [] else [r]) l' := by
  rw [arrayAccess, run_bind_of_ok (run_heldObject s array l)] at h
  split at h
  · split at h
    · rw [run_bind_eq_ok] at h
      obtain ⟨unit, l₁, hunit, h⟩ := h
      exact indexed_serves (arrayResource_fetches hunit) hspans h
    · exact absurd h run_fault_ne_ok
  · exact absurd h run_fault_ne_ok

theorem channelAccess_carries {channel : RegisterId} {write : Bool} {spans : Nat → Prop}
    (hspans : spans l.states.length)
    (h : (channelAccess s channel r write).run l = .ok ((), l')) :
    l'.Carries (!write) spans r := by
  rw [channelAccess, run_bind_of_ok (run_heldObject s channel l)] at h
  split at h
  · split at h
    · simp only [run_bind_eq_ok] at h
      obtain ⟨unit, l₁, hunit, own, l₂, hown, h⟩ := h
      obtain ⟨f₂, hi⟩ := register_fetches hown
      have f := (resource_fetches (Pool.channel_tidily _ write _) hunit).trans f₂
      cases write <;> simp only [Bool.false_eq_true, if_true, if_false, run_bind_eq_ok] at h <;>
        obtain ⟨_, l₃, hemit, h⟩ := h
      · have hcarries : l₃.Carries (!false) spans r := access_carries f hspans hi hemit
        cases run_build_eq_ok.mp h
        exact hcarries
      · have hcarries : l₃.Carries (!true) spans r := access_carries f hspans hi hemit
        cases run_build_eq_ok.mp h
        exact hcarries
    · exact absurd h run_fault_ne_ok
  · exact absurd h run_fault_ne_ok

theorem registers_serve {a l₁ : Lowering} {unit : Nat} {operand : String}
    {args : List RegisterId} {inputs : List Nat} {spans : Nat → Prop} (hf : l.Fetches a)
    (hspans : spans l.states.length) (hargs : (registers s args).run a = .ok (inputs, l₁))
    (h : (emit unit operand inputs []).run l₁ = .ok ((), l')) : Serves spans args [] l' := by
  obtain ⟨f, his⟩ := registers_fetches hargs
  exact emit_serves (hf.trans f) hspans (found_registers his) (by simp [Found]) h

theorem transfer_serves {id : Nat} {o : Object} {args : List RegisterId} {store : Bool}
    {spans : Nat → Prop} (hspans : spans l.states.length)
    (h : (transfer s id o args store).run l = .ok ((), l')) : Serves spans args [] l' := by
  unfold transfer at h
  split at h
  · rw [run_bind_eq_ok] at h
    obtain ⟨unit, l₁, hunit, h⟩ := h
    have f₁ := resource_fetches (Pool.arrayPort_tidily id o true) hunit
    by_cases howner : (s.owners.get (.whole id)).owner.isSome
    · simp only [if_pos howner, run_bind_eq_ok] at h
      obtain ⟨_, l₂, haccessor, inputs, l₃, hargs, h⟩ := h
      exact registers_serve (f₁.trans (addAccessor_fetches haccessor)) hspans hargs h
    · simp only [if_neg howner, run_bind_eq_ok] at h
      obtain ⟨inputs, l₂, hargs, h⟩ := h
      exact registers_serve f₁ hspans hargs h
  · exact absurd h run_fault_ne_ok

theorem nativeCall_serves {id : Nat} {o : Object} {f : Method} {args : List RegisterId}
    {spans : Nat → Prop} (hspans : spans l.states.length)
    (h : (nativeCall s id o f args).run l = .ok ((), l')) : Serves spans args [] l' := by
  unfold nativeCall at h
  split at h
  · simp only [run_bind_eq_ok] at h
    obtain ⟨unit, l₁, hunit, inputs, l₂, hargs, h⟩ := h
    exact registers_serve (resource_fetches (Pool.ofKind_tidily _) hunit) hspans hargs h
  · simp only [run_bind_eq_ok] at h
    obtain ⟨unit, l₁, hunit, inputs, l₂, hargs, h⟩ := h
    exact registers_serve (resource_fetches (Pool.ofKind_tidily _) hunit) hspans hargs h
  · simp only [run_bind_eq_ok] at h
    obtain ⟨unit, l₁, hunit, inputs, l₂, hargs, h⟩ := h
    split at h
    · -- Without arguments there is nothing to be read.
      rename_i hempty
      obtain ⟨-, his⟩ := registers_fetches hargs
      cases List.isEmpty_iff.mp hempty
      cases List.map_eq_nil_iff.mp his.symm
      exact ⟨by simp, by simp⟩
    · exact registers_serve (resource_fetches (Pool.ofKind_tidily _) hunit) hspans hargs h
  · exact transfer_serves hspans h
  · exact transfer_serves hspans h
  · exact absurd h run_error_ne_ok

theorem call_serves {object : RegisterId} {label : String} {args : List RegisterId}
    {spans : Nat → Prop} (hspans : spans l.states.length)
    (h : (call s object label args).run l = .ok ((), l')) : Serves spans args [] l' := by
  rw [call, run_bind_of_ok (run_heldObject s object l)] at h
  split at h
  · exact absurd h run_fault_ne_ok
  · rw [run_bind_of_ok (run_get_eq_ok.mpr rfl)] at h
    split at h
    · exact nativeCall_serves hspans h
    · simp only [run_bind_eq_ok] at h
      obtain ⟨unit, l₁, hunit, inputs, l₂, hargs, i, l₃, hi, h⟩ := h
      obtain ⟨f₂, his⟩ := registers_fetches hargs
      obtain ⟨f₃, rfl, hout⟩ := insn_fetches hi
      exact push_serves (((resource_fetches (Pool.ofKind_tidily _) hunit).trans f₂).trans f₃) hspans
        ((found_registers his).mono f₃) (by simp [Found]) h

/-- The results of a call become outputs of the state just before. -/
theorem callDone_serves {returns : List RegisterId}
    (h : (callDone s returns).run l = .ok ((), l')) :
    Serves (· + 1 = l.states.length) [] returns l' := by
  rw [callDone, run_bind_of_ok (run_get_eq_ok.mpr rfl)] at h
  split at h
  · rename_i id i jump callee hlast
    rw [run_bind_eq_ok] at h
    obtain ⟨outputs, l₁, hout, h⟩ := h
    cases run_modify_eq_ok.mp h
    obtain ⟨f, his⟩ := registers_fetches hout
    obtain ⟨sts, hsts⟩ := List.getLast?_eq_some_iff.mp hlast
    refine ⟨by simp, fun r hr => ?_⟩
    obtain ⟨j, hj, hlookup⟩ := found_registers his r hr
    refine ⟨j, sts.length, ⟨id, [{ i with outputs := i.outputs ++ outputs }], jump, callee⟩,
      { i with outputs := i.outputs ++ outputs }, hlookup, by simp [hsts], ?_,
      List.mem_singleton_self _, List.mem_append_right i.outputs hj⟩
    simp [f.states, hsts]
  · exact absurd h run_fault_ne_ok

section Computing

variable {spans : Nat → Prop} {target source : RegisterId}

theorem branch_serves {cond : RegisterId} {goal : UInt64} (hspans : spans l.states.length)
    (h : (branch s cond goal).run l = .ok ((), l')) : Serves spans [cond] [] l' := by
  simp only [branch, run_bind_eq_ok] at h
  obtain ⟨unit, l₁, hunit, c, l₂, hc, i, l₃, hi, h⟩ := h
  obtain ⟨f₂, hc⟩ := register_fetches hc
  obtain ⟨f₃, hin, -⟩ := insn_fetches hi
  exact push_serves (((resource_fetches Pool.transition_tidily hunit).trans f₂).trans f₃) hspans
    (by simp [Found, hin, f₃.kept hc]) (by simp [Found]) h

theorem assign_serves (hspans : spans l.states.length)
    (h : (assign s target source).run l = .ok ((), l')) : Serves spans [source] [target] l' := by
  simp only [assign, run_bind_eq_ok] at h
  obtain ⟨t, l₁, ht, r, l₂, hr, unit, l₃, hunit, h⟩ := h
  obtain ⟨f₁, ht⟩ := register_fetches ht
  obtain ⟨f₂, hr⟩ := register_fetches hr
  have f₃ := resource_fetches (Pool.ofKind_tidily "set") hunit
  exact emit_serves ((f₁.trans f₂).trans f₃) hspans (by simp [Found, f₃.kept hr])
    (by simp [Found, (f₂.trans f₃).kept ht]) h

theorem shift_serves {right : Bool} {amount : RegisterId} (hspans : spans l.states.length)
    (h : (shift s right target source amount).run l = .ok ((), l')) :
    Serves spans [source] [target] l' := by
  simp only [shift, run_bind_eq_ok] at h
  obtain ⟨value, l₀, hvalue, r, l₁, hr, unit, l₂, hunit, n, l₃, hn, t, l₄, ht, h⟩ := h
  obtain ⟨-, rfl⟩ := constantOf_eq_ok hvalue
  obtain ⟨f₁, hr⟩ := register_fetches hr
  obtain ⟨f₄, ht⟩ := register_fetches ht
  have f := ((resource_fetches (Pool.operator_tidily "shift" .truth) hunit).trans
    (constant_fetches hn).1).trans f₄
  exact emit_serves (f₁.trans f) hspans (by simp [Found, f.kept hr]) (by simp [Found, ht]) h

theorem concat_serves {left right : RegisterId} (hspans : spans l.states.length)
    (h : (concat s target left right).run l = .ok ((), l')) :
    Serves spans [left, right] [target] l' := by
  simp only [concat, run_bind_eq_ok] at h
  obtain ⟨x, l₁, hx, y, l₂, hy, unit, l₃, hunit, t, l₄, ht, h⟩ := h
  obtain ⟨f₁, hx⟩ := register_fetches hx
  obtain ⟨f₂, hy⟩ := register_fetches hy
  obtain ⟨f₄, ht⟩ := register_fetches ht
  have f := (resource_fetches (Pool.operator_tidily "bit-concat" .truth) hunit).trans f₄
  exact emit_serves ((f₁.trans f₂).trans f) hspans
    (by simp [Found, (f₂.trans f).kept hx, f.kept hy]) (by simp [Found, ht]) h

theorem count_serves {down : Bool} {operand : RegisterId} (hspans : spans l.states.length)
    (h : (count s down operand).run l = .ok ((), l')) : Serves spans [operand] [operand] l' := by
  simp only [count, run_bind_eq_ok] at h
  obtain ⟨r, l₁, hr, unit, l₂, hunit, one, l₃, hone, h⟩ := h
  obtain ⟨f₁, hr⟩ := register_fetches hr
  have f := (resource_fetches (Pool.operator_tidily _ _) hunit).trans (constant_fetches hone).1
  exact emit_serves (f₁.trans f) hspans (by simp [Found, f.kept hr]) (by simp [Found, f.kept hr]) h

theorem bitRange_serves {msb lsb : RegisterId} (hspans : spans l.states.length)
    (h : (bitRange s target source msb lsb).run l = .ok ((), l')) :
    Serves spans [source] [target] l' := by
  simp only [bitRange, run_bind_eq_ok] at h
  obtain ⟨high, l₀, hhigh, low, l₁, hlow, r, l₂, hr, unit, l₃, hunit, c, l₄, hc, d, l₅, hd, t, l₆,
    ht, h⟩ := h
  obtain ⟨-, rfl⟩ := constantOf_eq_ok hhigh
  obtain ⟨-, rfl⟩ := constantOf_eq_ok hlow
  obtain ⟨f₂, hr⟩ := register_fetches hr
  obtain ⟨f₆, ht⟩ := register_fetches ht
  have f := (((resource_fetches (Pool.operator_tidily "bit-sel" .truth) hunit).trans
    (constant_fetches hc).1).trans (constant_fetches hd).1).trans f₆
  exact emit_serves (f₂.trans f) hspans (by simp [Found, f.kept hr]) (by simp [Found, ht]) h

theorem invert_serves {logical : Bool} (hspans : spans l.states.length)
    (h : (instruction s (.invert logical target source)).run l = .ok ((), l')) :
    Serves spans [source] [target] l' := by
  simp only [instruction, invert, run_bind_eq_ok] at h
  obtain ⟨r, l₁, hr, t, l₂, ht, unit, l₃, hunit, h⟩ := h
  obtain ⟨f₁, hr⟩ := register_fetches hr
  obtain ⟨f₂, ht⟩ := register_fetches ht
  have f₃ := resource_fetches (Pool.operator_tidily "bit-inv" .truth) hunit
  exact emit_serves ((f₁.trans f₂).trans f₃) hspans (by simp [Found, (f₂.trans f₃).kept hr])
    (by simp [Found, f₃.kept ht]) h

theorem binary_serves {op : BinaryOp} {target left right : RegisterId}
    (h : (binary s op target left right).run l = .ok ((), l')) :
    Serves (Spans (.binary op target left right) l.states.length) [left, right] [target] l' := by
  unfold binary at h
  split at h
  · exact absurd h run_fault_ne_ok
  · simp only [run_bind_eq_ok] at h
    obtain ⟨unit, l₁, hunit, x, l₂, hx, y, l₃, hy, t, l₄, ht, h⟩ := h
    obtain ⟨f₂, hx⟩ := register_fetches hx
    obtain ⟨f₃, hy⟩ := register_fetches hy
    obtain ⟨f₄, ht⟩ := register_fetches ht
    replace hx := f₄.kept (f₃.kept hx)
    replace hy := f₄.kept hy
    have f : l.Fetches l₄ :=
      (((resource_fetches (Pool.operator_tidily _ _) hunit).trans f₂).trans f₃).trans f₄
    have hinputs : Found l₄ [left, right] (if swapsOperands op then [y, x] else [x, y]) := by
      split <;> simp [Found, hx, hy]
    split at h
    · rename_i hneg
      -- The comparison reads in the first state, and the inversion writes in the second.
      simp only [run_bind_eq_ok] at h
      obtain ⟨z, l₅, hz, _, l₆, hemit, h⟩ := h
      obtain ⟨f', hknown⟩ := storage_fetches hz
      have f₅ := f.trans f'
      have hreads : Serves (Spans (.binary op target left right) l.states.length) [left, right] []
          l₆ := emit_serves f₅ (by simp [Spans, stateCount, hneg])
            (hinputs.mono f') (by simp [Found]) hemit
      have hinvert : Advances s True (.rebinding fun _ => False) (invert z t) l₆ := by
        cases run_emit_eq_ok.mp hemit
        exact advances_invert (Lowering.knows_lt hknown.lt)
          (Lowering.gives_local trivial (f'.kept ht))
      have hmoves := hinvert.2 () l' h
      simp only [invert, run_bind_eq_ok] at h
      obtain ⟨unit', l₇, hunit', h⟩ := h
      have hwrites : Serves (· = l.states.length + 1) [] [target] l' := by
        cases run_build_eq_ok.mp hz
        cases run_emit_eq_ok.mp hemit
        refine emit_serves (resource_fetches (Pool.operator_tidily "bit-inv" .truth) hunit')
          (by simp [f.states]) (by simp [Found]) ?_ h
        cases run_build_eq_ok.mp hunit'
        simpa [Found] using ht
      refine ⟨(hreads.moves hmoves fun _ => id).reads, fun r hr => ?_⟩
      obtain ⟨j, n, st, i, hj, rfl, hrest⟩ := hwrites.writes r hr
      exact ⟨j, _, st, i, hj, by simp [Spans, stateCount, hneg], hrest⟩
    · rename_i hneg
      exact emit_serves f (by simp [Spans, stateCount, hneg]) hinputs (by simp [Found, ht]) h

end Computing

theorem num_lookup {target source : RegisterId} (h : (num s target source).run l = .ok ((), l')) :
    l'.locals.lookup target = some l.builder.registers.length := by
  unfold num at h
  split at h
  · split at h
    · exact bindConstant_lookup h
    · exact absurd h run_fault_ne_ok
  · exact absurd h run_fault_ne_ok

/-- The states of an instruction read and write the table registers of what the instruction reads
and writes, but for a register that it makes stand for a constant. -/
theorem instruction_carries {i : Insn} (h : (instruction s i).run l = .ok ((), l')) :
    (∀ r ∈ i.operands, l'.Carries false (Spans i l.states.length) r) ∧
      ∀ r ∈ l.walker.results s.machine i,
        l.walker.Rebinds s.machine i r ∨ l'.Carries true (Spans i l.states.length) r := by
  have hserves : Serves (Spans i l.states.length) i.operands (l.walker.results s.machine i) l' →
      (∀ r ∈ i.operands, l'.Carries false (Spans i l.states.length) r) ∧
        ∀ r ∈ l.walker.results s.machine i,
          l.walker.Rebinds s.machine i r ∨ l'.Carries true (Spans i l.states.length) r :=
    fun h => ⟨h.reads, fun r hr => .inr (h.writes r hr)⟩
  have hfirst : l.states.length ≤ l.states.length ∧ l.states.length < l.states.length + 1 := by
    omega
  cases i with
  | nop | goto target | loadObject target object label =>
    exact ⟨List.forall_mem_nil _, List.forall_mem_nil _⟩
  | branch cond target => exact hserves (branch_serves hfirst h)
  | num target source =>
    refine ⟨List.forall_mem_nil _, fun r hr => .inl (.inl ⟨source, ?_⟩)⟩
    rw [List.mem_singleton.mp hr]
  | assign target source => exact hserves (assign_serves hfirst h)
  | binary op target left right => exact hserves (binary_serves h)
  | shift right target source amount => exact hserves (shift_serves hfirst h)
  | concat target left right => exact hserves (concat_serves hfirst h)
  | count down operand => exact hserves (count_serves hfirst h)
  | bitRange target source msb lsb => exact hserves (bitRange_serves hfirst h)
  | invert logical target source => exact hserves (invert_serves hfirst h)
  | memberRead target object label =>
    refine ⟨List.forall_mem_nil _, fun r hr => ?_⟩
    obtain ⟨owner, w, v, haccess, hv, hcases⟩ :=
      memberAccess_carries (Spans (.memberRead target object label) l.states.length) hfirst h
    have howner := Walker.objectOf?_of_read haccess
    have hmember : ((l.walker.objectOf? object).bind s.machine.object?).bind (·.lookup? label) =
      some v := by rw [howner]; exact hv
    simp only [Walker.results, hmember] at hr
    split at hr
    · cases hr
    · rename_i hobject
      cases List.mem_singleton.mp hr
      rcases hcases with ⟨⟨id, rfl⟩, -⟩ | ⟨hconst, -⟩ | ⟨-, hcarries⟩
      · exact absurd rfl (hobject id)
      · exact .inl (.inr ⟨object, label, owner, v, rfl, howner, hv, hconst⟩)
      · exact .inr hcarries
  | memberWrite object label source =>
    refine ⟨fun r hr => ?_, List.forall_mem_nil _⟩
    cases List.mem_singleton.mp hr
    obtain ⟨owner, w, v, -, -, hcases⟩ :=
      memberAccess_carries (Spans (.memberWrite object label source) l.states.length) hfirst h
    rcases hcases with ⟨-, hwrite⟩ | ⟨-, hwrite, -⟩ | ⟨-, hcarries⟩
    · cases hwrite
    · cases hwrite
    · exact hcarries
  | arrayRead target object index => exact hserves (arrayAccess_serves hfirst h)
  | arrayWrite object index source => exact hserves (arrayAccess_serves hfirst h)
  | memoryRead target index =>
    obtain ⟨unit, l₁, hunit, h⟩ := run_bind_eq_ok.mp h
    exact hserves (indexed_serves (resource_fetches Pool.externalMemory_tidily hunit) hfirst h)
  | memoryWrite index source =>
    obtain ⟨unit, l₁, hunit, h⟩ := run_bind_eq_ok.mp h
    exact hserves (indexed_serves (resource_fetches Pool.externalMemory_tidily hunit) hfirst h)
  | channelRead target object =>
    refine ⟨List.forall_mem_nil _, fun r hr => .inr ?_⟩
    cases List.mem_singleton.mp hr
    exact channelAccess_carries hfirst h
  | channelWrite object source =>
    refine ⟨fun r hr => ?_, List.forall_mem_nil _⟩
    cases List.mem_singleton.mp hr
    exact channelAccess_carries hfirst h
  | call object label args => exact hserves (call_serves hfirst h)
  | callDone returns => exact hserves (callDone_serves h)

/-- A register that is made to stand for a constant has a new table register. -/
theorem instruction_rebinds {i : Insn} {r : RegisterId} (hr : l.walker.Rebinds s.machine i r)
    (h : (instruction s i).run l = .ok ((), l')) :
    l'.locals.lookup r = some l.builder.registers.length := by
  obtain ⟨source, rfl⟩ | ⟨object, label, owner, v, rfl, howner, hv, hconst⟩ := hr
  · exact num_lookup h
  · obtain ⟨owner', w, v', haccess, hv', hcases⟩ :=
      memberAccess_carries (fun _ => True) trivial h
    cases howner.symm.trans (Walker.objectOf?_of_read haccess)
    cases hv.symm.trans hv'
    rcases hcases with ⟨⟨id, rfl⟩, -⟩ | ⟨-, -, hlookup⟩ | ⟨hnot, -⟩
    · cases hconst
    · exact hlookup
    · cases hconst.symm.trans hnot

end Instructions

end Lower
end Synth
end MachineSynth
