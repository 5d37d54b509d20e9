import Mathlib
import MachineSynth.Proofs.Lowering.Computing
import MachineSynth.Proofs.Lowering.Steps

/-! Stops: what the lowering of whole methods can stop with, and the calls that it leaves to be
expanded. -/
namespace MachineSynth
namespace Synth
namespace Lower

open Lowering (Move)

section Entry

variable {s : Site} {guard : Prop} {may : Allowance} {l l' : Lowering}

/-- Whether arguments have been passed in: whatever is bound then, and was not before, is a register
of the table that can be written. -/
structure Passed (l l' : Lowering) (js : List Nat) : Prop where
  states : l'.states = l.states
  builder : l.builder.Grows l'.builder
  writable : ∀ j ∈ js, Rtl.Writable l'.builder.registers j
  bound : ∀ {r : RegisterId} {j : Nat}, l'.locals.lookup r = some j →
    l.locals.lookup r = some j ∨ Rtl.Writable l'.builder.registers j

theorem argumentRegisters_passed {i : Nat} {args : List VarDecl} {js : List Nat}
    (h : (argumentRegisters s i args).run l = .ok (js, l')) : Passed l l' js := by
  induction args generalizing i l js with
  | nil =>
    cases run_pure_eq_ok.mp h
    exact ⟨rfl, .refl _, by simp, .inl⟩
  | cons d rest ih =>
    simp only [argumentRegisters, run_bind_eq_ok] at h
    obtain ⟨j, l₁, hj, h⟩ := h
    have hnew := (storage_fetches hj).2
    cases run_build_eq_ok.mp hj
    have hgrows := l.builder.grows_storage d.name ((argumentWidth? d).getD 0)
    have hrest : ∀ {locals : List (RegisterId × Nat)}, (∀ {r k}, locals.lookup r = some k →
        l.locals.lookup r = some k ∨ k = (l.builder.storage d.name ((argumentWidth? d).getD 0)).1) →
        (do return (l.builder.storage d.name ((argumentWidth? d).getD 0)).1 ::
            (← argumentRegisters s (i + 1) rest) : Lower (List Nat)).run
          { l with builder := (l.builder.storage d.name ((argumentWidth? d).getD 0)).2,
                   locals := locals } = .ok (js, l') → Passed l l' js := by
      intro locals hlocals h
      obtain ⟨js', l₃, hrun, h⟩ := run_bind_eq_ok.mp h
      cases run_pure_eq_ok.mp h
      have hpassed := ih hrun
      have hnew := hnew.mono hpassed.builder.registers
      refine ⟨hpassed.states, hgrows.trans hpassed.builder,
        List.forall_mem_cons.mpr ⟨hnew, hpassed.writable⟩, fun hk => ?_⟩
      obtain hk | hk := hpassed.bound hk
      · obtain hk | rfl := hlocals hk
        · exact .inl hk
        · exact .inr hnew
      · exact .inr hk
    split at h
    · rw [run_bind_eq_ok] at h
      obtain ⟨_, l₂, hbind, h⟩ := h
      cases run_bindLocal_eq_ok.mp hbind
      refine hrest (fun {r k} hk => ?_) h
      rw [lookup_cons_eq] at hk
      split at hk
      · exact .inr (Option.some.inj hk).symm
      · exact .inl hk
    · exact hrest .inl h

theorem advances_argumentRegisters (hrebinds : ∀ r, may.rebinds r) (i : Nat) (args : List VarDecl)
    (l : Lowering) : Advances s guard may (argumentRegisters s i args) l := by
  induction args generalizing i l with
  | nil => exact obeys_pure [] l
  | cons d rest ih =>
    refine (advances_storage _ _ l).bind fun r l₁ hr => ?_
    have hlt := (storage_fetches hr).2.lt
    have hrest : ∀ l₂, Advances s guard may
        (do return r :: (← argumentRegisters s (i + 1) rest)) l₂ :=
      fun l₂ => (ih (i + 1) l₂).bind fun rs l₃ _ => obeys_pure (r :: rs) l₃
    split
    · exact (advances_bindLocal hlt (.inr (hrebinds _))).bind fun _ l₂ _ => hrest l₂
    · exact hrest l₁

theorem advances_resultRegisters (l : Lowering) : Advances s guard may (resultRegisters s) l := by
  unfold resultRegisters
  split
  · exact (advances_storage _ _ l).bind fun r l₁ _ => obeys_pure [r] l₁
  · exact advances_registers _ l

/-- What results go to can be written, or is what the register of a result is bound to. -/
theorem resultRegisters_fetches {js : List Nat} (h : (resultRegisters s).run l = .ok (js, l')) :
    l.Fetches l' ∧ ∀ j ∈ js, Rtl.Writable l'.builder.registers j ∨
      ∃ r, s.IsResult r ∧ l'.locals.lookup r = some j := by
  unfold resultRegisters at h
  split at h
  · obtain ⟨r, l₁, hr, h⟩ := run_bind_eq_ok.mp h
    cases run_pure_eq_ok.mp h
    obtain ⟨hfetches, hwritable⟩ := storage_fetches hr
    exact ⟨hfetches, fun j hj => .inl (List.mem_singleton.mp hj ▸ hwritable)⟩
  · obtain ⟨hfetches, hjs⟩ := registers_fetches h
    refine ⟨hfetches, fun j hj => .inr ?_⟩
    obtain ⟨r, hr, hlookup⟩ := exists_of_mem_registers hjs hj
    obtain ⟨n, hn, rfl⟩ := List.mem_map.mp hr
    exact ⟨_, ⟨n, List.mem_range.mp hn, rfl⟩, hlookup⟩

theorem entry_cases {e : Rtl.Insn} (h : (entry s).run l = .ok (e, l')) :
    ∃ l₁ l₂ : Lowering, Relation.ReflTransGen (Move s .none) l l₁ ∧
      (argumentRegisters s 0 s.method.args).run l₁ = .ok (e.inputs, l₂) ∧
      (resultRegisters s).run l₂ = .ok (e.outputs, l') := by
  simp only [entry, run_bind_eq_ok] at h
  obtain ⟨unit, l₁, hunit, i, l₂, hi, inputs, l₃, hinputs, outputs, l₄, houtputs, h⟩ := h
  split at h
  · exact absurd h run_error_ne_ok
  · cases run_pure_eq_ok.mp h
    have hmoves : Advances s True .none (do
        let unit ← resource Pool.pseudo
        insn unit "method_entry" [] []) l :=
      (advances_resource (Pool.ofKind_tidily _) l).bind fun unit l₁ _ =>
        advances_insn unit _ _ _ l₁
    exact ⟨l₂, l₃, hmoves.2 i l₂ (run_bind_eq_ok.mpr ⟨unit, l₁, hunit, hi⟩), hinputs, houtputs⟩

theorem advances_entry (hrebinds : ∀ r, may.rebinds r) (l : Lowering) :
    Advances s guard may (entry s) l := by
  refine (advances_resource (Pool.ofKind_tidily _) l).bind fun unit l₁ _ => ?_
  refine (advances_insn unit _ _ _ l₁).bind fun i l₂ _ => ?_
  refine (advances_argumentRegisters hrebinds 0 s.method.args l₂).bind fun inputs l₃ _ => ?_
  refine (advances_resultRegisters l₃).bind fun outputs l₄ _ => ?_
  split
  · exact advances_error (fun _ => by exact trivial) l₄
  · exact obeys_pure _ l₄

/-- The table registers of an entry: those of arguments can be written. -/
theorem entry_inputs {e : Rtl.Insn} (h : (entry s).run l = .ok (e, l')) :
    ∀ j ∈ e.inputs, Rtl.Writable l'.builder.registers j := by
  obtain ⟨l₁, l₂, -, hinputs, houtputs⟩ := entry_cases h
  exact fun j hj => ((argumentRegisters_passed hinputs).writable j hj).mono
    (resultRegisters_fetches houtputs).1.builder.registers

theorem entry_gives {e : Rtl.Insn} (hgives : ∀ r, s.IsResult r → may.gives r)
    (h : (entry s).run l = .ok (e, l')) : ∀ j ∈ e.outputs, l'.Gives may.gives j := by
  obtain ⟨l₁, l₂, -, -, houtputs⟩ := entry_cases h
  intro j hj
  obtain hwritable | ⟨r, hr, hlookup⟩ := (resultRegisters_fetches houtputs).2 j hj
  · exact Lowering.gives_writable hwritable
  · exact Lowering.gives_local (hgives r hr) hlookup

theorem entry_within {e : Rtl.Insn} (hl : l.Bounded) (h : (entry s).run l = .ok (e, l')) :
    e.Within l'.builder.registers.length := by
  have hentry : Advances s True .all (entry s) l := advances_entry (fun _ => trivial) l
  have hl' := Lowering.bounded_of_moves (hentry.2 e l' h) hl
  obtain ⟨l₁, l₂, -, -, houtputs⟩ := entry_cases h
  refine ⟨fun j hj => (entry_inputs h j hj).lt, fun j hj => ?_⟩
  obtain hwritable | ⟨r, -, hr⟩ := (resultRegisters_fetches houtputs).2 j hj
  · exact hwritable.lt
  · exact hl' r j hr

theorem advances_wait {e : Rtl.Insn} (he : ∀ j ∈ e.inputs, Rtl.Writable l.builder.registers j) :
    Advances s guard may (wait s e) l := by
  have hrest : ∀ {take kind}, Pool.TakesTidily take kind → Advances s guard may (do
      let unit ← resource take
      emit unit "" [] e.inputs) l := by
    intro take kind ht
    refine (advances_resource ht l).bind fun unit l₁ hunit => ?_
    exact advances_emit (by simp) fun j hj => Lowering.gives_writable
      ((he j hj).mono (resource_fetches ht hunit).builder.registers)
  refine (obeys_get l).bind fun a l₁ ha => ?_
  cases run_get_eq_ok.mp ha
  dsimp only
  split
  · exact hrest (Pool.ofKind_tidily _)
  · split
    · exact hrest (Pool.dataFlow_tidily _)
    · exact hrest (Pool.ofKind_tidily _)

end Entry

section Linking

variable {s : Site} {guard : Prop} {may : Allowance} {read : Nat → Prop}

/-- What rewriting a state may do: it only builds, and the state only gets more, but nothing that it
gives a value to. -/
def Rewrites (guard : Prop) (read : Nat → Prop) (f : Lower LoweredState) (st : LoweredState)
    (l : Lowering) : Prop :=
  Ends (fun e => guard → e.IsOfLowering)
    (fun st' l' => st.Widens read (fun _ => False) st' ∧ ∃ b : Builder, l.builder.Grows b ∧
      l' = { l with builder := b }) f l

theorem rewrites_pure (st : LoweredState) (l : Lowering) : Rewrites guard read (pure st) st l :=
  ends_of_ok (run_pure_eq_ok.mpr rfl) ⟨.refl st, l.builder, .refl _, rfl⟩

theorem mem_updateTransition {resources : List Rtl.Resource} {f : Rtl.Insn → Rtl.Insn}
    {insns : List Rtl.Insn} {j : Rtl.Insn} (h : j ∈ Rtl.updateTransition resources f insns) :
    j ∈ insns ∨ ∃ i ∈ insns, i.isTransition resources = true ∧ j = f i := by
  induction insns with
  | nil => cases h
  | cons i rest ih =>
    unfold Rtl.updateTransition at h
    split at h
    · rename_i htr
      rcases List.mem_cons.mp h with rfl | h
      · exact .inr ⟨i, by simp, htr, rfl⟩
      · exact .inl (List.mem_cons_of_mem _ h)
    · rcases List.mem_cons.mp h with rfl | h
      · exact .inl (by simp)
      · rcases ih h with h | ⟨i', hi', htr, rfl⟩
        · exact .inl (List.mem_cons_of_mem _ h)
        · exact .inr ⟨i', List.mem_cons_of_mem _ hi', htr, rfl⟩

theorem exists_mem_updateTransition {resources : List Rtl.Resource} {targets : List Nat}
    {insns : List Rtl.Insn} {i : Rtl.Insn} (h : i ∈ insns) :
    ∃ i' ∈ Rtl.updateTransition resources (fun i => { i with targets := i.targets ++ targets })
      insns, i'.inputs = i.inputs ∧ i.outputs <+: i'.outputs := by
  induction insns with
  | nil => cases h
  | cons j rest ih =>
    unfold Rtl.updateTransition
    split
    · rcases List.mem_cons.mp h with rfl | h
      · exact ⟨_, List.mem_cons_self, rfl, List.prefix_rfl⟩
      · exact ⟨i, List.mem_cons_of_mem _ h, rfl, List.prefix_rfl⟩
    · rcases List.mem_cons.mp h with rfl | h
      · exact ⟨i, List.mem_cons_self, rfl, List.prefix_rfl⟩
      · obtain ⟨i', hi', hports⟩ := ih h
        exact ⟨i', List.mem_cons_of_mem _ hi', hports⟩

theorem widens_updateTransition (resources : List Rtl.Resource) (targets : List Nat)
    (st : LoweredState) : st.Widens read (fun _ => False) { st with
      insns := Rtl.updateTransition resources (fun i => { i with targets := i.targets ++ targets })
        st.insns } := by
  refine ⟨rfl, fun i => exists_mem_updateTransition, fun k hk j hj => .inr ?_,
    fun k hk j hj => .inr ?_⟩ <;> obtain hk | ⟨i, hi, -, rfl⟩ := mem_updateTransition hk
  · exact ⟨k, hk, hj⟩
  · exact ⟨i, hi, hj⟩
  · exact ⟨k, hk, hj⟩
  · exact ⟨i, hi, hj⟩

theorem widens_append (st : LoweredState) {insns : List Rtl.Insn}
    (h : ∀ i ∈ insns, (∀ j ∈ i.inputs, read j) ∧ i.outputs = []) :
    st.Widens read (fun _ => False) { st with insns := st.insns ++ insns } := by
  refine ⟨rfl, fun i hi => ⟨i, List.mem_append_left insns hi, rfl, List.prefix_rfl⟩,
    fun i hi j hj => ?_, fun i hi j hj => ?_⟩ <;> rcases List.mem_append.mp hi with hi | hi
  · exact .inr ⟨i, hi, hj⟩
  · exact .inl ((h i hi).1 j hj)
  · exact .inr ⟨i, hi, hj⟩
  · rw [(h i hi).2] at hj
    cases hj

theorem rewrites_addTargets (targets : List Nat) (st : LoweredState) (l : Lowering) :
    Rewrites guard read (addTargets targets st) st l := by
  refine Ends.bind (P := fun _ l' => l' = l) (ends_of_ok (run_get_eq_ok.mpr rfl) rfl) ?_
  rintro a _ - rfl
  dsimp only
  split
  · exact ends_of_ok (run_pure_eq_ok.mpr rfl)
      ⟨widens_updateTransition _ targets st, _, .refl _, rfl⟩
  · exact ends_of_ok rfl ⟨widens_append st (by simp), _,
      (Builder.grows_resource Pool.transition_tidily).trans Builder.grows_newInsn, rfl⟩

theorem rewrites_resolveJump (starts : List Nat) (i : Nat) (st : LoweredState) (l : Lowering) :
    Rewrites guard read (resolveJump s starts i st) st l := by
  have htarget : ∀ target : UInt64, Ends (fun e => guard → e.IsOfLowering) (fun _ l' => l' = l)
      (jumpTarget s starts target) l := by
    intro target
    unfold jumpTarget
    split
    · exact ends_of_ok (run_pure_eq_ok.mpr rfl) rfl
    · exact ends_of_error rfl fun _ => trivial
  unfold resolveJump
  split
  · refine (htarget _).bind ?_
    rintro t _ - rfl
    exact rewrites_addTargets _ st _
  · refine (htarget _).bind ?_
    rintro t _ - rfl
    exact rewrites_addTargets _ st _
  · exact rewrites_pure st l

theorem rewrites_linkState (last i : Nat) (st : LoweredState) (l : Lowering) :
    Rewrites guard read (linkState last i st) st l := by
  refine Ends.bind (P := fun _ l' => l' = l) (ends_of_ok (run_get_eq_ok.mpr rfl) rfl) ?_
  rintro _ _ - rfl
  dsimp only
  split
  · exact rewrites_pure st _
  · split
    · exact rewrites_pure st _
    · exact rewrites_addTargets _ st _

/-- The last state hands the results back, and so reads what they are in. -/
theorem rewrites_close {e : Rtl.Insn} (he : ∀ j ∈ e.outputs, read j) (st : LoweredState)
    (l : Lowering) : Rewrites guard read (do
      let insns ← finish s e
      addTargets [0] { st with insns := st.insns ++ insns }) st l := by
  have hfinish : Ends (fun e => guard → e.IsOfLowering)
      (fun insns l' => (∀ i ∈ insns, (∀ j ∈ i.inputs, read j) ∧ i.outputs = []) ∧
        ∃ b : Builder, l.builder.Grows b ∧ l' = { l with builder := b }) (finish s e) l := by
    have hwork : ∀ {kind : String}, Ends (fun e => guard → e.IsOfLowering)
        (fun insns l' => (∀ i ∈ insns, (∀ j ∈ i.inputs, read j) ∧ i.outputs = []) ∧
          ∃ b : Builder, l.builder.Grows b ∧ l' = { l with builder := b }) (do
        let unit ← resource (·.ofKind kind)
        return [← insn unit "" e.outputs []]) l :=
      fun {kind} => ends_of_ok rfl ⟨by simpa using he, _,
        (Builder.grows_resource (Pool.ofKind_tidily kind)).trans Builder.grows_newInsn, rfl⟩
    unfold finish
    split
    · exact hwork
    · split
      · exact ends_of_ok rfl ⟨by simp, l.builder, .refl _, rfl⟩
      · exact hwork
  refine hfinish.bind ?_
  rintro insns _ - ⟨hinsns, b, hb, rfl⟩
  have hadds : Rewrites guard read (addTargets [0] { st with insns := st.insns ++ insns })
      { st with insns := st.insns ++ insns } { l with builder := b } := rewrites_addTargets _ _ _
  refine hadds.mono (fun _ => id) ?_
  rintro st' _ ⟨hst, b', hb', rfl⟩
  exact ⟨(widens_append st hinsns).trans hst, b', hb.trans hb', rfl⟩

theorem mapStates_ends {f : Nat → LoweredState → Lower LoweredState}
    (hf : ∀ j st a, Rewrites guard read (f j st) st a) (sts : List LoweredState) (k : Nat)
    (l : Lowering) :
    Ends (fun e => guard → e.IsOfLowering) (fun sts' l' =>
      List.Forall₂ (LoweredState.Widens read fun _ => False) sts sts' ∧ ∃ b : Builder,
        l.builder.Grows b ∧ l' = { l with builder := b })
      (mapStates f k sts) l := by
  induction sts generalizing k l with
  | nil => exact ends_of_ok (run_pure_eq_ok.mpr rfl) ⟨.nil, l.builder, .refl _, rfl⟩
  | cons st rest ih =>
    refine (hf k st l).bind ?_
    rintro st' _ - ⟨hst, b, hb, rfl⟩
    refine (ih (k + 1) _).bind ?_
    rintro rest' _ - ⟨hrest, b', hb', rfl⟩
    exact ends_of_ok (run_pure_eq_ok.mpr rfl) ⟨.cons hst hrest, b', hb.trans hb', rfl⟩

theorem advances_updateStates {f : Nat → LoweredState → Lower LoweredState} {l : Lowering}
    (hf : ∀ j st a, Rewrites guard l.Knows (f j st) st a) (h : may.amends) :
    Advances s guard may (updateStates f) l := by
  refine (obeys_get l).bind fun a l₁ ha => ?_
  cases run_get_eq_ok.mp ha
  refine Ends.bind (mapStates_ends hf l.states 0 l) ?_
  rintro sts _ - ⟨hsts, b, hb, rfl⟩
  exact ends_of_ok (run_modify_eq_ok.mpr rfl) (.single (.link l hb
    (hsts.imp fun st st' hst => hst.mono (fun _ => id) fun j hj => hj.elim) h))

theorem advances_linkStates (h : may.amends) (l : Lowering) :
    Advances s guard may linkStates l := by
  refine (obeys_get l).bind fun a l₁ ha => ?_
  cases run_get_eq_ok.mp ha
  exact advances_updateStates (rewrites_linkState _) h

theorem advances_closeLoop {e : Rtl.Insn} {l : Lowering} (h : may.amends)
    (he : e.Within l.builder.registers.length) : Advances s guard may (closeLoop s e) l := by
  refine (obeys_get l).bind fun a l₁ ha => ?_
  cases run_get_eq_ok.mp ha
  refine advances_updateStates (fun j st a => ?_) h
  split
  · exact rewrites_close (fun j hj => Lowering.knows_lt (he.outputs j hj)) st a
  · exact rewrites_pure st a

end Linking

section Methods

variable {s : Site} {guard : Prop} {may : Allowance} {l l' : Lowering} {e : Rtl.Insn}

theorem code_append (s : Site) (first rest : List Insn) : code s (first ++ rest) = (do
    let starts ← code s first
    let more ← code s rest
    return starts ++ more) := by
  induction first with
  | nil => simp [code]
  | cons i first ih =>
    simp only [List.cons_append, code, ih]
    simp only [bind_assoc, pure_bind]
    refine bind_congr fun l => bind_congr fun _ => bind_congr fun l' => ?_
    split <;> simp

def upTo (s : Site) (k : Nat) : Lower (Rtl.Insn × List Nat) := do
  let e ← opening s
  let starts ← code s (s.method.code.take k)
  return (e, starts)

theorem body_eq_upTo (s : Site) (k : Nat) : body s = (do
    let (e, starts) ← upTo s k
    let more ← code s (s.method.code.drop k)
    closing s e (starts ++ more)) := by
  have hcode := code_append s (s.method.code.take k) (s.method.code.drop k)
  rw [List.take_append_drop] at hcode
  simp [body_eq, upTo, hcode]

theorem advances_opening (hrebinds : ∀ r, may.rebinds r) (l : Lowering) :
    Advances s guard may (opening s) l := by
  refine (advances_entry hrebinds l).bind fun e l₁ he => ?_
  split
  · exact (advances_wait (entry_inputs he)).bind fun _ l₂ _ => obeys_pure e l₂
  · exact obeys_pure e l₁

/-- What comes after the entry, before the code, gets on by moves. -/
theorem opening_moves (h : (opening s).run l = .ok (e, l')) :
    ∃ l₁, (entry s).run l = .ok (e, l₁) ∧ Relation.ReflTransGen (Move s may) l₁ l' := by
  obtain ⟨e', l₁, he, h⟩ := run_bind_eq_ok.mp h
  split at h
  · obtain ⟨_, l₂, hwait, h⟩ := run_bind_eq_ok.mp h
    cases run_pure_eq_ok.mp h
    have hwaits : Advances s True may (wait s e) l₁ := advances_wait (entry_inputs he)
    exact ⟨l₁, he, hwaits.2 _ _ hwait⟩
  · cases run_pure_eq_ok.mp h
    exact ⟨_, he, .refl⟩

theorem opening_within (hl : l.Bounded) (h : (opening s).run l = .ok (e, l')) :
    e.Within l'.builder.registers.length := by
  have hopens : ∃ l₁, (entry s).run l = .ok (e, l₁) ∧
    Relation.ReflTransGen (Move s .none) l₁ l' := opening_moves h
  obtain ⟨l₁, he, hmoves⟩ := hopens
  exact (entry_within hl he).mono (Lowering.grows_of_moves hmoves).registers.length_le

theorem closing_returns {starts : List Nat} {e' : Rtl.Insn}
    (h : (closing s e starts).run l = .ok (e', l')) : e' = e := by
  simp only [closing, run_bind_eq_ok] at h
  obtain ⟨_, _, -, _, _, -, _, _, -, _, _, -, h⟩ := h
  split at h
  · obtain ⟨_, _, -, h⟩ := run_bind_eq_ok.mp h
    exact congrArg Prod.fst (run_pure_eq_ok.mp h)
  · exact congrArg Prod.fst (run_pure_eq_ok.mp h)

theorem advances_closing (starts : List Nat) (h : may.amends)
    (he : e.Within l.builder.registers.length) : Advances s guard may (closing s e starts) l := by
  have hwithin : ∀ a b, Move s may a b → e.Within a.builder.registers.length →
      e.Within b.builder.registers.length := fun _ _ => Move.within
  refine (advances_pushNone none l).bind_of_preserved hwithin he fun _ l₁ _ he => ?_
  refine (obeys_get l₁).bind fun a l₂ ha => ?_
  cases run_get_eq_ok.mp ha
  have hresolves : ∀ starts, Advances s guard may (updateStates (resolveJump s starts)) l₁ :=
    fun starts => advances_updateStates (rewrites_resolveJump starts) h
  refine (hresolves _).bind_of_preserved hwithin he fun _ l₃ _ he => ?_
  refine (advances_linkStates h l₃).bind_of_preserved hwithin he fun _ l₄ _ he => ?_
  split
  · exact (advances_closeLoop h he).bind fun _ l₅ _ => obeys_pure e l₅
  · exact obeys_pure e l₄

variable {leaves : Callee → Prop}

theorem advances_body (hl : l.Sound) (hbounded : l.Bounded)
    (hguard : guard → l.walker.Guarded s.machine s.method.code)
    (hleaves : ∀ c, l.walker.Along s.machine s.method.code (·.Leaves s.machine s.object · c) →
      leaves c) : Advances s guard (.calling leaves) (body s) l := by
  rw [body_eq]
  have hopens : Advances s guard (.calling leaves) (opening s) l :=
    advances_opening (fun _ => trivial) l
  refine hopens.bind fun e l₁ hopening => ?_
  obtain ⟨hl₁, hwalker⟩ := opening_walker hl hopening
  have hcode := code_advances (s := s) s.method.code hl₁
  rw [hwalker] at hcode
  have hcode : Advances s guard (.calling leaves) (code s s.method.code) l₁ :=
    hcode.mono (fun e he hg => he (hguard hg)) fun a b hab =>
      hab.mono (Allowance.within_calling hleaves)
  exact hcode.bind_of_preserved (fun _ _ => Move.within) (opening_within hbounded hopening)
    fun starts l₂ _ he => advances_closing starts trivial he

theorem body_moves (hl : l.Sound) (hbounded : l.Bounded) (h : (body s).run l = .ok (e, l')) :
    ∃ l₁, (entry s).run l = .ok (e, l₁) ∧ Relation.ReflTransGen (Move s .all) l₁ l' := by
  simp only [body_eq, run_bind_eq_ok] at h
  obtain ⟨e', l₁, hopening, starts, l₂, hcode, hclosing⟩ := h
  obtain rfl := closing_returns hclosing
  obtain ⟨l₀, he, hmoves⟩ := opening_moves hopening
  have hcodes : Relation.ReflTransGen (Move s .all) l₁ l₂ := Relation.ReflTransGen.mono
    (fun _ _ hab => hab.mono (Allowance.within_all _)) _ _
    ((code_advances s.method.code (opening_walker hl hopening).1).2 _ _ hcode)
  have hcloses : Advances s True .all (closing s e starts) l₂ := advances_closing starts trivial
    ((opening_within hbounded hopening).mono (Lowering.grows_of_moves hcodes).registers.length_le)
  exact ⟨l₀, he, (hmoves.trans hcodes).trans (hcloses.2 _ _ hclosing)⟩

/-- What follows the entry of an imported method. -/
theorem advances_embedding (h : may.amends) (hin : ∀ j ∈ e.inputs, l.Knows j)
    (hout : ∀ j ∈ e.outputs, l.Gives may.gives j) : Advances s guard may (do
      emit (← resource (·.embedded s.method.imported)) "" e.inputs e.outputs
      push [] none none
      linkStates
      return e) l := by
  refine (advances_resource (Pool.embedded_tidily _) l).bind fun unit l₁ hunit => ?_
  have hfetches := resource_fetches (Pool.embedded_tidily _) hunit
  refine (advances_emit (fun j hj => (hin j hj).fetches hfetches)
    fun j hj => (hout j hj).fetches hfetches).bind fun _ l₂ _ => ?_
  refine (advances_pushNone none l₂).bind fun _ l₃ _ => ?_
  exact (advances_linkStates h l₃).bind fun _ l₄ _ => obeys_pure e l₄

/-- Results may be given values by what follows the entry of an imported method. -/
theorem imported_moves (hgives : ∀ r, s.IsResult r → may.gives r) (hamends : may.amends)
    (h : (imported s).run l = .ok (e, l')) :
    ∃ l₁, (entry s).run l = .ok (e, l₁) ∧ Relation.ReflTransGen (Move s may) l₁ l' := by
  obtain ⟨e', l₁, he, h⟩ := run_bind_eq_ok.mp h
  have hadvances : Advances s True may _ l₁ := advances_embedding hamends
    (fun j hj => Lowering.knows_lt (entry_inputs he j hj).lt) (entry_gives hgives he)
  have hmoves := hadvances.2 e l' h
  simp only [run_bind_eq_ok] at h
  obtain ⟨_, _, -, _, _, -, _, _, -, _, _, -, h⟩ := h
  cases run_pure_eq_ok.mp h
  exact ⟨l₁, he, hmoves⟩

theorem advances_imported (l : Lowering) : Advances s guard (.calling leaves) (imported s) l := by
  refine (advances_entry (fun _ => trivial) l).bind fun e l₁ he => ?_
  exact advances_embedding trivial (fun j hj => Lowering.knows_lt (entry_inputs he j hj).lt)
    (entry_gives (fun _ _ => trivial) he)

theorem advances_work {take : Pool → Nat × Pool} {kind : String} (ht : Pool.TakesTidily take kind)
    (inputs outputs : List Nat) (l : Lowering) : Advances s guard may (do
      let unit ← resource take
      return [← insn unit "" inputs outputs]) l :=
  (advances_resource ht l).bind fun unit l₁ _ =>
    (advances_insn unit _ _ _ l₁).bind fun i l₂ _ => obeys_pure [i] l₂

theorem work_fetches {take : Pool → Nat × Pool} {kind : String} (ht : Pool.TakesTidily take kind)
    {inputs outputs : List Nat} {insns : List Rtl.Insn} (h : (do
      let unit ← resource take
      return [← insn unit "" inputs outputs] : Lower (List Rtl.Insn)).run l = .ok (insns, l')) :
    l.Fetches l' ∧ ∀ i ∈ insns, i.inputs = inputs ∧ i.outputs = outputs := by
  obtain ⟨unit, l₁, hunit, h⟩ := run_bind_eq_ok.mp h
  obtain ⟨i, l₂, hi, h⟩ := run_bind_eq_ok.mp h
  cases run_pure_eq_ok.mp h
  obtain ⟨hfetches, hports⟩ := insn_fetches hi
  exact ⟨(resource_fetches ht hunit).trans hfetches, by simpa using hports⟩

theorem advances_outputInsns (e : Rtl.Insn) (l : Lowering) :
    Advances s guard may (outputInsns s e) l := by
  unfold outputInsns
  split
  · split
    · exact advances_error (fun _ => by exact trivial) l
    · exact advances_work (Pool.port_tidily _ _ _) _ _ l
  · exact obeys_pure [] l

theorem outputInsns_fetches {insns : List Rtl.Insn}
    (h : (outputInsns s e).run l = .ok (insns, l')) :
    l.Fetches l' ∧ ∀ i ∈ insns, i.inputs = e.inputs.take 1 ∧ i.outputs = [] := by
  unfold outputInsns at h
  split at h
  · split at h
    · exact absurd h run_error_ne_ok
    · exact work_fetches (Pool.port_tidily _ _ _) h
  · cases run_pure_eq_ok.mp h
    exact ⟨.refl l, by simp⟩

theorem advances_inputInsns (e : Rtl.Insn) (l : Lowering) :
    Advances s guard may (inputInsns s e) l := by
  unfold inputInsns
  split
  · split
    · exact advances_error (fun _ => by exact trivial) l
    · exact advances_work (Pool.port_tidily _ _ _) _ _ l
  · exact obeys_pure [] l

theorem inputInsns_fetches {insns : List Rtl.Insn}
    (h : (inputInsns s e).run l = .ok (insns, l')) :
    l.Fetches l' ∧ ∀ i ∈ insns, i.inputs = [] ∧ i.outputs = e.outputs.take 1 := by
  unfold inputInsns at h
  split at h
  · split at h
    · exact absurd h run_error_ne_ok
    · exact work_fetches (Pool.port_tidily _ _ _) h
  · cases run_pure_eq_ok.mp h
    exact ⟨.refl l, by simp⟩

/-- What follows the entry of a method that is a port. -/
theorem advances_porting (h : may.amends) (hin : ∀ j ∈ e.inputs, l.Knows j)
    (hout : ∀ j ∈ e.outputs, l.Gives may.gives j) : Advances s guard may (do
      let outputs ← outputInsns s e
      let inputs ← inputInsns s e
      push (outputs ++ inputs) none none
      push [] none none
      linkStates
      return e) l := by
  refine (advances_outputInsns e l).bind fun outputs l₁ houtputs => ?_
  refine (advances_inputInsns e l₁).bind fun inputs l₂ hinputs => ?_
  obtain ⟨f₁, houtputs⟩ := outputInsns_fetches houtputs
  obtain ⟨f₂, hinputs⟩ := inputInsns_fetches hinputs
  have hadmits : ∀ i ∈ outputs ++ inputs, l₂.Admits may.gives i := by
    intro i hi
    rcases List.mem_append.mp hi with hi | hi
    · obtain ⟨hi, hnone⟩ := houtputs i hi
      refine ⟨fun j hj => ?_, by simp [hnone]⟩
      exact (hin j (List.mem_of_mem_take (hi ▸ hj))).fetches (f₁.trans f₂)
    · obtain ⟨hnone, hi⟩ := hinputs i hi
      refine ⟨by simp [hnone], fun j hj => ?_⟩
      exact (hout j (List.mem_of_mem_take (hi ▸ hj))).fetches (f₁.trans f₂)
  refine (advances_push (fun c hc => by cases hc) hadmits).bind fun _ l₃ _ => ?_
  refine (advances_pushNone none l₃).bind fun _ l₄ _ => ?_
  exact (advances_linkStates h l₄).bind fun _ l₅ _ => obeys_pure e l₅

theorem port_moves (hgives : ∀ r, s.IsResult r → may.gives r) (hamends : may.amends)
    (h : (port s).run l = .ok (e, l')) :
    ∃ l₁, (entry s).run l = .ok (e, l₁) ∧ Relation.ReflTransGen (Move s may) l₁ l' := by
  obtain ⟨e', l₁, he, h⟩ := run_bind_eq_ok.mp h
  have hadvances : Advances s True may _ l₁ := advances_porting hamends
    (fun j hj => Lowering.knows_lt (entry_inputs he j hj).lt) (entry_gives hgives he)
  have hmoves := hadvances.2 e l' h
  simp only [run_bind_eq_ok] at h
  obtain ⟨_, _, -, _, _, -, _, _, -, _, _, -, _, _, -, h⟩ := h
  cases run_pure_eq_ok.mp h
  exact ⟨l₁, he, hmoves⟩

theorem advances_port (l : Lowering) : Advances s guard (.calling leaves) (port s) l := by
  refine (advances_entry (fun _ => trivial) l).bind fun e l₁ he => ?_
  exact advances_porting trivial (fun j hj => Lowering.knows_lt (entry_inputs he j hj).lt)
    (entry_gives (fun _ _ => trivial) he)

end Methods

end Lower

namespace Lowering

variable {s : Site} {may : Allowance} {l l' : Lowering}

def Calls (leaves : Callee → Prop) (l : Lowering) : Prop :=
  ∀ st ∈ l.states, ∀ c ∈ st.callee, leaves c

theorem Move.calls (h : Move s may l l') (hl : l.Calls may.leaves) : l'.Calls may.leaves := by
  cases h with
  | build => exact hl
  | push _ callee _ =>
    intro st hst
    rcases List.mem_append.mp hst with hst | hst
    · exact hl st hst
    · rw [List.mem_singleton.mp hst]
      exact callee
  | bind => exact hl
  | walk w => exact hl
  | link _ widens =>
    intro st' hst' c hc
    obtain ⟨st, hst, hwidens⟩ := exists_mem_of_forall₂ widens hst'
    exact hl st hst c (hwidens.callee ▸ hc)

theorem calls_of_moves (h : Relation.ReflTransGen (Move s may) l l') (hl : l.Calls may.leaves) :
    l'.Calls may.leaves :=
  preserved_of_steps (fun hmove => hmove.calls) h hl

end Lowering
end Synth
end MachineSynth
