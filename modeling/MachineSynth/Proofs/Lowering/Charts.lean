import Mathlib
import MachineSynth.Proofs.Lowering.Stops
import MachineSynth.Proofs.Simulation

/-! Charts: where in a lowered method the states of each instruction are, and where each of them
leads. Positions are counted by the instructions before, and jumps are found at the positions that
instructions have. -/
namespace MachineSynth
namespace Synth

open Rtl (kindAt)
open LoweredState (Idle Routed)

/-- Whether a state leads to some states, in that order, and nowhere else: its transition does, and
so do all its instructions together. -/
structure LoweredState.LeadsTo (resources : List Rtl.Resource) (targets : List Nat)
    (st : LoweredState) : Prop where
  transition : ((Rtl.transition? resources st.insns).map (·.targets)).getD [] = targets
  only : st.insns.flatMap (·.targets) = targets

def Lowering.LeadsAt (l : Lowering) (j : Nat) (targets : List Nat) : Prop :=
  ∃ st, l.states[j]? = some st ∧ st.LeadsTo l.builder.pool.resources targets

namespace LoweredState

variable {resources : List Rtl.Resource} {starts : List Nat} {closes : Bool} {n i : Nat}
  {st st' : LoweredState}

theorem leadsTo_nil (hidle : st.Idle resources) (ht : ∀ k ∈ st.insns, k.targets = []) :
    st.LeadsTo resources [] :=
  ⟨by rw [transition?_eq_none hidle]; rfl, List.flatMap_eq_nil_iff.mpr ht⟩

theorem leadsTo_append {targets : List Nat} {j : Rtl.Insn} (hidle : st.Idle resources)
    (ht : ∀ k ∈ st.insns, k.targets = []) (hj : Leads resources targets j) :
    LeadsTo resources targets { st with insns := st.insns ++ [j] } := by
  refine ⟨?_, ?_⟩
  · rw [transition?_append_of_none (transition?_eq_none hidle) hj.kind]
    exact hj.targets
  · rw [List.flatMap_append, List.flatMap_eq_nil_iff.mpr ht, List.nil_append,
      List.flatMap_singleton, hj.targets]

theorem Routed.id (h : Routed resources starts closes n i st st') : st'.id = st.id := by
  cases h with
  | jump _ jumps => cases jumps <;> rfl
  | _ => rfl

theorem Routed.leadsTo_goto {target : UInt64} (h : Routed resources starts closes n i st st')
    (hjump : st.jump = some (.goto target)) :
    ∃ t, starts[target.toNat]? = some t ∧ st'.LeadsTo resources [t] := by
  cases h with
  | jump lt jumps =>
    cases jumps with
    | goto id target start leads =>
      cases hjump
      have hidle : Idle resources ⟨id, [], some (.goto target), none⟩ := fun k hk => by cases hk
      exact ⟨_, start, leadsTo_append hidle (by simp) leads⟩
    | branch id cond target start kind => cases hjump
  | next lt none => cases none.symm.trans hjump
  | last eq none => cases none.symm.trans hjump
  | close eq none => cases none.symm.trans hjump

theorem Routed.leadsTo_branch {cond : RegisterId} {target : UInt64}
    (h : Routed resources starts closes n i st st')
    (hjump : st.jump = some (.branch cond target)) :
    ∃ t, starts[target.toNat]? = some t ∧ st'.LeadsTo resources [t, i + 1] := by
  cases h with
  | jump lt jumps =>
    cases jumps with
    | goto id target start leads => cases hjump
    | branch id cond target start kind =>
      rename_i t j
      cases hjump
      have hkind : kindAt resources ({ j with targets := [t, i + 1] } : Rtl.Insn).resource =
          some Rtl.Resource.transitionKind := kind
      refine ⟨t, start, ?_, by simp⟩
      rw [Rtl.transition?, List.find?_singleton, Rtl.isTransition_eq hkind]
      rfl
  | next lt none => cases none.symm.trans hjump
  | last eq none => cases none.symm.trans hjump
  | close eq none => cases none.symm.trans hjump

theorem Routed.leadsTo_next (h : Routed resources starts closes n i st st')
    (ht : ∀ k ∈ st.insns, k.targets = []) (hjump : st.jump = none) (hlt : i + 1 < n) :
    st'.LeadsTo resources [i + 1] := by
  cases h with
  | jump lt jumps => cases jumps <;> cases hjump
  | next lt none idle leads => exact leadsTo_append idle ht leads
  | last eq => omega
  | close eq => omega

theorem Routed.leadsTo_last (h : Routed resources starts closes n i st st')
    (ht : ∀ k ∈ st.insns, k.targets = []) (heq : i + 1 = n) :
    st'.LeadsTo resources (if closes then [0] else []) := by
  cases h with
  | jump lt => omega
  | next lt => omega
  | last eq none idle stays => simpa [stays] using leadsTo_nil idle ht
  | close eq none idle back works leads =>
    rename_i fin j
    have hidle : Idle resources { st with insns := st.insns ++ fin } := by
      intro k hk
      rcases List.mem_append.mp hk with hk | hk
      · exact idle k hk
      · obtain ⟨-, kind, hkind, hne, -⟩ := works k hk
        exact ⟨kind, hkind, hne⟩
    have htargets : ∀ k ∈ st.insns ++ fin, k.targets = [] := fun k hk =>
      (List.mem_append.mp hk).elim (ht k) fun hk => (works k hk).1
    simpa [back] using leadsTo_append hidle htargets leads

end LoweredState

namespace Lowering

variable {starts : List Nat} {closes : Bool} {l l' : Lowering} {j : Nat}

theorem Linked.ids (h : Linked starts closes l l') :
    l'.states.map (·.id) = l.states.map (·.id) := by
  refine List.ext_getElem? fun j => ?_
  rcases Nat.lt_or_ge j l.states.length with hlt | hge
  · obtain ⟨st', hst', hrouted⟩ := h.state (List.getElem?_eq_getElem hlt)
    rw [List.getElem?_map, List.getElem?_map, hst', List.getElem?_eq_getElem hlt, Option.map_some,
      Option.map_some, hrouted.id]
  · rw [List.getElem?_eq_none (by simpa [h.length] using hge),
      List.getElem?_eq_none (by simpa using hge)]

theorem Grows.ids {u : Uses} (h : Grows u l l') :
    l.states.map (·.id) <+: l'.states.map (·.id) := by
  simpa [Function.comp_def, LoweredState.bare] using h.states.map (·.id)

theorem Linked.raw (h : Linked starts closes l l') (hl : l.Sound) {jump : Option Insn}
    (hj : l.jumps[j]? = some jump) : ∃ st st', l'.states[j]? = some st' ∧ st.jump = jump ∧
      (∀ k ∈ st.insns, k.targets = []) ∧
      Routed l'.builder.pool.resources starts closes l.states.length j st st' := by
  simp only [jumps, List.getElem?_map, Option.map_eq_some_iff] at hj
  obtain ⟨st, hst, hjump⟩ := hj
  obtain ⟨st', hst', hrouted⟩ := h.state hst
  exact ⟨st, st', hst', hjump, (hl.states st (List.mem_of_getElem? hst)).targets, hrouted⟩

theorem Linked.leadsAt_goto (h : Linked starts closes l l') (hl : l.Sound) {target : UInt64}
    (hj : l.jumps[j]? = some (some (.goto target))) :
    ∃ t, starts[target.toNat]? = some t ∧ l'.LeadsAt j [t] := by
  obtain ⟨st, st', hst', hjump, -, hrouted⟩ := h.raw hl hj
  obtain ⟨t, ht, hleads⟩ := hrouted.leadsTo_goto hjump
  exact ⟨t, ht, st', hst', hleads⟩

theorem Linked.leadsAt_branch (h : Linked starts closes l l') (hl : l.Sound) {cond : RegisterId}
    {target : UInt64} (hj : l.jumps[j]? = some (some (.branch cond target))) :
    ∃ t, starts[target.toNat]? = some t ∧ l'.LeadsAt j [t, j + 1] := by
  obtain ⟨st, st', hst', hjump, -, hrouted⟩ := h.raw hl hj
  obtain ⟨t, ht, hleads⟩ := hrouted.leadsTo_branch hjump
  exact ⟨t, ht, st', hst', hleads⟩

theorem Linked.leadsAt_next (h : Linked starts closes l l') (hl : l.Sound)
    (hj : l.jumps[j]? = some none) (hlt : j + 1 < l.states.length) : l'.LeadsAt j [j + 1] := by
  obtain ⟨st, st', hst', hjump, ht, hrouted⟩ := h.raw hl hj
  exact ⟨st', hst', hrouted.leadsTo_next ht hjump hlt⟩

theorem Linked.leadsAt_last (h : Linked starts closes l l') (hl : l.Sound)
    (hj : j + 1 = l.states.length) : l'.LeadsAt j (if closes then [0] else []) := by
  obtain ⟨jump, hjump⟩ : ∃ jump, l.jumps[j]? = some jump :=
    ⟨_, List.getElem?_eq_getElem (by rw [jumps, List.length_map]; omega)⟩
  obtain ⟨st, st', hst', -, ht, hrouted⟩ := h.raw hl hjump
  exact ⟨st', hst', hrouted.leadsTo_last ht hj⟩

end Lowering

namespace Lower

variable {s : Site} {l l' : Lowering}

theorem code_starts {is : List Insn} {starts : List Nat} (hl : l.Sound)
    (h : (code s is).run l = .ok (starts, l')) :
    starts = (List.range is.length).map fun k => l.states.length + offset (is.take k) := by
  obtain ⟨-, -, hlen, hat⟩ := code_spec hl h
  refine List.ext_getElem? fun k => ?_
  rcases Nat.lt_or_ge k is.length with hlt | hge
  · obtain ⟨a, b, ha, -, hstart, -⟩ := hat k _ (List.getElem?_eq_getElem hlt)
    rw [hstart, ha.count]
    simp [hlt]
  · rw [List.getElem?_eq_none (hlen ▸ hge), List.getElem?_eq_none (by simpa using hge)]

/-- A state that stands for a jump is the first one of a jump in the code. -/
theorem getElem?_flatMap_marks {is : List Insn} {m : Nat} {i : Insn} :
    (is.flatMap marks)[m]? = some (some i) ↔
      ∃ k, is[k]? = some i ∧ i.jumpTarget? ≠ none ∧ m = offset (is.take k) := by
  constructor
  · intro h
    induction is generalizing m with
    | nil => simp at h
    | cons j rest ih =>
      rw [List.flatMap_cons] at h
      rcases Nat.lt_or_ge m (marks j).length with hlt | hge
      · rw [List.getElem?_append_left hlt] at h
        -- Only jumps leave marks, and a jump has one state.
        by_cases hj : j.jumpTarget? = none
        · simp [marks, hj, List.getElem?_replicate] at h
        · rw [length_marks, stateCount_of_jump hj] at hlt
          obtain rfl : m = 0 := by omega
          simp only [marks, hj, if_false, List.getElem?_cons_zero, Option.some.injEq] at h
          exact ⟨0, by rw [h]; rfl, h ▸ hj, rfl⟩
      · rw [List.getElem?_append_right hge] at h
        obtain ⟨k, hk, hi, hm⟩ := ih h
        refine ⟨k + 1, hk, hi, ?_⟩
        rw [length_marks] at hge hm
        rw [List.take_succ_cons, offset_cons]
        omega
  · rintro ⟨k, hk, hi, rfl⟩
    obtain ⟨hlt, rfl⟩ := List.getElem?_eq_some_iff.mp hk
    have hsplit : is.flatMap marks = (is.take k).flatMap marks ++
        (marks is[k] ++ (is.drop (k + 1)).flatMap marks) := by
      rw [← List.flatMap_cons, ← List.drop_eq_getElem_cons hlt, ← List.flatMap_append,
        List.take_append_drop]
    rw [hsplit, List.getElem?_append_right (length_flatMap_marks _).le, length_flatMap_marks,
      Nat.sub_self, marks, if_neg hi]
    rfl

/-- Neither the states before the code nor the one behind it stand for jumps. -/
theorem getElem?_method_marks {is : List Insn} {f m : Nat} {i : Insn} :
    (List.replicate f none ++ is.flatMap marks ++ [none])[m]? = some (some i) ↔
      ∃ k, is[k]? = some i ∧ i.jumpTarget? ≠ none ∧ m = f + offset (is.take k) := by
  have hend : ∀ {xs : List (Option Insn)} {m : Nat},
      (xs ++ [none])[m]? = some (some i) ↔ xs[m]? = some (some i) := by
    intro xs m
    rcases Nat.lt_or_ge m xs.length with hlt | hge
    · rw [List.getElem?_append_left hlt]
    · rw [List.getElem?_append_right hge, List.getElem?_eq_none hge]
      simp [List.getElem?_singleton]
  rw [hend]
  rcases Nat.lt_or_ge m f with hlt | hge
  · rw [List.getElem?_append_left (by simpa using hlt)]
    constructor
    · intro h
      simp [List.getElem?_replicate] at h
    · rintro ⟨k, -, -, rfl⟩
      omega
  · obtain ⟨m, rfl⟩ := Nat.exists_eq_add_of_le hge
    rw [List.getElem?_append_right (by simp), List.length_replicate, Nat.add_sub_cancel_left,
      getElem?_flatMap_marks]
    simp only [Nat.add_left_cancel_iff]

theorem run_opening {e : Rtl.Insn} {l₁ l₂ : Lowering} (he : (entry s).run l = .ok (e, l₁))
    (hwait : s.role = .inner ∧ l₂ = l₁ ∨ s.role ≠ .inner ∧ (wait s e).run l₁ = .ok ((), l₂)) :
    (opening s).run l = .ok (e, l₂) := by
  unfold opening
  rw [run_bind_of_ok he]
  rcases hwait with ⟨hrole, rfl⟩ | ⟨hrole, hwait⟩
  · simp only [hrole, bne_self_eq_false, Bool.false_eq_true, if_false]
    rfl
  · have hrole' : (s.role != .inner) = true := by simpa using hrole
    rw [if_pos hrole', run_bind_of_ok hwait]
    rfl

/-- A method is lowered in stages, one for each instruction. -/
theorem run_upTo {e : Rtl.Insn} {l₂ l₃ : Lowering} {starts : List Nat} {k : Nat} (hl₂ : l₂.Sound)
    (hopening : (opening s).run l = .ok (e, l₂))
    (hcode : (code s s.method.code).run l₂ = .ok (starts, l₃)) (hk : k ≤ s.method.code.length) :
    ∃ a, (upTo s k).run l = .ok ((e, (List.range k).map fun j =>
        l₂.states.length + offset (s.method.code.take j)), a) ∧
      a.states.length = l₂.states.length + offset (s.method.code.take k) ∧
      a.states.map (·.id) <+: l₃.states.map (·.id) := by
  rw [← List.take_append_drop k s.method.code, code_append] at hcode
  simp only [run_bind_eq_ok] at hcode
  obtain ⟨first, a, hfirst, rest, l₄, hrest, h⟩ := hcode
  cases run_pure_eq_ok.mp h
  have ha := (code_spec hl₂ hfirst).1
  refine ⟨a, ?_, ha.count, (code_spec ha.sound hrest).2.1.ids⟩
  rw [upTo, run_bind_of_ok hopening, run_bind_of_ok hfirst, code_starts hl₂ hfirst,
    List.length_take_of_le hk]
  refine congrArg (fun starts => Except.ok ((e, starts), a)) (List.map_congr_left fun j hj => ?_)
  rw [List.take_take, Nat.min_eq_left (List.mem_range.mp hj).le]

/-- The states of a method before they are linked: as many as its code takes, with jumps where the
code has them. -/
structure Laid (s : Site) (l : Lowering) : Prop where
  sound : l.Sound
  length : l.states.length = s.position s.method.code.length + 1
  jump : ∀ {j : Nat} {i : Insn}, l.jumps[j]? = some (some i) ↔
    ∃ k, s.method.code[k]? = some i ∧ i.jumpTarget? ≠ none ∧ j = s.position k

def positions (s : Site) : List Nat := (List.range (s.method.code.length + 1)).map s.position

theorem getElem?_positions {k t : Nat} :
    (positions s)[k]? = some t ↔ k ≤ s.method.code.length ∧ t = s.position k := by
  rw [positions, List.getElem?_map, Option.map_eq_some_iff]
  constructor
  · rintro ⟨j, hj, rfl⟩
    obtain ⟨hlt, rfl⟩ := List.getElem?_eq_some_iff.mp hj
    rw [List.length_range] at hlt
    exact ⟨Nat.le_of_lt_succ hlt, by rw [List.getElem_range]⟩
  · rintro ⟨hk, rfl⟩
    exact ⟨k, List.getElem?_range (Nat.lt_succ_of_le hk), rfl⟩

theorem body_laid {b : Builder} {e : Rtl.Insn} (hb : b.Sound)
    (h : (body s).run ⟨b, Walker.start s.object, [], []⟩ = .ok (e, l)) :
    ∃ l₀, Laid s l₀ ∧ l₀.Linked (positions s) (s.role != .inner) l ∧
      ∀ k ≤ s.method.code.length, ∃ a : Lowering,
        (upTo s k).run ⟨b, Walker.start s.object, [], []⟩ =
            .ok ((e, (List.range k).map s.position), a) ∧
          a.states.length = s.position k ∧ a.states.map (·.id) <+: l₀.states.map (·.id) := by
  have hstart : Lowering.Sound ⟨b, Walker.start s.object, [], []⟩ := Site.start_sound hb s.object
  obtain ⟨l₁, l₂, l₃, starts, he, -, hwait, q, hcode, hlinked⟩ := body_spec (u := .none) hstart h
  have hat := (code_spec q.sound hcode).1
  have hposition : ∀ k, l₂.states.length + offset (s.method.code.take k) = s.position k := by
    have hfirst : l₂.states.length = firstState s.role := by simpa using q.count
    exact fun k => by rw [hfirst, Site.position]
  have hcount : l₃.states.length = s.position s.method.code.length := by
    rw [hat.count, ← hposition, List.take_length]
  have hstarts : starts ++ [l₃.states.length] = positions s := by
    rw [code_starts q.sound hcode, positions, List.range_succ, List.map_append, hcount]
    simp only [hposition, List.map_singleton]
  refine ⟨pushed l₃, ⟨(pushed_step (u := .none) hat.sound).sound, ?_, ?_⟩, hstarts ▸ hlinked,
    fun k hk => ?_⟩
  · rw [← hcount]
    simp [pushed]
  · intro j i
    have hjumps : (pushed l₃).jumps =
        List.replicate (firstState s.role) none ++ s.method.code.flatMap marks ++ [none] := by
      rw [(pushed_step (u := .none) hat.sound).jumps, hat.jumps, q.jumps]
      rfl
    rw [hjumps, getElem?_method_marks]
    rfl
  · obtain ⟨a, hrun, hlen, hids⟩ := run_upTo q.sound (run_opening he hwait) hcode hk
    simp only [hposition] at hrun hlen
    refine ⟨a, hrun, hlen, hids.trans ?_⟩
    rw [pushed, List.map_append]
    exact List.prefix_append _ _

end Lower

open Lower (stateCount upTo)

/-- The chart of a lowered method. The instruction at `k` has the states from `s.position k` on, up
to where those of the next start; there is a state to wait in before them all if the method is the
entry of a thread, and a last state behind them. A jump leads to where its target starts, a branch
else to the next state; any other state leads to the next one, but the last, which leads to the
state to wait in, if there is one. -/
structure Charted (s : Site) (b : Builder) (e : Rtl.Insn) (l : Lowering) : Prop where
  sound : l.builder.Sound
  first : s.position 0 = if s.role = .inner then 0 else 1
  extent : ∀ (k : Nat) (i : Insn), s.method.code[k]? = some i →
    s.position (k + 1) = s.position k + stateCount i
  length : l.states.length = s.position s.method.code.length + 1
  /-- How far the lowering is when it comes to an instruction, with the starts found so far. -/
  stage : ∀ k ≤ s.method.code.length, ∃ a : Lowering,
    (upTo s k).run ⟨b, Walker.start s.object, [], []⟩ =
        .ok ((e, (List.range k).map s.position), a) ∧
      a.states.length = s.position k ∧ a.states.map (·.id) <+: l.states.map (·.id)
  goto : ∀ (k : Nat) (target : UInt64), s.method.code[k]? = some (.goto target) →
    target.toNat ≤ s.method.code.length ∧ l.LeadsAt (s.position k) [s.position target.toNat]
  branch : ∀ (k : Nat) (cond : RegisterId) (target : UInt64),
    s.method.code[k]? = some (.branch cond target) → target.toNat ≤ s.method.code.length ∧
      l.LeadsAt (s.position k) [s.position target.toNat, s.position k + 1]
  next : ∀ j < s.position s.method.code.length, (∀ (k : Nat) (i : Insn),
    s.method.code[k]? = some i → i.jumpTarget? ≠ none → j ≠ s.position k) → l.LeadsAt j [j + 1]
  last : l.LeadsAt (s.position s.method.code.length) (if s.role = .inner then [] else [0])

/-- Whatever its code, a method that can be lowered is charted. -/
theorem body_charted {s : Site} {b : Builder} {e : Rtl.Insn} {l : Lowering} (hb : b.Sound)
    (h : (Lower.body s).run ⟨b, Walker.start s.object, [], []⟩ = .ok (e, l)) :
    Charted s b e l := by
  obtain ⟨l₀, hlaid, hlinked, hstages⟩ := Lower.body_laid hb h
  refine ⟨hlinked.sound, by simp [Site.position, Lower.firstState], fun k i => Site.position_succ,
    hlinked.length.trans hlaid.length, fun k hk => ?_, fun k target hk => ?_,
    fun k cond target hk => ?_, fun j hj hnone => ?_, ?_⟩
  · rw [hlinked.ids]
    exact hstages k hk
  · have hjump := hlaid.jump.mpr ⟨k, hk, by simp [Insn.jumpTarget?], rfl⟩
    obtain ⟨t, ht, hleads⟩ := hlinked.leadsAt_goto hlaid.sound hjump
    obtain ⟨hle, rfl⟩ := Lower.getElem?_positions.mp ht
    exact ⟨hle, hleads⟩
  · have hjump := hlaid.jump.mpr ⟨k, hk, by simp [Insn.jumpTarget?], rfl⟩
    obtain ⟨t, ht, hleads⟩ := hlinked.leadsAt_branch hlaid.sound hjump
    obtain ⟨hle, rfl⟩ := Lower.getElem?_positions.mp ht
    exact ⟨hle, hleads⟩
  · have hlt : j + 1 < l₀.states.length := by
      rw [hlaid.length]
      omega
    refine hlinked.leadsAt_next hlaid.sound ?_ hlt
    have hj' : j < l₀.jumps.length := by
      rw [Lowering.jumps, List.length_map]
      omega
    rw [List.getElem?_eq_getElem hj', Option.some.injEq, Option.eq_none_iff_forall_ne_some]
    intro i hi
    obtain ⟨k, hk, htarget, hjk⟩ := hlaid.jump.mp ((List.getElem?_eq_getElem hj').trans
      (congrArg some hi))
    exact hnone k i hk htarget hjk
  · have hleads := hlinked.leadsAt_last hlaid.sound hlaid.length.symm
    by_cases hrole : s.role = .inner <;> simpa [hrole] using hleads

/-- In the counting method the comparison has two states, the branch leaves the loop for the last
state, and the goto leads back to the first instruction. -/
theorem counting_charted :
    (Builder.ofPool (.empty ⟨0, 0⟩)).Sound ∧
    ∃ e l, (Lower.body countingSite).run
        ⟨Builder.ofPool (.empty ⟨0, 0⟩), Walker.start 0, [], []⟩ = .ok (e, l) ∧
      Charted countingSite (Builder.ofPool (.empty ⟨0, 0⟩)) e l ∧
      countingSite.position 1 = 2 ∧ countingSite.position 2 = 4 ∧
      l.LeadsAt 4 [8, 5] ∧ l.LeadsAt 7 [1] ∧ l.LeadsAt 8 [0] := by
  have hb := Builder.sound_ofPool (Pool.sound_empty ⟨0, 0⟩)
  obtain ⟨e, l, starts, hrun, -⟩ := body_builds hb countingSite_onlyComputes
  have h := body_charted hb hrun
  exact ⟨hb, e, l, hrun, h, rfl, rfl, (h.branch 2 2 6 rfl).2, (h.goto 5 0 rfl).2, h.last⟩

end Synth
end MachineSynth
