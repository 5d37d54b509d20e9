import Mathlib
import MachineSynth.Proofs.Execution
import MachineSynth.Synth.Expand

/-! The layout of expanded tables: where the copy of a method stands that a chain of calls leads
to. The states of a copy come first, then the copies of what they call, in the same order. -/
namespace MachineSynth
namespace Synth
namespace Expand

/-- The call of a state that a copy of the callee replaces, with the callee. Calls of other objects
and into data-flow threads are left as they are. -/
def inlined? (env : Env) (resources : List Rtl.Resource) (st : LoweredState) :
    Option (Rtl.Insn × Context) :=
  match st.callee, st.insns.find? (isPseudo resources) with
  | some c, some i =>
    if (Walker.calledMethod? env.machine (some c.object) c.method).any (·.marks.dataFlowEntry) ||
      c.outside then none
    else (env.contexts.lookup c.method).map (i, ·)
  | _, _ => none

/-- How many states are copied for the calls of some states, given the sizes of callees. -/
def room (env : Env) (resources : List Rtl.Resource) (size : Context → Nat)
    (states : List LoweredState) : Nat :=
  (states.map fun st => ((inlined? env resources st).map fun x => size x.2).getD 0).sum

/-- How many states a context is copied to, together with what it calls. -/
def size (env : Env) (resources : List Rtl.Resource) : Nat → Context → Nat
  | 0, _ => 0
  | depth + 1, c => c.states.length + room env resources (size env resources depth) c.states

section Room

variable {env : Env} {resources : List Rtl.Resource} {f : Context → Nat}

@[simp] theorem room_nil : room env resources f [] = 0 := rfl

theorem room_append (as bs : List LoweredState) :
    room env resources f (as ++ bs) = room env resources f as + room env resources f bs := by
  simp [room]

theorem room_of_inlined {st : LoweredState} {i : Rtl.Insn} {c : Context}
    (h : inlined? env resources st = some (i, c)) : room env resources f [st] = f c := by
  simp [room, h]

theorem room_of_none {st : LoweredState} (h : inlined? env resources st = none) :
    room env resources f [st] = 0 := by
  simp [room, h]

theorem room_take_succ {states : List LoweredState} {k : Nat} {st : LoweredState}
    (h : states[k]? = some st) : room env resources f (states.take (k + 1)) =
      room env resources f (states.take k) + room env resources f [st] := by
  rw [List.take_add_one, h, Option.toList_some, room_append]

theorem room_take_mono (states : List LoweredState) {j k : Nat} (h : j ≤ k) :
    room env resources f (states.take j) ≤ room env resources f (states.take k) := by
  obtain ⟨d, rfl⟩ := Nat.exists_eq_add_of_le h
  rw [List.take_add, room_append]
  exact Nat.le_add_right _ _

theorem room_take_le (states : List LoweredState) (k : Nat) :
    room env resources f (states.take k) ≤ room env resources f states := by
  conv_rhs => rw [← List.take_append_drop k states, room_append]
  exact Nat.le_add_right _ _

theorem exists_room {states : List LoweredState} {j : Nat} (h : j < room env resources f states) :
    ∃ k st x, states[k]? = some st ∧ inlined? env resources st = some x ∧
      room env resources f (states.take k) ≤ j ∧
      j < room env resources f (states.take k) + f x.2 := by
  induction states generalizing j with
  | nil => simp at h
  | cons st rest ih =>
    have hcons : room env resources f (st :: rest) =
        room env resources f [st] + room env resources f rest := room_append [st] rest
    by_cases hfirst : j < room env resources f [st]
    · cases hst : inlined? env resources st with
      | none => simp [room_of_none hst] at hfirst
      | some x =>
        rw [room_of_inlined (i := x.1) (c := x.2) hst] at hfirst
        exact ⟨0, st, x, rfl, hst, by simp, by simpa using hfirst⟩
    · obtain ⟨k, st', x, hst', hx, hge, hlt⟩ := ih (j := j - room env resources f [st]) (by omega)
      have htake : room env resources f ((st :: rest).take (k + 1)) =
          room env resources f [st] + room env resources f (rest.take k) :=
        room_append [st] (rest.take k)
      exact ⟨k + 1, st', x, hst', hx, by omega, by omega⟩

theorem context_of_inlined {st : LoweredState} {i : Rtl.Insn} {c : Context}
    (h : inlined? env resources st = some (i, c)) : ∃ name, env.contexts.lookup name = some c := by
  unfold inlined? at h
  split at h
  · split at h
    · cases h
    · obtain ⟨c', hc', heq⟩ := Option.map_eq_some_iff.mp h
      cases heq
      exact ⟨_, hc'⟩
  · cases h

end Room

structure Copy where
  /-- The position of its first state. -/
  base : Nat
  /-- How many methods may be nested in it, itself included. -/
  depth : Nat
  context : Context
  /-- For the copy of a callee: what its last state assigns, and where it leads. -/
  back : Option (List (Nat × Nat) × Nat)

namespace Copy

variable (env : Env) (resources : List Rtl.Resource)

/-- The copy that replaces the call of a state. -/
def enter (κ : Copy) (k : Nat) : Option Copy :=
  match κ.depth with
  | 0 => none
  | depth + 1 =>
    ((κ.context.states[k]?).bind (inlined? env resources)).map fun x =>
      { base := κ.base + κ.context.states.length +
          room env resources (size env resources depth) (κ.context.states.take k)
        depth := depth
        context := x.2
        back := some (x.2.entry.outputs.zip x.1.outputs, κ.base + k + 1) }

/-- The copy that a chain of calls leads to, given by their states, the outermost first. -/
def descend : List Nat → Copy → Option Copy
  | [], κ => some κ
  | k :: chain, κ => (κ.enter env resources k).bind (descend chain)

variable {env resources} {κ κ' : Copy} {k : Nat}

/-- How many states a copy takes, with the copies inside it. -/
def extent (env : Env) (resources : List Rtl.Resource) (κ : Copy) : Nat :=
  size env resources κ.depth κ.context

theorem enter_eq_some (h : κ.enter env resources k = some κ') :
    ∃ depth st i c, κ.depth = depth + 1 ∧ κ.context.states[k]? = some st ∧
      inlined? env resources st = some (i, c) ∧
      κ' = { base := κ.base + κ.context.states.length +
              room env resources (size env resources depth) (κ.context.states.take k)
             depth := depth
             context := c
             back := some (c.entry.outputs.zip i.outputs, κ.base + k + 1) } := by
  unfold enter at h
  split at h
  · cases h
  · rename_i depth hdepth
    obtain ⟨⟨i, c⟩, hx, rfl⟩ := Option.map_eq_some_iff.mp h
    obtain ⟨st, hst, hi⟩ := Option.bind_eq_some_iff.mp hx
    exact ⟨depth, st, i, c, hdepth, hst, hi, rfl⟩

theorem descend_append {chain : List Nat} {κ'' : Copy} (h : descend env resources chain κ = some κ')
    (hk : κ'.enter env resources k = some κ'') :
    descend env resources (chain ++ [k]) κ = some κ'' := by
  induction chain generalizing κ with
  | nil =>
    cases Option.some.inj h
    simp [descend, hk]
  | cons j chain ih =>
    obtain ⟨κ₁, hj, hrest⟩ := Option.bind_eq_some_iff.mp h
    rw [List.cons_append, descend, hj]
    exact ih hrest

theorem length_le_extent (h : 0 < κ.depth) :
    κ.context.states.length ≤ κ.extent env resources := by
  obtain ⟨d, hd⟩ := Nat.exists_eq_succ_of_ne_zero h.ne'
  rw [extent, hd, size]
  exact Nat.le_add_right _ _

/-- A copy stands behind the states of its caller. -/
theorem base_le_of_enter (h : κ.enter env resources k = some κ') :
    κ.base + κ.context.states.length ≤ κ'.base := by
  obtain ⟨depth, st, i, c, -, -, -, rfl⟩ := enter_eq_some h
  exact Nat.le_add_right _ _

/-- The copies for the calls of one context stand one after the other. -/
theorem end_of_enter {depth : Nat} (hdepth : κ.depth = depth + 1)
    (h : κ.enter env resources k = some κ') :
    κ'.base + κ'.extent env resources = κ.base + κ.context.states.length +
      room env resources (size env resources depth) (κ.context.states.take (k + 1)) := by
  obtain ⟨depth', st, i, c, hdepth', hst, hi, rfl⟩ := enter_eq_some h
  cases Nat.succ.inj (hdepth.symm.trans hdepth')
  rw [room_take_succ hst, room_of_inlined hi]
  exact Nat.add_assoc _ _ _

theorem extent_of_enter (h : κ.enter env resources k = some κ') :
    κ'.base + κ'.extent env resources ≤ κ.base + κ.extent env resources := by
  obtain ⟨depth, -, -, -, hdepth, -⟩ := enter_eq_some h
  have hle : room env resources (size env resources depth) (κ.context.states.take (k + 1)) ≤
      room env resources (size env resources depth) κ.context.states := room_take_le _ _
  rw [end_of_enter hdepth h, extent, hdepth, size]
  omega

theorem enter_apart {j : Nat} {κ₁ κ₂ : Copy} (h₁ : κ.enter env resources j = some κ₁)
    (h₂ : κ.enter env resources k = some κ₂) (hjk : j < k) :
    κ₁.base + κ₁.extent env resources ≤ κ₂.base := by
  obtain ⟨depth, -, -, -, hdepth, -, -, rfl⟩ := enter_eq_some h₂
  rw [end_of_enter hdepth h₁]
  exact Nat.add_le_add_left (room_take_mono _ hjk) _

theorem descend_within {chain : List Nat} (h : descend env resources chain κ = some κ') :
    κ.base ≤ κ'.base ∧ κ'.base + κ'.extent env resources ≤ κ.base + κ.extent env resources := by
  induction chain generalizing κ with
  | nil =>
    cases Option.some.inj h
    exact ⟨le_rfl, le_rfl⟩
  | cons k chain ih =>
    obtain ⟨κ₁, hk, hrest⟩ := Option.bind_eq_some_iff.mp h
    obtain ⟨hbase, hextent⟩ := ih hrest
    have hbase₁ := base_le_of_enter hk
    have hextent₁ := extent_of_enter hk
    omega

/-- Copies for different chains of calls have no state in common. -/
theorem descend_injective {as bs : List Nat} {κ₁ κ₂ : Copy} {i j : Nat}
    (h₁ : descend env resources as κ = some κ₁) (h₂ : descend env resources bs κ = some κ₂)
    (hd₁ : 0 < κ₁.depth) (hd₂ : 0 < κ₂.depth) (hi : i < κ₁.context.states.length)
    (hj : j < κ₂.context.states.length) (h : κ₁.base + i = κ₂.base + j) : as = bs ∧ i = j := by
  have hle₁ : κ₁.context.states.length ≤ κ₁.extent env resources := length_le_extent hd₁
  have hle₂ : κ₂.context.states.length ≤ κ₂.extent env resources := length_le_extent hd₂
  induction as generalizing κ bs with
  | nil =>
    cases Option.some.inj h₁
    cases bs with
    | nil =>
      cases Option.some.inj h₂
      exact ⟨rfl, by omega⟩
    | cons k bs =>
      obtain ⟨κ', hk, hrest⟩ := Option.bind_eq_some_iff.mp h₂
      have hbase := base_le_of_enter hk
      have hwithin := descend_within hrest
      omega
  | cons k as ih =>
    obtain ⟨κ', hk, hrest⟩ := Option.bind_eq_some_iff.mp h₁
    have hwithin₁ := descend_within hrest
    cases bs with
    | nil =>
      cases Option.some.inj h₂
      have hbase := base_le_of_enter hk
      omega
    | cons k' bs =>
      obtain ⟨κ'', hk', hrest'⟩ := Option.bind_eq_some_iff.mp h₂
      have hwithin₂ := descend_within hrest'
      rcases Nat.lt_trichotomy k k' with hlt | rfl | hlt
      · have hapart := enter_apart hk hk' hlt
        omega
      · cases Option.some.inj (hk.symm.trans hk')
        obtain ⟨rfl, hij⟩ := ih hrest hrest'
        exact ⟨rfl, hij⟩
      · have hapart := enter_apart hk' hk hlt
        omega

/-- Every state within the extent of a copy is one of a copy inside it. -/
theorem exists_descend {j : Nat} (h : j < κ.extent env resources) :
    ∃ chain κ' k, descend env resources chain κ = some κ' ∧ k < κ'.context.states.length ∧
      κ.base + j = κ'.base + k := by
  obtain ⟨depth, hdepth⟩ : ∃ depth, κ.depth = depth := ⟨_, rfl⟩
  induction depth generalizing κ j with
  | zero => simp [extent, hdepth, size] at h
  | succ depth ih =>
    by_cases hown : j < κ.context.states.length
    · exact ⟨[], κ, j, rfl, hown, rfl⟩
    · rw [extent, hdepth, size] at h
      have hroom : j - κ.context.states.length <
          room env resources (size env resources depth) κ.context.states := by omega
      obtain ⟨k, st, x, hst, hx, hge, hlt⟩ := exists_room hroom
      obtain ⟨κ₁, henter, hdepth₁, hbase₁, hcontext₁⟩ : ∃ κ₁, κ.enter env resources k = some κ₁ ∧
          κ₁.depth = depth ∧ κ₁.base = κ.base + κ.context.states.length +
            room env resources (size env resources depth) (κ.context.states.take k) ∧
          κ₁.context = x.2 := by
        simp [enter, hdepth, hst, hx]
      obtain ⟨chain, κ', k', hchain, hk', hat⟩ := ih (κ := κ₁) (j := κ.base + j - κ₁.base)
        (by rw [extent, hdepth₁, hcontext₁]; omega) hdepth₁
      refine ⟨k :: chain, κ', k', ?_, hk', by omega⟩
      rw [descend, henter]
      exact hchain

/-- What a chain of calls leads to is the method that is copied, or one that is called. -/
theorem descend_context {chain : List Nat} (h : descend env resources chain κ = some κ') :
    κ'.context = κ.context ∨ ∃ name, env.contexts.lookup name = some κ'.context := by
  induction chain generalizing κ with
  | nil =>
    cases Option.some.inj h
    exact .inl rfl
  | cons k chain ih =>
    obtain ⟨κ₁, hk, hrest⟩ := Option.bind_eq_some_iff.mp h
    obtain ⟨depth, st, i, c, -, -, hi, rfl⟩ := enter_eq_some hk
    rcases ih hrest with heq | hname
    · exact .inr ((context_of_inlined hi).imp fun name hname => heq ▸ hname)
    · exact .inr hname

end Copy
end Expand
end Synth
end MachineSynth
