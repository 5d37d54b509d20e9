import Mathlib
import MachineSynth.Proofs.Expansion.Copies

/-! Filling: a context is copied to the places of the layout, with everything that it calls. -/
namespace MachineSynth
namespace Synth

open Rtl (kindAt)

def Context.key (c : Context) : MethodKey := ⟨c.object, c.method.name⟩

/-- Whether a call is answered by a thread that waits for data. -/
def Callee.isFlow (m : Machine) (c : Callee) : Bool :=
  (Walker.calledMethod? m (some c.object) c.method).any (·.marks.dataFlowEntry)

/-- Whether a call is left to be wired: those of data flow are, and those of other objects. -/
def Callee.isLeft (m : Machine) (c : Callee) : Bool := c.isFlow m || c.outside

def Expansion.calls (x : Expansion) (flow : Bool) : List TableCall :=
  if flow then x.flowCalls else x.taskCalls

namespace Expand

/-- The contexts of a thread, lowered into one table. Only the entry may lead back to its first
state. -/
def Env.Lowered (env : Env) (lowered : List Rtl.Resource) (entry : MethodKey) : Prop :=
  ∀ (name : String) (c : Context), env.contexts.lookup name = some c →
    ∃ closes, Shaped lowered closes c.states ∧ (closes = true → c.key = entry)

section Kinds

variable {env : Env} {p q : Pool} {closes : Bool} {c : Context} {st : LoweredState}

theorem isPseudo_of_extends (hpq : p.Extends q) {i : Rtl.Insn} {kind : String}
    (h : kindAt p.resources i.resource = some kind) :
    isPseudo q.resources i = isPseudo p.resources i := by
  rw [isPseudo_eq h, isPseudo_eq (hpq.kindAt h)]

theorem filter_isPseudo (hpq : p.Extends q) (hc : Shaped p.resources closes c.states)
    (hst : st ∈ c.states) : st.insns.filter (!isPseudo q.resources ·) =
      st.insns.filter (!isPseudo p.resources ·) := by
  refine List.filter_congr fun i hi => ?_
  obtain ⟨kind, hkind⟩ := hc.kinds st hst i hi
  rw [isPseudo_of_extends hpq hkind]

theorem find?_isPseudo (hpq : p.Extends q) (hc : Shaped p.resources closes c.states)
    (hst : st ∈ c.states) :
    st.insns.find? (isPseudo q.resources) = st.insns.find? (isPseudo p.resources) := by
  have h : ∀ i ∈ st.insns, isPseudo q.resources i = isPseudo p.resources i := by
    intro i hi
    obtain ⟨kind, hkind⟩ := hc.kinds st hst i hi
    exact isPseudo_of_extends hpq hkind
  generalize st.insns = insns at h
  induction insns with
  | nil => rfl
  | cons i rest ih =>
    rw [List.find?_cons, List.find?_cons, h i (by simp), ih fun j hj => h j (by simp [hj])]

/-- A state that calls holds the placeholder of the call and leads to the next state. -/
theorem insns_of_callee {k : Nat} (hc : Shaped p.resources closes c.states)
    (hst : c.states[k]? = some st) (hcallee : st.callee.isSome) :
    ∃ j, Leads p.resources [k + 1] j ∧ st.insns.filter (!isPseudo p.resources ·) = [j] := by
  obtain ⟨x, j, hinsns, hx, hj⟩ := hc.call hst hcallee
  refine ⟨j, hj, ?_⟩
  have hxp : isPseudo p.resources x = true := by simp [isPseudo_eq hx]
  have hjp : isPseudo p.resources j = false := by
    rw [isPseudo_eq hj.kind]
    decide
  simp [hinsns, hxp, hjp]

theorem insns_of_inlined {k : Nat} {i : Rtl.Insn} {callee : Context}
    (hc : Shaped p.resources closes c.states) (hst : c.states[k]? = some st)
    (h : inlined? env p.resources st = some (i, callee)) :
    ∃ j, Leads p.resources [k + 1] j ∧ st.insns.filter (!isPseudo p.resources ·) = [j] := by
  refine insns_of_callee hc hst ?_
  unfold inlined? at h
  split at h
  · simp [*]
  · cases h

end Kinds

/-- The calls that a state leaves to be wired when it is copied to a position. -/
def leftAt (env : Env) (lowered : List Rtl.Resource) (flow : Bool) (j : Nat) (st : LoweredState) :
    List TableCall :=
  match st.callee, st.insns.find? (isPseudo lowered) with
  | some c, some i =>
    if c.isLeft env.machine && c.isFlow env.machine == flow then [⟨j, i.inputs, i.outputs, c⟩]
    else []
  | _, _ => []

section Left

variable {env : Env} {lowered : List Rtl.Resource} {flow : Bool} {j : Nat} {st : LoweredState}

theorem state_of_mem_leftAt {call : TableCall} (h : call ∈ leftAt env lowered flow j st) :
    call.state = j := by
  unfold leftAt at h
  split at h
  · split at h
    · exact List.mem_singleton.mp h ▸ rfl
    · cases h
  · cases h

theorem leftAt_of_inlined {x : Rtl.Insn × Context} (h : inlined? env lowered st = some x) :
    leftAt env lowered flow j st = [] := by
  unfold inlined? at h
  split at h
  · rename_i c i hcallee hfind
    split at h
    · cases h
    · rename_i hkept
      have hleft : c.isLeft env.machine = false := Bool.not_eq_true _ ▸ hkept
      simp [leftAt, hcallee, hfind, hleft]
  · cases h

theorem inlined?_of_isLeft {c : Callee} (hcallee : st.callee = some c)
    (hleft : c.isLeft env.machine = true) : inlined? env lowered st = none := by
  unfold inlined?
  rw [hcallee]
  split
  · rename_i c' i heq _
    cases heq
    exact if_pos hleft
  · rfl

end Left

/-- A context being copied: the first `k` of its states are filled, and so are all copies that they
call for. -/
structure Filling (env : Env) (lowered : List Rtl.Resource) (κ : Copy) (depth k : Nat)
    (x₀ x : Expansion) : Prop where
  sound : x.builder.Sound
  builder : x₀.builder.Extends x.builder
  length : x.states.length = κ.base + κ.context.states.length +
    room env lowered (size env lowered depth) (κ.context.states.take k)
  kept : ∀ j < κ.base, x.states[j]? = x₀.states[j]?
  own : ∀ {j : Nat} {st : LoweredState}, j < k → κ.context.states[j]? = some st →
    ∃ s, x.states[κ.base + j]? = some s ∧
      Fills env lowered x.builder.pool.resources κ j st s.insns
  empty : ∀ {j : Nat}, k ≤ j → j < κ.context.states.length →
    ∃ id, x.states[κ.base + j]? = some ⟨id, []⟩
  inner : ∀ {j : Nat} {κ' κ'' : Copy} {chain : List Nat}, j < k →
    κ.enter env lowered j = some κ' → Copy.descend env lowered chain κ' = some κ'' →
    Filled env lowered x κ''

section Fill

variable {env : Env} {lowered : List Rtl.Resource} {κ : Copy} {depth k : Nat}
  {x₀ x x' : Expansion} {st : LoweredState}

/-- Filling one more state changes that state and adds others at the end. -/
theorem Filling.next (h : Filling env lowered κ depth k x₀ x) (hdepth : κ.depth = depth + 1)
    (hst : κ.context.states[k]? = some st) (hsound : x'.builder.Sound)
    (hext : x.builder.Extends x'.builder)
    (hlen : x'.states.length =
      x.states.length + room env lowered (size env lowered depth) [st])
    (hkept : ∀ j < x.states.length, j ≠ κ.base + k → x'.states[j]? = x.states[j]?)
    (hown : ∃ s, x'.states[κ.base + k]? = some s ∧
      Fills env lowered x'.builder.pool.resources κ k st s.insns)
    (hinner : ∀ {κ' κ'' : Copy} {chain : List Nat}, κ.enter env lowered k = some κ' →
      Copy.descend env lowered chain κ' = some κ'' → Filled env lowered x' κ'') :
    Filling env lowered κ depth (k + 1) x₀ x' := by
  have hk : k < κ.context.states.length := (List.getElem?_eq_some_iff.mp hst).1
  have hlength := h.length
  refine ⟨hsound, h.builder.trans hext, ?_, fun j hj => ?_, fun {j st'} hj hst' => ?_,
    fun {j} hj hj' => ?_, fun {j κ' κ'' chain} hj henter hchain => ?_⟩
  · rw [hlen, h.length, room_take_succ hst, Nat.add_assoc]
  · rw [hkept j (by omega) (by omega), h.kept j hj]
  · rcases Nat.lt_succ_iff_lt_or_eq.mp hj with hj | rfl
    · obtain ⟨s, hs, hfills⟩ := h.own hj hst'
      exact ⟨s, (hkept _ (by omega) (by omega)).trans hs, hfills.mono hext.pool⟩
    · cases Option.some.inj (hst.symm.trans hst')
      exact hown
  · obtain ⟨id, hid⟩ := h.empty (by omega) hj'
    exact ⟨id, (hkept _ (by omega) (by omega)).trans hid⟩
  · rcases Nat.lt_succ_iff_lt_or_eq.mp hj with hj | rfl
    · have hfilled := h.inner hj henter hchain
      refine hfilled.keep hext.pool fun i hi hi' => ?_
      -- copies for earlier states end before the states that are added now
      have hbase := Copy.base_le_of_enter henter
      have hend := Copy.end_of_enter hdepth henter
      have hwithin := Copy.descend_within hchain
      have hle : κ''.context.states.length ≤ κ''.extent env lowered :=
        Copy.length_le_extent hfilled.depth
      have hroom : room env lowered (size env lowered depth) (κ.context.states.take (j + 1)) ≤
          room env lowered (size env lowered depth) (κ.context.states.take k) :=
        room_take_mono _ hj
      exact hkept i (by omega) (by omega)
    · exact hinner henter hchain

structure Adds (env : Env) (lowered : List Rtl.Resource) (κ : Copy) (x x' : Expansion) : Prop where
  sound : x'.builder.Sound
  builder : x.builder.Extends x'.builder
  kept : ∀ j < x.states.length, x'.states[j]? = x.states[j]?
  length : x'.states.length = x.states.length + κ.extent env lowered
  filled : ∀ (chain : List Nat) {κ' : Copy}, Copy.descend env lowered chain κ = some κ' →
    Filled env lowered x' κ'

theorem Fills.setBack {resources insns} {back : Option (List (Nat × Nat) × Nat)}
    (h : Fills env lowered resources κ k st insns) (hk : k + 1 ≠ κ.context.states.length) :
    Fills env lowered resources { κ with back := back } k st insns := by
  cases h with
  | call inlined enters leads assigns => exact .call inlined enters leads assigns
  | back last => exact absurd last hk
  | plain inlined stays copied => exact .plain inlined (fun h => absurd h hk) copied

/-- An empty state is copied to an empty state. -/
theorem Fills.eq_nil {resources insns} {id : Nat} (hback : κ.back = none)
    (h : Fills env lowered resources κ k ⟨id, [], none, none⟩ insns) : insns = [] := by
  cases h with
  | call inlined => cases inlined
  | back _ back => rw [hback] at back; cases back
  | plain _ _ copied => simpa using copied

/-- The copy of a callee, once its last state leads back to the caller. -/
theorem Adds.inlined {first last next : Nat} {state : Nat} {i : Rtl.Insn} {c : Context}
    {x₁ x₂ : Expansion} (h : Adds env lowered ⟨first, depth, c, none⟩ x₁ x₂)
    (hi : Inlines state last first next i c x₂ x')
    (hlast : ∃ id, c.states[c.states.length - 1]? = some ⟨id, [], none, none⟩)
    (hposition : last = first + (c.states.length - 1)) (hstate : state < first)
    {chain : List Nat} {κ' : Copy} (hchain : Copy.descend env lowered chain
      ⟨first, depth, c, some (c.entry.outputs.zip i.outputs, next)⟩ = some κ') :
    Filled env lowered x' κ' := by
  have hlen : 0 < c.states.length := by
    obtain ⟨id, hid⟩ := hlast
    have := (List.getElem?_eq_some_iff.mp hid).1
    omega
  cases chain with
  | nil =>
    cases Option.some.inj hchain
    have hfilled := h.filled [] rfl
    refine ⟨hfilled.depth, hfilled.shaped, fun {k st} hk => ?_⟩
    have hlt := (List.getElem?_eq_some_iff.mp hk).1
    by_cases hend : k + 1 = c.states.length
    · obtain ⟨id, t, sets, hsets, hleads, hassigns⟩ := hi.last
      obtain ⟨id', hempty⟩ := hlast
      have hk' : c.states.length - 1 = k := by omega
      rw [hk'] at hempty
      refine ⟨⟨id, sets ++ [t]⟩, ?_, .back hend rfl ⟨id', Option.some.inj (hk.symm.trans hempty)⟩ hassigns hleads⟩
      rw [← hsets, hposition, hk']
    · obtain ⟨s, hs, hfills⟩ := hfilled.states hk
      refine ⟨s, ?_, (hfills.mono hi.builder.pool).setBack hend⟩
      rw [← hs]
      simp only at hlt ⊢
      exact hi.others _ (by omega) (by omega)
  | cons j chain =>
    have hfilled := h.filled (j :: chain) hchain
    obtain ⟨κ'', hj, hrest⟩ := Option.bind_eq_some_iff.mp hchain
    have hbase := Copy.base_le_of_enter hj
    have hwithin := Copy.descend_within hrest
    refine hfilled.keep hi.builder.pool fun n hn hn' => hi.others n ?_ ?_
    · simp only at hbase
      omega
    · simp only at hbase
      omega

end Fill

/-- What is asked of a function that copies contexts: that it adds a copy at the end of the table,
and of no method that is being copied already. -/
def Copies (env : Env) (lowered : Pool) (depth : Nat) (stack : List MethodKey)
    (copy : Context → Expand (Nat × Nat)) : Prop :=
  ∀ {c : Context} {closes : Bool} {x x' : Expansion} {first last : Nat}, x.builder.Sound →
    lowered.Extends x.builder.pool → Shaped lowered.resources closes c.states →
    (copy c).run x = .ok ((first, last), x') →
    c.key ∉ stack ∧ first = x.states.length ∧ last = first + c.states.length - 1 ∧
      Adds env lowered.resources ⟨first, depth, c, none⟩ x x'

section Fill

variable {env : Env} {lowered : Pool} {κ : Copy} {depth k : Nat} {x₀ x x₁ x' : Expansion}
  {st : LoweredState} {closes : Bool} {stack : List MethodKey} {entry : MethodKey}
  {copy : Context → Expand (Nat × Nat)}

/-- A state that is no call, or none that is replaced, is copied as it is. -/
theorem Filling.plain (h : Filling env lowered.resources κ depth k x₀ x)
    (hback : κ.back = none) (hdepth : κ.depth = depth + 1)
    (hst : κ.context.states[k]? = some st) (hnone : inlined? env lowered.resources st = none)
    (hcopy : (copyInsns κ.base (κ.base + k)
      (st.insns.filter (!isPseudo lowered.resources ·))).run x = .ok ((), x₁))
    (hbuilder : x'.builder = x₁.builder) (hstates : x'.states = x₁.states) :
    Filling env lowered.resources κ depth (k + 1) x₀ x' := by
  have hk := (List.getElem?_eq_some_iff.mp hst).1
  obtain ⟨new, e, hnew⟩ := copyInsns_edits h.sound (h.empty le_rfl hk) hcopy
  rw [List.nil_append] at e
  obtain ⟨id, hid⟩ := e.state
  refine h.next hdepth hst (hbuilder ▸ e.sound) (hbuilder ▸ e.builder) ?_ (fun j _ hj => ?_) ?_ ?_
  · rw [hstates, e.length, room_of_none hnone, add_zero]
  · rw [hstates, e.others j hj]
  · exact ⟨⟨id, new⟩, hstates ▸ hid, .plain hnone (fun _ => hback) hnew⟩
  · intro κ' κ'' chain henter
    obtain ⟨_, st', _, _, _, hst', hsome, _⟩ := Copy.enter_eq_some henter
    cases Option.some.inj (hst.symm.trans hst')
    rw [hnone] at hsome
    cases hsome

/-- A state that calls the same object leads into a copy of the callee. -/
theorem Filling.call {i : Rtl.Insn} {callee : Context} {first last : Nat} {x₂ : Expansion}
    (h : Filling env lowered.resources κ depth k x₀ x) (hx₀ : lowered.Extends x₀.builder.pool)
    (hdepth : κ.depth = depth + 1) (hc : Shaped lowered.resources closes κ.context.states)
    (henv : env.Lowered lowered.resources entry) (hentry : entry ∈ stack)
    (hcopies : Copies env lowered depth stack copy) (hst : κ.context.states[k]? = some st)
    (hsome : inlined? env lowered.resources st = some (i, callee))
    (hcopy : (copyInsns κ.base (κ.base + k)
      (st.insns.filter (!isPseudo lowered.resources ·))).run x = .ok ((), x₁))
    (hcallee : (copy callee).run x₁ = .ok ((first, last), x₂))
    (hinline : (inline (κ.base + k) i callee first last).run x₂ = .ok ((), x')) :
    Filling env lowered.resources κ depth (k + 1) x₀ x' := by
  have hk := (List.getElem?_eq_some_iff.mp hst).1
  have hlength := h.length
  obtain ⟨j, hj, hfilter⟩ := insns_of_inlined hc hst hsome
  obtain ⟨new, e, hnew⟩ := copyInsns_edits h.sound (h.empty le_rfl hk) hcopy
  have hext₁ := hx₀.trans (h.builder.trans e.builder).pool
  -- the copied transition still leads to the next state
  obtain ⟨t, rfl, ht⟩ : ∃ t, new = [t] ∧
      Leads x₁.builder.pool.resources [κ.base + k + 1] t := by
    rw [hfilter] at hnew
    obtain ⟨t, rfl⟩ : ∃ t, new = [t] :=
      List.length_eq_one_iff.mp (by simpa using congrArg List.length hnew)
    simp only [moved, List.map_cons, List.map_nil, List.cons.injEq, Prod.mk.injEq, hj.targets,
      actionOf, Action.mk.injEq, zero_add, List.map_id', and_true] at hnew
    exact ⟨t, rfl, by rw [hnew.1.1]; exact hext₁.kindAt hj.kind, hnew.1.2.2.1.trans hj.inputs,
      hnew.2⟩
  obtain ⟨name, hname⟩ := context_of_inlined hsome
  obtain ⟨closes', hshaped, hclosed⟩ := henv name callee hname
  obtain ⟨hkey, rfl, rfl, hadds⟩ := hcopies e.sound hext₁ hshaped hcallee
  -- only the entry could lead back to its first state, and it is being copied
  have hopen : closes' = false := by
    by_contra hne
    exact hkey (hclosed (by simpa using hne) ▸ hentry)
  obtain ⟨id, hlast⟩ := hshaped.last hopen
  have hpos := hshaped.nonempty
  have hstate₂ : ∃ id, x₂.states[κ.base + k]? = some ⟨id, [t]⟩ :=
    e.state.imp fun id hid => (hadds.kept _ (by rw [e.length]; omega)).trans hid
  have hlast₂ : ∃ id, x₂.states[x₁.states.length + callee.states.length - 1]? =
      some ⟨id, []⟩ := by
    obtain ⟨⟨id, insns⟩, hs, hfills⟩ := (hadds.filled [] rfl).states hlast
    cases hfills.eq_nil rfl
    exact ⟨id, by rw [Nat.add_sub_assoc hpos]; exact hs⟩
  have hi := inline_spec hadds.sound (by have := e.length; omega) hstate₂
    (ht.mono hadds.builder.pool) hlast₂ hinline
  have henter : κ.enter env lowered.resources k = some ⟨x₁.states.length, depth, callee,
      some (callee.entry.outputs.zip i.outputs, κ.base + k + 1)⟩ := by
    simp [Copy.enter, hdepth, hst, hsome, e.length, hlength]
  have hext := e.builder.trans (hadds.builder.trans hi.builder)
  refine h.next hdepth hst hi.sound hext ?_ (fun n hn hne => ?_) ?_ ?_
  · rw [hi.length, hadds.length, e.length, room_of_inlined hsome]
    rfl
  · have hlt : n < x₁.states.length := by rw [e.length]; exact hn
    rw [hi.others n hne (by omega), hadds.kept n hlt, e.others n hne]
  · obtain ⟨id, t', sets, hs, hleads, hassigns⟩ := hi.state
    exact ⟨_, hs, .call hsome henter hleads hassigns⟩
  · intro κ' κ'' chain henter' hchain
    cases Option.some.inj (henter.symm.trans henter')
    exact hadds.inlined hi ⟨id, hlast⟩ (Nat.add_sub_assoc hpos _) (by rw [e.length]; omega) hchain

/-- Filling the first of some states: its instructions, its call if there is one, then the rest. -/
theorem fill_cons_eq_ok {base state : Nat} {rest : List LoweredState}
    (h : (fill env copy base state (st :: rest)).run x = .ok ((), x')) :
    ∃ x₁ x₂, (copyInsns base state
        (st.insns.filter (!isPseudo x.builder.pool.resources ·))).run x = .ok ((), x₁) ∧
      (match st.callee, st.insns.find? (isPseudo x.builder.pool.resources) with
        | some c, some i => call env copy state i c
        | _, _ => pure ()).run x₁ = .ok ((), x₂) ∧
      (fill env copy base (state + 1) rest).run x₂ = .ok ((), x') := by
  simp only [fill, run_bind_eq_ok, run_get_eq_ok] at h
  obtain ⟨_, _, hget, _, x₁, hcopy, h⟩ := h
  cases hget
  refine ⟨x₁, ?_⟩
  generalize st.callee = callee at h ⊢
  generalize st.insns.find? (isPseudo x.builder.pool.resources) = pseudo at h ⊢
  match callee, pseudo, h with
  | some c, some i, h =>
    rw [run_bind_eq_ok] at h
    obtain ⟨_, x₂, hcall, h⟩ := h
    exact ⟨x₂, hcopy, hcall, h⟩
  | some c, none, h => exact ⟨x₁, hcopy, rfl, h⟩
  | none, pseudo, h => exact ⟨x₁, hcopy, rfl, h⟩

theorem called_cases {resources : List Rtl.Resource} {state : Nat}
    (h : (match st.callee, st.insns.find? (isPseudo resources) with
      | some c, some i => call env copy state i c
      | _, _ => pure ()).run x = .ok ((), x')) :
    (inlined? env resources st = none ∧ x'.builder = x.builder ∧ x'.states = x.states ∧
      ∀ flow, x'.calls flow = x.calls flow ++ leftAt env resources flow state st) ∨
    ∃ i callee first last x₁, inlined? env resources st = some (i, callee) ∧
      (copy callee).run x = .ok ((first, last), x₁) ∧
      (inline state i callee first last).run x₁ = .ok ((), x') := by
  cases hcallee : st.callee with
  | none =>
    rw [hcallee] at h
    cases run_pure_eq_ok.mp h
    exact .inl ⟨by simp [inlined?, hcallee], rfl, rfl, fun flow => by simp [leftAt, hcallee]⟩
  | some c =>
    cases hfind : st.insns.find? (isPseudo resources) with
    | none =>
      rw [hcallee, hfind] at h
      cases run_pure_eq_ok.mp h
      exact .inl ⟨by simp [inlined?, hcallee, hfind], rfl, rfl,
        fun flow => by simp [leftAt, hcallee, hfind]⟩
    | some i =>
      rw [hcallee, hfind] at h
      simp only [Expand.call] at h
      split at h
      · rename_i hflow
        replace hflow : c.isFlow env.machine = true := hflow
        have hleft : c.isLeft env.machine = true := by simp [Callee.isLeft, hflow]
        cases run_modify_eq_ok.mp h
        refine .inl ⟨inlined?_of_isLeft hcallee hleft, rfl, rfl, fun flow => ?_⟩
        cases flow <;> simp [leftAt, hcallee, hfind, hflow, hleft, Expansion.calls]
      · rename_i hflow
        replace hflow : c.isFlow env.machine = false := Bool.not_eq_true _ ▸ hflow
        split at h
        · rename_i houtside
          have hleft : c.isLeft env.machine = true := by simp [Callee.isLeft, houtside]
          cases run_modify_eq_ok.mp h
          refine .inl ⟨inlined?_of_isLeft hcallee hleft, rfl, rfl, fun flow => ?_⟩
          cases flow <;> simp [leftAt, hcallee, hfind, hflow, hleft, Expansion.calls]
        · rename_i houtside
          split at h
          · cases h
          · rename_i callee hlookup
            simp only [run_bind_eq_ok] at h
            obtain ⟨⟨first, last⟩, x₁, hcopied, hinline⟩ := h
            have hsome : inlined? env resources st = some (i, callee) := by
              have hkept : ¬ c.isLeft env.machine = true := by
                simp [Callee.isLeft, hflow, houtside]
              rw [inlined?, hcallee, hfind]
              exact (if_neg hkept).trans (by rw [hlookup]; rfl)
            exact .inr ⟨i, callee, first, last, x₁, hsome, hcopied, hinline⟩

theorem fill_spec (hx₀ : lowered.Extends x₀.builder.pool) (hback : κ.back = none)
    (hdepth : κ.depth = depth + 1) (hc : Shaped lowered.resources closes κ.context.states)
    (henv : env.Lowered lowered.resources entry) (hentry : entry ∈ stack)
    (hcopies : Copies env lowered depth stack copy) {rest : List LoweredState}
    (hrest : κ.context.states.drop k = rest)
    (hf : Filling env lowered.resources κ depth k x₀ x)
    (h : (fill env copy κ.base (κ.base + k) rest).run x = .ok ((), x')) :
    Filling env lowered.resources κ depth κ.context.states.length x₀ x' := by
  induction rest generalizing k x with
  | nil =>
    cases run_pure_eq_ok.mp h
    have hge : κ.context.states.length ≤ k := List.drop_eq_nil_iff.mp hrest
    refine ⟨hf.sound, hf.builder, ?_, hf.kept, fun hj => hf.own (by omega), fun hj hj' => by omega,
      fun hj => hf.inner (by omega)⟩
    rw [hf.length, List.take_of_length_le hge, List.take_length]
  | cons st rest ih =>
    have hst : κ.context.states[k]? = some st := by
      rw [← List.head?_drop, hrest, List.head?_cons]
    have hmem := List.mem_of_getElem? hst
    have hext := hx₀.trans hf.builder.pool
    obtain ⟨x₁, x₂, hcopy, hcall, h⟩ := fill_cons_eq_ok h
    rw [filter_isPseudo hext hc hmem] at hcopy
    rw [find?_isPseudo hext hc hmem] at hcall
    refine ih (by rw [← List.tail_drop, hrest, List.tail_cons]) ?_ h
    rcases called_cases hcall with
      ⟨hnone, hbuilder, hstates, -⟩ | ⟨i, callee, first, last, x₃, hsome, hcopied, hinline⟩
    · exact hf.plain hback hdepth hst hnone hcopy hbuilder hstates
    · exact hf.call hx₀ hdepth hc henv hentry hcopies hst hsome hcopy hcopied hinline

theorem addStates_spec {sts : List LoweredState} (hx : x.builder.Sound)
    (h : (addStates sts).run x = .ok ((), x')) :
    x'.builder.Sound ∧ x.builder.Extends x'.builder ∧
      x'.states.length = x.states.length + sts.length ∧
      (∀ j < x.states.length, x'.states[j]? = x.states[j]?) ∧
      ∀ j < sts.length, ∃ id, x'.states[x.states.length + j]? = some ⟨id, []⟩ := by
  induction sts generalizing x with
  | nil =>
    cases run_pure_eq_ok.mp h
    exact ⟨hx, .refl _, rfl, fun _ _ => rfl, fun j hj => absurd hj (by simp)⟩
  | cons st rest ih =>
    simp only [addStates, run_bind_eq_ok, run_modify_eq_ok] at h
    obtain ⟨id, x₁, hid, _, x₂, hadd, h⟩ := h
    cases run_build_eq_ok.mp hid
    cases hadd
    obtain ⟨hsound, hext, hlen, hkept, hnew⟩ := ih (Builder.newState_sound hx) h
    simp only [List.length_append, List.length_cons, List.length_nil] at hlen hkept hnew ⊢
    refine ⟨hsound, (Builder.newState_extends _).trans hext, by omega, fun j hj => ?_,
      fun j hj => ?_⟩
    · rw [hkept j (by omega), List.getElem?_append_left hj]
    · cases j with
      | zero => exact ⟨_, (hkept _ (by omega)).trans List.getElem?_concat_length⟩
      | succ j =>
        obtain ⟨id', hid'⟩ := hnew j (by omega)
        refine ⟨id', ?_⟩
        rw [← hid']
        congr 1
        omega

end Fill

theorem copy_copies {env : Env} {lowered : Pool} {entry : MethodKey}
    (henv : env.Lowered lowered.resources entry) (depth : Nat) (stack : List MethodKey)
    (hstack : stack = [] ∨ entry ∈ stack) {c : Context} {closes : Bool} {x x' : Expansion}
    {first last : Nat} (hkey : stack = [] → c.key = entry) (hx : x.builder.Sound)
    (hext : lowered.Extends x.builder.pool) (hc : Shaped lowered.resources closes c.states)
    (h : (copy env depth stack c).run x = .ok ((first, last), x')) :
    c.key ∉ stack ∧ first = x.states.length ∧ last = first + c.states.length - 1 ∧
      Adds env lowered.resources ⟨first, depth, c, none⟩ x x' := by
  induction depth generalizing stack c closes x x' first last with
  | zero => cases h
  | succ depth ih =>
    simp only [copy] at h
    split at h
    · cases h
    · rename_i hnot
      split at h
      · cases h
      · simp only [run_bind_eq_ok, run_get_eq_ok] at h
        obtain ⟨_, _, hget, _, x₁, hadd, _, x₂, hfill, h⟩ := h
        cases hget
        cases run_pure_eq_ok.mp h
        obtain ⟨hsound, hext₁, hlen, hkept, hnew⟩ := addStates_spec hx hadd
        have hentry : entry ∈ c.key :: stack := by
          rcases hstack with hnil | hmem
          · exact hkey hnil ▸ List.mem_cons_self
          · exact List.mem_cons_of_mem _ hmem
        have hcopies : Copies env lowered depth (c.key :: stack)
            (copy env depth (c.key :: stack)) := by
          intro c' closes' y y' first' last' hy hexty hc' h'
          exact ih _ (.inr hentry) (fun hnil => by cases hnil) hy hexty hc' h'
        have hstart : Filling env lowered.resources ⟨x.states.length, depth + 1, c, none⟩ depth 0
            x x₁ :=
          ⟨hsound, hext₁, by simpa using hlen, hkept, fun hj => absurd hj (by omega),
            fun _ hj => hnew _ hj, fun hj => absurd hj (by omega)⟩
        have hf := fill_spec hext rfl rfl hc henv hentry hcopies rfl hstart hfill
        refine ⟨by simpa [Context.key] using hnot, rfl, rfl, hf.sound, hf.builder, hf.kept, ?_,
          fun chain κ' hchain => ?_⟩
        · rw [hf.length, List.take_length, Nat.add_assoc]
          rfl
        · cases chain with
          | nil =>
            cases Option.some.inj hchain
            exact ⟨Nat.succ_pos _, ⟨closes, hc⟩, fun hk =>
              hf.own (List.getElem?_eq_some_iff.mp hk).1 hk⟩
          | cons j chain =>
            obtain ⟨κ'', hj, hrest⟩ := Option.bind_eq_some_iff.mp hchain
            obtain ⟨_, _, _, _, _, hst, _⟩ := Copy.enter_eq_some hj
            exact hf.inner (List.getElem?_eq_some_iff.mp hst).1 hj hrest

end Expand
end Synth
end MachineSynth
