import Mathlib
import MachineSynth.Proofs.Lowering.Stops

/-! Lowering is tidy: the instructions of a method use registers of the table only, and a branch
reads its condition and nothing else. -/
namespace MachineSynth
namespace Synth
namespace Lowering

/-- A lowering whose instructions use registers of the table. -/
structure Tidy (l : Lowering) : Prop where
  builder : l.builder.Tidy
  bound : l.Bounded
  within : ∀ st ∈ l.states, ∀ i ∈ st.insns, i.Within l.builder.registers.length

variable {s : Site} {may : Allowance} {l l' : Lowering}

theorem Tidy.lt_of_has {P : RegisterId → Prop} {Q : Rtl.Register → Prop} {j : Nat} (hl : l.Tidy)
    (h : l.Has P Q j) : j < l.builder.registers.length := by
  obtain ⟨r, -, hj⟩ | ⟨e, he⟩ | ⟨reg, hreg, -⟩ := h
  · exact hl.bound r j hj
  · exact hl.builder.member he
  · exact (List.getElem?_eq_some_iff.mp hreg).1

theorem Move.tidy (h : Move s may l l') (hl : l.Tidy) : l'.Tidy := by
  refine ⟨h.grows.tidy hl.builder, h.bounded hl.bound, ?_⟩
  have hkept : ∀ st ∈ l.states, ∀ i ∈ st.insns, i.Within l'.builder.registers.length :=
    fun st hst i hi => h.within (hl.within st hst i hi)
  have hhas : ∀ {P Q j}, l.Has P Q j → j < l'.builder.registers.length :=
    fun hj => (hl.lt_of_has hj).trans_le h.grows.registers.length_le
  cases h with
  | build | walk | bind => exact hkept
  | push grows callee admits =>
    intro st hst i hi
    rcases List.mem_append.mp hst with hst | hst
    · exact hkept st hst i hi
    · cases List.mem_singleton.mp hst
      exact ⟨fun j hj => hhas ((admits i hi).inputs j hj),
        fun j hj => hhas ((admits i hi).outputs j hj)⟩
  | link grows widens =>
    intro st' hst' i' hi'
    obtain ⟨st, hst, hwidens⟩ := exists_mem_of_forall₂ widens hst'
    refine ⟨fun j hj => ?_, fun j hj => ?_⟩
    · obtain hj | ⟨i, hi, hj⟩ := hwidens.inputs i' hi' j hj
      · exact hhas hj
      · exact (hkept st hst i hi).inputs j hj
    · obtain hj | ⟨i, hi, hj⟩ := hwidens.outputs i' hi' j hj
      · exact hhas hj
      · exact (hkept st hst i hi).outputs j hj

theorem tidy_of_moves (h : Relation.ReflTransGen (Move s may) l l') (hl : l.Tidy) : l'.Tidy :=
  preserved_of_steps (fun hmove => hmove.tidy) h hl

end Lowering

/-- A method is lowered tidily if what follows its entry gets on by moves. -/
theorem Lower.entry_tidy {s : Site} {l l₁ l' : Lowering} {e : Rtl.Insn} (hl : l.Tidy)
    (he : (entry s).run l = .ok (e, l₁))
    (hmoves : Relation.ReflTransGen (Lowering.Move s .all) l₁ l') : l'.Tidy ∧ e.Within l'.builder.registers.length := by
  have hentry : Advances s True .all (entry s) l := advances_entry (fun _ => trivial) l
  exact ⟨Lowering.tidy_of_moves ((hentry.2 e l₁ he).trans hmoves) hl,
    (entry_within hl.bound he).mono (Lowering.grows_of_moves hmoves).registers.length_le⟩

section Links

variable {resources : List Rtl.Resource} {starts : List Nat} {closes : Bool} {n i : Nat}
  {st st' : LoweredState}

theorem LoweredState.Idle.still (h : st.Idle resources) (ht : ∀ k ∈ st.insns, k.targets = []) :
    Rtl.Still resources st.insns := fun k hk => ⟨ht k hk, h k hk⟩

theorem Leads.orderly {t : Nat} {j : Rtl.Insn} (h : Leads resources [t] j) :
    Rtl.Orderly resources [j] :=
  Rtl.orderly_one h.kind (.inr ⟨by simp [h.targets], h.inputs⟩)

/-- A state is in order once it is linked. -/
theorem LoweredState.Routed.orderly {resources' : List Rtl.Resource} (hraw : st.Raw resources')
    (h : Routed resources starts closes n i st st') : Rtl.Orderly resources st'.insns := by
  have ht := hraw.targets
  cases h with
  | jump lt jumps =>
    cases jumps with
    | goto id target start leads => exact leads.orderly
    | branch id cond target start kind =>
      cases hraw with
      | branch _ _ _ kind' targets inputs => exact Rtl.orderly_one kind (.inl ⟨rfl, inputs⟩)
  | next lt none idle leads =>
    exact leads.orderly.prepend (idle.still ht)
  | last eq none idle => exact Rtl.orderly_of_still (idle.still ht)
  | close eq none idle back works leads =>
    have hfin : Rtl.Still resources _ := fun k hk => by
      obtain ⟨htargets, kind, hkind, hne, -⟩ := works k hk
      exact ⟨htargets, kind, hkind, hne⟩
    rw [List.append_assoc]
    exact (leads.orderly.prepend hfin).prepend (idle.still ht)

theorem Lowering.Linked.orderly {l l' : Lowering}
    (h : Linked starts closes (Lower.pushed l) l') (hl : l.Sound) :
    ∀ st ∈ l'.states, Rtl.Orderly l'.builder.pool.resources st.insns := by
  intro st' hst'
  obtain ⟨k, hk⟩ := List.mem_iff_getElem?.mp hst'
  have hlt := (List.getElem?_eq_some_iff.mp hk).1
  obtain ⟨st, hst⟩ : ∃ st, (Lower.pushed l).states[k]? = some st :=
    ⟨_, List.getElem?_eq_getElem (h.length ▸ hlt)⟩
  obtain ⟨st'', hst'', hrouted⟩ := h.state hst
  cases hk.symm.trans hst''
  exact hrouted.orderly
    ((Lower.pushed_step (u := .none) hl).sound.states st (List.mem_of_getElem? hst))

end Links

/-- A lowered method that uses the first `n` registers, with all its states in order and leading to
each other. -/
structure Context.Tidy (resources : List Rtl.Resource) (n : Nat) (c : Context) : Prop where
  entry : c.entry.Within n
  within : ∀ st ∈ c.states, ∀ i ∈ st.insns, i.Within n
  orderly : ∀ st ∈ c.states, Rtl.Orderly resources st.insns
  targets : ∀ st ∈ c.states, ∀ i ∈ st.insns, ∀ t ∈ i.targets, t < c.states.length
  nonempty : 0 < c.states.length

theorem Context.Tidy.mono {p q : Pool} {n n' : Nat} {c : Context} (h : c.Tidy p.resources n)
    (hpq : p.Extends q) (hn : n ≤ n') : c.Tidy q.resources n' :=
  ⟨h.entry.mono hn, fun st hst i hi => (h.within st hst i hi).mono hn,
    fun st hst => hpq.orderly (h.orderly st hst), h.targets, h.nonempty⟩

namespace Site

variable {m : Machine} {owners : OwnershipTable} {thread : ThreadId} {object : Nat} {slot : String}
  {role : Role} {b b' : Builder} {c : Context}

theorem start_tidy (hb : b.Tidy) (object : Nat) :
    Lowering.Tidy ⟨b, Walker.start object, [], []⟩ :=
  ⟨hb, fun r j hj => (by cases hj), fun st hst => (by cases hst)⟩

/-- What the states of a method are linked from keeps them in order. -/
theorem body_orderly {s : Site} {l : Lowering} {e : Rtl.Insn} (hb : b.Sound)
    (h : (Lower.body s).run ⟨b, Walker.start s.object, [], []⟩ = .ok (e, l)) :
    ∀ st ∈ l.states, Rtl.Orderly l.builder.pool.resources st.insns := by
  obtain ⟨l₁, l₂, l₃, starts, -, -, -, q, hcode, hlinked⟩ :=
    Lower.body_spec (u := .none) (start_sound hb s.object) h
  exact hlinked.orderly (Lower.code_spec q.sound hcode).1.sound

theorem lower_tidy (hb : b.Sound) (ht : b.Tidy)
    (h : lower m owners thread object slot role b = .ok (c, b')) :
    b'.Tidy ∧ b.registers.length ≤ b'.registers.length ∧
      c.Tidy b'.pool.resources b'.registers.length := by
  obtain ⟨-, hext, -, -, hshaped⟩ := lower_spec hb h
  obtain ⟨o, f, e, l, -, -, -, hc, rfl, hcases⟩ := lower_cases h
  have hstart := start_tidy ht object
  have htidies : (∃ l₁, (Lower.entry ⟨m, owners, thread, object, slot, c.method, role⟩).run
        ⟨b, Walker.start object, [], []⟩ = .ok (e, l₁) ∧
        Relation.ReflTransGen (Lowering.Move ⟨m, owners, thread, object, slot, c.method, role⟩ .all)
          l₁ l) →
      (∀ st ∈ l.states, Rtl.Orderly l.builder.pool.resources st.insns) →
      l.builder.Tidy ∧ b.registers.length ≤ l.builder.registers.length ∧
        c.Tidy l.builder.pool.resources l.builder.registers.length := by
    rintro ⟨l₁, he, hmoves⟩ horderly
    obtain ⟨hl, hwithin⟩ := Lower.entry_tidy hstart he hmoves
    have hstates : c.states = l.states := by rw [hc]
    have hentry : c.entry = e := by rw [hc]
    exact ⟨hl.builder, hext.registers.length_le, hentry ▸ hwithin, hstates ▸ hl.within,
      hstates ▸ horderly, hshaped.targets, hshaped.nonempty⟩
  rcases hcases with ⟨-, hrun⟩ | ⟨-, -, hrun⟩ | ⟨-, -, -, hrun⟩
  · obtain ⟨l₁, l₂, -, q, hlinked⟩ :=
      Lower.imported_spec (u := .none) (start_sound hb object) rfl hrun
    exact htidies (Lower.imported_moves (fun _ _ => trivial) trivial hrun) (hlinked.orderly q.sound)
  · obtain ⟨l₁, l₂, -, q, hlinked⟩ :=
      Lower.port_spec (u := .all) (start_sound hb object) rfl trivial hrun
    exact htidies (Lower.port_moves (fun _ _ => trivial) trivial hrun) (hlinked.orderly q.sound)
  · exact htidies (Lower.body_moves (start_sound hb object) hstart.bound hrun)
      (body_orderly hb hrun)

end Site
end Synth
end MachineSynth
