import Mathlib
import MachineSynth.Proofs.Threads

/-! Emission: the states that accesses to shared entities are lowered to, and the resources that do
their work. -/
namespace MachineSynth
namespace Synth

open Rtl (kindAt)

/-- What is shared when an instruction accesses it: a memory or a register. -/
def Walker.thing (i : Insn) : String := if Walker.onArray i then "shared-memory" else "shared-reg"

/-- Whether the work of a state is that of one resource, after which it leads on. -/
def LoweredState.DoneBy (resources : List Rtl.Resource) (st : LoweredState) (r : Nat) : Prop :=
  ∃ x j, st.insns = [x, j] ∧ x.resource = r ∧
    kindAt resources j.resource = some Rtl.Resource.transitionKind

theorem LoweredState.DoneBy.mono {p q : Pool} (hpq : p.Extends q) {st : LoweredState} {r : Nat}
    (h : st.DoneBy p.resources r) : st.DoneBy q.resources r := by
  obtain ⟨x, j, hinsns, hx, hj⟩ := h
  exact ⟨x, j, hinsns, hx, hpq.kindAt hj⟩

namespace Lowering

/-- A part of the lowering that adds one state, with the work of one resource. -/
structure Emits (r : Nat) (l l' : Lowering) : Prop where
  builder : l.builder.Extends l'.builder
  state : ∃ id x, x.resource = r ∧ l'.states = l.states ++ [⟨id, [x], none, none⟩]

theorem Quiet.emits {u : Uses} {r : Nat} {a b c : Lowering} (h : Quiet u a b) (h' : Emits r b c) :
    Emits r a c :=
  ⟨h.builder.trans h'.builder, h.states ▸ h'.state⟩

end Lowering

namespace Lower

open Lowering (Emits Quiet)

variable {s : Site} {l l' : Lowering}

theorem force_extends (n : Nat) (l : Lowering) : l.builder.Extends (force n l).builder := by
  unfold force
  split
  · exact Builder.newState_extends _
  · exact .refl _

theorem emit_emits {unit : Nat} {operand : String} {inputs outputs : List Nat}
    (h : (emit unit operand inputs outputs).run l = .ok ((), l')) : Emits unit l l' := by
  cases run_emit_eq_ok.mp h
  exact ⟨(Builder.newInsn_extends _).trans (Builder.newState_extends _), _, _, rfl, rfl⟩

theorem memberAccess_stores {i : Insn} {label : String} {r : RegisterId} {e : Entity} {write : Bool}
    (hi : ∀ owner w, l.walker.access s.machine i = .ok (owner, w) →
      Walker.storedMember? s.machine owner label = some e)
    (h : (memberAccess s i label r write).run l = .ok ((), l')) :
    ∃ w width value,
      (storedMember s e width value false r write).run { l with walker := w } = .ok ((), l') := by
  obtain ⟨owner, w, v, haccess, hlookup, hcases⟩ := memberAccess_eq_ok h
  have hstored := hi owner w haccess
  rcases hcases with ⟨⟨id, rfl⟩, -, -⟩ | ⟨width, value, const, hv, hrun⟩
  · simp [Walker.storedMember?, hlookup] at hstored
  · rw [storedMember?_of_stores hlookup hv] at hstored
    cases const with
    | true => simp at hstored
    | false => exact ⟨w, width, value, Option.some.inj hstored ▸ hrun⟩

theorem memberAccess_emits {i : Insn} {label : String} {r : RegisterId} {e : Entity} {write : Bool}
    (hl : l.Sound) (hshared : (s.owners.get e).isShared = true)
    (hi : ∀ owner w, l.walker.access s.machine i = .ok (owner, w) →
      Walker.storedMember? s.machine owner label = some e)
    (h : (memberAccess s i label r write).run l = .ok ((), l')) :
    ∃ unit, Emits unit l l' ∧ l'.builder.Serves (s.isOwner e)
      (Pool.sharedKind "shared-reg" (s.isOwner e) write) e unit := by
  obtain ⟨w, width, value, h⟩ := memberAccess_stores hi h
  simp only [storedMember, hshared, if_true, Bool.false_eq_true, if_false] at h
  obtain ⟨unit, l₁, inputs, outputs, q, hserves, h⟩ := sharedMember_spec (u := .all)
    (hl.setWalker w) (fun _ => trivial) (fun _ => trivial) h
  have hemits := emit_emits h
  obtain ⟨hbuilder, hstate⟩ := q.emits hemits
  exact ⟨unit, ⟨hbuilder, hstate⟩, hserves.mono hemits.builder⟩

theorem memberAccess_keeps {i : Insn} {label : String} {r : RegisterId} {e : Entity} {write : Bool}
    (hl : l.Sound) (hprivate : (s.owners.get e).isShared = false)
    (hi : ∀ owner w, l.walker.access s.machine i = .ok (owner, w) →
      Walker.storedMember? s.machine owner label = some e)
    (h : (memberAccess s i label r write).run l = .ok ((), l')) :
    ∃ unit k, Emits unit l l' ∧ kindAt l'.builder.pool.resources unit = some "set" ∧
      l'.builder.members.lookup e = some k := by
  obtain ⟨w, width, value, h⟩ := memberAccess_stores hi h
  simp only [storedMember, hprivate, Bool.false_eq_true, if_false, privateMember,
    run_bind_eq_ok] at h
  obtain ⟨k, l₁, hk, own, l₂, hown, unit, l₃, hunit, h⟩ := h
  have hw := hl.setWalker w
  have hmember : l₁.builder.members.lookup e = some k := by
    cases run_build_eq_ok.mp hk
    exact Builder.lookup_memberRegister _ _ _ _
  have q₁ : Quiet .all { l with walker := w } l₁ := by
    cases run_build_eq_ok.mp hk
    exact hw.build (Builder.memberRegister_extends _ _ _ _)
      (Builder.memberRegister_sound hw.builder _ _ _)
      (Builder.memberRegister_covered trivial _ _ _)
  have q₂ : Quiet .all l₁ l₂ := register_quiet q₁.sound hown
  obtain ⟨q₃, hset⟩ := resource_quiet (u := .all) q₂.sound Pool.assign_takes hunit
  have hemits : Emits unit l₃ l' := by split at h <;> exact emit_emits h
  obtain ⟨hbuilder, hstate⟩ := ((q₁.trans q₂).trans q₃).emits hemits
  exact ⟨unit, k, ⟨hbuilder, hstate⟩, hemits.builder.pool.kindAt hset,
    hemits.builder.member (q₃.builder.member (q₂.builder.member hmember))⟩

theorem arrayAccess_emits {array index r : RegisterId} {e : Entity} {write : Bool} (hl : l.Sound)
    (hshared : (s.owners.get e).isShared ∨ (s.owners.get e).isMoved)
    (he : l.walker.array? s.machine array = some e)
    (h : (arrayAccess s array index r write).run l = .ok ((), l')) :
    ∃ unit, Emits unit l l' ∧ l'.builder.Serves (s.isOwner e)
      (Pool.sharedKind "shared-memory" (s.isOwner e) write) e unit := by
  obtain ⟨id, o, unit, l₁, harr, hunit, h⟩ := arrayAccess_eq_ok h
  obtain rfl : .whole id = e := Option.some.inj (harr.symm.trans he)
  obtain ⟨q, -, hserves⟩ := arrayResource_spec (u := .all) hl (fun _ _ => trivial)
    (fun _ _ => trivial) (fun _ _ => trivial) hunit
  obtain ⟨l₂, operand, inputs, outputs, q', h⟩ := indexed_spec (u := .all) q.sound h
  have hemits := emit_emits h
  exact ⟨unit, (q.trans q').emits hemits, (hserves hshared).mono (q'.builder.trans hemits.builder)⟩

theorem isShared_or_isMoved_of_array {i : Insn} {e : Entity} (hi : Walker.onArray i = true)
    (h : s.owners.isPrivate i e = false) : (s.owners.get e).isShared ∨ (s.owners.get e).isMoved := by
  simp only [OwnershipTable.isPrivate, hi, Bool.true_and] at h
  cases hs : (s.owners.get e).isShared <;> simp_all

/-- An access to a shared entity is the work of a resource that is registered for it. -/
theorem instruction_accesses {i : Insn} {e : Entity} {write : Bool} (hl : l.Sound)
    (he : l.walker.accessed? s.machine i = some (e, write)) (hshared : s.owners.isPrivate i e = false)
    (h : (instruction s i).run l = .ok ((), l')) :
    ∃ unit, Emits unit l l' ∧ l'.builder.Serves (s.isOwner e)
      (Pool.sharedKind (Walker.thing i) (s.isOwner e) write) e unit := by
  cases i with
  | memberRead target object label =>
    obtain ⟨e', hentity, heq⟩ := Option.map_eq_some_iff.mp he
    cases heq
    refine memberAccess_emits hl (by simpa [OwnershipTable.isPrivate, Walker.onArray] using hshared)
      (fun owner w haccess => ?_) h
    simpa [Walker.objectOf?_of_read haccess] using hentity
  | memberWrite object label source =>
    obtain ⟨e', hentity, heq⟩ := Option.map_eq_some_iff.mp he
    cases heq
    refine memberAccess_emits hl (by simpa [OwnershipTable.isPrivate, Walker.onArray] using hshared)
      (fun owner w haccess => ?_) h
    simpa [Walker.objectOf?_of_write haccess] using hentity
  | arrayRead target object index =>
    obtain ⟨e', hentity, heq⟩ := Option.map_eq_some_iff.mp he
    cases heq
    exact arrayAccess_emits hl (isShared_or_isMoved_of_array rfl hshared) hentity h
  | arrayWrite object index source =>
    obtain ⟨e', hentity, heq⟩ := Option.map_eq_some_iff.mp he
    cases heq
    exact arrayAccess_emits hl (isShared_or_isMoved_of_array rfl hshared) hentity h
  | _ => cases he

theorem instruction_keeps {i : Insn} {e : Entity} {write : Bool} (hl : l.Sound)
    (he : l.walker.accessed? s.machine i = some (e, write)) (hi : Walker.onArray i = false)
    (hprivate : s.owners.isPrivate i e = true) (h : (instruction s i).run l = .ok ((), l')) :
    ∃ unit k, Emits unit l l' ∧ kindAt l'.builder.pool.resources unit = some "set" ∧
      l'.builder.members.lookup e = some k := by
  have hshared : (s.owners.get e).isShared = false := by
    simpa [OwnershipTable.isPrivate, hi] using hprivate
  cases i with
  | memberRead target object label =>
    obtain ⟨e', hentity, heq⟩ := Option.map_eq_some_iff.mp he
    cases heq
    refine memberAccess_keeps hl hshared (fun owner w haccess => ?_) h
    simpa [Walker.objectOf?_of_read haccess] using hentity
  | memberWrite object label source =>
    obtain ⟨e', hentity, heq⟩ := Option.map_eq_some_iff.mp he
    cases heq
    refine memberAccess_keeps hl hshared (fun owner w haccess => ?_) h
    simpa [Walker.objectOf?_of_write haccess] using hentity
  | arrayRead target object index => cases hi
  | arrayWrite object index source => cases hi
  | _ => cases he

/-- A move of an array that has an owner is the work of a port that is registered for it. -/
theorem instruction_moves {i : Insn} {e : Entity} (hl : l.Sound)
    (he : l.walker.moved? s.machine i = some e) (howner : (s.owners.get e).owner.isSome)
    (h : (instruction s i).run l = .ok ((), l')) :
    ∃ unit, Emits unit l l' ∧ l'.builder.Serves false "axi-master-port" e unit := by
  cases i with
  | call object label args =>
    simp only [Walker.moved?] at he
    split at he
    · rename_i f hf
      split at he
      · rename_i hop
        obtain ⟨id, hid, rfl⟩ := Option.map_eq_some_iff.mp he
        simp only [instruction, call, run_bind_eq_ok] at h
        obtain ⟨x, l₁, hheld, h⟩ := h
        split at h
        · exact absurd h run_fault_ne_ok
        · rename_i id' o
          obtain ⟨hid', ho, rfl⟩ := heldObject_some hheld
          cases Option.some.inj (hid.symm.trans hid')
          rw [run_bind_eq_ok] at h
          obtain ⟨_, _, hget, h⟩ := h
          cases run_get_eq_ok.mp hget
          have hmethod : o.method? label = some f := by
            simpa [Walker.calledMethod?, hid, ho] using hf
          have hnative : l₁.walker.isNativeCall s.machine object label = true := by
            have hne : f.native ≠ "" := by rcases hop.2 with hop | hop <;> simp [hop]
            simp [Walker.isNativeCall, hf, hop.1, hne]
          have htransfer : ∃ store, (transfer s id o args store).run l₁ = .ok ((), l') := by
            rw [hnative, hmethod] at h
            rcases hop.2 with hop | hop
            · exact ⟨false, by simpa only [nativeCall, hop] using h⟩
            · exact ⟨true, by simpa only [nativeCall, hop] using h⟩
          obtain ⟨store, h⟩ := htransfer
          obtain ⟨unit, l₂, operand, inputs, q, -, hserves, h⟩ :=
            transfer_spec (u := .all) hl (fun _ => trivial) h
          have hemits := emit_emits h
          exact ⟨unit, q.emits hemits, (hserves howner).mono hemits.builder⟩
      · cases he
    · cases he
  | _ => cases he

end Lower

theorem Lowering.Grows.state {u : Uses} {l l' : Lowering} (h : Grows u l l') {n : Nat}
    {st : LoweredState} (hst : l.states[n]? = some st) :
    ∃ st', l'.states[n]? = some st' ∧ st'.bare = st.bare := by
  have hget : (l'.states.map (·.bare))[n]? = some st.bare :=
    getElem?_of_isPrefix h.states (by simp [hst])
  rw [List.getElem?_map] at hget
  exact Option.map_eq_some_iff.mp hget

theorem LoweredState.Routed.doneBy {resources : List Rtl.Resource} {starts : List Nat}
    {closes : Bool} {n i : Nat} {st st' : LoweredState} (h : Routed resources starts closes n i st st')
    (hlt : i + 1 < n) {id : Nat} {x : Rtl.Insn}
    (hst : st.bare = LoweredState.bare ⟨id, [x], none, none⟩) : st'.DoneBy resources x.resource := by
  obtain ⟨id', insns, jump, callee⟩ := st
  simp only [bare, List.map_cons, List.map_nil, mk.injEq] at hst
  obtain ⟨-, hinsns, rfl, rfl⟩ := hst
  obtain ⟨x', rfl⟩ : ∃ x', insns = [x'] :=
    List.length_eq_one_iff.mp (by simpa using congrArg List.length hinsns)
  have hresource : x'.resource = x.resource := by
    simp only [List.map_cons, List.map_nil, List.cons.injEq, and_true] at hinsns
    have hbare : x'.bare.resource = x.bare.resource := congrArg Rtl.Insn.resource hinsns
    exact hbare
  cases h with
  | jump lt jumps => cases jumps
  | next lt none idle leads => exact ⟨x', _, rfl, hresource, leads.kind⟩
  | last eq => omega
  | close eq => omega

namespace Site

variable {m : Machine} {owners : OwnershipTable} {thread : ThreadId} {object : Nat} {slot : String}
  {role : Role} {b b' : Builder} {c : Context}

/-- Where an instruction of a method is lowered, and the state that it has in the end. -/
theorem lower_at (hb : b.Sound) (h : lower m owners thread object slot role b = .ok (c, b'))
    {k : Nat} {i : Insn} {w : Walker} (hi : c.code[k]? = some i)
    (hw : (Walker.start object).walk m (c.code.take k) = .ok w) :
    ∃ a a' st, a.Sound ∧ a.walker = w ∧
      (Lower.instruction ⟨m, owners, thread, object, slot, c.method, role⟩ i).run a =
        .ok ((), a') ∧ a'.builder.Extends b' ∧
      c.states[Lower.firstState role + Lower.offset (c.code.take k)]? = some st ∧
      ∀ r, Lowering.Emits r a a' → st.DoneBy b'.pool.resources r := by
  obtain ⟨o, f, e, l, -, -, -, hc, rfl, hcases⟩ := lower_cases h
  rcases hcases with ⟨himported, -⟩ | ⟨-, hport, -⟩ | ⟨-, himported, hport, hrun⟩
  · simp [Context.code, himported] at hi
  · simp [Context.code, hport] at hi
  · have hcode : c.code = c.method.code := by simp [Context.code, himported, hport]
    rw [hcode] at hi hw ⊢
    have hstates : c.states = l.states := by rw [hc]
    obtain ⟨l₁, l₂, l₃, starts, -, -, -, q, hrun, hlinked⟩ :=
      Lower.body_spec (u := .none) (start_sound hb object) hrun
    obtain ⟨hend, -, -, hat⟩ := Lower.code_spec q.sound hrun
    obtain ⟨a, a', ha, hinsn, -, -, hgrows⟩ := hat k i hi
    obtain ⟨hforce, -⟩ := Lower.force_at ha hinsn
    have hcount : l₂.states.length = Lower.firstState role := by simpa using q.count
    have hwalker : a.walker = w := by
      have := ha.walker
      rw [q.walker] at this
      exact Except.ok.inj (this.symm.trans hw)
    have hlt : a.states.length < (Lower.force a.states.length a').states.length := by
      have hpos := Lower.stateCount_pos i
      rw [hforce.count, ha.count, Lower.offset_append, Lower.offset_cons]
      omega
    obtain ⟨st₁, hst₁, hbare⟩ := hgrows.state (List.getElem?_eq_getElem hlt)
    have hlt₃ : a.states.length < l₃.states.length := (List.getElem?_eq_some_iff.mp hst₁).1
    have hpushed : (Lower.pushed l₃).states[a.states.length]? = some st₁ := by
      rw [← hst₁]
      exact List.getElem?_append_left hlt₃
    obtain ⟨st, hst, hrouted⟩ := hlinked.state hpushed
    refine ⟨a, a', st, ha.sound, hwalker, hinsn, ?_, ?_, fun r hemits => ?_⟩
    · exact (Lower.force_extends _ a').trans (hgrows.builder.trans
        ((Builder.newState_extends _).trans hlinked.builder))
    · rw [hstates, ← hcount, ← ha.count]
      exact hst
    · obtain ⟨id, x, rfl, hnew⟩ := hemits.state
      have hforced : Lower.force a.states.length a' = a' := by simp [Lower.force, hnew]
      have hst₁ : st₁.bare = LoweredState.bare ⟨id, [x], none, none⟩ := by
        rw [hbare]
        simp [hforced, hnew]
      exact hrouted.doneBy (by simpa [Lower.pushed] using hlt₃) hst₁

end Site
end Synth
end MachineSynth
