import Mathlib
import MachineSynth.Proofs.Lowering.Stability

/-! Pairing: the results of a call are bound to the instruction that stands last, whatever has left
it there. They are refused where nothing has left one, but that it is the placeholder of a call is
up to the code: a result after an assignment becomes a second output of the assignment. -/
namespace MachineSynth
namespace Synth

open Rtl (kindAt)

/-- What stands before the instruction at a position of the code, to be given results: what the
instruction before it ends with or, at the start, the state to wait in if there is one. -/
def Site.offersBefore? (s : Site) : Nat → Option Bool
  | 0 => if s.role = .inner then none else some false
  | k + 1 =>
    match s.method.code[k]?, (Walker.start s.object).walk s.machine (s.method.code.take k) with
    | some i, .ok w => w.offers? s.machine i
    | _, _ => none

/-- Whether a single instruction stands last in a lowering, to be given results, or none does. -/
def Lowering.Stands (l : Lowering) : Option Bool → Prop
  | none => ∀ st ∈ l.states.getLast?, st.insns = []
  | some call => ∃ a, Lowering.Offers call a l

namespace Lower

variable {s : Site} {l l' : Lowering} {returns : List RegisterId}

theorem register_ends (r : RegisterId) (l : Lowering) :
    Ends (fun e => e = .fault (.unknownRegister r s.objectName s.method.name))
      (fun i l' => l.Fetches l' ∧ l'.locals.lookup r = some i) (register s r) l := by
  refine ⟨fun e he => ?_, fun i l' h => register_fetches h⟩
  rw [register, run_bind_of_ok (run_get_eq_ok.mpr rfl)] at he
  split at he
  · cases he
  · split at he
    · exact (Except.error.inj he).symm
    · rename_i reg hreg
      obtain ⟨i, b, hnew, -⟩ := run_newLocal hreg l
      rw [run_bind_of_ok hnew, run_bind_of_ok (run_bindLocal_eq_ok.mpr rfl)] at he
      cases he

theorem registers_ends (rs : List RegisterId) (l : Lowering) :
    Ends (fun e => ∃ r ∈ rs, e = .fault (.unknownRegister r s.objectName s.method.name))
      (fun is l' => l.Fetches l' ∧ is.map some = rs.map fun r => l'.locals.lookup r)
      (registers s rs) l := by
  induction rs generalizing l with
  | nil => exact ends_of_ok (run_pure_eq_ok.mpr rfl) ⟨.refl l, rfl⟩
  | cons r rest ih =>
    refine ((register_ends r l).mono (fun e he => ⟨r, List.mem_cons_self, he⟩)
      fun i l₁ h => h).bind ?_
    rintro i l₁ - ⟨f₁, hi⟩
    refine ((ih l₁).mono (fun e ⟨q, hq, he⟩ => ⟨q, List.mem_cons_of_mem r hq, he⟩)
      fun is l₂ h => h).bind ?_
    rintro is l₂ - ⟨f₂, his⟩
    exact ends_of_ok (run_pure_eq_ok.mpr rfl) ⟨f₁.trans f₂, by simp [his, f₂.kept hi]⟩

/-- Whether results are bound to the single instruction of the last state, which ends at position
`n`: they become outputs of it in their order, and nothing else changes. They are only refused if
one of them is not declared. -/
def Binds (s : Site) (returns : List RegisterId) (n : Nat) (call : Bool) (l : Lowering) : Prop :=
  ∃ front id i jump callee kind, l.states = front ++ [⟨id, [i], jump, callee⟩] ∧
    front.length + 1 = n ∧ kindAt l.builder.pool.resources i.resource = some kind ∧
    (kind = Pool.pseudoKind ↔ call = true) ∧
    Ends (fun e => ∃ r ∈ returns, e = .fault (.unknownRegister r s.objectName s.method.name))
      (fun _ l' => ∃ outputs, outputs.map some = returns.map (fun r => l'.locals.lookup r) ∧
        l'.states = front ++ [⟨id, [{ i with outputs := i.outputs ++ outputs }], jump, callee⟩])
      (callDone s returns) l

theorem binds_of_offers {a : Lowering} {call : Bool} (h : Lowering.Offers call a l) :
    Binds s returns l.states.length call l := by
  obtain ⟨front, id, i, jump, callee, kind, hstates, -, hkind, hcall⟩ := h
  refine ⟨front, id, i, jump, callee, kind, hstates, by simp [hstates], hkind, hcall, ?_⟩
  unfold callDone
  refine Ends.bind (P := fun a l' => a = l ∧ l' = l) (ends_of_ok (run_get_eq_ok.mpr rfl) ⟨rfl, rfl⟩) ?_
  rintro _ _ - ⟨rfl, rfl⟩
  simp only [hstates, List.getLast?_concat]
  refine (registers_ends returns _).bind ?_
  rintro outputs l₁ - ⟨hfetches, houtputs⟩
  refine ends_of_ok (run_modify_eq_ok.mpr rfl) ⟨outputs, houtputs, ?_⟩
  simp [hfetches.states, hstates]

theorem callDone_refused (h : ∀ st ∈ l.states.getLast?, st.insns = []) :
    (callDone s returns).run l =
      .error (.fault (.doneWithoutCall s.objectName s.method.name)) := by
  rw [callDone, run_bind_of_ok (run_get_eq_ok.mpr rfl)]
  split
  · rename_i id i jump callee hlast
    cases h _ hlast
  · rfl

/-- What stands last after an instruction, together with the state it is given if it has none. -/
theorem stands_of_turn {u : Uses} {js : List (Option Insn)} {call : Option Bool}
    (h : Lowering.Turn u js l l' call) : (force l.states.length l').Stands call := by
  cases h with
  | insn yields =>
    obtain ⟨front, id, i, jump, callee, kind, hstates, hgrows, hkind⟩ := yields.offers
    have hlength : l'.states.length ≠ l.states.length := by
      have hle := hgrows.length_le
      simp only [hstates, List.length_append, List.length_singleton]
      omega
    rw [force, if_neg hlength]
    exact ⟨l, yields.offers⟩
  | quiet step =>
    rw [force, if_pos (by simpa using step.count)]
    simp [Lowering.Stands, pushed]
  | empty step hstates =>
    rw [force, if_neg (by simp [step.count])]
    simp [Lowering.Stands, hstates]

theorem opening_stands {b : Builder} (hb : b.Sound) {e : Rtl.Insn}
    (h : (opening s).run ⟨b, Walker.start s.object, [], []⟩ = .ok (e, l)) :
    l.Stands (s.offersBefore? 0) := by
  simp only [opening, run_bind_eq_ok] at h
  obtain ⟨e', l₁, he, h⟩ := h
  have q₁ := entry_quiet (u := .none) (Site.start_sound hb s.object) he
  simp only [Site.offersBefore?]
  split at h
  · rename_i hrole
    rw [run_bind_eq_ok] at h
    obtain ⟨_, l₂, hwait, h⟩ := h
    cases run_pure_eq_ok.mp h
    rw [if_neg (by simpa using hrole)]
    exact ⟨l₁, (wait_step (u := .none) q₁.sound hwait).offers⟩
  · rename_i hrole
    cases run_pure_eq_ok.mp h
    rw [if_pos (by simpa using hrole)]
    simp [Lowering.Stands, q₁.states]

/-- What the lowering has come to when it reaches an instruction of the code. -/
theorem upTo_stands {b : Builder} (hb : b.Sound) {k : Nat} (hk : k ≤ s.method.code.length)
    {x : Rtl.Insn × List Nat}
    (h : (upTo s k).run ⟨b, Walker.start s.object, [], []⟩ = .ok (x, l)) :
    l.states.length = s.position k ∧ l.Stands (s.offersBefore? k) := by
  simp only [upTo, run_bind_eq_ok] at h
  obtain ⟨e, l₁, hopening, starts, l₂, hcode, h⟩ := h
  cases run_pure_eq_ok.mp h
  obtain ⟨hsound, hwalker⟩ := opening_walker (Site.start_sound hb s.object) hopening
  refine ⟨?_, ?_⟩
  · rw [(code_spec hsound hcode).1.count, (opening_outputs hb hopening).1, Site.position]
  cases k with
  | zero =>
    cases run_pure_eq_ok.mp hcode
    exact opening_stands hb hopening
  | succ k =>
    have hi := List.getElem?_eq_getElem hk
    rw [List.take_add_one, hi, Option.toList_some, code_append, run_bind_eq_ok] at hcode
    obtain ⟨starts₁, l₃, hbefore, hcode⟩ := hcode
    have hat := (code_spec hsound hbefore).1
    rw [run_bind_eq_ok] at hcode
    obtain ⟨starts₂, l₄, hlast, hcode⟩ := hcode
    cases run_pure_eq_ok.mp hcode
    obtain ⟨l₅, starts₃, hrun, hnil, -⟩ := code_cons_eq_ok.mp hlast
    cases run_pure_eq_ok.mp hnil
    obtain ⟨w, -, hturn⟩ := instruction_turn hat.sound hrun
    have hwalk := hat.walker
    rw [hwalker] at hwalk
    have hbefore : s.offersBefore? (k + 1) = l₃.walker.offers? s.machine s.method.code[k] := by
      simp [Site.offersBefore?, hi, hwalk]
    rw [hbefore]
    have hstands := stands_of_turn hturn
    exact hstands

/-- Results are bound to what the instruction just before ends with, if that is a single
instruction, and are refused otherwise. They are bound to the placeholder of a call exactly if the
instruction before is a call that is not native. -/
theorem results_bound {b : Builder} (hb : b.Sound) {k : Nat} {x : Rtl.Insn × List Nat}
    (h : (upTo s k).run ⟨b, Walker.start s.object, [], []⟩ = .ok (x, l))
    (hdone : s.method.code[k]? = some (.callDone returns)) :
    match s.offersBefore? k with
    | none => (callDone s returns).run l =
        .error (.fault (.doneWithoutCall s.objectName s.method.name))
    | some call => Binds s returns (s.position k) call l := by
  obtain ⟨hcount, hstands⟩ := upTo_stands hb (List.getElem?_eq_some_iff.mp hdone).1.le h
  split <;> rename_i heq <;> rw [heq] at hstands
  · exact callDone_refused hstands
  · obtain ⟨a, hoffers⟩ := hstands
    exact hcount ▸ binds_of_offers hoffers

/-- After an assignment results are bound, but not to a call; after nothing they are refused. -/
theorem resultLowering_results : (Builder.ofPool (.empty ⟨0, 0⟩)).Sound ∧
    (∃ x l, (upTo (resultSite [.assign 1 0, .callDone [1]]) 1).run
      ⟨Builder.ofPool (.empty ⟨0, 0⟩), Walker.start 0, [], []⟩ = .ok (x, l) ∧
      Binds (resultSite [.assign 1 0, .callDone [1]]) [1] 2 false l) ∧
    ∃ x l, (upTo (resultSite [.nop, .callDone [1]]) 1).run
      ⟨Builder.ofPool (.empty ⟨0, 0⟩), Walker.start 0, [], []⟩ = .ok (x, l) ∧
      (callDone (resultSite [.nop, .callDone [1]]) [1]).run l =
        .error (.fault (.doneWithoutCall "top" "f")) := by
  have hb := Builder.sound_ofPool (Pool.sound_empty ⟨0, 0⟩)
  have hassign : ((upTo (resultSite [.assign 1 0, .callDone [1]]) 1).run
      ⟨Builder.ofPool (.empty ⟨0, 0⟩), Walker.start 0, [], []⟩).toOption.any (fun _ => true) =
      true := by decide +kernel
  have hnop : ((upTo (resultSite [.nop, .callDone [1]]) 1).run
      ⟨Builder.ofPool (.empty ⟨0, 0⟩), Walker.start 0, [], []⟩).toOption.any (fun _ => true) =
      true := by decide +kernel
  obtain ⟨⟨x, l⟩, hrun, -⟩ := exists_ok_of_any hassign
  obtain ⟨⟨x', l'⟩, hrun', -⟩ := exists_ok_of_any hnop
  exact ⟨hb, ⟨x, l, hrun, results_bound hb hrun rfl⟩, x', l', hrun', results_bound hb hrun' rfl⟩

/-- A result after an assignment: the assignment gets a second output. -/
theorem resultLowering_assigns_twice : ∃ e l,
    resultLowering [.assign 1 0, .callDone [1]] = .ok (e, l) ∧
    ∃ st ∈ l.states, ∃ i ∈ st.insns,
      kindAt l.builder.pool.resources i.resource = some "set" ∧ i.outputs = [1, 1] := by
  have h : (resultLowering [.assign 1 0, .callDone [1]]).toOption.any (fun x => decide (
      ∃ st ∈ x.2.states, ∃ i ∈ st.insns,
        kindAt x.2.builder.pool.resources i.resource = some "set" ∧ i.outputs = [1, 1])) = true := by
    decide +kernel
  obtain ⟨⟨e, l⟩, hrun, h⟩ := exists_ok_of_any h
  exact ⟨e, l, hrun, of_decide_eq_true h⟩

end Lower
end Synth
end MachineSynth
