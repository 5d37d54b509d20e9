import Mathlib
import MachineSynth.Proofs.Tables.Assembly

/-! Well-formedness: what can be relied on in every design that is synthesized. -/
namespace MachineSynth

namespace Rtl

/-- A table that can be run: it starts in its first state, numbers are not given twice, transitions
lead to its own states, and everything that an instruction refers to is there. -/
structure Table.WellFormed (t : Table) : Prop where
  states : t.states ≠ []
  initial : t.initial = some 0
  stateIds : (t.states.map (·.id)).Nodup
  insnIds : (Rtl.insnIds t.states).Nodup
  registerIds : (t.registers.map (·.id)).Nodup
  resourceIds : (t.resources.map (·.id)).Nodup
  /-- A state has one transition at most. -/
  transition : ∀ s ∈ t.states, (s.insns.filter (·.isTransition t.resources)).length ≤ 1
  /-- A transition with a condition leads to two states, any other to one at most. -/
  branch : ∀ s ∈ t.states, ∀ i ∈ s.insns, i.isTransition t.resources →
    i.targets.length ≤ 2 ∧ (i.targets.length = 2 ↔ i.inputs ≠ []) ∧ i.inputs.length ≤ 1
  targets : ∀ s ∈ t.states, ∀ i ∈ s.insns, ∀ k ∈ i.targets, k < t.states.length
  /-- Only transitions lead on. -/
  others : ∀ s ∈ t.states, ∀ i ∈ s.insns, ¬ i.isTransition t.resources → i.targets = []
  /-- No placeholder is left. -/
  resource : ∀ s ∈ t.states, ∀ i ∈ s.insns,
    ∃ r, t.resources[i.resource]? = some r ∧ r.kind ≠ Synth.Pool.pseudoKind
  inputs : ∀ s ∈ t.states, ∀ i ∈ s.insns, ∀ r ∈ i.inputs, r < t.registers.length
  outputs : ∀ s ∈ t.states, ∀ i ∈ s.insns, ∀ r ∈ i.outputs, r < t.registers.length

/-- A design of well-formed tables that refer to each other, in modules that are nested in earlier
ones. -/
structure Design.WellFormed (d : Design) : Prop where
  table : ∀ m ∈ d.modules, ∀ t ∈ m.tables, t.WellFormed
  parent : ∀ m ∈ d.modules, ∀ t ∈ m.tables, ∀ r ∈ t.resources, ∀ p ∈ r.parent,
    (d.resource? p).isSome
  callee : ∀ m ∈ d.modules, ∀ t ∈ m.tables, ∀ r ∈ t.resources, ∀ c ∈ r.callee,
    (d.table? c).isSome
  writer : ∀ c ∈ d.channels, ∀ r ∈ c.writer, (d.resource? r).isSome
  reader : ∀ c ∈ d.channels, ∀ r ∈ c.reader, (d.resource? r).isSome
  nested : ∀ {k : Nat} {mod : Module}, d.modules[k]? = some mod → 0 < k →
    ∃ q outer, mod.parent = some q ∧ d.modules[q]? = some outer ∧ outer.id < mod.id

theorem nodup_of_positions {α : Type} {xs : List α} {id : α → Nat}
    (h : ∀ {k : Nat} {x : α}, xs[k]? = some x → id x = k + 1) : (xs.map id).Nodup := by
  refine List.nodup_iff_injective_getElem.mpr fun i j hij => ?_
  have hat : ∀ i : Fin (xs.map id).length, (xs.map id)[i] = i.1 + 1 := by
    rintro ⟨i, hi⟩
    rw [List.length_map] at hi
    simpa using h (List.getElem?_eq_getElem hi)
  have := hat i
  have := hat j
  simp only [Fin.getElem_fin] at *
  exact Fin.ext (by omega)

/-- Parameters of resources do not matter. -/
theorem Table.WellFormed.of_stripped {t t' : Table} (h : t.WellFormed)
    (hstripped : t'.stripped = t.stripped) : t'.WellFormed := by
  obtain ⟨hregisters, hstates, hinitial⟩ := Table.eq_of_stripped hstripped
  have hresources := Table.getElem?_stripped hstripped
  have hids : t'.resources.map (·.id) = t.resources.map (·.id) := by
    refine List.ext_getElem? fun k => ?_
    have hk := congrArg (Option.map Resource.id) (hresources k)
    simpa [Resource.stripped, Function.comp_def] using hk
  have htr : ∀ i : Insn, i.isTransition t'.resources = i.isTransition t.resources := by
    intro i
    have hi := hresources i.resource
    unfold Insn.isTransition
    cases ht : t.resources[i.resource]? with
    | none =>
      rw [ht, Option.map_none, Option.map_eq_none_iff] at hi
      rw [hi]
    | some r =>
      rw [ht, Option.map_some] at hi
      obtain ⟨r', hr', heq⟩ := Option.map_eq_some_iff.mp hi
      simp [hr', Resource.isTransition, (Resource.eq_of_stripped heq).2.1]
  refine ⟨hstates ▸ h.states, hinitial.trans h.initial,
    hstates ▸ h.stateIds, hstates ▸ h.insnIds, hregisters ▸ h.registerIds, hids ▸ h.resourceIds,
    ?_, ?_, hstates ▸ h.targets, ?_, fun s hs i hi => ?_, ?_, ?_⟩
  · simpa only [hstates, htr] using h.transition
  · simpa only [hstates, htr] using h.branch
  · simpa only [hstates, htr] using h.others
  · obtain ⟨r, hr, hkind⟩ := h.resource s (hstates ▸ hs) i hi
    have hk := hresources i.resource
    rw [hr, Option.map_some] at hk
    obtain ⟨r', hr', heq⟩ := Option.map_eq_some_iff.mp hk
    exact ⟨r', hr', (Resource.eq_of_stripped heq).2.1 ▸ hkind⟩
  · simpa only [hstates, hregisters] using h.inputs
  · simpa only [hstates, hregisters] using h.outputs

end Rtl

namespace Synth

theorem ThreadTable.Tidy.wellFormed {w : ThreadTable} (h : w.Tidy) : w.table.WellFormed where
  states := h.nonempty
  initial := by simp [table, h.nonempty]
  stateIds := h.counted.stateIds
  insnIds := h.counted.insnIds
  registerIds := Rtl.nodup_of_positions h.register
  resourceIds := Rtl.nodup_of_positions h.resource
  transition s hs := (h.orderly s hs).single
  branch s hs i hi htr := by
    rcases (h.orderly s hs).leads i hi htr with ⟨htargets, hinputs⟩ | ⟨htargets, hinputs⟩
    · have hne : i.inputs ≠ [] := fun hnil => by simp [hnil] at hinputs
      exact ⟨by omega, by simp [htargets, hne], by omega⟩
    · exact ⟨by omega, by simp [hinputs]; omega, by simp [hinputs]⟩
  targets s hs i hi := (h.insn s hs i hi).targets
  others s hs i hi htr := (h.orderly s hs).others i hi (Bool.eq_false_iff.mpr htr)
  resource s hs i hi := by
    obtain ⟨kind, hk, hne, -⟩ := (h.insn s hs i hi).kind
    obtain ⟨r, hr, rfl⟩ := Option.map_eq_some_iff.mp hk
    exact ⟨r, hr, hne⟩
  inputs s hs i hi := (h.insn s hs i hi).within.inputs
  outputs s hs i hi := (h.insn s hs i hi).within.outputs

structure Synthesis.WellFormed (m : Machine) (s : Synthesis) : Prop where
  design : s.design.WellFormed
  objects : (s.plan.modules.map (·.object)).Nodup
  modules : s.design.modules.map (·.name) = s.plan.modules.map fun mod => m.name mod.object

namespace Synthesis

variable {m : Machine} {root : Nat} {s : Synthesis} {owners : OwnershipTable} {limit : Nat}
  {built : List ThreadTable} {ps : List (Rtl.ResourceRef × Rtl.ResourceRef)}

theorem Staged.module (h : Staged m root s owners limit built ps) (k : Nat) :
    (s.design.modules[k]?).map (fun mod => (mod.id, mod.name, mod.parent)) =
      (s.plan.modules[k]?).map fun mod => (k + 1, m.name mod.object, mod.parent) := by
  have hat := congrArg (fun ms => (ms[k]?).map fun mod : Rtl.Module =>
    (mod.id, mod.name, mod.parent)) h.design.1
  simpa [Rtl.Design.stripped, Rtl.Module.stripped, assemble, Function.comp_def] using hat

theorem Staged.refers (h : Staged m root s owners limit built ps) {mod : Rtl.Module}
    {t : Rtl.Table} {r : Rtl.Resource} (hmod : mod ∈ s.design.modules) (ht : t ∈ mod.tables)
    (hr : r ∈ t.resources) : (∀ p ∈ r.parent, (s.design.resource? p).isSome) ∧
      ∀ c ∈ r.callee, (s.design.table? c).isSome := by
  obtain ⟨w, hw, hstripped⟩ := h.mem_design hmod ht
  obtain ⟨k, hk⟩ := List.mem_iff_getElem?.mp hr
  have hsame := Rtl.Table.getElem?_stripped hstripped k
  rw [hk, Option.map_some, eq_comm] at hsame
  obtain ⟨r', hr', heq⟩ := Option.map_eq_some_iff.mp hsame
  have hmem : r' ∈ w.resources := List.mem_of_getElem? hr'
  obtain ⟨-, -, hparent, hcallee⟩ := Rtl.Resource.eq_of_stripped heq
  have hrefers := (h.tidy hw).2.1
  refine ⟨fun p hp => h.resource?_of_holds (hrefers.parent r' hmem p (hparent ▸ hp)),
    fun c hc => ?_⟩
  obtain ⟨w', hw', rfl⟩ := hrefers.callee r' hmem c (hcallee ▸ hc)
  obtain ⟨t', ht', -⟩ := h.table?_design hw'
  exact Option.isSome_iff_exists.mpr ⟨t', ht'⟩

/-- Every synthesized design is well formed. -/
theorem synthesized_wellFormed {depth : Nat} (h : synthesize m root depth = .ok s) :
    s.WellFormed m := by
  obtain ⟨owners, limit, built, ps, h⟩ := staged_of_ok h
  have hhoused := Plan.ofRoot_housed h.plan
  refine ⟨⟨fun mod hmod t ht => ?_, fun mod hmod t ht r hr => (h.refers hmod ht hr).1,
    fun mod hmod t ht r hr => (h.refers hmod ht hr).2,
    fun c hc r hr => h.resource?_of_holds ((h.design.2 c hc).1 r hr),
    fun c hc r hr => h.resource?_of_holds ((h.design.2 c hc).2 r hr),
    fun {k mod} hk hpos => ?_⟩, hhoused.objects, List.ext_getElem? fun k => ?_⟩
  · obtain ⟨w, hw, hstripped⟩ := h.mem_design hmod ht
    exact (h.tidy hw).1.wellFormed.of_stripped hstripped
  · have hat := h.module k
    rw [hk, Option.map_some, eq_comm] at hat
    obtain ⟨planned, hplanned, heq⟩ := Option.map_eq_some_iff.mp hat
    simp only [Prod.mk.injEq] at heq
    obtain ⟨q, hq, hlt⟩ := hhoused.parent hplanned hpos
    have hq' : q < s.plan.modules.length :=
      hlt.trans (List.getElem?_eq_some_iff.mp hplanned).1
    have hat' := h.module q
    rw [List.getElem?_eq_getElem hq', Option.map_some] at hat'
    obtain ⟨outer, houter, heq'⟩ := Option.map_eq_some_iff.mp hat'
    simp only [Prod.mk.injEq] at heq'
    exact ⟨q, outer, heq.2.2 ▸ hq, houter, by omega⟩
  · have hat := congrArg (Option.map fun x : Nat × String × Option Nat => x.2.1) (h.module k)
    simpa [Function.comp_def] using hat

/-- A machine of two objects with threads that share a member, calls between its objects and
within one of them, a branch, and a channel. -/
def mixedCalls : Machine :=
  let num (name : String) (width : UInt64) : Register := ⟨name, .num, width, false, 0⟩
  let method (name : String) (args returns : List VarDecl) (code : List Insn) : Slot :=
    ⟨name, .method ⟨name, args, returns, [num "a" 8, num "b" 8, num "c" 0, ⟨"o", .object, 0, false, 0⟩],
      code, "", "", "", .none⟩⟩
  let this := RegisterId.unused
  ⟨[⟨"top", .plain, 0, 0, false, false, [⟨"feed", "write"⟩],
      [⟨"x", .num 8 0 false⟩, ⟨"sub", .object 1⟩, ⟨"out", .object 2⟩,
        method "main" [] [] [.loadObject 3 this "sub", .memberRead 0 this "x", .call 3 "f" [0],
          .callDone [1], .binary .gt 2 0 1, .branch 2 1, .call this "g" [1], .callDone [0],
          .loadObject 3 this "out", .channelWrite 3 0, .goto 0],
        method "g" [⟨"x", .int, 8⟩] [⟨"y", .int, 8⟩] [.count false 0, .assign 1 0],
        method "write" [] [] [.loadObject 3 this "out", .channelRead 0 3, .memberWrite this "x" 0,
          .goto 0]]⟩,
    ⟨"sub", .plain, 0, 0, false, false, [],
      [method "f" [⟨"x", .int, 8⟩] [⟨"y", .int, 8⟩] [.assign 1 0]]⟩,
    ⟨"out", .channel, 8, 0, false, false, [], []⟩]⟩

theorem mixedCalls_wellFormed : ∃ s, synthesize mixedCalls 0 0 = .ok s ∧
    s.design.modules.map (·.tables.map (·.states.length)) = [[15, 5], [3]] ∧
    s.design.channels.length = 1 ∧ s.WellFormed mixedCalls := by
  have h : (synthesize mixedCalls 0 0).toOption.any (fun s => decide
      (s.design.modules.map (·.tables.map (·.states.length)) = [[15, 5], [3]] ∧
        s.design.channels.length = 1)) = true := by decide +kernel
  obtain ⟨s, hs, h⟩ := exists_ok_of_any h
  obtain ⟨hstates, hchannels⟩ := of_decide_eq_true h
  exact ⟨s, hs, hstates, hchannels, synthesized_wellFormed hs⟩

end Synthesis
end Synth
end MachineSynth
