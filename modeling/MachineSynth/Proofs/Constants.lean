import Mathlib
import MachineSynth.Proofs.Expansion.Outputs
import MachineSynth.Proofs.Loading
import MachineSynth.Proofs.Wellformedness

/-! Constants of a design: no instruction of any table writes one, as long as the methods of the
listing give no values to registers that stand for constants. -/
namespace MachineSynth

theorem Object.Closed.method {o : Object} (h : o.Closed) {name : String} {f : Method}
    (hf : o.method? name = some f) : f.Closed := by
  unfold method? at hf
  split at hf
  · rename_i f' hlookup
    cases hf
    obtain ⟨slot, hslot, hvalue⟩ := Option.map_eq_some_iff.mp hlookup
    exact (h.methods slot (List.mem_of_find?_eq_some hslot) f hvalue).2
  · cases hf

namespace Synth

/-- Whether the compiled methods of a thread give no values to registers that stand for
constants. -/
def ThreadPlan.SparesConstants (m : Machine) (t : ThreadPlan) : Prop :=
  ∀ name ∈ t.methods, ∀ f, Walker.calledMethod? m (some t.object) name = some f →
    f.isNative = false → f.isImported = false → f.marks.isPort = false →
    f.SparesConstants m t.object

namespace ThreadTable

open Rtl (Writable)

variable {m : Machine} {R : List Rtl.Register}

section Building

variable {owners : OwnershipTable} {limit : Nat} {id : ThreadId} {t : ThreadPlan}

/-- The methods of a thread are lowered to states that write no constants. -/
theorem clean_of_lowerAll (hm : m.Closed) (ht : t.SparesConstants m) {b b' : Builder}
    (hb : b.Sound) {contexts : List (String × Context)}
    (h : lowerAll m owners id t t.methods b = .ok (contexts, b')) (hR : b'.registers <+: R)
    (name : String) (c : Context) (hc : contexts.lookup name = some c) :
    Lower.Spared R c.entry c.states := by
  obtain ⟨-, -, -, hall⟩ := lowerAll_spec hb h
  obtain ⟨hname, b₁, b₂, hb₁, -, hlower, hext⟩ := hall name c (mem_of_lookup hc)
  refine Site.lower_spares hb₁ (fun o _ _ ho => (hm.objects o (List.mem_of_getElem? ho)).method)
    (fun o f ho hf => ht name hname f ?_) (hext.registers.trans hR) hlower
  rw [Walker.calledMethod?, Option.bind_some, ho, Option.bind_some, hf]

theorem build_clean (hm : m.Closed) (ht : t.SparesConstants m) (hpool : t.pool.Sound)
    {built : ThreadTable} (h : build m owners limit id t = .ok built)
    (hR : built.builder.registers <+: R) :
    StatesClean R built.states ∧ ∀ c ∈ built.taskCalls, ∀ j ∈ c.outputs, Writable R j := by
  obtain ⟨b, entry, first, last, x, hlower, hentry, hcopy, htable⟩ := build_eq_ok h
  have hregisters := (copy_adds hpool hlower hentry hcopy).builder.registers
  rw [htable] at hR ⊢
  have hempty : Expansion.Clean R ⟨b, [], [], []⟩ :=
    ⟨fun s hs => (by cases hs), fun c hc => (by cases hc)⟩
  have hx := Expand.copy_clean (clean_of_lowerAll hm ht (Builder.sound_ofPool hpool) hlower
    (hregisters.trans hR)) hentry hcopy hempty
  exact ⟨hx.states, hx.taskCall⟩

end Building

section Wiring

variable {plan : Plan} {tables : List ThreadTable} {a a' callee : ThreadTable} {call : TableCall}

theorem callTask_clean (hcall : ∀ j ∈ call.outputs, Writable R j) (ha : StatesClean R a.states)
    (h : callTask m a call callee = .ok a') : StatesClean R a'.states := by
  simp only [callTask] at h
  split at h
  · cases h
    exact ha.addInsn _ fun j hj => by cases hj
  · split at h
    · cases h
    · split at h
      · cases h
        exact ha.addInsn _ fun j hj => by cases hj
      · cases h
        exact StatesClean.addInsn (ha.addInsn _ fun j hj => by cases hj) _ hcall

theorem callDataFlow_clean (ha : StatesClean R a.states)
    (h : callDataFlow m a call callee = .ok a') : StatesClean R a'.states := by
  unfold callDataFlow at h
  split at h
  · split at h
    · cases h
    · simp only at h
      split at h <;> cases h <;> exact ha.addInsn _ fun j hj => by cases hj
  · cases h

theorem wire_clean (hcalls : ∀ c ∈ a.taskCalls, ∀ j ∈ c.outputs, Writable R j)
    (ha : StatesClean R a.states) (h : wire m plan tables a = .ok a') : StatesClean R a'.states :=
  wire_rel (R := fun b b' => StatesClean R b.states → StatesClean R b'.states) (fun _ => id)
    (fun _ _ _ hab hbc hb => hbc (hab hb))
    (fun _ call _ hcall h hb => (wireTask_eq_ok h).elim fun _ h =>
      callTask_clean (hcalls call hcall) hb h.2)
    (fun _ _ _ _ h hb => (wireDataFlow_eq_ok h).elim fun _ h => callDataFlow_clean hb h.2) h ha

end Wiring

end ThreadTable

namespace Synthesis

/-- In the design of a listing no instruction writes a constant, if the compiled methods of the
threads give values only to registers that do not stand for constants. -/
theorem synthesized_spares {source : Source} {m : Machine} {root depth : Nat} {s : Synthesis}
    (hload : Listing.load source = .ok m) (h : synthesize m root depth = .ok s)
    (hspares : ∀ t ∈ s.plan.threads, t.SparesConstants m) :
    ∀ mod ∈ s.design.modules, ∀ t ∈ mod.tables, ∀ st ∈ t.states, ∀ i ∈ st.insns,
      ∀ j ∈ i.outputs, ∃ reg, t.registers[j]? = some reg ∧ reg.kind ≠ .const := by
  intro mod hmod t ht
  obtain ⟨owners, limit, built, ps, h⟩ := staged_of_ok h
  obtain ⟨w, hw, hstripped⟩ := h.mem_design hmod ht
  obtain ⟨hregisters, hstates, -⟩ := Rtl.Table.eq_of_stripped hstripped
  obtain ⟨k, hk⟩ := List.mem_iff_getElem?.mp hw
  have hthread := h.table hk
  obtain ⟨b, w', -, hw', hbuild, -, -, hgrows, hwire⟩ := h.thread hthread
  cases Option.some.inj (hk.symm.trans hw')
  have hmem := List.mem_of_getElem? hthread
  have hpool := ((Plan.ofRoot_spec h.plan).1.threads w.plan hmem).pool
  obtain ⟨hclean, hcalls⟩ := ThreadTable.build_clean (Listing.load_closed hload)
    (hspares _ hmem) hpool hbuild hgrows.registers
  rw [hregisters, hstates]
  -- linking gives parents to resources only
  exact ThreadTable.wire_clean (a := linked ps b) hcalls hclean hwire

def constantListing (code : String) : Source :=
  .ofString "listing" ("(object top (method main (regs (v num 8) (x num 8) (c const 8 5)) (code " ++
    code ++ ")))")

/-- What such a listing is loaded to, with its instructions. -/
def constantMachine (code : List Insn) : Machine :=
  ⟨[(Object.plain "top").addMethod
    ⟨"main", [], [], [⟨"v", .num, 8, false, 0⟩, ⟨"x", .num, 8, false, 0⟩, ⟨"c", .num, 8, true, 5⟩], code,
      "", "", "", .none⟩]⟩

/-- A register that stands for a constant may be read. -/
theorem constantListing_spares : ∃ m s,
    Listing.load (constantListing "(num x c) (assign v x)") = .ok m ∧
    synthesize m 0 0 = .ok s ∧ (∀ t ∈ s.plan.threads, t.SparesConstants m) ∧
    s.design.modules.map (·.tables.map (·.states.map (·.insns.map (·.outputs)))) =
      [[[[[]], [[2], []], []]]] ∧
    ∀ mod ∈ s.design.modules, ∀ t ∈ mod.tables, ∀ st ∈ t.states, ∀ i ∈ st.insns,
      ∀ j ∈ i.outputs, ∃ reg, t.registers[j]? = some reg ∧ reg.kind ≠ .const := by
  have hload : (Listing.load (constantListing "(num x c) (assign v x)")).toOption.any (fun m =>
      decide (m = constantMachine [.num 1 2, .assign 0 1])) = true := by decide +kernel
  have hrun : (synthesize (constantMachine [.num 1 2, .assign 0 1]) 0 0).toOption.any (fun s =>
      decide ((∀ t ∈ s.plan.threads, t.object = 0 ∧ t.methods = ["main"]) ∧
        s.design.modules.map (·.tables.map (·.states.map (·.insns.map (·.outputs)))) =
          [[[[[]], [[2], []], []]]])) = true := by decide +kernel
  obtain ⟨m, hm, h⟩ := exists_ok_of_any hload
  obtain rfl := of_decide_eq_true h
  obtain ⟨s, hs, h⟩ := exists_ok_of_any hrun
  obtain ⟨hthreads, houtputs⟩ := of_decide_eq_true h
  have hspares : ∀ t ∈ s.plan.threads,
      t.SparesConstants (constantMachine [.num 1 2, .assign 0 1]) := by
    intro t ht name hname f hf _ _ _ k i w hi _ r hr
    obtain ⟨hobject, hmethods⟩ := hthreads t ht
    rw [hmethods, List.mem_singleton] at hname
    subst hname
    rw [hobject] at hf ⊢
    cases hf
    match k with
    | 0 =>
      cases hi
      cases List.mem_singleton.mp hr
      exact .inl (.inl ⟨2, rfl⟩)
    | 1 =>
      cases hi
      cases List.mem_singleton.mp hr
      refine .inr ?_
      rintro (⟨reg, hreg, hconst⟩ | ⟨k, i, v, hi, -, hrebinds⟩)
      · cases hreg
        cases hconst
      · -- only the first instruction, which is about the other variable, comes before
        have hmem : i ∈ [Insn.num 1 2] := List.mem_of_getElem? hi
        cases List.mem_singleton.mp hmem
        simp [Walker.Rebinds] at hrebinds
  exact ⟨_, s, hm, hs, hspares, houtputs, synthesized_spares hm hs hspares⟩

/-- A number and then an assignment: the assignment writes the constant that the number left. -/
theorem constantListing_writes : ∃ m s,
    Listing.load (constantListing "(num v c) (assign v x)") = .ok m ∧
    synthesize m 0 0 = .ok s ∧ ∃ mod ∈ s.design.modules, ∃ t ∈ mod.tables, ∃ st ∈ t.states,
      ∃ i ∈ st.insns, ∃ j ∈ i.outputs, (t.registers[j]?).map (·.kind) = some .const := by
  have h : (Listing.load (constantListing "(num v c) (assign v x)")).toOption.any (fun m =>
      (synthesize m 0 0).toOption.any fun s => decide (∃ mod ∈ s.design.modules,
        ∃ t ∈ mod.tables, ∃ st ∈ t.states, ∃ i ∈ st.insns, ∃ j ∈ i.outputs,
          (t.registers[j]?).map (·.kind) = some .const)) = true := by decide +kernel
  obtain ⟨m, hm, h⟩ := exists_ok_of_any h
  obtain ⟨s, hs, h⟩ := exists_ok_of_any h
  exact ⟨m, s, hm, hs, of_decide_eq_true h⟩

end Synthesis
end Synth
end MachineSynth
