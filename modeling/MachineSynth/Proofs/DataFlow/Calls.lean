import Mathlib
import MachineSynth.Proofs.DataFlow.Widths
import MachineSynth.Proofs.Storage

/-! Calls of data flow: the register that feeds the input of a table, and the writers with which
other tables pass it their arguments, are as wide as these are together. -/
namespace MachineSynth

theorem Rtl.Params.get?_filter {key other : String} (h : key ≠ other) (p : Params) :
    get? (p.filter (·.1 ≠ other)) key = p.get? key := by
  induction p with
  | nil => rfl
  | cons x rest ih =>
    obtain ⟨k, v⟩ := x
    by_cases hk : k = other
    · subst hk
      simpa [get?, lookup_cons_eq, h] using ih
    · by_cases hkey : key = k
      · simp [get?, hk, hkey]
      · simpa [get?, lookup_cons_eq, hk, hkey] using ih

namespace Synth

theorem Walker.declared?_of_accessed? {m : Machine} {w : Walker} {i : Insn} {e : Entity}
    {write : Bool} (h : w.accessed? m i = some (e, write)) (he : e.member ≠ "") :
    (e.declared? m).isSome := by
  have hstored : ∀ {object : Nat} {label : String}, storedMember? m object label = some e →
      (e.declared? m).isSome := by
    intro object label h
    unfold storedMember? at h
    split at h
    · rename_i hvalue
      cases h
      simp [Entity.declared?, hvalue]
    · rename_i hvalue
      cases h
      simp [Entity.declared?, hvalue]
    · cases h
  have harray : ∀ {r : RegisterId}, w.array? m r = some e → e.member = "" := by
    intro r h
    obtain ⟨id, -, h⟩ := Option.bind_eq_some_iff.mp h
    split at h <;> cases h
    rfl
  have hentity : ∀ {x : Option Entity} {b : Bool}, x.map (·, b) = some (e, write) → x = some e := by
    intro x b h
    obtain ⟨e', he', heq⟩ := Option.map_eq_some_iff.mp h
    cases heq
    exact he'
  unfold accessed? at h
  split at h
  · obtain ⟨id, -, hstore⟩ := Option.bind_eq_some_iff.mp (hentity h)
    exact hstored hstore
  · obtain ⟨id, -, hstore⟩ := Option.bind_eq_some_iff.mp (hentity h)
    exact hstored hstore
  · exact absurd (harray (hentity h)) he
  · exact absurd (harray (hentity h)) he
  · cases h

namespace ThreadTable

variable {m : Machine} {plan : Plan} {tables : List ThreadTable} {t t' : ThreadTable}
  {call : TableCall} {callee : ThreadTable}

/-- Whether a resource writes the register that feeds the data-flow input of a table, in the width
that the table says this has. -/
def Passes (callee : ThreadTable) (r : Rtl.Resource) : Prop :=
  ∃ (i : Nat) (x : Rtl.Resource) (o : Rtl.ResourceRef), callee.resources[i]? = some x ∧
    x.kind = Rtl.dataFlowKind ∧ x.parent = some o ∧ r.parent = some o ∧ r.params =
      [("WIDTH", toString (((callee.resources[o.resource]?).map (·.params.width)).getD 0))]

theorem callDataFlow_passes (h : callDataFlow m t call callee = .ok t') {k : Nat} {r : Rtl.Resource}
    (hr : t'.resources[k]? = some r) : t.resources[k]? = some r ∨ callee.Passes r := by
  unfold callDataFlow at h
  split at h
  · rename_i i hinput
    split at h
    · cases h
    · rename_i o ho
      obtain ⟨x, hx, hparent⟩ := Option.bind_eq_some_iff.mp ho
      have hkind : x.kind = Rtl.dataFlowKind := by
        have hmem : i ∈ Rtl.positionsOfKind callee.resources Rtl.dataFlowKind := by simp [hinput]
        simpa [Rtl.positionsOfKind, hx] using (List.mem_filter.mp hmem).2
      have hcaller : ∀ {width : UInt64},
          (Rtl.dataFlowCaller t.resources o width).2[k]? = some r →
          width = ((callee.resources[o.resource]?).map (·.params.width)).getD 0 →
          t.resources[k]? = some r ∨ callee.Passes r := by
        intro width hr hwidth
        refine (Rtl.findOrAdd_mem hr).imp_right fun ⟨_, hnew⟩ => ?_
        subst hnew hwidth
        exact ⟨i, x, o, hx, hkind, hparent, rfl, rfl⟩
      dsimp only at h
      split at h <;> cases h <;> exact hcaller hr rfl
  · cases h

/-- The writers that wiring adds pass arguments to data-flow tables. -/
theorem wire_passes (h : wire m plan tables t = .ok t') {k : Nat} {r : Rtl.Resource}
    (hr : t'.resources[k]? = some r) (hkind : r.kind = Rtl.sharedWriterKind) :
    t.resources[k]? = some r ∨ ∃ callee ∈ tables, callee.Passes r := by
  refine wire_rel (R := fun a b => ∀ (k : Nat) (r : Rtl.Resource), b.resources[k]? = some r →
    r.kind = Rtl.sharedWriterKind → a.resources[k]? = some r ∨ ∃ callee ∈ tables, callee.Passes r)
    (fun _ _ _ hr _ => .inl hr) (fun a b c hab hbc k r hr hkind => ?_)
    (fun a call b _ hwire k r hr hkind => ?_) (fun a call b _ hwire k r hr _ => ?_) h k r hr hkind
  · exact (hbc k r hr hkind).elim (fun hr => hab k r hr hkind) .inr
  · obtain ⟨callee, -, hrun⟩ := wireTask_eq_ok hwire
    refine (callTask_adds hrun k r hr).imp_right fun htask => ?_
    rw [hkind] at htask
    exact absurd htask (by decide)
  · obtain ⟨callee, hmem, hrun⟩ := wireDataFlow_eq_ok hwire
    exact (callDataFlow_passes hrun hr).imp_right fun hpasses => ⟨callee, hmem, hpasses⟩

end ThreadTable

namespace Synthesis

namespace Staged

variable {m : Machine} {root : Nat} {s : Synthesis} {owners : OwnershipTable} {limit : Nat}
  {built : List ThreadTable} {ps : List (Rtl.ResourceRef × Rtl.ResourceRef)} {b w : ThreadTable}
  {f : Method} {o : Rtl.ResourceRef} {k : Nat} {r : Rtl.Resource}

/-- Whether a resource feeds the data-flow input of a built table, whose entry is a method. -/
structure FeedsEntry (m : Machine) (b : ThreadTable) (f : Method) (o : Rtl.ResourceRef) : Prop where
  entry : (m.object? b.plan.object).bind (·.method? b.plan.entry) = some f
  flowing : b.builder.pool.Flowing f.flowWord
  owner : o.owner = b.builder.pool.place
  key : b.builder.pool.keys.lookup Entity.flow.heldKey = some o.resource

/-- Every data-flow input is fed by the register of its table. -/
theorem exists_feedsEntry (h : Staged m root s owners limit built ps)
    (hflow : Entity.flow.declared? m = none) (hb : b ∈ built)
    (hr : (linked ps b).resources[k]? = some r) (hkind : r.kind = Rtl.dataFlowKind) :
    ∃ f o, r.parent = some o ∧ FeedsEntry m b f o := by
  obtain ⟨n, hn⟩ := List.mem_iff_getElem?.mp hb
  obtain ⟨r₀, hr₀, rfl⟩ := getElem?_linked hr
  obtain ⟨j, hj, hparent⟩ := (h.stored hb).pool.fed k r₀ hr₀ hkind
  obtain ⟨f, hf, hflowing⟩ := ThreadTable.build_flowing hflow
    ((Plan.ofRoot_housed h.plan).pool _ (List.mem_of_getElem? (h.toBuilt.thread hn).1))
    (h.toBuilt.thread hn).2
  -- linking gives parents to accessors only
  have hnone : ps.reverse.lookup ⟨b.plan.place, k⟩ = none := by
    refine Option.eq_none_iff_forall_ne_some.mpr fun o' ho' => ?_
    rw [← (h.toBuilt.sound hn).2] at ho'
    have haccess := h.kind_of_lookup hb hr₀ ho'
    rw [show r₀.kind = Rtl.dataFlowKind from hkind] at haccess
    exact absurd haccess (by decide)
  exact ⟨f, _, by rw [hnone, Option.none_or, hparent], hf, hflowing, rfl, hj⟩

theorem feedsEntry_unique (h : Staged m root s owners limit built ps) {b' : ThreadTable}
    {f' : Method} (hb : b ∈ built) (hb' : b' ∈ built) (ho : FeedsEntry m b f o)
    (ho' : FeedsEntry m b' f' o) : f = f' := by
  have hbacks : b.builder.pool.Backs Pool.ownerKinds .flow o :=
    ⟨ho.owner, "shared-reg", by decide, ho.key⟩
  have hbacks' : b'.builder.pool.Backs Pool.ownerKinds .flow o :=
    ⟨ho'.owner, "shared-reg", by decide, ho'.key⟩
  obtain ⟨rfl, -⟩ := h.toBuilt.backs_unique hb hb' hbacks hbacks'
  exact Option.some.inj (ho.entry.symm.trans ho'.entry)

theorem FeedsEntry.register (ho : FeedsEntry m b f o)
    (ps : List (Rtl.ResourceRef × Rtl.ResourceRef)) :
    ∃ x, (linked ps b).resources[o.resource]? = some x ∧ x.kind = "shared-reg" ∧
      x.params = [("WIDTH", toString f.flowWord)] := by
  obtain ⟨x₀, hx₀, hparams⟩ := ho.flowing.feeds ho.key
  obtain ⟨x, hx, hkind⟩ := Option.map_eq_some_iff.mp (ho.flowing.kind ho.key)
  cases Option.some.inj (hx₀.symm.trans hx)
  refine ⟨{ x₀ with parent := (ps.reverse.lookup ⟨b.plan.place, o.resource⟩).or x₀.parent }, ?_,
    hkind, hparams⟩
  simp [linked, ThreadTable.setResources, ThreadTable.resources, hx₀]

theorem not_holder_of_feedsEntry (h : Staged m root s owners limit built ps)
    (hflow : Entity.flow.declared? m = none) (hb : b ∈ built) (ho : FeedsEntry m b f o)
    {e : Entity} : ¬ Holder built e o := by
  rintro ⟨b', hb', howner⟩
  have hbacks : b.builder.pool.Backs Pool.ownerKinds .flow o :=
    ⟨ho.owner, "shared-reg", by decide, ho.key⟩
  obtain ⟨-, rfl⟩ := h.toBuilt.backs_unique hb' hb (h.toBuilt.owner_backs hb' howner) hbacks
  obtain ⟨n, w, -, -, horigin⟩ := h.became hb'
  obtain ⟨-, v, i, st, write, -, haccess⟩ := horigin.obeys.holds howner
  have hdeclared := Walker.declared?_of_accessed? haccess (by decide)
  rw [hflow] at hdeclared
  cases hdeclared

/-- Whoever writes the register that feeds an input, passes arguments of the width that is read
there. -/
theorem params_of_writes (h : Staged m root s owners limit built ps)
    (hflow : Entity.flow.declared? m = none) (hb : b ∈ built) (ho : FeedsEntry m b f o)
    (hw : w ∈ s.tables) (hr : w.resources[k]? = some r) (hkind : r.kind = Rtl.sharedWriterKind)
    (hparent : r.parent = some o) :
    r.params = [("WIDTH", toString (if f.flowWord.toNat < 2 ^ 32 then f.flowWord else 0))] := by
  obtain ⟨n, hn⟩ := List.mem_iff_getElem?.mp hw
  obtain ⟨b₁, w', hb₁, hw', hbuild, hplan, -, -, hwire⟩ := h.thread (h.table hn)
  cases Option.some.inj (hn.symm.trans hw')
  rcases ThreadTable.wire_passes hwire hr hkind with hr | ⟨callee, hmem, hpasses⟩
  · -- a writer that was there before accesses a member, which no such register holds
    obtain ⟨r₀, hr₀, rfl⟩ := getElem?_linked hr
    obtain ⟨f₁, -, hflowing⟩ := ThreadTable.build_flowing hflow
      ((Plan.ofRoot_housed h.plan).pool _ (List.mem_of_getElem? (h.toBuilt.thread hb₁).1))
      (h.toBuilt.thread hb₁).2
    rw [hflowing.writers hr₀ hkind, Option.or_none] at hparent
    obtain ⟨e, -, hholder⟩ := h.lookup_parent_iff.mp hparent
    exact absurd hholder (h.not_holder_of_feedsEntry hflow hb ho)
  · obtain ⟨b₂, hb₂, rfl⟩ := List.mem_map.mp hmem
    obtain ⟨i, x, o', hx, hinput, hfed, hwrites, hparams⟩ := hpasses
    cases Option.some.inj (hparent.symm.trans hwrites)
    obtain ⟨f₂, o₂, hfed₂, ho₂⟩ := h.exists_feedsEntry hflow hb₂ hx hinput
    cases Option.some.inj (hfed.symm.trans hfed₂)
    obtain rfl := h.feedsEntry_unique hb hb₂ ho ho₂
    obtain ⟨y, hy, -, hwidth⟩ := ho₂.register ps
    have hget : y.params.get? "WIDTH" = some (toString f.flowWord) := by
      simp [hwidth, Rtl.Params.get?]
    have hread := Rtl.Params.width_of_get? hget
    rw [hparams, hy, Option.map_some, Option.getD_some, hread]

theorem width_design (h : Staged m root s owners limit built ps) (hw : w ∈ s.tables)
    (hr : w.resources[k]? = some r) {value : String} (hparams : r.params = [("WIDTH", value)]) :
    ∃ x, s.design.resource? ⟨w.plan.place, k⟩ = some x ∧ x.kind = r.kind ∧ x.parent = r.parent ∧
      x.params.get? "WIDTH" = some value := by
  have hsame := h.resource?_iff (k := k) hw
  rw [hr, Option.map_some] at hsame
  obtain ⟨x, hx, hunnumbered⟩ := Option.map_eq_some_iff.mp hsame
  obtain ⟨hkind, hparent, hfilter⟩ := Rtl.Resource.eq_of_unnumbered hunnumbered
  refine ⟨x, hx, hkind, hparent, ?_⟩
  rw [← Rtl.Params.get?_filter (show "WIDTH" ≠ "CHANNEL" by decide), hfilter, hparams]
  rfl

theorem exists_resource (h : Staged m root s owners limit built ps) (hw : w ∈ s.tables)
    (hr : s.design.resource? ⟨w.plan.place, k⟩ = some r) :
    ∃ r₁, w.resources[k]? = some r₁ ∧ r₁.kind = r.kind ∧ r₁.parent = r.parent := by
  have hsame := h.resource?_iff (k := k) hw
  rw [hr, Option.map_some] at hsame
  obtain ⟨r₁, hr₁, hunnumbered⟩ := Option.map_eq_some_iff.mp hsame.symm
  obtain ⟨hkind, hparent, -⟩ := Rtl.Resource.eq_of_unnumbered hunnumbered
  exact ⟨r₁, hr₁, hkind, hparent⟩

end Staged

/-- The register that feeds a data-flow input is as wide as the arguments of the entry, and so is
every writer of it, unless the width has more than 32 bits: such a width is not read back from the
register, and its writers have none. -/
theorem flow_widths {m : Machine} {root depth : Nat} {s : Synthesis}
    (hflow : Entity.flow.declared? m = none) (h : synthesize m root depth = .ok s)
    {w : ThreadTable} (hw : w ∈ s.tables) {k : Nat} {r : Rtl.Resource}
    (hr : s.design.resource? ⟨w.plan.place, k⟩ = some r) (hkind : r.kind = Rtl.dataFlowKind) :
    ∃ f o x, (m.object? w.plan.object).bind (·.method? w.plan.entry) = some f ∧
      r.parent = some o ∧ s.design.resource? o = some x ∧ x.kind = "shared-reg" ∧
      (f.flowWidth < 2 ^ 64 → x.params.get? "WIDTH" = some (toString f.flowWidth)) ∧
      ∀ v ∈ s.tables, ∀ (j : Nat) (y : Rtl.Resource),
        s.design.resource? ⟨v.plan.place, j⟩ = some y → y.kind = Rtl.sharedWriterKind →
        y.parent = some o → f.flowWidth < 2 ^ 64 →
        y.params.get? "WIDTH" = some (toString (if f.flowWidth < 2 ^ 32 then f.flowWidth else 0)) := by
  obtain ⟨owners, limit, built, ps, h⟩ := staged_of_ok h
  obtain ⟨n, hn⟩ := List.mem_iff_getElem?.mp hw
  obtain ⟨b, w', hb, hw', -, hplan, hplan', hgrows, hwire⟩ := h.thread (h.table hn)
  cases Option.some.inj (hn.symm.trans hw')
  obtain ⟨r₁, hr₁, hkind₁, hparent₁⟩ := h.exists_resource hw hr
  have hbn := hb
  replace hb := List.mem_of_getElem? hb
  have hlinked : (linked ps b).resources[k]? = some r₁ := by
    refine (ThreadTable.wire_adds hwire k r₁ hr₁).resolve_right fun hcall => ?_
    rw [hkind₁, hkind] at hcall
    exact absurd hcall (by decide)
  obtain ⟨f, o, hfed, ho⟩ := h.exists_feedsEntry hflow hb hlinked (hkind₁.trans hkind)
  obtain ⟨x₁, hx₁, hshared, hparams⟩ := ho.register ps
  obtain ⟨x, hx, hxkind, -, hxwidth⟩ :=
    h.width_design hw (getElem?_of_isPrefix hgrows.resources hx₁) hparams
  have howner : o = ⟨w.plan.place, o.resource⟩ := by
    have hplace : o.owner = w.plan.place := by rw [ho.owner, (h.toBuilt.sound hbn).2, hplan]
    rw [← hplace]
  refine ⟨f, o, x, ?_, hparent₁ ▸ hfed, howner ▸ hx, hxkind.trans hshared, fun hlt => ?_,
    fun v hv j y hy hykind hyparent hlt => ?_⟩
  · rw [← hplan]
    exact ho.entry
  · rw [hxwidth, ← Method.toNat_flowWord hlt]
    rfl
  · obtain ⟨y₁, hy₁, hykind₁, hyparent₁⟩ := h.exists_resource hv hy
    have hyparams := h.params_of_writes hflow hb ho hv hy₁ (hykind₁.trans hykind)
      (hyparent₁.trans hyparent)
    obtain ⟨y', hy', -, -, hywidth⟩ := h.width_design hv hy₁ hyparams
    cases Option.some.inj (hy.symm.trans hy')
    rw [hywidth, Method.toNat_flowWord hlt]
    split
    · rw [← Method.toNat_flowWord hlt]
      rfl
    · rfl

/-- A machine whose main thread passes a number of some width to a data-flow thread. -/
def flowOfWidth (width : UInt64) : Machine :=
  let method (name : String) (args : List VarDecl) (code : List Insn) (flow : Bool) : Slot :=
    ⟨name, .method ⟨name, args, [], [⟨"a", .num, width, false, 0⟩], code, "", "", "",
      { Marks.none with dataFlowEntry := flow }⟩⟩
  ⟨[⟨"top", .plain, 0, 0, false, false, [],
      [method "main" [] [.call RegisterId.unused "f" [0]] false,
        method "f" [⟨"x", .int, width⟩] [.nop] true]⟩]⟩

/-- Whether the main table writes the register that feeds the input of the other one, and the
widths of both ends. -/
def HasWidths (s : Synthesis) (fed passed : String) : Prop :=
  (∃ x, s.design.resource? ⟨⟨0, 1⟩, 2⟩ = some x ∧ x.params.get? "WIDTH" = some fed) ∧
    ∃ y, s.design.resource? ⟨⟨0, 0⟩, 2⟩ = some y ∧ y.kind = Rtl.sharedWriterKind ∧
      y.parent = some ⟨⟨0, 1⟩, 2⟩ ∧ y.params.get? "WIDTH" = some passed

/-- Eight bits are eight bits at both ends. -/
theorem flowOfWidth_agrees : Entity.flow.declared? (flowOfWidth 8) = none ∧
    ∃ s, synthesize (flowOfWidth 8) 0 0 = .ok s ∧ HasWidths s "8" "8" := by
  have hflow : Entity.flow.declared? (flowOfWidth 8) = none := by decide +kernel
  have h : (synthesize (flowOfWidth 8) 0 0).toOption.any (fun s =>
      (s.tables[1]?).any fun w => (s.tables[0]?).any fun v =>
        (s.design.resource? ⟨w.plan.place, 1⟩).any fun r =>
        (s.design.resource? ⟨v.plan.place, 2⟩).any fun y =>
        (((flowOfWidth 8).object? w.plan.object).bind (·.method? w.plan.entry)).any fun f =>
        decide (w.plan.place = ⟨0, 1⟩ ∧ v.plan.place = ⟨0, 0⟩ ∧ r.kind = Rtl.dataFlowKind ∧
          r.parent = some ⟨⟨0, 1⟩, 2⟩ ∧ y.kind = Rtl.sharedWriterKind ∧
          y.parent = some ⟨⟨0, 1⟩, 2⟩ ∧ f.flowWidth = 8)) = true := by decide +kernel
  obtain ⟨s, hs, h⟩ := exists_ok_of_any h
  simp only [Option.any_eq_true, decide_eq_true_eq] at h
  obtain ⟨w, hw, v, hv, r, hr, y, hy, f, hf, hplace, hplace', hkind, hparent, hykind, hyparent,
    hwidth⟩ := h
  obtain ⟨f', o, x, hf', ho, hx, -, hfed, hpassed⟩ :=
    flow_widths hflow hs (List.mem_of_getElem? hw) hr hkind
  cases Option.some.inj (hf.symm.trans hf')
  cases Option.some.inj (hparent.symm.trans ho)
  have hy' := hpassed v (List.mem_of_getElem? hv) 2 y hy hykind hyparent (by rw [hwidth]; decide)
  rw [hwidth] at hfed hy'
  rw [hplace'] at hy
  exact ⟨hflow, s, hs, ⟨x, hx, hfed (by decide)⟩, y, hy, hykind, hyparent, hy'⟩

/-- A width of 33 bits is recorded at one end, and lost at the other. -/
theorem flowOfWidth_narrows : Entity.flow.declared? (flowOfWidth 0x100000000) = none ∧
    (((flowOfWidth 0x100000000).object? 0).bind (·.method? "f")).map (·.flowWidth) = some 0x100000000 ∧
    ∃ s, synthesize (flowOfWidth 0x100000000) 0 0 = .ok s ∧ HasWidths s "4294967296" "0" := by
  have h : (synthesize (flowOfWidth 0x100000000) 0 0).toOption.any (fun s =>
      ((s.design.resource? ⟨⟨0, 1⟩, 2⟩).any fun x =>
        decide (x.params.get? "WIDTH" = some "4294967296")) &&
      (s.design.resource? ⟨⟨0, 0⟩, 2⟩).any fun y => decide (y.kind = Rtl.sharedWriterKind ∧
        y.parent = some ⟨⟨0, 1⟩, 2⟩ ∧ y.params.get? "WIDTH" = some "0")) = true := by
    decide +kernel
  obtain ⟨s, hs, h⟩ := exists_ok_of_any h
  refine ⟨by decide +kernel, by decide +kernel, s, hs, ?_⟩
  simpa [HasWidths, Option.any_eq_true] using h

end Synthesis

end Synth
end MachineSynth
