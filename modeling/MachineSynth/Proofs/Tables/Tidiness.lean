import Mathlib
import MachineSynth.Proofs.Expansion.Tidiness
import MachineSynth.Proofs.Tables.Linking
import MachineSynth.Proofs.Tables.Wiring
import MachineSynth.Proofs.Threads

/-! Tables are tidy when they are built, and stay so when they are linked and wired. -/
namespace MachineSynth

theorem Rtl.findOrAdd_mem {resources : List Resource} {kind : String} {p : Resource → Bool}
    {prepare : Resource → Resource} {k : Nat} {r : Resource}
    (h : (findOrAdd resources kind p prepare).2[k]? = some r) :
    resources[k]? = some r ∨ k = resources.length ∧ r = prepare (.new (k + 1) kind) := by
  unfold findOrAdd at h
  split at h
  · exact .inl h
  · rcases Nat.lt_trichotomy k resources.length with hlt | rfl | hgt
    · rw [List.getElem?_append_left hlt] at h
      exact .inl h
    · rw [List.getElem?_concat_length] at h
      exact .inr ⟨rfl, (Option.some.inj h).symm⟩
    · rw [List.getElem?_eq_none (by simp; omega)] at h
      cases h

namespace Synth

theorem Pool.extends_of_isPrefix {p : Pool} {resources : List Rtl.Resource}
    (h : p.resources <+: resources) : p.Extends { p with resources := resources } :=
  ⟨rfl, fun hr => ⟨_, getElem?_of_isPrefix h hr, .refl _⟩, id⟩

namespace ThreadTable

/-- A table whose registers and resources are numbered by their positions, and whose instructions
are in order and refer to what is there. -/
structure Tidy (t : ThreadTable) : Prop where
  nonempty : t.states ≠ []
  register : ∀ {k : Nat} {r : Rtl.Register}, t.builder.registers[k]? = some r → r.id = k + 1
  resource : ∀ {k : Nat} {r : Rtl.Resource}, t.resources[k]? = some r → r.id = k + 1
  counted : Counted t.states t.builder
  insn : ∀ s ∈ t.states, ∀ i ∈ s.insns,
    Settled t.resources t.builder.registers.length t.states.length i
  orderly : ∀ s ∈ t.states, Rtl.Orderly t.resources s.insns
  taskCall : ∀ c ∈ t.taskCalls, c.Within t.builder.registers.length
  flowCall : ∀ c ∈ t.flowCalls, c.Within t.builder.registers.length

section Build

variable {m : Machine} {owners : OwnershipTable} {limit : Nat} {id : ThreadId} {t : ThreadPlan}
  {table : ThreadTable}

theorem lowerAll_tidy {names : List String} {b b' : Builder} {cs : List (String × Context)}
    (hb : b.Sound) (ht : b.Tidy) (h : lowerAll m owners id t names b = .ok (cs, b')) :
    b'.Tidy ∧ b.registers.length ≤ b'.registers.length ∧
      ∀ name c, (name, c) ∈ cs → c.Tidy b'.pool.resources b'.registers.length := by
  induction names generalizing b cs with
  | nil =>
    cases h
    exact ⟨ht, le_rfl, fun _ _ hmem => by cases hmem⟩
  | cons name rest ih =>
    simp only [lowerAll, except_bind_eq_ok] at h
    obtain ⟨⟨c, b₁⟩, hlower, ⟨cs', b₂⟩, hrest, h⟩ := h
    cases h
    obtain ⟨hb₁, -⟩ := Site.lower_spec hb hlower
    obtain ⟨ht₁, hle₁, hc₁⟩ := Site.lower_tidy hb ht hlower
    obtain ⟨-, hext', -⟩ := lowerAll_spec hb₁ hrest
    obtain ⟨ht', hle', hall⟩ := ih hb₁ ht₁ hrest
    refine ⟨ht', hle₁.trans hle', fun name' c' hmem => ?_⟩
    rcases List.mem_cons.mp hmem with heq | hmem
    · cases heq
      exact hc₁.mono hext'.pool hle'
    · exact hall name' c' hmem

theorem build_tidy (ht : t.pool.Tidy) (h : build m owners limit id t = .ok table) :
    table.Tidy ∧ table.builder.Tidy ∧ table.builder.Sound ∧ table.plan = t ∧
      table.builder.pool.place = t.pool.place := by
  obtain ⟨b, entry, first, last, x, hlower, hentry, hcopy, htable⟩ := build_eq_ok h
  have hsound := Builder.sound_ofPool ht.toSound
  have hadds := copy_adds ht.toSound hlower hentry hcopy
  obtain ⟨-, hext, -⟩ := lowerAll_spec hsound hlower
  obtain ⟨hb, -, hcs⟩ := lowerAll_tidy hsound (Builder.tidy_ofPool ht) hlower
  have henv : ∀ name c, table.contexts.lookup name = some c →
      c.Tidy b.pool.resources b.registers.length :=
    fun name c hc => hcs name c (mem_of_lookup hc)
  have hstart : Expansion.Tidy ⟨b, [], [], []⟩ :=
    ⟨hb, ⟨by simp, by simp, by simp [Rtl.insnIds], by simp [Rtl.insnIds]⟩, by simp, by simp,
      by simp⟩
  obtain ⟨hx, hgrows, hfirst⟩ := Expand.copy_tidy (p := b.pool) henv _ _ (henv _ _ hentry)
    (.refl _) rfl hstart hcopy
  have horderly : ∀ s ∈ x.states, Rtl.Orderly x.builder.pool.resources s.insns :=
    hadds.orderly rfl rfl rfl (henv _ _ hentry) henv hx
  have hplan : table.plan = t := by rw [htable]
  have hbuilder : table.builder = x.builder := by rw [htable]
  have hplace : x.builder.pool.place = t.pool.place := (hext.pool.trans hgrows.pool).place
  refine ⟨?_, hbuilder ▸ hx.builder, hbuilder ▸ hadds.sound, hplan, hbuilder ▸ hplace⟩
  rw [htable]
  refine ⟨fun hnil => ?_, hx.builder.register, hx.builder.pool.id, hx.counted, hx.insn, horderly,
    hx.taskCall, hx.flowCall⟩
  have hempty : x.states = [] := hnil
  simp [hempty] at hfirst

end Build

section Changes

variable {t : ThreadTable}

theorem Tidy.setResources (h : t.Tidy) {resources : List Rtl.Resource}
    (hext : t.builder.pool.Extends { t.builder.pool with resources := resources })
    (hid : ∀ {k : Nat} {r : Rtl.Resource}, resources[k]? = some r → r.id = k + 1) :
    (t.setResources resources).Tidy :=
  ⟨h.nonempty, h.register, hid, ⟨h.counted.stateIds, h.counted.stateCount, h.counted.insnIds,
    h.counted.insnCount⟩, fun s hs i hi => (h.insn s hs i hi).mono hext le_rfl,
    fun s hs => hext.orderly (h.orderly s hs), h.taskCall, h.flowCall⟩

theorem Tidy.findOrAdd (h : t.Tidy) (kind : String) (is : Rtl.Resource → Bool)
    {p : Rtl.Resource → Rtl.Resource} (hid : ∀ r, (p r).id = r.id)
    (hkind : ∀ r, (p r).kind = r.kind) :
    (t.setResources (Rtl.findOrAdd t.resources kind is p).2).Tidy := by
  refine h.setResources (Pool.extends_of_isPrefix (Rtl.findOrAdd_spec _ _ _ hkind).1) fun hr => ?_
  rcases Rtl.findOrAdd_mem hr with hr | ⟨rfl, rfl⟩
  · exact h.resource hr
  · rw [hid]
    rfl

/-- A new instruction that leads nowhere. -/
theorem Tidy.addInsn (h : t.Tidy) {state resource : Nat} {operand kind : String}
    {inputs outputs : List Nat} (hk : Rtl.kindAt t.resources resource = some kind)
    (htr : kind ≠ Rtl.Resource.transitionKind) (hps : kind ≠ Pool.pseudoKind)
    (hin : ∀ r ∈ inputs, r < t.builder.registers.length)
    (hout : ∀ r ∈ outputs, r < t.builder.registers.length) :
    (t.addInsn state resource operand inputs outputs).Tidy := by
  let i : Rtl.Insn := ⟨t.builder.newInsn.1, resource, operand, inputs, outputs, []⟩
  have hmem : ∀ {s}, s ∈ (t.addInsn state resource operand inputs outputs).states →
      s ∈ t.states ∨ ∃ s' ∈ t.states, s = { s' with insns := s'.insns ++ [i] } :=
    fun hs => Rtl.mem_modify (f := (· ++ [i])) hs
  have hlength : (t.addInsn state resource operand inputs outputs).states.length =
      t.states.length := by simp [ThreadTable.addInsn]
  have hi : Settled t.resources t.builder.registers.length t.states.length i :=
    ⟨⟨hin, hout⟩, ⟨kind, hk, hps, fun _ => rfl⟩, by simp [i]⟩
  have hstill : Rtl.Still t.resources [i] := fun j hj => by
    rw [List.mem_singleton.mp hj]
    exact ⟨rfl, kind, hk, htr⟩
  refine ⟨fun hnil => h.nonempty ?_, h.register, h.resource, h.counted.addInsn state rfl,
    fun s hs j hj => ?_, fun s hs => ?_, h.taskCall, h.flowCall⟩
  · exact List.length_eq_zero_iff.mp (by rw [← hlength, hnil]; rfl)
  · rw [hlength]
    rcases hmem hs with hs | ⟨s', hs', rfl⟩
    · exact h.insn s hs j hj
    · rcases List.mem_append.mp hj with hj | hj
      · exact h.insn s' hs' j hj
      · rw [List.mem_singleton.mp hj]
        exact hi
  · rcases hmem hs with hs | ⟨s', hs', rfl⟩
    · exact h.orderly s hs
    · exact (h.orderly s' hs').append hstill

theorem Tidy.dummyArgument (h : t.Tidy) :
    t.dummyArgument.2.Tidy ∧
      t.dummyArgument.1 < t.dummyArgument.2.builder.registers.length := by
  have hlt : t.dummyArgument.1 < t.dummyArgument.2.builder.registers.length :=
    t.builder.freshRegister_lt "df_arg" (.unsigned 1) .const (some 0)
  have hle : t.builder.registers.length ≤ t.dummyArgument.2.builder.registers.length :=
    (Builder.freshRegister_extends t.builder _ _ _ _).registers.length_le
  refine ⟨⟨h.nonempty, fun {k r} hr => ?_, h.resource, ⟨h.counted.stateIds, h.counted.stateCount,
    h.counted.insnIds, h.counted.insnCount⟩, fun s hs i hi => ?_, h.orderly, fun c hc => ?_,
    fun c hc => ?_⟩, hlt⟩
  · rcases Nat.lt_trichotomy k t.builder.registers.length with hk | rfl | hk
    · simp only [ThreadTable.dummyArgument, Builder.freshRegister, Builder.addRegister,
        List.getElem?_append_left hk] at hr
      exact h.register hr
    · simp only [ThreadTable.dummyArgument, Builder.freshRegister, Builder.addRegister,
        List.getElem?_concat_length] at hr
      cases hr
      rfl
    · simp only [ThreadTable.dummyArgument, Builder.freshRegister, Builder.addRegister] at hr
      rw [List.getElem?_eq_none (by simp; omega)] at hr
      cases hr
  · obtain ⟨hwithin, hkind, htargets⟩ := h.insn s hs i hi
    exact ⟨hwithin.mono hle, hkind, htargets⟩
  · obtain ⟨hin, hout⟩ := h.taskCall c hc
    exact ⟨fun r hr => (hin r hr).trans_le hle, fun r hr => (hout r hr).trans_le hle⟩
  · obtain ⟨hin, hout⟩ := h.flowCall c hc
    exact ⟨fun r hr => (hin r hr).trans_le hle, fun r hr => (hout r hr).trans_le hle⟩

end Changes

section Wire

variable {m : Machine} {plan : Plan} {tables : List ThreadTable} {t t' callee : ThreadTable}
  {call : TableCall}

theorem callTask_tidy (ht : t.Tidy) (hcall : call.Within t.builder.registers.length)
    (h : callTask m t call callee = .ok t') : t'.Tidy := by
  have hstart : ((t.setResources (Rtl.taskCall t.resources callee.plan.place callee.resources
      call.callee.member).2).addInsn call.state (Rtl.taskCall t.resources callee.plan.place
        callee.resources call.callee.member).1 "" call.inputs []).Tidy := by
    refine Tidy.addInsn (Tidy.findOrAdd ht _ _ (fun r => ?_) fun r => ?_)
      (Rtl.taskCall_spec _ _ _ _).2 (by decide) (by decide) hcall.1 (by simp)
    · simp only
      split <;> rfl
    · simp only
      split <;> rfl
  simp only [callTask] at h
  split at h
  · cases h
    exact hstart
  · split at h
    · cases h
    · split at h
      · cases h
        exact hstart
      · rename_i r resources hreturn
        cases h
        have hk := (Rtl.taskReturnValue_spec hreturn).2
        refine Tidy.addInsn ?_ hk (by decide) (by decide) (by simp) hcall.2
        unfold Rtl.taskReturnValue at hreturn
        split at hreturn
        · cases hreturn
        · rename_i k _
          cases hreturn
          exact Tidy.findOrAdd hstart Rtl.taskReturnValueKind (·.callee = some callee.plan.place)
            (p := fun r => { r with callee := some callee.plan.place, parent := some ⟨_, k⟩ })
            (fun _ => rfl) fun _ => rfl

theorem callDataFlow_tidy (ht : t.Tidy) (hcall : call.Within t.builder.registers.length)
    (h : callDataFlow m t call callee = .ok t') : t'.Tidy := by
  unfold callDataFlow at h
  split at h
  · split at h
    · cases h
    · rename_i register _
      have hcaller : ∀ width,
          (t.setResources (Rtl.dataFlowCaller t.resources register width).2).Tidy :=
        fun width => ht.findOrAdd _ _ (fun _ => rfl) fun _ => rfl
      have hk := fun width => (Rtl.dataFlowCaller_spec t.resources register width).2
      simp only at h
      split at h
      · cases h
        obtain ⟨hdummy, hlt⟩ := (hcaller _).dummyArgument
        exact hdummy.addInsn (hk _) (by decide) (by decide) (by simpa using hlt) (by simp)
      · cases h
        exact (hcaller _).addInsn (hk _) (by decide) (by decide) hcall.1 (by simp)
  · cases h

theorem wire_tidy (ht : t.Tidy) (h : wire m plan tables t = .ok t') : t'.Tidy := by
  have hmono : ∀ {a : ThreadTable} {c : TableCall}, c.Within t.builder.registers.length →
      t.builder.registers.length ≤ a.builder.registers.length →
      c.Within a.builder.registers.length := fun hc hle =>
    ⟨fun r hr => (hc.1 r hr).trans_le hle, fun r hr => (hc.2 r hr).trans_le hle⟩
  refine (wire_rel (R := fun a b => a.Grows b ∧ (t.builder.registers.length ≤
    a.builder.registers.length → a.Tidy → b.Tidy)) (fun a => ⟨.refl a, fun _ => id⟩)
    (fun a b c hab hbc => ⟨hab.1.trans hbc.1, fun hle ha => ?_⟩) (fun a call b hcall hwire => ?_)
    (fun a call b hcall hwire => ?_) h).2 le_rfl ht
  · exact hbc.2 (hle.trans hab.1.registers.length_le) (hab.2 hle ha)
  · refine ⟨wireTask_grows hwire, fun hle ha => ?_⟩
    obtain ⟨callee, -, hrun⟩ := wireTask_eq_ok hwire
    exact callTask_tidy ha (hmono (ht.taskCall call hcall) hle) hrun
  · refine ⟨wireDataFlow_grows hwire, fun hle ha => ?_⟩
    obtain ⟨callee, -, hrun⟩ := wireDataFlow_eq_ok hwire
    exact callDataFlow_tidy ha (hmono (ht.flowCall call hcall) hle) hrun

end Wire

section References

def Holds (tables : List ThreadTable) (r : Rtl.ResourceRef) : Prop :=
  ∃ t ∈ tables, t.plan.place = r.owner ∧ r.resource < t.resources.length

structure Refers (tables : List ThreadTable) (t : ThreadTable) : Prop where
  parent : ∀ r ∈ t.resources, ∀ q ∈ r.parent, Holds tables q
  callee : ∀ r ∈ t.resources, ∀ c ∈ r.callee, ∃ t' ∈ tables, t'.plan.place = c

variable {m : Machine} {plan : Plan} {tables : List ThreadTable} {t t' callee : ThreadTable}
  {call : TableCall}

theorem Refers.findOrAdd (h : t.Refers tables) (kind : String) (is : Rtl.Resource → Bool)
    {p : Rtl.Resource → Rtl.Resource} (hparent : ∀ id, ∀ q ∈ (p (.new id kind)).parent, Holds tables q)
    (hcallee : ∀ id, ∀ c ∈ (p (.new id kind)).callee, ∃ t' ∈ tables, t'.plan.place = c) :
    (t.setResources (Rtl.findOrAdd t.resources kind is p).2).Refers tables := by
  refine ⟨fun r hr => ?_, fun r hr => ?_⟩ <;> obtain ⟨k, hk⟩ := List.mem_iff_getElem?.mp hr <;>
    rcases Rtl.findOrAdd_mem hk with hk | ⟨rfl, rfl⟩
  · exact h.parent r (List.mem_of_getElem? hk)
  · exact hparent _
  · exact h.callee r (List.mem_of_getElem? hk)
  · exact hcallee _

theorem holds_of_firstOfKind (hmem : callee ∈ tables) {kind : String} {k : Nat}
    (h : Rtl.firstOfKind? callee.resources kind = some k) : Holds tables ⟨callee.plan.place, k⟩ :=
  ⟨callee, hmem, rfl, (List.findIdx?_eq_some_iff_findIdx_eq.mp h).1⟩

theorem callTask_refers (ht : t.Refers tables) (hmem : callee ∈ tables)
    (h : callTask m t call callee = .ok t') : t'.Refers tables := by
  have hstart : (t.setResources (Rtl.taskCall t.resources callee.plan.place callee.resources
      call.callee.member).2).Refers tables := by
    refine Refers.findOrAdd ht _ _ (fun id q hq => ?_) fun id c hc => ?_
    · obtain ⟨k, hk, rfl⟩ := Option.map_eq_some_iff.mp hq
      exact holds_of_firstOfKind hmem hk
    · cases Option.some.inj hc
      exact ⟨callee, hmem, rfl⟩
  simp only [callTask] at h
  split at h
  · cases h
    exact ⟨hstart.parent, hstart.callee⟩
  · split at h
    · cases h
    · split at h
      · cases h
        exact ⟨hstart.parent, hstart.callee⟩
      · rename_i r resources hreturn
        cases h
        unfold Rtl.taskReturnValue at hreturn
        split at hreturn
        · cases hreturn
        · rename_i k hk
          cases hreturn
          have hnext := Refers.findOrAdd hstart Rtl.taskReturnValueKind
            (·.callee = some callee.plan.place)
            (p := fun r => { r with callee := some callee.plan.place, parent := some ⟨_, k⟩ })
            (fun id q hq => Option.some.inj hq ▸ holds_of_firstOfKind hmem hk)
            (fun id c hc => Option.some.inj hc ▸ ⟨callee, hmem, rfl⟩)
          exact ⟨hnext.parent, hnext.callee⟩

theorem callDataFlow_refers (ht : t.Refers tables) (hcallee : callee.Refers tables)
    (h : callDataFlow m t call callee = .ok t') : t'.Refers tables := by
  unfold callDataFlow at h
  split at h
  · split at h
    · cases h
    · rename_i register hregister
      obtain ⟨r, hr, hparent⟩ := Option.bind_eq_some_iff.mp hregister
      have hholds : Holds tables register :=
        hcallee.parent r (List.mem_of_getElem? hr) register hparent
      have hcaller : ∀ width,
          (t.setResources (Rtl.dataFlowCaller t.resources register width).2).Refers tables :=
        fun width => Refers.findOrAdd ht _ _ (fun id q hq => Option.some.inj hq ▸ hholds)
          fun id c hc => by cases hc
      simp only at h
      split at h
      · cases h
        exact ⟨(hcaller _).parent, (hcaller _).callee⟩
      · cases h
        exact ⟨(hcaller _).parent, (hcaller _).callee⟩
  · cases h

theorem wire_refers (htables : ∀ t ∈ tables, t.Refers tables) (ht : t ∈ tables)
    (h : wire m plan tables t = .ok t') : t'.Refers tables := by
  refine wire_rel (R := fun a b => a.Refers tables → b.Refers tables) (fun _ => id)
    (fun a b c hab hbc ha => hbc (hab ha)) (fun a call b _ hwire ha => ?_)
    (fun a call b _ hwire ha => ?_) h (htables t ht)
  · obtain ⟨callee, hmem, hrun⟩ := wireTask_eq_ok hwire
    exact callTask_refers ha hmem hrun
  · obtain ⟨callee, hmem, hrun⟩ := wireDataFlow_eq_ok hwire
    exact callDataFlow_refers ha (htables callee hmem) hrun

end References
end ThreadTable

namespace Synthesis

variable {ps : List (Rtl.ResourceRef × Rtl.ResourceRef)} {t : ThreadTable}

theorem getElem?_linked {k : Nat} {r : Rtl.Resource}
    (h : (linked ps t).resources[k]? = some r) : ∃ r₀, t.resources[k]? = some r₀ ∧
      r = { r₀ with parent := (ps.reverse.lookup ⟨t.plan.place, k⟩).or r₀.parent } := by
  have h' : (t.resources.mapIdx fun k r => { r with
      parent := (ps.reverse.lookup ⟨t.plan.place, k⟩).or r.parent })[k]? = some r := h
  rw [List.getElem?_mapIdx] at h'
  obtain ⟨r₀, hr₀, heq⟩ := Option.map_eq_some_iff.mp h'
  exact ⟨r₀, hr₀, heq.symm⟩

theorem length_linked : (linked ps t).resources.length = t.resources.length := by
  simp [linked, ThreadTable.setResources, ThreadTable.resources]

theorem linked_extends : t.builder.pool.Extends (linked ps t).builder.pool :=
  ⟨rfl, fun {i r} hr => ⟨{ r with parent := (ps.reverse.lookup ⟨t.plan.place, i⟩).or r.parent }, by
    have hr' : t.resources[i]? = some r := hr
    simp [linked, ThreadTable.setResources, hr'], rfl, rfl, rfl, rfl, rfl, rfl⟩, id⟩

theorem linked_tidy (ht : t.Tidy) : (linked ps t).Tidy :=
  ht.setResources linked_extends fun {k r} hr => by
    obtain ⟨r₀, hr₀, rfl⟩ := getElem?_linked (t := t) hr
    exact ht.resource (r := r₀) hr₀

theorem link_refers {tables tables' : List ThreadTable}
    (htidy : ∀ t ∈ tables, t.builder.Tidy) (hsound : ∀ t ∈ tables, t.builder.Sound)
    (hplace : ∀ t ∈ tables, t.builder.pool.place = t.plan.place)
    (h : link tables = .ok tables') : ∀ t ∈ tables', t.Refers tables' := by
  obtain ⟨links, ps, hlinks, hps, rfl⟩ := link_spec h
  have hdistinct : ∀ t ∈ tables, t.builder.links.Distinct := fun t ht => (hsound t ht).distinct
  have hmap : ∀ {r}, ThreadTable.Holds tables r → ThreadTable.Holds (tables.map (linked ps)) r := by
    rintro r ⟨t, ht, hplace, hlt⟩
    exact ⟨linked ps t, List.mem_map_of_mem ht, hplace, length_linked.symm ▸ hlt⟩
  intro t' ht'
  obtain ⟨t, ht, rfl⟩ := List.mem_map.mp ht'
  refine ⟨fun r hr q hq => hmap ?_, fun r hr c hc => ?_⟩ <;>
    obtain ⟨k, hk⟩ := List.mem_iff_getElem?.mp hr <;> obtain ⟨r₀, hr₀, rfl⟩ := getElem?_linked hk
  · rcases Option.or_eq_some_iff.mp hq with hq | ⟨-, hq⟩
    · -- a parent that is given is the owner of an entity in some table
      obtain ⟨e, -, howner⟩ := (Links.parents_spec (allLinks_collects hlinks).distinct hps).2 _ _
        (List.mem_reverse.mp (mem_of_lookup hq))
      obtain ⟨o, ho, howner⟩ := (allLinks_find hdistinct hlinks e q).1.mp howner
      obtain ⟨hown, kind, -, hkey⟩ := (hsound o ho).owner howner
      exact ⟨o, ho, (hown.trans (hplace o ho)).symm,
        Rtl.lt_of_kindAt ((hsound o ho).pool.kind hkey)⟩
    · obtain ⟨hown, hlt⟩ := (htidy t ht).pool.parent hr₀ q hq
      exact ⟨t, ht, (hown.trans (hplace t ht)).symm, hlt⟩
  · have hnone := (htidy t ht).pool.callee hr₀
    simp [hnone] at hc

end Synthesis
end Synth
end MachineSynth
