import Mathlib
import MachineSynth.Proofs.Tables.Emission

/-! Obedience: tables do with entities what is settled about them. What a table keeps, holds or
reaches is what the instructions of its methods access or move, and nothing else; the ports it has
are those that were planned for it and those of its methods. -/
namespace MachineSynth
namespace Synth
namespace ThreadTable

variable {m : Machine} {owners : OwnershipTable} {limit : Nat} {id : ThreadId} {t : ThreadPlan}
  {table : ThreadTable}

/-- An instruction of one of the methods of a table, the walker that the code before it leaves
behind, and the state that it was lowered to. -/
def Lowers (m : Machine) (table : ThreadTable) (w : Walker) (i : Insn) (st : LoweredState) : Prop :=
  ∃ name c k, (name, c) ∈ table.contexts ∧ c.code[k]? = some i ∧
    (Walker.start c.object).walk m (c.code.take k) = .ok w ∧
    c.states[Lower.firstState (roleOf m table.plan name) + Lower.offset (c.code.take k)]? = some st

/-- Whether a method of a table reads or writes an entity. -/
def Accesses (m : Machine) (table : ThreadTable) (e : Entity) : Prop :=
  ∃ w i st write, table.Lowers m w i st ∧ w.accessed? m i = some (e, write)

/-- Whether a method of a table moves an array over its port. -/
def Moves (m : Machine) (table : ThreadTable) (e : Entity) : Prop :=
  ∃ w i st, table.Lowers m w i st ∧ w.moved? m i = some e

/-- Whether a table keeps an entity to itself, in a register or an array of its own. -/
def Keeps (table : ThreadTable) (e : Entity) : Prop :=
  (∃ r, table.builder.members.lookup e = some r) ∨
    e.member = "" ∧ ∃ r, table.builder.pool.keys.lookup ⟨"array", "", e.object, .truth⟩ = some r

/-- Whether one of the methods of a table was lowered to a port of the design. -/
def Drives (table : ThreadTable) (name : String) (f : Method) : Prop :=
  ∃ c, (name, c) ∈ table.contexts ∧ c.method = f ∧ f.isImported = false ∧ f.marks.isPort = true

instance (table : ThreadTable) (name : String) (f : Method) : Decidable (table.Drives name f) :=
  decidable_of_iff (table.contexts.any fun x => x.1 = name && x.2.method = f &&
      !f.isImported && f.marks.isPort) (by
    simp only [Drives, List.any_eq_true, Bool.and_eq_true, decide_eq_true_eq, Bool.not_eq_true']
    constructor
    · rintro ⟨⟨_, c⟩, hc, ⟨⟨rfl, hf⟩, himported⟩, hport⟩
      exact ⟨c, hc, hf, himported, hport⟩
    · rintro ⟨c, hc, hf, himported, hport⟩
      exact ⟨(name, c), hc, ⟨⟨rfl, hf⟩, himported⟩, hport⟩)

/-- Whether some instruction of the methods of a table meets a condition. -/
def touches (m : Machine) (table : ThreadTable) (p : Walker → Insn → Bool) : Bool :=
  table.contexts.any fun x => (List.range x.2.code.length).any fun k =>
    match x.2.code[k]?, (Walker.start x.2.object).walk m (x.2.code.take k),
      x.2.states[Lower.firstState (roleOf m table.plan x.1) + Lower.offset (x.2.code.take k)]? with
    | some i, .ok w, some _ => p w i
    | _, _, _ => false

theorem touches_iff {p : Walker → Insn → Bool} :
    table.touches m p = true ↔ ∃ w i st, table.Lowers m w i st ∧ p w i = true := by
  simp only [touches, List.any_eq_true, List.mem_range]
  constructor
  · rintro ⟨⟨name, c⟩, hc, k, -, h⟩
    split at h
    · rename_i i w st hi hw hst
      exact ⟨w, i, st, ⟨name, c, k, hc, hi, hw, hst⟩, h⟩
    · cases h
  · rintro ⟨w, i, st, ⟨name, c, k, hc, hi, hw, hst⟩, h⟩
    exact ⟨(name, c), hc, k, (List.getElem?_eq_some_iff.mp hi).1, by simpa [hi, hw, hst] using h⟩

instance (m : Machine) (table : ThreadTable) (e : Entity) : Decidable (table.Accesses m e) :=
  decidable_of_iff (table.touches m fun w i => (w.accessed? m i).any (·.1 = e)) (by
    simp only [touches_iff, Accesses, Option.any_eq_true, decide_eq_true_eq]
    constructor
    · rintro ⟨w, i, st, h, ⟨_, write⟩, hx, rfl⟩
      exact ⟨w, i, st, write, h, hx⟩
    · rintro ⟨w, i, st, write, h, hx⟩
      exact ⟨w, i, st, h, _, hx, rfl⟩)

instance (m : Machine) (table : ThreadTable) (e : Entity) : Decidable (table.Moves m e) :=
  decidable_of_iff (table.touches m fun w i => w.moved? m i = some e) (by
    simp only [touches_iff, Moves, decide_eq_true_eq])

instance (table : ThreadTable) (e : Entity) : Decidable (table.Keeps e) :=
  decidable_of_iff ((table.builder.members.lookup e).isSome ∨ e.member = "" ∧
    (table.builder.pool.keys.lookup ⟨"array", "", e.object, .truth⟩).isSome) (by
    simp only [Keeps, Option.isSome_iff_exists])

/-- A table that does with entities what is settled. -/
structure Obeys (m : Machine) (owners : OwnershipTable) (id : ThreadId) (table : ThreadTable) :
    Prop where
  accesses : ∀ {w : Walker} {i : Insn} {st : LoweredState} {e : Entity} {write : Bool},
    table.Lowers m w i st → w.accessed? m i = some (e, write) → owners.isPrivate i e = false →
    ∃ r, st.DoneBy table.resources r ∧ table.builder.Serves ((owners.get e).isOwner id)
      (Pool.sharedKind (Walker.thing i) ((owners.get e).isOwner id) write) e r
  moves : ∀ {w : Walker} {i : Insn} {st : LoweredState} {e : Entity},
    table.Lowers m w i st → w.moved? m i = some e → (owners.get e).owner.isSome →
    ∃ r, st.DoneBy table.resources r ∧ table.builder.Serves false "axi-master-port" e r
  keeps : ∀ {e : Entity}, table.Keeps e → ∃ w i st write, table.Lowers m w i st ∧
    w.accessed? m i = some (e, write) ∧ owners.isPrivate i e
  holds : ∀ {e : Entity} {r : Rtl.ResourceRef}, (table.builder.links.find e).owner = some r →
    (owners.get e).isOwner id ∧ table.Accesses m e
  reaches : ∀ {e : Entity} {r : Rtl.ResourceRef}, r ∈ (table.builder.links.find e).accessors →
    (∃ w i st write, table.Lowers m w i st ∧ w.accessed? m i = some (e, write) ∧
      owners.isPrivate i e = false) ∨
    table.Moves m e ∧ (owners.get e).owner.isSome
  ports : ∀ {k : ResourceKey} {i : Nat}, k.kind ∈ Pool.portKinds →
    table.builder.pool.keys.lookup k = some i → table.plan.pool.keys.lookup k = some i ∨
      ∃ name f, table.Drives name f ∧ Pool.portName f = k.name

theorem lowers_of_code (hpool : t.pool.Sound) {b : Builder} {contexts : List (String × Context)}
    (hlower : lowerAll m owners id t t.methods (.ofPool t.pool) = .ok (contexts, b))
    {name : String} {c : Context} (hc : (name, c) ∈ contexts) {k : Nat} {i : Insn} {w : Walker}
    (hi : c.code[k]? = some i) (hw : (Walker.start t.object).walk m (c.code.take k) = .ok w) :
    ∃ st, c.states[Lower.firstState (roleOf m t name) + Lower.offset (c.code.take k)]? =
      some st := by
  obtain ⟨-, -, -, hall⟩ := lowerAll_spec (Builder.sound_ofPool hpool) hlower
  obtain ⟨-, b₁, b₂, hb₁, -, hlowered, -⟩ := hall name c hc
  obtain ⟨-, -, st, -, -, -, -, hst, -⟩ := Site.lower_at hb₁ hlowered hi hw
  exact ⟨st, hst⟩

theorem build_at (hpool : t.pool.Sound) (h : build m owners limit id t = .ok table)
    {w : Walker} {i : Insn} {st : LoweredState} (hi : table.Lowers m w i st) :
    ∃ name c a a', (name, c) ∈ table.contexts ∧ a.Sound ∧ a.walker = w ∧
      (Lower.instruction (siteOf m owners id t name c) i).run a = .ok ((), a') ∧
      a'.builder.Extends table.builder ∧
      ∀ r, Lowering.Emits r a a' → st.DoneBy table.resources r := by
  obtain ⟨b, entry, x, hlower, -, hadds, -, htable⟩ := build_spec hpool h
  obtain ⟨name, c, k, hc, hi, hw, hst⟩ := hi
  have hplan : table.plan = t := by rw [htable]
  have hbuilder : table.builder = x.builder := by rw [htable]
  obtain ⟨-, -, -, hall⟩ := lowerAll_spec (Builder.sound_ofPool hpool) hlower
  obtain ⟨-, b₁, b₂, hb₁, -, hlowered, hext⟩ := hall name c hc
  obtain ⟨-, -, hobject, -⟩ := Site.lower_spec hb₁ hlowered
  rw [hobject] at hw
  obtain ⟨a, a', st', ha, hwalker, hrun, hext', hst', hdone⟩ := Site.lower_at hb₁ hlowered hi hw
  rw [hplan] at hst
  cases Option.some.inj (hst.symm.trans hst')
  have hfinal := hext.trans hadds.builder
  rw [← hbuilder] at hfinal
  exact ⟨name, c, a, a', hc, ha, hwalker, hrun, hext'.trans hfinal,
    fun r hemits => (hdone r hemits).mono hfinal.pool⟩

/-- All that a table comes to use, one of its methods accesses or moves. -/
theorem build_covered (ht : t.Sound m) (h : build m owners limit id t = .ok table) :
    Builder.Covered
      { own := fun e => ∃ w i st write, table.Lowers m w i st ∧
          w.accessed? m i = some (e, write) ∧ owners.isPrivate i e
        hold := fun e => (owners.get e).isOwner id ∧ table.Accesses m e
        reach := fun e =>
          (∃ w i st write, table.Lowers m w i st ∧ w.accessed? m i = some (e, write) ∧
            owners.isPrivate i e = false) ∨
          table.Moves m e ∧ (owners.get e).owner.isSome
        port := fun port => ∃ name f, table.Drives name f ∧ Pool.portName f = port }
      (.ofPool t.pool) table.builder := by
  obtain ⟨b, entry, x, hlower, -, -, hspares, htable⟩ := build_spec ht.pool h
  have hplan : table.plan = t := by rw [htable]
  have hbuilder : table.builder = x.builder := by rw [htable]
  obtain ⟨-, -, hcovered, hall⟩ := lowerAll_spec (Builder.sound_ofPool ht.pool) hlower
  rw [hbuilder]
  refine (hcovered _ fun name c hc => ?_).trans (hspares.mono (Uses.none_le _))
  have hlowers : ∀ {k i w}, c.code[k]? = some i →
      (Walker.start t.object).walk m (c.code.take k) = .ok w → ∃ st, table.Lowers m w i st := by
    intro k i w hi hw
    obtain ⟨st, hst⟩ := lowers_of_code ht.pool hlower hc hi hw
    obtain ⟨-, b₁, b₂, hb₁, -, hlowered, -⟩ := hall name c hc
    obtain ⟨-, -, hobject, -⟩ := Site.lower_spec hb₁ hlowered
    exact ⟨st, name, c, k, hc, hi, hobject ▸ hw, hplan ▸ hst⟩
  refine ⟨fun e he => ?_, fun e he => ?_, fun e he => ?_, fun port hport => ?_⟩
  · obtain ⟨k, i, w, hi, hw, write, haccess, hprivate⟩ := he
    obtain ⟨st, hst⟩ := hlowers hi hw
    exact ⟨w, i, st, write, hst, haccess, hprivate⟩
  · obtain ⟨k, i, w, hi, hw, write, haccess, -, howner⟩ := he
    obtain ⟨st, hst⟩ := hlowers hi hw
    exact ⟨howner, w, i, st, write, hst, haccess⟩
  · obtain ⟨k, i, w, hi, hw, hreach⟩ := he
    obtain ⟨st, hst⟩ := hlowers hi hw
    rcases hreach with ⟨write, haccess, hprivate, -⟩ | ⟨hmove, howner⟩
    · exact .inl ⟨w, i, st, write, hst, haccess, by simpa [siteOf] using hprivate⟩
    · exact .inr ⟨⟨w, i, st, hst, hmove⟩, howner⟩
  · obtain ⟨hlowered, rfl⟩ := hport
    simp only [Site.isPort, Bool.and_eq_true, Bool.not_eq_true'] at hlowered
    exact ⟨name, c.method, ⟨c, hc, rfl, hlowered.1, hlowered.2⟩, rfl⟩

theorem build_obeys (ht : t.Sound m) (h : build m owners limit id t = .ok table) :
    table.Obeys m owners id := by
  have hcovered := build_covered ht h
  have hempty : ∀ e, (Builder.ofPool t.pool).links.find e = ⟨none, []⟩ := fun _ => rfl
  refine ⟨fun {w i st e write} hlowers haccess hprivate => ?_,
    fun {w i st e} hlowers hmove howner => ?_, fun {e} hkeeps => ?_, fun {e r} howner => ?_,
    fun {e r} haccessor => ?_, fun {k i} hport hkey => ?_⟩
  · obtain ⟨name, c, a, a', -, ha, rfl, hrun, hext, hdone⟩ := build_at ht.pool h hlowers
    obtain ⟨unit, hemits, hserves⟩ := Lower.instruction_accesses ha haccess hprivate hrun
    exact ⟨unit, hdone unit hemits, hserves.mono hext⟩
  · obtain ⟨name, c, a, a', -, ha, rfl, hrun, hext, hdone⟩ := build_at ht.pool h hlowers
    obtain ⟨unit, hemits, hserves⟩ := Lower.instruction_moves ha hmove howner hrun
    exact ⟨unit, hdone unit hemits, hserves.mono hext⟩
  · rcases hkeeps with ⟨r, hr⟩ | ⟨hmember, r, hr⟩
    · rcases hcovered.member hr with hnone | hown
      · simp [Builder.ofPool] at hnone
      · exact hown
    · rcases hcovered.array hr with hnone | hown
      · rw [Builder.ofPool, ht.arrays] at hnone
        cases hnone
      · have he : e = .whole e.object := by
          cases e
          simpa [Entity.whole] using hmember
        rw [he]
        exact hown
  · rcases hcovered.owner howner with hnone | hhold
    · rw [hempty] at hnone
      cases hnone
    · exact hhold
  · rcases hcovered.accessor haccessor with hnone | hreach
    · rw [hempty] at hnone
      cases hnone
    · exact hreach
  · have hplan : table.plan = t := by
      obtain ⟨_, _, _, -, -, -, -, htable⟩ := build_spec ht.pool h
      rw [htable]
    rw [hplan]
    exact hcovered.port hport hkey

end ThreadTable
end Synth
end MachineSynth
