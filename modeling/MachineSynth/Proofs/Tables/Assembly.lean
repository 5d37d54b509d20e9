import Mathlib
import MachineSynth.Proofs.Modules
import MachineSynth.Proofs.Tables.Tidiness

/-! Assembly: a design is made of the tables of its threads, each at the place that was planned for
it, and connecting channels adds to the parameters of resources only. -/
namespace MachineSynth

namespace Rtl

def Resource.stripped (r : Resource) : Resource := { r with params := [] }

theorem Resource.eq_of_stripped {r r' : Resource} (h : r'.stripped = r.stripped) :
    r'.id = r.id ∧ r'.kind = r.kind ∧ r'.parent = r.parent ∧ r'.callee = r.callee := by
  simp only [stripped, mk.injEq] at h
  tauto

def Table.stripped (t : Table) : Table := { t with resources := t.resources.map Resource.stripped }

theorem Table.eq_of_stripped {t t' : Table} (h : t'.stripped = t.stripped) :
    t'.registers = t.registers ∧ t'.states = t.states ∧ t'.initial = t.initial := by
  simp only [stripped, mk.injEq] at h
  tauto

def Module.stripped (m : Module) : Module := { m with tables := m.tables.map Table.stripped }

namespace Design

/-- The modules of a design without the parameters of resources. -/
def stripped (d : Design) : List Module := d.modules.map Module.stripped

theorem stripped_updateResource (d : Design) (r : ResourceRef) {f : Resource → Resource}
    (hf : ∀ x, (f x).stripped = x.stripped) : (d.updateResource r f).stripped = d.stripped := by
  have hmodify : ∀ {α β : Type} (g : α → β) (h : α → α), (∀ x, g (h x) = g x) →
      ∀ (k : Nat) (xs : List α), (xs.modify k h).map g = xs.map g := by
    intro α β g h hgh k xs
    induction xs generalizing k with
    | nil => simp
    | cons x xs ih => cases k <;> simp [hgh, ih]
  refine hmodify _ _ (fun m => ?_) _ _
  simp only [Module.stripped, Module.mk.injEq, true_and]
  refine hmodify _ _ (fun t => ?_) _ _
  simp only [Table.stripped, Table.mk.injEq, true_and, and_true]
  exact hmodify _ _ hf _ _

theorem table?_of_stripped {d d' : Design} (h : d'.stripped = d.stripped) (r : TableRef) :
    (d'.table? r).map Table.stripped = (d.table? r).map Table.stripped := by
  have hlookup : ∀ d : Design, (d.table? r).map Table.stripped =
      (d.stripped[r.module]?).bind (·.tables[r.table]?) := by
    intro d
    simp only [table?, stripped, List.getElem?_map]
    cases d.modules[r.module]? <;> simp [Module.stripped]
  rw [hlookup, hlookup, h]

end Design

theorem Table.getElem?_stripped {t t' : Table} (h : t'.stripped = t.stripped) (k : Nat) :
    (t'.resources[k]?).map Resource.stripped = (t.resources[k]?).map Resource.stripped := by
  have hresources : t'.resources.map Resource.stripped = t.resources.map Resource.stripped :=
    congrArg Table.resources h
  rw [← List.getElem?_map, hresources, List.getElem?_map]

end Rtl

namespace Synth

namespace Channels

variable {d d' : Rtl.Design}

theorem stripped_connect (d : Rtl.Design) (e : ChannelEnds) :
    (connect d e).stripped = d.stripped := by
  have hfold : ∀ (rs : List Rtl.ResourceRef) (number : String) (d : Rtl.Design),
      (rs.foldl (fun d r => d.updateResource r (·.setParam "CHANNEL" number)) d).stripped =
        d.stripped := by
    intro rs number
    induction rs with
    | nil => exact fun _ => rfl
    | cons r rest ih =>
      exact fun d => (ih _).trans (d.stripped_updateResource r fun _ => rfl)
  exact hfold _ _ d

/-- The channels of a design end at resources that use channel objects. -/
theorem connectAll_spec {P : Rtl.ResourceRef → Prop} {ends : List (Nat × ChannelEnds)}
    (hends : ∀ x ∈ ends, ∀ r ∈ x.2.writers ++ x.2.readers, P r)
    (hd : ∀ c ∈ d.channels, (∀ r ∈ c.writer, P r) ∧ ∀ r ∈ c.reader, P r)
    (h : connectAll ends d = (d', none)) : d'.stripped = d.stripped ∧
      ∀ c ∈ d'.channels, (∀ r ∈ c.writer, P r) ∧ ∀ r ∈ c.reader, P r := by
  induction ends generalizing d with
  | nil =>
    cases h
    exact ⟨rfl, hd⟩
  | cons x rest ih =>
    obtain ⟨object, e⟩ := x
    simp only [connectAll] at h
    split at h
    · cases h
    · have hkept : ∀ (rs : List Rtl.ResourceRef) (number : String) (d : Rtl.Design),
          (rs.foldl (fun d r => d.updateResource r (·.setParam "CHANNEL" number)) d).channels =
            d.channels := by
        intro rs number
        induction rs with
        | nil => exact fun _ => rfl
        | cons r rest ih => exact fun d => ih _
      have hnew : ∀ c ∈ (connect d e).channels, (∀ r ∈ c.writer, P r) ∧ ∀ r ∈ c.reader, P r := by
        intro c hc
        simp only [connect, Rtl.Design.addChannel, hkept, List.mem_append,
          List.mem_singleton] at hc
        rcases hc with hc | rfl
        · exact hd c hc
        · have huse := hends _ List.mem_cons_self
          exact ⟨fun r hr => huse r (List.mem_append_left _ (List.mem_of_mem_head? hr)),
            fun r hr => huse r (List.mem_append_right _ (List.mem_of_mem_head? hr))⟩
      obtain ⟨hstripped, hchannels⟩ := ih (fun y hy => hends y (List.mem_cons_of_mem _ hy)) hnew h
      exact ⟨hstripped.trans (stripped_connect d e), hchannels⟩

end Channels

/-- What is done to every element of a list is done in its place. -/
theorem mapM_eq_ok {α β ε : Type} {f : α → Except ε β} {xs : List α} {ys : List β}
    (h : xs.mapM f = .ok ys) : ys.length = xs.length ∧
      ∀ (k : Nat) (x : α), xs[k]? = some x → ∃ y, ys[k]? = some y ∧ f x = .ok y := by
  induction xs generalizing ys with
  | nil =>
    cases h
    exact ⟨rfl, fun k x hk => by simp at hk⟩
  | cons a rest ih =>
    simp only [List.mapM_cons, except_bind_eq_ok] at h
    obtain ⟨b, hb, bs, hbs, h⟩ := h
    cases h
    obtain ⟨hlen, hat⟩ := ih hbs
    refine ⟨by simp [hlen], fun k x hk => ?_⟩
    cases k with
    | zero =>
      cases Option.some.inj hk
      exact ⟨b, rfl, hb⟩
    | succ k => exact hat k x hk

/-- The position of an element among those that meet a condition. -/
theorem getElem?_filter {α : Type} {p : α → Bool} {xs : List α} {k : Nat} {x : α}
    (hk : xs[k]? = some x) (hp : p x = true) :
    (xs.filter p)[((xs.take k).filter p).length]? = some x := by
  obtain ⟨hlt, hx⟩ := List.getElem?_eq_some_iff.mp hk
  have hsplit : xs = xs.take k ++ x :: xs.drop (k + 1) := by
    rw [← hx, ← List.drop_eq_getElem_cons hlt, List.take_append_drop]
  calc (xs.filter p)[((xs.take k).filter p).length]?
      = ((xs.take k ++ x :: xs.drop (k + 1)).filter p)[((xs.take k).filter p).length]? := by
        rw [← hsplit]
    _ = some x := by
        rw [List.filter_append, List.getElem?_append_right le_rfl, Nat.sub_self,
          List.filter_cons_of_pos hp]
        rfl

namespace Synthesis

variable {m : Machine} {plan : Plan} {owners : OwnershipTable} {limit : Nat}

theorem buildTables_eq_ok {id : ThreadId} {threads : List ThreadPlan} {tables : List ThreadTable}
    (h : buildTables m owners limit id threads = .ok tables) : tables.length = threads.length ∧
      ∀ (k : Nat) (t : ThreadPlan), threads[k]? = some t → ∃ table, tables[k]? = some table ∧
        ThreadTable.build m owners limit (id + k) t = .ok table := by
  induction threads generalizing id tables with
  | nil =>
    cases h
    exact ⟨rfl, fun k t hk => by simp at hk⟩
  | cons t rest ih =>
    simp only [buildTables, except_bind_eq_ok] at h
    obtain ⟨table, htable, tables', hrest, h⟩ := h
    cases h
    obtain ⟨hlen, hat⟩ := ih hrest
    refine ⟨by simp [hlen], fun k t' hk => ?_⟩
    cases k with
    | zero =>
      cases Option.some.inj hk
      exact ⟨table, rfl, mapError_eq_ok.mp htable⟩
    | succ k =>
      obtain ⟨table', htable', hbuild⟩ := hat k t' hk
      refine ⟨table', htable', ?_⟩
      rwa [Nat.add_assoc, Nat.add_comm 1 k] at hbuild

/-- The tables of a top-level object, before its channels are connected. -/
def wired (m : Machine) (root depth : Nat) : Except Stop (Plan × List ThreadTable) := do
  let plan ← Plan.ofRoot m root
  let (owners, _) ← plan.accesses.settle.mapError .fault
  let tables ← buildTables m owners (if depth = 0 then defaultDepth else depth) 0 plan.threads
  let tables ← link tables
  let tables ← (tables.mapM (ThreadTable.wire m plan tables)).mapError .fault
  return (plan, tables)

theorem synthesize_eq_ok {root depth : Nat} {s : Synthesis} : synthesize m root depth = .ok s ↔
    wired m root depth = .ok (s.plan, s.tables) ∧
      (allChannels s.tables).resolve (assemble m s.plan s.tables) = (s.design, none) := by
  obtain ⟨plan, tables, design⟩ := s
  simp only [synthesize, ofRoot, wired, except_bind_eq_ok]
  constructor
  · rintro ⟨plan', hplan, owners, howners, built, hbuilt, linked, hlinked, tables', htables, h⟩
    split at h
    · cases h
    · rename_i hdesign
      cases h
      exact ⟨⟨_, hplan, _, howners, _, hbuilt, _, hlinked, _, htables, rfl⟩, hdesign⟩
  · rintro ⟨⟨plan', hplan, owners, howners, built, hbuilt, linked, hlinked, tables', htables, h⟩,
      hdesign⟩
    cases h
    exact ⟨_, hplan, _, howners, _, hbuilt, _, hlinked, _, htables, by rw [hdesign]; rfl⟩

/-- The stages in which tables are made: when they are built, when they are linked, and when they
are wired. -/
structure Wired (m : Machine) (root : Nat) (plan : Plan) (tables : List ThreadTable)
    (owners : OwnershipTable) (limit : Nat) (built : List ThreadTable)
    (ps : List (Rtl.ResourceRef × Rtl.ResourceRef)) : Prop where
  plans : Plan.ofRoot m root = .ok plan
  settles : ∃ closed, plan.accesses.settle = .ok (owners, closed)
  builds : buildTables m owners limit 0 plan.threads = .ok built
  links : link built = .ok (built.map (linked ps))
  parents : ∃ links, allLinks built = .ok links ∧ links.parents = (ps, none)
  wires : (built.map (linked ps)).mapM (ThreadTable.wire m plan (built.map (linked ps))) = .ok tables

theorem wired_of_ok {root depth : Nat} {tables : List ThreadTable}
    (h : wired m root depth = .ok (plan, tables)) :
    ∃ owners limit built ps, Wired m root plan tables owners limit built ps := by
  simp only [wired, except_bind_eq_ok, mapError_eq_ok] at h
  obtain ⟨plan', hplan, ⟨owners, closed⟩, hsettle, built, hbuilt, linked, hlinked, tables', hwired,
    h⟩ := h
  cases h
  obtain ⟨links, ps, hlinks, hps, rfl⟩ := link_spec hlinked
  exact ⟨owners, _, built, ps, hplan, ⟨closed, hsettle⟩, hbuilt, hlinked, ⟨links, hlinks, hps⟩,
    hwired⟩

namespace Wired

variable {root : Nat} {tables built : List ThreadTable}
  {ps : List (Rtl.ResourceRef × Rtl.ResourceRef)}

theorem thread (h : Wired m root plan tables owners limit built ps) {k : Nat} {t : ThreadPlan}
    (ht : plan.threads[k]? = some t) : ∃ b w, built[k]? = some b ∧ tables[k]? = some w ∧
      ThreadTable.build m owners limit k t = .ok b ∧ b.plan = t ∧ w.plan = t ∧
      (linked ps b).Grows w ∧
      ThreadTable.wire m plan (built.map (linked ps)) (linked ps b) = .ok w := by
  obtain ⟨b, hb, hbuild⟩ := (buildTables_eq_ok h.builds).2 k t ht
  rw [Nat.zero_add] at hbuild
  obtain ⟨w, hw, hwire⟩ := (mapM_eq_ok h.wires).2 k (linked ps b) (by simp [hb])
  have hplan : b.plan = t := ThreadTable.plan_of_build hbuild
  have hgrows := ThreadTable.wire_grows hwire
  exact ⟨b, w, hb, hw, hbuild, hplan, hgrows.plan.trans hplan, hgrows, hwire⟩

theorem table (h : Wired m root plan tables owners limit built ps) {k : Nat} {w : ThreadTable}
    (hw : tables[k]? = some w) : plan.threads[k]? = some w.plan := by
  have hlt := (List.getElem?_eq_some_iff.mp hw).1
  rw [(mapM_eq_ok h.wires).1, List.length_map, (buildTables_eq_ok h.builds).1] at hlt
  obtain ⟨b, w', -, hw', -, -, hplan, -⟩ := h.thread (List.getElem?_eq_getElem hlt)
  cases Option.some.inj (hw.symm.trans hw')
  rw [hplan, List.getElem?_eq_getElem hlt]

theorem map_plan (h : Wired m root plan tables owners limit built ps) :
    tables.map (·.plan) = plan.threads := by
  refine List.ext_getElem? fun k => ?_
  rw [List.getElem?_map]
  cases hw : tables[k]? with
  | some w => rw [h.table hw, Option.map_some]
  | none =>
    have hlen := List.getElem?_eq_none_iff.mp hw
    rw [(mapM_eq_ok h.wires).1, List.length_map, (buildTables_eq_ok h.builds).1] at hlen
    rw [List.getElem?_eq_none hlen, Option.map_none]

theorem ranked (h : Wired m root plan tables owners limit built ps) :
    Ranked (tables.map (·.plan.place)) := by
  have hranked := (Plan.ofRoot_spec h.plans).1.ranked
  rwa [← h.map_plan, List.map_map] at hranked

end Wired

/-- The stages of a synthesis: its tables when they are built, when they are linked, and at last. -/
structure Staged (m : Machine) (root : Nat) (s : Synthesis) (owners : OwnershipTable) (limit : Nat)
    (built : List ThreadTable) (ps : List (Rtl.ResourceRef × Rtl.ResourceRef)) : Prop where
  plan : Plan.ofRoot m root = .ok s.plan
  settles : ∃ closed, s.plan.accesses.settle = .ok (owners, closed)
  builds : buildTables m owners limit 0 s.plan.threads = .ok built
  links : link built = .ok (built.map (linked ps))
  parents : ∃ links, allLinks built = .ok links ∧ links.parents = (ps, none)
  wires : (built.map (linked ps)).mapM (ThreadTable.wire m s.plan (built.map (linked ps))) =
    .ok s.tables
  connects : (allChannels s.tables).resolve (assemble m s.plan s.tables) = (s.design, none)

theorem staged_of_ok {root depth : Nat} {s : Synthesis} (h : synthesize m root depth = .ok s) :
    ∃ owners limit built ps, Staged m root s owners limit built ps := by
  obtain ⟨hwired, hconnects⟩ := synthesize_eq_ok.mp h
  obtain ⟨owners, limit, built, ps, h⟩ := wired_of_ok hwired
  exact ⟨owners, limit, built, ps, h.plans, h.settles, h.builds, h.links, h.parents, h.wires,
    hconnects⟩

namespace Staged

variable {root : Nat} {s : Synthesis} {built : List ThreadTable}
  {ps : List (Rtl.ResourceRef × Rtl.ResourceRef)}

theorem toWired (h : Staged m root s owners limit built ps) :
    Wired m root s.plan s.tables owners limit built ps :=
  ⟨h.plan, h.settles, h.builds, h.links, h.parents, h.wires⟩

theorem thread (h : Staged m root s owners limit built ps) {k : Nat} {t : ThreadPlan}
    (ht : s.plan.threads[k]? = some t) : ∃ b w, built[k]? = some b ∧ s.tables[k]? = some w ∧
      ThreadTable.build m owners limit k t = .ok b ∧ b.plan = t ∧ w.plan = t ∧
      (linked ps b).Grows w ∧
      ThreadTable.wire m s.plan (built.map (linked ps)) (linked ps b) = .ok w :=
  h.toWired.thread ht

theorem table (h : Staged m root s owners limit built ps) {k : Nat} {w : ThreadTable}
    (hw : s.tables[k]? = some w) : s.plan.threads[k]? = some w.plan :=
  h.toWired.table hw

theorem ranked (h : Staged m root s owners limit built ps) :
    Ranked (s.tables.map (·.plan.place)) :=
  h.toWired.ranked

theorem table?_assemble (h : Staged m root s owners limit built ps) {k : Nat} {w : ThreadTable}
    (hw : s.tables[k]? = some w) :
    (assemble m s.plan s.tables).table? w.plan.place = some w.table := by
  have hmodule : w.plan.place.module < s.plan.modules.length :=
    (Plan.ofRoot_housed h.plan).module w.plan (List.mem_of_getElem? (h.table hw))
  have hrank : w.plan.place.table = ((s.tables.take k).filter
      (·.plan.place.module = w.plan.place.module)).length := by
    rw [h.ranked k w.plan.place (by simp [hw]), ← List.map_take, List.filter_map, List.length_map]
    rfl
  have hat := getElem?_filter (p := fun t => decide (t.plan.place.module = w.plan.place.module)) hw
    (by simp)
  simp [Rtl.Design.table?, assemble, List.getElem?_eq_getElem hmodule, hrank, hat]

theorem mem_assemble {t : Rtl.Table} {mod : Rtl.Module}
    (hmod : mod ∈ (assemble m s.plan s.tables).modules) (ht : t ∈ mod.tables) :
    ∃ w ∈ s.tables, t = w.table := by
  obtain ⟨i, hi, rfl⟩ := List.mem_mapIdx.mp hmod
  obtain ⟨w, hw, rfl⟩ := List.mem_map.mp ht
  exact ⟨w, (List.mem_filter.mp hw).1, rfl⟩

theorem tidy (h : Staged m root s owners limit built ps) {w : ThreadTable} (hw : w ∈ s.tables) :
    w.Tidy ∧ w.Refers s.tables ∧ w.builder.channels.All (ThreadTable.Holds s.tables) := by
  have hsound := (Plan.ofRoot_spec h.plan).1
  have hhoused := Plan.ofRoot_housed h.plan
  have hbuilt : ∀ b ∈ built, b.Tidy ∧ b.builder.Tidy ∧ b.builder.Sound ∧
      b.builder.pool.place = b.plan.place := by
    intro b hb
    obtain ⟨k, hk⟩ := List.mem_iff_getElem?.mp hb
    have hlt := (List.getElem?_eq_some_iff.mp hk).1
    rw [(buildTables_eq_ok h.builds).1] at hlt
    obtain ⟨b', w', hb', -, hbuild, hplan, -⟩ := h.thread (List.getElem?_eq_getElem hlt)
    cases Option.some.inj (hk.symm.trans hb')
    have hthread := List.getElem_mem hlt
    obtain ⟨htidy, hbtidy, hbsound, -, hplace⟩ :=
      ThreadTable.build_tidy (hhoused.pool _ hthread).toTidy hbuild
    exact ⟨htidy, hbtidy, hbsound, by rw [hplace, (hsound.threads _ hthread).place, hplan]⟩
  have hrefers := link_refers (fun b hb => (hbuilt b hb).2.1) (fun b hb => (hbuilt b hb).2.2.1)
    (fun b hb => (hbuilt b hb).2.2.2) h.links
  -- what the linked tables hold, the tables hold in the end
  have hholds : ∀ {t}, t ∈ built.map (linked ps) → ∃ w ∈ s.tables, w.plan = t.plan ∧
      t.resources.length ≤ w.resources.length := by
    intro t ht
    obtain ⟨k, hk⟩ := List.mem_iff_getElem?.mp ht
    obtain ⟨w, hw, hwire⟩ := (mapM_eq_ok h.wires).2 k t hk
    have hgrows := ThreadTable.wire_grows hwire
    exact ⟨w, List.mem_of_getElem? hw, hgrows.plan, hgrows.resources.length_le⟩
  obtain ⟨k, hk⟩ := List.mem_iff_getElem?.mp hw
  obtain ⟨b, w', hb, hw', -, hplan, hplan', hgrows, hwire⟩ := h.thread (h.table hk)
  cases Option.some.inj (hk.symm.trans hw')
  have hmem := List.mem_of_getElem? hb
  have hlinked : linked ps b ∈ built.map (linked ps) := List.mem_map_of_mem hmem
  refine ⟨ThreadTable.wire_tidy (linked_tidy (hbuilt b hmem).1) hwire, ⟨fun r hr q hq => ?_,
    fun r hr c hc => ?_⟩, fun x hx r hr => ?_⟩
  · obtain ⟨t, ht, hplace, hlt⟩ := (ThreadTable.wire_refers hrefers hlinked hwire).parent r hr q hq
    obtain ⟨w, hw, hsame, hle⟩ := hholds ht
    exact ⟨w, hw, by rw [hsame, hplace], hlt.trans_le hle⟩
  · obtain ⟨t, ht, hplace⟩ := (ThreadTable.wire_refers hrefers hlinked hwire).callee r hr c hc
    obtain ⟨w, hw, hsame, -⟩ := hholds ht
    exact ⟨w, hw, by rw [hsame, hplace]⟩
  · rw [hgrows.channels] at hx
    obtain ⟨howner, hlt⟩ := (hbuilt b hmem).2.1.channels x hx r hr
    refine ⟨w, hw, ?_, ?_⟩
    · rw [howner, (hbuilt b hmem).2.2.2, hplan]
    · have hle := hgrows.resources.length_le
      rw [length_linked] at hle
      exact hlt.trans_le hle

theorem allChannels_all {P : Rtl.ResourceRef → Prop} {tables : List ThreadTable}
    (h : ∀ t ∈ tables, t.builder.channels.All P) : (allChannels tables).All P := by
  have hall : ∀ x ∈ tables.flatMap (·.builder.channels.ends),
      ∀ r ∈ x.2.writers ++ x.2.readers, P r := by
    intro x hx
    obtain ⟨t, ht, hx⟩ := List.mem_flatMap.mp hx
    exact h t ht x hx
  refine foldl_rel (R := fun a b : Channels => a.All P → b.All P) (fun _ => id)
    (fun a b c hab hbc ha => hbc (hab ha)) (fun c x hx hc => ?_) fun x hx => by cases hx
  obtain ⟨object, e⟩ := x
  have huse := hall _ hx
  refine foldl_rel (R := fun a b : Channels => a.All P → b.All P) (fun _ => id)
    (fun a b c hab hbc ha => hbc (hab ha))
    (fun c r hr hc => Channels.add_all hc _ _ _ _ (huse r (List.mem_append_right _ hr))) ?_
  exact foldl_rel (R := fun a b : Channels => a.All P → b.All P) (fun _ => id)
    (fun a b c hab hbc ha => hbc (hab ha))
    (fun c r hr hc => Channels.add_all hc _ _ _ _ (huse r (List.mem_append_left _ hr))) hc

/-- Up to parameters, the design is what its tables are assembled to, and its channels end at their
resources. -/
theorem design (h : Staged m root s owners limit built ps) :
    s.design.stripped = (assemble m s.plan s.tables).stripped ∧
      ∀ c ∈ s.design.channels, (∀ r ∈ c.writer, ThreadTable.Holds s.tables r) ∧
        ∀ r ∈ c.reader, ThreadTable.Holds s.tables r :=
  Channels.connectAll_spec (allChannels_all fun _ hw => (h.tidy hw).2.2)
    (fun c hc => by cases hc) h.connects

theorem table?_design (h : Staged m root s owners limit built ps) {w : ThreadTable}
    (hw : w ∈ s.tables) :
    ∃ t, s.design.table? w.plan.place = some t ∧ t.stripped = w.table.stripped := by
  obtain ⟨k, hk⟩ := List.mem_iff_getElem?.mp hw
  have hsame := Rtl.Design.table?_of_stripped h.design.1 w.plan.place
  rw [h.table?_assemble hk, Option.map_some] at hsame
  exact Option.map_eq_some_iff.mp hsame

theorem resource?_design (h : Staged m root s owners limit built ps) {w : ThreadTable}
    (hw : w ∈ s.tables) {k : Nat} {r : Rtl.Resource} (hr : w.resources[k]? = some r) :
    ∃ r', s.design.resource? ⟨w.plan.place, k⟩ = some r' ∧ r'.stripped = r.stripped := by
  obtain ⟨t, ht, hstripped⟩ := h.table?_design hw
  have hsame := Rtl.Table.getElem?_stripped hstripped k
  have hr' : w.table.resources[k]? = some r := hr
  rw [hr', Option.map_some] at hsame
  obtain ⟨r', hr'', heq⟩ := Option.map_eq_some_iff.mp hsame
  exact ⟨r', by simp [Rtl.Design.resource?, ht, hr''], heq⟩

theorem resource?_of_holds (h : Staged m root s owners limit built ps) {r : Rtl.ResourceRef}
    (hr : ThreadTable.Holds s.tables r) : (s.design.resource? r).isSome := by
  obtain ⟨w, hw, hplace, hlt⟩ := hr
  obtain ⟨r', hr', -⟩ := h.resource?_design hw (List.getElem?_eq_getElem hlt)
  rw [hplace] at hr'
  exact Option.isSome_iff_exists.mpr ⟨r', hr'⟩

theorem mem_design (h : Staged m root s owners limit built ps) {t : Rtl.Table} {mod : Rtl.Module}
    (hmod : mod ∈ s.design.modules) (ht : t ∈ mod.tables) :
    ∃ w ∈ s.tables, t.stripped = w.table.stripped := by
  have hmem : mod.stripped ∈ s.design.stripped := List.mem_map_of_mem hmod
  rw [h.design.1] at hmem
  obtain ⟨mod', hmod', heq⟩ := List.mem_map.mp hmem
  have htables : mod'.tables.map Rtl.Table.stripped = mod.tables.map Rtl.Table.stripped :=
    congrArg Rtl.Module.tables heq
  have hmem' : t.stripped ∈ mod.tables.map Rtl.Table.stripped := List.mem_map_of_mem ht
  rw [← htables] at hmem'
  obtain ⟨t', ht', heq'⟩ := List.mem_map.mp hmem'
  obtain ⟨w, hw, rfl⟩ := mem_assemble hmod' ht'
  exact ⟨w, hw, heq'.symm⟩

end Staged
end Synthesis
end Synth
end MachineSynth
