import Mathlib
import MachineSynth.Proofs.Journal.Joining
import MachineSynth.Proofs.Tables.Backing
import MachineSynth.Proofs.Tables.Gathering

/-! Order: threads may register what they share in one registry, one thread after the other. The
order in which they do leaves no trace in their tables. -/
namespace MachineSynth
namespace Synth

/-- Tables that are the same but for what was registered when they were built. -/
structure ThreadTable.Agrees (a b : ThreadTable) : Prop where
  plan : a.plan = b.plan
  contexts : a.contexts = b.contexts
  table : a.table = b.table
  taskCalls : a.taskCalls = b.taskCalls
  flowCalls : a.flowCalls = b.flowCalls

namespace Synthesis

/-- Builds tables one after the other, each with what those before it have registered. -/
def buildInTurn (m : Machine) (owners : OwnershipTable) (limit : Nat) :
    List (ThreadPlan × ThreadId) → Registry → Except Stop (List ThreadTable × Registry)
  | [], R => return ([], R)
  | (t, id) :: rest, R => do
    let table ← (ThreadTable.buildAfter m owners limit id t R).mapError
      (·.mapError (.inSynthesis t.name t.entry))
    let (tables, R) ← buildInTurn m owners limit rest table.builder.registry
    return (table :: tables, R)

/-- Builds tables one after the other and links them as the registry says at the end. -/
def linkInTurn (m : Machine) (owners : OwnershipTable) (limit : Nat)
    (order : List (ThreadPlan × ThreadId)) : Except Stop (List ThreadTable) := do
  let (tables, R) ← buildInTurn m owners limit order .empty
  match R.links.parents with
  | (_, some error) => .error (.error error)
  | (parents, none) => return tables.map fun t => parents.foldl setParent t

section Gathering

variable {tables tables' : List ThreadTable} {b : ThreadTable} {l l' : Links Rtl.ResourceRef}
  {e : Entity} {r : Rtl.ResourceRef}

theorem holder_append : Holder (tables ++ tables') e r ↔ Holder tables e r ∨ Holder tables' e r := by
  simp only [Holder, List.mem_append, or_and_right, exists_or]

theorem reacher_append :
    Reacher (tables ++ tables') e r ↔ Reacher tables e r ∨ Reacher tables' e r := by
  simp only [Reacher, List.mem_append, or_and_right, exists_or]

theorem gathers_empty : Gathers [] Registry.empty.links :=
  ⟨Links.distinct_empty, fun e o => by simp [Registry.empty, Links.find, Links.empty, Holder],
    fun e r => by simp [Registry.empty, Links.find, Links.empty, Reacher]⟩

theorem Gathers.joins (h : Gathers tables l) (hj : Links.Joins l b.builder.links l') :
    Gathers (tables ++ [b]) l' := by
  refine ⟨hj.distinct, fun e o => ?_, fun e r => ?_⟩
  · rw [hj.owner, h.owner, holder_append]
    simp [Holder]
  · rw [hj.accessor, h.accessor, reacher_append]
    simp [Reacher]

theorem Gathers.perm (h : Gathers tables l) (hp : tables.Perm tables') : Gathers tables' l :=
  ⟨h.distinct, fun e o => (h.owner e o).trans (by simp only [Holder, hp.mem_iff]),
    fun e r => (h.accessor e r).trans (by simp only [Reacher, hp.mem_iff])⟩

/-- What some table reaches, some table holds, if links have parents for all that they say. -/
theorem Gathers.exists_holder (h : Gathers tables l) {ps : List (Rtl.ResourceRef × Rtl.ResourceRef)}
    (hps : l.parents = (ps, none)) (hr : Reacher tables e r) : ∃ o, Holder tables e o := by
  obtain ⟨o, ho, -⟩ := (Links.parents_spec h.distinct hps).1 e r ((h.accessor e r).mpr hr)
  exact ⟨o, (h.owner e o).mp ho⟩

theorem Gathers.exists_parents (h : Gathers tables l)
    (hheld : ∀ {e r}, Reacher tables e r → ∃ o, Holder tables e o) :
    ∃ ps, l.parents = (ps, none) := by
  refine Links.exists_parentsOf fun e k hk r hr => ?_
  have hfind := Links.find_of_mem h.distinct hk
  obtain ⟨o, ho⟩ := hheld ((h.accessor e r).mp (hfind ▸ hr))
  rw [← hfind, (h.owner e o).mpr ho, Option.isSome_some]

end Gathering

section Turns

variable {m : Machine} {owners : OwnershipTable} {limit : Nat} {R R' : Registry}
  {order : List (ThreadPlan × ThreadId)} {done built tables : List ThreadTable}

def Alone (m : Machine) (owners : OwnershipTable) (limit : Nat)
    (order : List (ThreadPlan × ThreadId)) (built : List ThreadTable) : Prop :=
  List.Forall₂ (fun x b => ThreadTable.build m owners limit x.2 x.1 = .ok b) order built

def Registered (built tables : List ThreadTable) : Prop :=
  List.Forall₂ (fun b t => ∃ R, t = b.setRegistry R) built tables

theorem alone_of_buildInTurn (hR : Gathers done R.links)
    (h : buildInTurn m owners limit order R = .ok (tables, R')) :
    ∃ built, Alone m owners limit order built ∧ Registered built tables ∧
      Gathers (done ++ built) R'.links := by
  induction order generalizing done R tables with
  | nil =>
    cases h
    exact ⟨[], .nil, .nil, by simpa using hR⟩
  | cons x rest ih =>
    obtain ⟨t, id⟩ := x
    simp only [buildInTurn, except_bind_eq_ok, mapError_eq_ok] at h
    obtain ⟨table, htable, ⟨tables', R₁⟩, hrest, h⟩ := h
    cases h
    obtain ⟨b, R₂, hb, rfl, hj⟩ := ThreadTable.build_of_buildAfter hR.distinct htable
    obtain ⟨built, halone, hregistered, hgathers⟩ := ih (hR.joins hj) hrest
    exact ⟨b :: built, .cons hb halone, .cons ⟨R₂, rfl⟩ hregistered, by simpa using hgathers⟩

theorem buildInTurn_of_alone (hR : Gathers done R.links)
    (hids : (order.map Prod.snd).Nodup) (hsound : ∀ x ∈ order, x.1.Sound m)
    (hfree : ∀ x ∈ order, ∀ e o, (owners.get e).isOwner x.2 = true → ¬ Holder done e o)
    (h : Alone m owners limit order built) :
    ∃ tables R', buildInTurn m owners limit order R = .ok (tables, R') ∧ Registered built tables ∧
      Gathers (done ++ built) R'.links := by
  induction h generalizing done R with
  | nil => exact ⟨[], R, rfl, .nil, by simpa using hR⟩
  | @cons x b rest built hb halone ih =>
    obtain ⟨t, id⟩ := x
    obtain ⟨hid, hids⟩ := List.nodup_cons.mp hids
    have hnone : ∀ e, (owners.get e).isOwner id = true → (R.links.find e).owner = none := by
      intro e howner
      refine Option.eq_none_iff_forall_ne_some.mpr fun o ho => ?_
      exact hfree _ List.mem_cons_self e o howner ((hR.owner e o).mp ho)
    obtain ⟨R₁, hbuild, hj⟩ := ThreadTable.buildAfter_of_build hR.distinct hnone hb
    have hobeys := ThreadTable.build_obeys (hsound _ List.mem_cons_self) hb
    -- what the table holds its own thread owns, and none of those that follow
    have hfree' : ∀ x ∈ rest, ∀ e o, (owners.get e).isOwner x.2 = true →
        ¬ Holder (done ++ [b]) e o := by
      intro x hx e o howner hholder
      rcases holder_append.mp hholder with hdone | ⟨b', hb', ho⟩
      · exact hfree x (List.mem_cons_of_mem _ hx) e o howner hdone
      · cases List.mem_singleton.mp hb'
        have hown := (hobeys.holds ho).1
        simp only [Ownership.isOwner, decide_eq_true_eq] at hown howner
        cases Option.some.inj (hown.symm.trans howner)
        exact hid (List.mem_map.mpr ⟨x, hx, rfl⟩)
    obtain ⟨tables, R', hrun, hregistered, hgathers⟩ := ih (hR.joins hj) hids
      (fun x hx => hsound x (List.mem_cons_of_mem _ hx)) hfree'
    refine ⟨b.setRegistry R₁ :: tables, R', ?_, .cons ⟨R₁, rfl⟩ hregistered, by simpa using hgathers⟩
    simp only [buildInTurn, except_bind_eq_ok, mapError_eq_ok]
    exact ⟨_, hbuild, _, hrun, rfl⟩

theorem alone_iff_buildTables {threads : List ThreadPlan} {id : ThreadId} :
    Alone m owners limit (threads.zipIdx id) built ↔
      buildTables m owners limit id threads = .ok built := by
  induction threads generalizing id built with
  | nil => simp [Alone, buildTables, pure, Except.pure, eq_comm]
  | cons t rest ih =>
    simp only [Alone, List.zipIdx_cons, List.forall₂_cons_left_iff, buildTables, except_bind_eq_ok,
      ThreadTable.of, mapError_eq_ok, pure, Except.pure, Except.ok.injEq] at ih ⊢
    constructor
    · rintro ⟨b, built', hb, hrest, rfl⟩
      exact ⟨b, hb, built', ih.mp hrest, rfl⟩
    · rintro ⟨b, hb, built', hrest, rfl⟩
      exact ⟨b, built', hb, ih.mpr hrest, rfl⟩

theorem linkInTurn_eq_ok : linkInTurn m owners limit order = .ok tables ↔
    ∃ ts R ps, buildInTurn m owners limit order .empty = .ok (ts, R) ∧
      R.links.parents = (ps, none) ∧ tables = ts.map (linked ps) := by
  simp only [linkInTurn, except_bind_eq_ok, funext (foldl_setParent _)]
  constructor
  · rintro ⟨⟨ts, R⟩, hbuild, h⟩
    split at h
    · cases h
    · rename_i ps hps
      cases h
      exact ⟨ts, R, ps, hbuild, hps, rfl⟩
  · rintro ⟨ts, R, ps, hbuild, hps, rfl⟩
    exact ⟨(ts, R), hbuild, by rw [hps]; rfl⟩

end Turns

namespace Built

variable {m : Machine} {root : Nat} {plan : Plan} {owners : OwnershipTable} {limit : Nat}
  {built : List ThreadTable} {l l' : Links Rtl.ResourceRef}
  {ps ps' : List (Rtl.ResourceRef × Rtl.ResourceRef)} {order : List (ThreadPlan × ThreadId)}

/-- Whatever links say what the tables say, they link a table to the same resources. -/
theorem linked_agrees (h : Built m root plan owners limit built) (hl : Gathers built l)
    (hl' : Gathers built l') (hps : l.parents = (ps, none)) (hps' : l'.parents = (ps', none))
    (b : ThreadTable) (R R' : Registry) :
    (linked ps (b.setRegistry R)).Agrees (linked ps' (b.setRegistry R')) := by
  have hlookup : ∀ r, ps.reverse.lookup r = ps'.reverse.lookup r := fun r =>
    Option.ext fun o => (h.lookup_parents hl hps).trans (h.lookup_parents hl' hps').symm
  have hresources : (linked ps (b.setRegistry R)).resources =
      (linked ps' (b.setRegistry R')).resources := by
    simp only [linked, hlookup]
    rfl
  refine ⟨rfl, rfl, ?_, rfl, rfl⟩
  simp only [ThreadTable.table, hresources]
  rfl

/-- Threads can be given their tables in any order, if what they reach is held. -/
theorem exists_linkInTurn (h : Built m root plan owners limit built)
    (hheld : ∀ {e r}, Reacher built e r → ∃ o, Holder built e o)
    (horder : order.Perm plan.threads.zipIdx) :
    ∃ built' ts l ps, Alone m owners limit order built' ∧ Registered built' ts ∧
      Gathers built l ∧ l.parents = (ps, none) ∧
      linkInTurn m owners limit order = .ok (ts.map (linked ps)) := by
  obtain ⟨built', halone, hperm⟩ :=
    List.perm_comp_forall₂ horder (alone_iff_buildTables.mpr h.builds)
  have hids : (order.map Prod.snd).Nodup := by
    rw [(horder.map Prod.snd).nodup_iff, List.zipIdx_map_snd]
    exact List.nodup_range'
  have hsound : ∀ x ∈ order, x.1.Sound m := fun x hx =>
    (Plan.ofRoot_spec h.plans).1.threads _
      (List.mem_of_getElem? (List.mk_mem_zipIdx_iff_getElem?.mp (horder.mem_iff.mp hx)))
  have hfree : ∀ x ∈ order, ∀ e o, (owners.get e).isOwner x.2 = true → ¬ Holder [] e o := by
    rintro x - e o - ⟨b, hb, -⟩
    cases hb
  obtain ⟨ts, R, hrun, hregistered, hgathers⟩ :=
    buildInTurn_of_alone gathers_empty hids hsound hfree halone
  replace hgathers := Gathers.perm hgathers hperm
  obtain ⟨ps, hps⟩ := hgathers.exists_parents hheld
  exact ⟨built', ts, R.links, ps, halone, hregistered, hgathers, hps,
    linkInTurn_eq_ok.mpr ⟨ts, R, ps, hrun, hps, rfl⟩⟩

end Built

/-- The order in which threads are given their tables does not matter. -/
theorem order_irrelevant {m : Machine} {root limit : Nat} {plan : Plan} {owners : OwnershipTable}
    {closed : Accesses} {order : List (ThreadPlan × ThreadId)} {tables : List ThreadTable}
    (hplan : Plan.ofRoot m root = .ok plan)
    (hsettle : plan.accesses.settle = .ok (owners, closed))
    (horder : order.Perm plan.threads.zipIdx)
    (htables : linkInTurn m owners limit plan.threads.zipIdx = .ok tables) :
    ∃ tables' built joint, linkInTurn m owners limit order = .ok tables' ∧
      buildTables m owners limit 0 plan.threads = .ok built ∧ link built = .ok joint ∧
      ∀ (n : Nat) (t : ThreadPlan) (id : ThreadId), order[n]? = some (t, id) →
        ∃ a b c, tables[id]? = some a ∧ tables'[n]? = some b ∧ joint[id]? = some c ∧
          a.Agrees b ∧ a.Agrees c := by
  obtain ⟨ts, R, ps, hrun, hps, rfl⟩ := linkInTurn_eq_ok.mp htables
  obtain ⟨built, halone, hregistered, hgathers⟩ := alone_of_buildInTurn gathers_empty hrun
  have h : Built m root plan owners limit built :=
    ⟨hplan, ⟨closed, hsettle⟩, alone_iff_buildTables.mp halone⟩
  replace hgathers : Gathers built R.links := hgathers
  have hheld : ∀ {e r}, Reacher built e r → ∃ o, Holder built e o := hgathers.exists_holder hps
  obtain ⟨built', ts', l', ps', halone', hregistered', hgathers', hps', hrun'⟩ :=
    h.exists_linkInTurn hheld horder
  obtain ⟨links, hlinks⟩ := exists_allLinks h.distinct h.holder_unique
  have hall := gathers_allLinks h.distinct hlinks
  obtain ⟨ps₀, hps₀⟩ := hall.exists_parents hheld
  have hlink : link built = .ok (built.map (linked ps₀)) := by
    simp only [link, except_bind_eq_ok, mapError_eq_ok, funext (foldl_setParent _)]
    exact ⟨links, hlinks, by rw [hps₀]; rfl⟩
  refine ⟨_, built, _, hrun', h.builds, hlink, fun n t id hn => ?_⟩
  have ht : plan.threads.zipIdx[id]? = some (t, id) := by
    have hmem := horder.mem_iff.mp (List.mem_of_getElem? hn)
    simp [List.mk_mem_zipIdx_iff_getElem?.mp hmem]
  obtain ⟨b, hb, hbuild⟩ := exists_getElem?_of_forall₂ halone ht
  obtain ⟨b', hb', hbuild'⟩ := exists_getElem?_of_forall₂ halone' hn
  cases Except.ok.inj (hbuild.symm.trans hbuild')
  obtain ⟨_, hts, R₁, rfl⟩ := exists_getElem?_of_forall₂ hregistered hb
  obtain ⟨_, hts', R₂, rfl⟩ := exists_getElem?_of_forall₂ hregistered' hb'
  refine ⟨_, _, _, by rw [List.getElem?_map, hts]; rfl, by rw [List.getElem?_map, hts']; rfl,
    by rw [List.getElem?_map, hb]; rfl, h.linked_agrees hgathers hgathers' hps hps' b R₁ R₂,
    h.linked_agrees hgathers hall hps hps₀ b R₁ b.builder.registry⟩

/-- Two threads that share a member may as well be given their tables the other way round. -/
theorem importedProducer_reordered : ∃ plan owners closed tables,
    Plan.ofRoot importedProducer 0 = .ok plan ∧ plan.accesses.settle = .ok (owners, closed) ∧
    (plan.accesses.find ⟨0, "x"⟩).accessors = [0, 1] ∧
    linkInTurn importedProducer owners 32 plan.threads.zipIdx = .ok tables ∧
    ∃ tables' built joint,
      linkInTurn importedProducer owners 32 plan.threads.zipIdx.reverse = .ok tables' ∧
      buildTables importedProducer owners 32 0 plan.threads = .ok built ∧ link built = .ok joint ∧
      ∀ (n : Nat) (t : ThreadPlan) (id : ThreadId),
        plan.threads.zipIdx.reverse[n]? = some (t, id) →
        ∃ a b c, tables[id]? = some a ∧ tables'[n]? = some b ∧ joint[id]? = some c ∧
          a.Agrees b ∧ a.Agrees c := by
  have h : (Plan.ofRoot importedProducer 0).toOption.any (fun plan =>
      plan.accesses.settle.toOption.any fun x =>
        (linkInTurn importedProducer x.1 32 plan.threads.zipIdx).toOption.any fun _ =>
          decide ((plan.accesses.find ⟨0, "x"⟩).accessors = [0, 1])) = true := by decide +kernel
  obtain ⟨plan, hplan, h⟩ := exists_ok_of_any h
  obtain ⟨⟨owners, closed⟩, hsettle, h⟩ := exists_ok_of_any h
  obtain ⟨tables, htables, h⟩ := exists_ok_of_any h
  exact ⟨plan, owners, closed, tables, hplan, hsettle, of_decide_eq_true h, htables,
    order_irrelevant hplan hsettle (List.reverse_perm _) htables⟩

end Synthesis
end Synth
end MachineSynth
