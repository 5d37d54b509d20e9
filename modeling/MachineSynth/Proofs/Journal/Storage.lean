import Mathlib
import MachineSynth.Proofs.Journal.Tables
import MachineSynth.Proofs.Modules

/-! Storage: what the journal of a table says about the places where members are stored. Registers
of the table record what members are declared with, shared registers their widths alone. -/
namespace MachineSynth
namespace Synth

namespace Entity

def heldKey (e : Entity) : ResourceKey := ⟨"shared-reg", e.member, e.object, .truth⟩

/-- The member whose key is that of the register which feeds data-flow inputs. -/
def flow : Entity := ⟨0, "$dataflow"⟩

theorem heldKey_ne {e e' : Entity} (h : e ≠ e') : e.heldKey ≠ e'.heldKey := by
  intro heq
  simp only [heldKey, ResourceKey.mk.injEq, true_and, and_true] at heq
  obtain ⟨object, member⟩ := e
  obtain ⟨object', member'⟩ := e'
  exact h (by simp_all)

end Entity

/-- Whether a register of a table records the width and the initial value of a member. -/
def Entity.KeptBy (m : Machine) (e : Entity) (r : Rtl.Register) : Prop :=
  ∃ width initial, e.declared? m = some (width, initial) ∧ r.type = .unsigned width ∧
    r.kind = .storage ∧ r.initial = some initial

/-- Whether the parameters of a resource name a member and its width, and say nothing else. -/
def Entity.HeldBy (m : Machine) (e : Entity) (params : Rtl.Params) : Prop :=
  ∃ width initial, e.declared? m = some (width, initial) ∧
    params = [("MEMBER", e.member), ("WIDTH", toString width)]

namespace Pool

/-- Whether the data-flow inputs of a pool are fed by one shared register. -/
def Fed (p : Pool) : Prop :=
  ∀ (i : Nat) (r : Rtl.Resource), p.resources[i]? = some r → r.kind = Rtl.dataFlowKind →
    ∃ j, p.keys.lookup Entity.flow.heldKey = some j ∧ r.parent = some (p.ref j)

/-- Whether the other shared registers of a pool record the widths of members. -/
def Held (m : Machine) (p : Pool) : Prop :=
  ∀ (e : Entity) (i : Nat), e ≠ .flow → p.keys.lookup e.heldKey = some i →
    ∃ r, p.resources[i]? = some r ∧ e.HeldBy m r.params

structure Stored (m : Machine) (p : Pool) : Prop extends p.Sound where
  fed : p.Fed
  held : p.Held m

variable {m : Machine} {p q : Pool} {i j : Nat} {r : Rtl.Resource} {k : ResourceKey}
  {prepare : Rtl.Resource → Rtl.Resource}

theorem Planned.stored (h : p.Planned) : p.Stored m := by
  refine { h.toSound with fed := fun i r hr hkind => ?_, held := fun e i _ hkey => ?_ }
  · have hport := h.ports r (List.mem_of_getElem? hr)
    rw [hkind] at hport
    exact absurd hport (by decide)
  · obtain ⟨r, hr, hkind⟩ := Option.map_eq_some_iff.mp (h.kind hkey)
    have hport := h.ports r (List.mem_of_getElem? hr)
    rw [hkind] at hport
    exact absurd hport (by simp [Entity.heldKey, plannedKinds])

section Requests

theorem modify_concat {α : Type} (xs : List α) (x : α) (f : α → α) :
    (xs ++ [x]).modify xs.length f = xs ++ [f x] := by
  induction xs with
  | nil => rfl
  | cons y rest ih => simpa using ih

theorem getElem?_update (p : Pool) (i j : Nat) (f : Rtl.Resource → Rtl.Resource) :
    (p.update j f).resources[i]? = (p.resources[i]?).map fun r => if j = i then f r else r := by
  simp only [update, List.getElem?_modify]
  split <;> simp

theorem mem_add {kind : String} (hr : (p.add kind).2.resources[i]? = some r) :
    p.resources[i]? = some r ∨ i = p.resources.length ∧ r = .new (p.resources.length + 1) kind := by
  by_cases hi : i < p.resources.length
  · exact .inl (by rwa [add, List.getElem?_append_left hi] at hr)
  · have hlt := (List.getElem?_eq_some_iff.mp hr).1
    simp only [add, List.length_append, List.length_singleton] at hlt
    obtain rfl : i = p.resources.length := by omega
    exact .inr ⟨rfl, by simpa [add] using hr.symm⟩

theorem request_of_some (prepare : Rtl.Resource → Rtl.Resource) (h : p.keys.lookup k = some i) :
    p.request k prepare = (i, p) := by
  simp [request, h]

theorem request_of_none (prepare : Rtl.Resource → Rtl.Resource) (h : p.keys.lookup k = none) :
    p.request k prepare = (p.resources.length,
      { p with
        resources := p.resources ++ [prepare (.new (p.resources.length + 1) k.kind)]
        keys := (k, p.resources.length) :: p.keys }) := by
  simp [request, h, add, update, modify_concat]

theorem request_resources (p : Pool) (k : ResourceKey) (prepare : Rtl.Resource → Rtl.Resource) :
    ∃ rs, (p.request k prepare).2.resources = p.resources ++ rs ∧
      ∀ r ∈ rs, r = prepare (.new (p.resources.length + 1) k.kind) := by
  cases h : p.keys.lookup k with
  | some i => exact ⟨[], by simp [request_of_some prepare h], by simp⟩
  | none => exact ⟨_, by rw [request_of_none prepare h], fun r hr => List.mem_singleton.mp hr⟩

theorem request_keeps (hr : p.resources[i]? = some r) :
    (p.request k prepare).2.resources[i]? = some r := by
  obtain ⟨rs, hrs, -⟩ := p.request_resources k prepare
  exact getElem?_of_isPrefix ⟨rs, hrs.symm⟩ hr

theorem mem_request (hr : (p.request k prepare).2.resources[i]? = some r) :
    p.resources[i]? = some r ∨ r = prepare (.new (p.resources.length + 1) k.kind) := by
  obtain ⟨rs, hrs, hnew⟩ := p.request_resources k prepare
  rw [hrs] at hr
  by_cases hi : i < p.resources.length
  · exact .inl (by rwa [List.getElem?_append_left hi] at hr)
  · rw [List.getElem?_append_right (not_lt.mp hi)] at hr
    exact .inr (hnew r (List.mem_of_getElem? hr))

theorem eq_of_mem_request (hr : (p.request k prepare).2.resources[i]? = some r) :
    p.resources[i]? = some r ∨ i = (p.request k prepare).1 := by
  cases hkey : p.keys.lookup k with
  | some j =>
    rw [request_of_some prepare hkey] at hr
    exact .inl hr
  | none =>
    rw [request_of_none prepare hkey] at hr ⊢
    by_cases hi : i < p.resources.length
    · exact .inl (by rwa [List.getElem?_append_left hi] at hr)
    · have hlt := (List.getElem?_eq_some_iff.mp hr).1
      simp only [List.length_append, List.length_singleton] at hlt
      exact .inr (by omega)

end Requests

section Feeding

theorem Fed.of_parents (h : p.Fed) (hplace : q.place = p.place)
    (hkey : ∀ {j}, p.keys.lookup Entity.flow.heldKey = some j →
      q.keys.lookup Entity.flow.heldKey = some j)
    (hold : ∀ (i : Nat) (r : Rtl.Resource), q.resources[i]? = some r → r.kind = Rtl.dataFlowKind →
      ∃ r₀, p.resources[i]? = some r₀ ∧ r₀.kind = r.kind ∧ r₀.parent = r.parent) : q.Fed := by
  intro i r hr hkind
  obtain ⟨r₀, hr₀, hkind₀, hparent⟩ := hold i r hr hkind
  obtain ⟨j, hj, hfed⟩ := h i r₀ hr₀ (hkind₀.trans hkind)
  exact ⟨j, hkey hj, by simp only [← hparent, hfed, ref, hplace]⟩

theorem Fed.request (h : p.Fed) (hk : k.kind ≠ Rtl.dataFlowKind)
    (hp : ∀ r, (prepare r).kind = r.kind) : (p.request k prepare).2.Fed := by
  refine h.of_parents ((request_takes k hp).grows p).place ((request_takes k hp).grows p).key ?_
  intro i r hr hkind
  rcases mem_request hr with hr | rfl
  · exact ⟨r, hr, rfl, rfl⟩
  · rw [hp] at hkind
    exact absurd hkind hk

theorem Fed.setWidth (h : p.Fed) (j : Nat) (width : UInt64) :
    (p.update j (·.setWidth width)).Fed := by
  refine h.of_parents rfl id fun i r hr _ => ?_
  rw [getElem?_update] at hr
  obtain ⟨r₀, hr₀, rfl⟩ := Option.map_eq_some_iff.mp hr
  exact ⟨r₀, hr₀, by split <;> rfl, by split <;> rfl⟩

end Feeding

section Holding

theorem Held.request (h : p.Held m) (hk : k.kind ≠ "shared-reg") :
    (p.request k prepare).2.Held m := by
  intro e i he hkey
  have hne : e.heldKey ≠ k := fun heq => hk (heq ▸ rfl)
  rw [lookup_request_of_ne p prepare hne] at hkey
  obtain ⟨r, hr, hheld⟩ := h e i he hkey
  exact ⟨r, request_keeps hr, hheld⟩

theorem Held.setWidth (hq : q.Sound) {e : Entity} (hj : q.keys.lookup e.heldKey = some j)
    (width : UInt64) (hself : e ≠ .flow → ∃ r, q.resources[j]? = some r ∧
      e.HeldBy m (r.params.setWidth width))
    (hother : ∀ (e' : Entity) (i : Nat), e' ≠ .flow → e' ≠ e → q.keys.lookup e'.heldKey = some i →
      ∃ r, q.resources[i]? = some r ∧ e'.HeldBy m r.params) :
    (q.update j (·.setWidth width)).Held m := by
  intro e' i he' hkey
  replace hkey : q.keys.lookup e'.heldKey = some i := hkey
  simp only [getElem?_update]
  by_cases heq : e' = e
  · subst heq
    cases Option.some.inj (hj.symm.trans hkey)
    obtain ⟨r, hr, hheld⟩ := hself he'
    exact ⟨r.setWidth width, by simp [hr], hheld⟩
  · obtain ⟨r, hr, hheld⟩ := hother e' i he' heq hkey
    have hij : j ≠ i := by
      rintro rfl
      exact Entity.heldKey_ne heq (hq.unique hkey hj)
    exact ⟨r, by simp [hr, hij], hheld⟩

end Holding

section DataFlow

/-- The register for a data-flow input that is being added. -/
def feed (p : Pool) : Nat × Pool := (p.add Rtl.dataFlowKind).2.request Entity.flow.heldKey id

variable (h : p.keys.lookup ⟨Rtl.dataFlowKind, "", 0, .truth⟩ = none) (width : UInt64)

include h

theorem getElem?_dataFlow (i : Nat) : (p.dataFlow width).2.resources[i]? =
    (p.feed.2.resources[i]?).map fun r =>
      let r := if p.feed.1 = i then r.setWidth width else r
      if p.resources.length = i then { r with parent := some ⟨p.place, p.feed.1⟩ } else r := by
  have hplace : p.feed.2.place = p.place := ((request_takes _ fun _ => rfl).grows _).place
  simp only [dataFlow, h]
  refine (getElem?_update _ _ _ _).trans ?_
  rw [getElem?_update, Option.map_map, ← hplace]
  rfl

theorem lookup_dataFlow (e : Entity) :
    (p.dataFlow width).2.keys.lookup e.heldKey = p.feed.2.keys.lookup e.heldKey := by
  simp only [dataFlow, h]
  exact (lookup_cons_eq _ _ _ _).trans (if_neg fun heq => absurd (congrArg ResourceKey.kind heq)
    (show "shared-reg" ≠ Rtl.dataFlowKind by decide))

/-- With a new data-flow input, what is neither the input nor its register is as it was. -/
theorem mem_dataFlow (hr : (p.dataFlow width).2.resources[i]? = some r) :
    (∃ r₀, p.resources[i]? = some r₀ ∧ r₀.kind = r.kind ∧ r₀.parent = r.parent) ∨
      i = p.resources.length ∧ r.kind = Rtl.dataFlowKind ∨ r.kind = "shared-reg" := by
  rw [getElem?_dataFlow h] at hr
  obtain ⟨r₂, hr₂, rfl⟩ := Option.map_eq_some_iff.mp hr
  -- the width and the parent that are set leave kinds as they are
  have hsame : ∀ (c c' : Prop) [Decidable c] [Decidable c'] (x : Option Rtl.ResourceRef),
      (if c then { (if c' then r₂.setWidth width else r₂) with parent := x }
        else if c' then r₂.setWidth width else r₂).kind = r₂.kind := by
    intro c c' _ _ x
    split <;> split <;> rfl
  dsimp only
  rw [hsame]
  rcases mem_request hr₂ with hr₁ | rfl
  · rcases mem_add hr₁ with hr₀ | ⟨hlast, rfl⟩
    · have hlt := (List.getElem?_eq_some_iff.mp hr₀).1
      rw [if_neg hlt.ne']
      exact .inl ⟨r₂, hr₀, rfl, by split <;> rfl⟩
    · exact .inr (.inl ⟨hlast, rfl⟩)
  · exact .inr (.inr rfl)

end DataFlow

namespace Stored

theorem request (h : p.Stored m) (hk : IsPlain k.kind) (hp : ∀ r, (prepare r).kind = r.kind) :
    (p.request k prepare).2.Stored m :=
  { (request_takes k hp).sound h.toSound with
    fed := h.fed.request hk.2 hp
    held := h.held.request hk.1 }

theorem transition (h : p.Stored m) : p.transition.2.Stored m := by
  have hsound := transition_takes.sound h.toSound
  unfold Pool.transition at hsound ⊢
  split
  · exact h
  · rename_i hnone
    simp only [hnone] at hsound
    refine { hsound with fed := ?_, held := fun e i he hkey => ?_ }
    · refine h.fed.of_parents rfl id fun i r hr hkind => ?_
      rcases mem_add hr with hr | ⟨-, rfl⟩
      · exact ⟨r, hr, rfl, rfl⟩
      · exact absurd hkind (show Rtl.Resource.transitionKind ≠ Rtl.dataFlowKind by decide)
    · obtain ⟨r, hr, hheld⟩ := h.held e i he hkey
      exact ⟨r, getElem?_of_isPrefix (List.prefix_append _ _) hr, hheld⟩

theorem hold (h : p.Stored m) {e : Entity} {width : UInt64} {initial : Int64}
    (he : e.declared? m = some (width, initial)) :
    ((p.sharedMember e true false).2.update (p.sharedMember e true false).1
      (·.setWidth width)).Stored m := by
  have hsound := (sharedMember_takes e true false).sound h.toSound
  have hfed : (p.sharedMember e true false).2.Fed :=
    h.fed.request (show "shared-reg" ≠ Rtl.dataFlowKind by decide) fun _ => rfl
  have hheld : ((p.sharedMember e true false).2.update (p.sharedMember e true false).1
      (·.setWidth width)).Held m := by
    have hj : (p.sharedMember e true false).2.keys.lookup e.heldKey =
        some (p.sharedMember e true false).1 := lookup_request p _ _
    refine Held.setWidth hsound hj width (fun hne => ?_) fun e' i he' hne hkey => ?_
    · cases hkey : p.keys.lookup e.heldKey with
      | some i =>
        have hsame : p.sharedMember e true false = (i, p) := request_of_some _ hkey
        obtain ⟨r, hr, w, v, hdeclared, hparams⟩ := h.held e i hne hkey
        cases Option.some.inj (he.symm.trans hdeclared)
        rw [hsame]
        refine ⟨r, hr, width, initial, he, ?_⟩
        simp [hparams, Rtl.Params.setWidth, Rtl.Params.set]
      | none =>
        have hnew : p.sharedMember e true false = _ := request_of_none _ hkey
        rw [hnew]
        refine ⟨_, List.getElem?_concat_length, width, initial, he, ?_⟩
        simp [Rtl.Resource.setParam, Rtl.Resource.new, Rtl.Params.setWidth, Rtl.Params.set]
    · rw [show (p.sharedMember e true false).2.keys.lookup e'.heldKey = p.keys.lookup e'.heldKey from
        lookup_request_of_ne p _ (Entity.heldKey_ne hne)] at hkey
      obtain ⟨r, hr, hheld⟩ := h.held e' i he' hkey
      exact ⟨r, request_keeps hr, hheld⟩
  exact ⟨update_sound hsound fun _ _ => rfl, hfed.setWidth _ width, hheld⟩

theorem dataFlow (h : p.Stored m) (width : UInt64) : (p.dataFlow width).2.Stored m := by
  have hsound := (dataFlow_takes width).sound h.toSound
  cases hkey : p.keys.lookup ⟨Rtl.dataFlowKind, "", 0, .truth⟩ with
  | some i =>
    have hsame : p.dataFlow width = (i, p) := by simp [Pool.dataFlow, hkey]
    rw [hsame]
    exact h
  | none =>
    have hresource := getElem?_dataFlow hkey width
    have hkeys := lookup_dataFlow hkey width
    have hplace := ((dataFlow_takes width).grows p).place
    refine ⟨hsound, fun i r hr hkind => ⟨p.feed.1, (hkeys _).trans (lookup_request _ _ _), ?_⟩,
      fun e i he hlookup => ?_⟩
    · rw [hresource] at hr
      obtain ⟨r₂, hr₂, rfl⟩ := Option.map_eq_some_iff.mp hr
      simp only [ref, hplace]
      by_cases hi : p.resources.length = i
      · simp [hi]
      · simp only [hi, if_false] at hkind ⊢
        -- an input that was there before is fed by the register that there was
        have hkind₂ : r₂.kind = Rtl.dataFlowKind := by
          rw [← hkind]
          split <;> rfl
        have hr₀ : p.resources[i]? = some r₂ := by
          rcases mem_request hr₂ with hr₁ | rfl
          · exact (mem_add hr₁).resolve_right fun hlast => hi hlast.1.symm
          · exact absurd hkind₂ (show "shared-reg" ≠ Rtl.dataFlowKind by decide)
        obtain ⟨j, hj, hparent⟩ := h.fed i r₂ hr₀ hkind₂
        have hfeed : p.feed = (j, (p.add Rtl.dataFlowKind).2) := request_of_some id hj
        rw [hfeed]
        split <;> exact hparent
    · have hne := Entity.heldKey_ne he
      rw [hkeys, feed, lookup_request_of_ne _ _ hne] at hlookup
      obtain ⟨r, hr, hheld⟩ := h.held e i he hlookup
      have hr₂ : p.feed.2.resources[i]? = some r :=
        request_keeps (getElem?_of_isPrefix (List.prefix_append _ _) hr)
      have hlt := (List.getElem?_eq_some_iff.mp hr).1
      have hij : p.feed.1 ≠ i := by
        rintro rfl
        have hfeed : p.feed.2.Sound := (request_takes _ fun _ => rfl).sound (add_sound h.toSound _)
        refine hne (hfeed.unique ?_ (lookup_request _ _ _))
        rwa [feed, lookup_request_of_ne _ _ hne]
      exact ⟨r, by rw [hresource, hr₂]; simp [hij, hlt.ne'], hheld⟩

end Stored

end Pool

namespace Builder

structure Stored (m : Machine) (b : Builder) : Prop where
  pool : b.pool.Stored m
  kept : ∀ {e : Entity} {k : Nat}, b.members.lookup e = some k →
    ∃ r, b.registers[k]? = some r ∧ e.KeptBy m r

variable {m : Machine} {owners : OwnershipTable} {thread : ThreadId} {b b' : Builder} {act : Act}
  {acts : List Act}

theorem stored_ofPool {p : Pool} (h : p.Planned) : (ofPool p).Stored m :=
  ⟨h.stored, fun hk => by simp [ofPool] at hk⟩

theorem Stored.addRegisters (h : b.Stored m) (hpool : b'.pool = b.pool)
    (hmembers : b'.members = b.members) (hregisters : b.registers <+: b'.registers) :
    b'.Stored m := by
  refine ⟨hpool ▸ h.pool, fun {e k} hk => ?_⟩
  rw [hmembers] at hk
  obtain ⟨r, hr, hkept⟩ := h.kept hk
  exact ⟨r, getElem?_of_isPrefix hregisters hr, hkept⟩

theorem Stored.memberRegister (h : b.Stored m) {e : Entity} {width : UInt64} {initial : Int64}
    (he : e.declared? m = some (width, initial)) :
    (b.memberRegister e width initial).2.Stored m := by
  rw [memberRegister_eq]
  split
  · exact h
  · refine ⟨h.pool, fun {e' k} hk => ?_⟩
    rw [lookup_cons_eq] at hk
    split at hk
    · cases hk
      subst_vars
      exact ⟨_, List.getElem?_concat_length, width, initial, he, rfl, rfl, rfl⟩
    · obtain ⟨r, hr, hkept⟩ := h.kept hk
      exact ⟨r, getElem?_of_isPrefix (List.prefix_append _ _) hr, hkept⟩

theorem Act.run_stored (h : b.Stored m) (hfits : act.Fits m owners thread)
    (hrun : act.run b = .ok b') : b'.Stored m := by
  cases act with
  | request key prepare =>
    cases hrun
    exact ⟨h.pool.request hfits.1 hfits.2, h.kept⟩
  | transition =>
    cases hrun
    exact ⟨h.pool.transition, h.kept⟩
  | dataFlow width =>
    cases hrun
    exact ⟨h.pool.dataFlow width, h.kept⟩
  | hold e width =>
    obtain ⟨initial, he⟩ := hfits
    cases hrun
    exact ⟨h.pool.hold he, h.kept⟩
  | register name type kind initial =>
    cases hrun
    exact h.addRegisters rfl rfl (List.prefix_append _ _)
  | fresh stem type kind initial =>
    cases hrun
    exact h.addRegisters rfl rfl (List.prefix_append _ _)
  | member e width initial =>
    cases hrun
    exact h.memberRegister hfits
  | owner e r =>
    obtain ⟨links, -, rfl⟩ := run_owner.mp hrun
    exact h.addRegisters rfl rfl (List.prefix_refl _)
  | state | insn | accessor e r | channel object name width kind r =>
    cases hrun
    exact h.addRegisters rfl rfl (List.prefix_refl _)

theorem perform_stored (h : b.Stored m) (hfits : ∀ act ∈ acts, act.Fits m owners thread)
    (hrun : perform acts b = .ok b') : b'.Stored m :=
  perform_rel (S := fun b b' => b.Stored m → b'.Stored m) (fun _ => id)
    (fun hab hbc hb => hbc (hab hb)) (fun hact hrun hb => Act.run_stored hb hact hrun) hfits hrun h

end Builder

theorem ThreadTable.build_stored {m : Machine} {owners : OwnershipTable} {limit : Nat}
    {id : ThreadId} {t : ThreadPlan} {table : ThreadTable} (ht : t.pool.Planned)
    (h : build m owners limit id t = .ok table) : table.builder.Stored m := by
  rw [← buildAfter_empty] at h
  obtain ⟨acts, hfits, hperform, -⟩ := buildAfter_logs h
  exact Builder.perform_stored (Builder.stored_ofPool ht) hfits hperform

end Synth
end MachineSynth
