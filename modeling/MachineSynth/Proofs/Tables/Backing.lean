import Mathlib
import MachineSynth.Proofs.Tables.Building

/-! Backing: whatever is reached through the resource that holds it has such a resource, if methods
that are implemented outside of the design have no code that accesses anything. -/
namespace MachineSynth

/-- Whether an instruction reads or writes a member or an element. -/
def Insn.isAccess : Insn → Bool
  | .memberRead _ _ _ | .memberWrite _ _ _ | .arrayRead _ _ _ | .arrayWrite _ _ _ => true
  | _ => false

/-- Whether imported methods and ports have no code that accesses anything. Such code is scanned,
but it is not lowered. -/
def Machine.Bare (m : Machine) : Prop :=
  ∀ o ∈ m.objects, ∀ f ∈ o.methods, (f.isImported || f.marks.isPort) = true →
    ∀ i ∈ f.code, i.isAccess = false

instance (m : Machine) : Decidable m.Bare := inferInstanceAs (Decidable (∀ o ∈ m.objects, _))

namespace Synth

def stopsWith {α : Type} (p : SynthError → Bool) : Except Stop α → Bool
  | .error (.error e) => p e
  | _ => false

theorem exists_of_stopsWith {α : Type} {p : SynthError → Bool} {r : Except Stop α}
    (h : stopsWith p r = true) : ∃ e, r = .error (.error e) ∧ p e = true := by
  unfold stopsWith at h
  split at h
  · exact ⟨_, rfl, h⟩
  · cases h

theorem Walker.isAccess_of_accessed? {m : Machine} {w : Walker} {i : Insn} {x : Entity × Bool}
    (h : w.accessed? m i = some x) : i.isAccess = true := by
  cases i <;> first | rfl | cases h

theorem ThreadTable.exists_of_lowerAll {m : Machine} {owners : OwnershipTable} {id : ThreadId}
    {t : ThreadPlan} {names : List String} {b b' : Builder} {cs : List (String × Context)}
    (h : lowerAll m owners id t names b = .ok (cs, b')) {name : String} (hname : name ∈ names) :
    ∃ c, (name, c) ∈ cs := by
  induction names generalizing b cs with
  | nil => cases hname
  | cons first rest ih =>
    simp only [lowerAll, except_bind_eq_ok] at h
    obtain ⟨⟨c, b₁⟩, -, ⟨cs', b₂⟩, hrest, h⟩ := h
    cases h
    rcases List.mem_cons.mp hname with rfl | hname
    · exact ⟨c, List.mem_cons_self⟩
    · obtain ⟨c', hc'⟩ := ih hrest hname
      exact ⟨c', List.mem_cons_of_mem _ hc'⟩

namespace Links

variable {ρ : Type} [DecidableEq ρ]

theorem exists_parentsOf {entries : List (Entity × Link ρ)}
    (h : ∀ e k, (e, k) ∈ entries → ∀ r ∈ k.accessors, k.owner.isSome = true) :
    ∃ ps, parentsOf entries = (ps, none) := by
  induction entries with
  | nil => exact ⟨[], rfl⟩
  | cons entry rest ih =>
    obtain ⟨e, k⟩ := entry
    obtain ⟨ps, hps⟩ := ih fun e' k' hk' => h e' k' (List.mem_cons_of_mem _ hk')
    have howner := h e k List.mem_cons_self
    simp only [parentsOf]
    split
    · exact ⟨ps, hps⟩
    · rename_i hnone
      have := howner _ (by rw [‹k.accessors = _›]; exact List.mem_cons_self)
      rw [hnone] at this
      cases this
    · exact ⟨_, by rw [hps]⟩

end Links

namespace Synthesis

open Links (Collects)

theorem exists_mergeLink {links : Links Rtl.ResourceRef} {e : Entity} {k : Link Rtl.ResourceRef}
    (h : ∀ o o', (links.find e).owner = some o → k.owner = some o' → o = o') :
    ∃ links', mergeLink links e k = .ok links' := by
  unfold mergeLink
  cases hk : k.owner with
  | none => exact ⟨_, rfl⟩
  | some r =>
    cases ho : (links.find e).owner with
    | none => exact ⟨_, by simp only [Links.addOwner, ho]; rfl⟩
    | some o =>
      have hsame : o = r := h o r ho hk
      exact ⟨_, by simp only [Links.addOwner, ho, if_pos hsame]; rfl⟩

theorem exists_allLinks {tables : List ThreadTable}
    (hdistinct : ∀ t ∈ tables, t.builder.links.Distinct)
    (hunique : ∀ {e : Entity} {o o' : Rtl.ResourceRef}, Holder tables e o → Holder tables e o' →
      o = o') : ∃ links, allLinks tables = .ok links := by
  have hholder : ∀ {e k o}, (e, k) ∈ tables.flatMap (·.builder.links.entries) →
      k.owner = some o → Holder tables e o := by
    intro e k o hk ho
    obtain ⟨t, ht, hk⟩ := List.mem_flatMap.mp hk
    exact ⟨t, ht, by rw [Links.find_of_mem (hdistinct t ht) hk]; exact ho⟩
  have hall : ∀ (entries done : List (Entity × Link Rtl.ResourceRef)) {l : Links Rtl.ResourceRef},
      Collects l done → (∀ x ∈ done ++ entries, x ∈ tables.flatMap (·.builder.links.entries)) →
      ∃ l', entries.foldlM (fun ls x => mergeLink ls x.1 x.2) l = .ok l' := by
    intro entries
    induction entries with
    | nil => exact fun done l _ _ => ⟨l, rfl⟩
    | cons entry rest ih =>
      intro done l hl hmem
      obtain ⟨e, k⟩ := entry
      obtain ⟨l₁, hl₁⟩ : ∃ l₁, mergeLink l e k = .ok l₁ := by
        refine exists_mergeLink fun o o' ho ho' => ?_
        obtain ⟨k', hk', ho⟩ := (hl.owner e o).mp ho
        exact hunique (hholder (hmem _ (List.mem_append_left _ hk')) ho)
          (hholder (hmem _ (by simp)) ho')
      obtain ⟨l₂, hl₂⟩ := ih (done ++ [(e, k)]) (mergeLink_collects hl hl₁) fun x hx =>
        hmem x (by simpa using hx)
      exact ⟨l₂, by rw [List.foldlM_cons, except_bind_eq_ok]; exact ⟨l₁, hl₁, hl₂⟩⟩
  exact hall _ [] Links.collects_empty fun x hx => by simpa using hx

namespace Built

variable {m : Machine} {root : Nat} {plan : Plan} {owners : OwnershipTable} {limit : Nat}
  {built : List ThreadTable} {k : Nat} {b : ThreadTable} {e : Entity}

theorem accesses_of_touches (h : Built m root plan owners limit built) (hbare : m.Bare)
    (hb : built[k]? = some b) (ht : b.plan.Touches m e) : b.Accesses m e := by
  obtain ⟨name, hname, f, hf, hnative, n, i, w, write, hi, hw, haccess⟩ := ht
  have hpool := (h.sound_plan hb).pool
  obtain ⟨_, _, _, hlower, -⟩ := ThreadTable.build_spec hpool (h.thread hb).2
  obtain ⟨c, hc⟩ := ThreadTable.exists_of_lowerAll hlower hname
  obtain ⟨-, -, -, hall⟩ := ThreadTable.lowerAll_spec (Builder.sound_ofPool hpool) hlower
  obtain ⟨-, b₁, b₂, hb₁, -, hlowered, -⟩ := hall name c hc
  obtain ⟨o, f', _, _, ho, hf', himpl, -, -, -⟩ := Site.lower_cases hlowered
  obtain ⟨-, -, hobject, -⟩ := Site.lower_spec hb₁ hlowered
  have hsame : f' = f := by simpa [Walker.calledMethod?, ho, hf'] using hf
  subst hsame
  have hmethod : f' = c.method := by simpa [Site.implementation?, hnative] using himpl
  have hbody : (f'.isImported || f'.marks.isPort) = false := by
    cases houtside : f'.isImported || f'.marks.isPort with
    | false => rfl
    | true =>
      have hnone := hbare o (List.mem_of_getElem? ho) f' (Object.mem_methods hf') houtside i
        (List.mem_of_getElem? hi)
      rw [Walker.isAccess_of_accessed? haccess] at hnone
      cases hnone
  have hcode : c.code = f'.code := by simp [Context.code, ← hmethod, hbody]
  rw [← hcode] at hi hw
  obtain ⟨st, hst⟩ := ThreadTable.lowers_of_code hpool hlower hc hi hw
  exact ⟨w, i, st, write, ⟨name, c, n, hc, hi, hobject ▸ hw, hst⟩, haccess⟩

theorem accesses_of_accessor (h : Built m root plan owners limit built) (hbare : m.Bare)
    (hk : k ∈ (plan.accesses.find e).accessors) : ∃ b, built[k]? = some b ∧ b.Accesses m e := by
  obtain ⟨t, ht, htouches⟩ := Plan.ofRoot_justified h.plans e k hk
  obtain ⟨b, hb, -⟩ := (buildTables_eq_ok h.builds).2 k t ht
  cases Option.some.inj (ht.symm.trans (h.thread hb).1)
  exact ⟨b, hb, h.accesses_of_touches hbare hb htouches⟩

theorem exists_holder (h : Built m root plan owners limit built) (hm : m.Named) (hbare : m.Bare)
    (hb : b ∈ built) {r : Rtl.ResourceRef} (hr : r ∈ (b.builder.links.find e).accessors) :
    ∃ o, Holder built e o := by
  obtain ⟨k, hk⟩ := List.mem_iff_getElem?.mp hb
  -- whoever is the owner, its accesses are no more private than this one
  obtain ⟨howner, hprivate⟩ : (owners.get e).owner.isSome = true ∧
      ∀ {v : Walker} {i : Insn} {write : Bool}, v.accessed? m i = some (e, write) →
        owners.isPrivate i e = false := by
    rcases (h.obeys hk).reaches hr with ⟨v, i, st, write, hi, haccess, hprivate⟩ | ⟨hmoves, howner⟩
    · refine ⟨?_, fun {v' i' write'} haccess' => ?_⟩
      · rw [h.get_eq]
        exact Ownership.owner_isSome_of (h.accessor_of_accesses hk ⟨v, i, st, write, hi, haccess⟩)
      · have harray : Walker.onArray i' = Walker.onArray i := Bool.eq_iff_iff.mpr
          ((Walker.onArray_of_accessed? hm haccess').trans
            (Walker.onArray_of_accessed? hm haccess).symm)
        simpa only [OwnershipTable.isPrivate, harray] using hprivate
    · refine ⟨howner, fun haccess' => ?_⟩
      have hmoved : (owners.get e).isMoved = true := by
        rw [h.get_eq]
        exact Ownership.isMoved_of (h.mover_of_moves hk hmoves)
      obtain ⟨v, i, st, -, hmove⟩ := hmoves
      have harray := (Walker.onArray_of_accessed? hm haccess').mpr (Walker.member_of_moved? hmove)
      simp [OwnershipTable.isPrivate, hmoved, harray]
  obtain ⟨k₀, hk₀⟩ := Option.isSome_iff_exists.mp howner
  have hmem : k₀ ∈ (plan.accesses.find e).accessors := by
    rw [h.get_eq] at hk₀
    exact Access.mem_of_owner? hk₀
  obtain ⟨b₀, hb₀, v, i, st, write, hi, haccess⟩ := h.accesses_of_accessor hbare hmem
  obtain ⟨n, -, hserves⟩ := (h.obeys hb₀).accesses hi haccess (hprivate haccess)
  have hisOwner : (owners.get e).isOwner k₀ = true := by simp [Ownership.isOwner, hk₀]
  rw [hisOwner] at hserves
  exact ⟨_, b₀, List.mem_of_getElem? hb₀, hserves.registered⟩

end Built

/-- Every thread that is on record as accessing an entity has a table that accesses it, so that
linking never lacks the resource that holds an entity. Slots have names, as `Listing.named_of_load`
says of listings. -/
theorem owners_backed {m : Machine} {root limit : Nat} {plan : Plan} {owners : OwnershipTable}
    {closed : Accesses} {built : List ThreadTable} (hm : m.Named) (hbare : m.Bare)
    (hplan : Plan.ofRoot m root = .ok plan)
    (hsettle : plan.accesses.settle = .ok (owners, closed))
    (hbuilt : buildTables m owners limit 0 plan.threads = .ok built) :
    (∀ (e : Entity), ∀ k ∈ (plan.accesses.find e).accessors,
      ∃ b, built[k]? = some b ∧ b.Accesses m e) ∧ ∃ tables, link built = .ok tables := by
  have h : Built m root plan owners limit built := ⟨hplan, ⟨closed, hsettle⟩, hbuilt⟩
  refine ⟨fun e k hk => h.accesses_of_accessor hbare hk, ?_⟩
  obtain ⟨links, hlinks⟩ := exists_allLinks h.distinct h.holder_unique
  have hcollects := allLinks_collects hlinks
  obtain ⟨ps, hps⟩ : ∃ ps, links.parents = (ps, none) := by
    refine Links.exists_parentsOf fun e k hk r hr => ?_
    have hfind := Links.find_of_mem hcollects.distinct hk
    obtain ⟨b, hb, hreach⟩ := (allLinks_find h.distinct hlinks e r).2.mp (hfind ▸ hr)
    obtain ⟨o, ho⟩ := h.exists_holder hm hbare hb hreach
    have howner := (allLinks_find h.distinct hlinks e o).1.mpr ho
    rw [← hfind, howner, Option.isSome_some]
  refine ⟨built.map fun t => ps.foldl setParent t, ?_⟩
  rw [link, except_bind_eq_ok]
  refine ⟨links, mapError_eq_ok.mpr hlinks, ?_⟩
  rw [hps]
  rfl

/-- A machine of two threads that share a member. One of them writes to it what an imported method
returns. -/
def importedProducer : Machine :=
  let method (name imported : String) (code : List Insn) : Slot :=
    ⟨name, .method ⟨name, [], [⟨"r", .int, 8⟩], [⟨"a", .num, 8, false, 0⟩], code, "", "", imported,
      .none⟩⟩
  let this := RegisterId.unused
  ⟨[⟨"top", .plain, 0, 0, false, false, [⟨"watch", "read"⟩],
      [⟨"x", .num 8 0 false⟩,
        method "main" "" [.call this "produce" [], .callDone [0], .memberWrite this "x" 0],
        method "read" "" [.memberRead 0 this "x", .goto 0], method "produce" "ext" []]⟩]⟩

theorem importedProducer_backed : importedProducer.Named ∧ importedProducer.Bare ∧
    ∃ plan owners closed built,
    Plan.ofRoot importedProducer 0 = .ok plan ∧ plan.accesses.settle = .ok (owners, closed) ∧
    buildTables importedProducer owners 32 0 plan.threads = .ok built ∧
    (plan.accesses.find ⟨0, "x"⟩).accessors = [0, 1] ∧
    (∀ (e : Entity), ∀ k ∈ (plan.accesses.find e).accessors,
      ∃ b, built[k]? = some b ∧ b.Accesses importedProducer e) ∧
      ∃ tables, link built = .ok tables := by
  have hm : importedProducer.Named := by decide +kernel
  have hbare : importedProducer.Bare := by decide +kernel
  have h : (Plan.ofRoot importedProducer 0).toOption.any (fun plan =>
      plan.accesses.settle.toOption.any fun x =>
        (buildTables importedProducer x.1 32 0 plan.threads).toOption.any fun _ =>
          decide ((plan.accesses.find ⟨0, "x"⟩).accessors = [0, 1])) = true := by decide +kernel
  obtain ⟨plan, hplan, h⟩ := exists_ok_of_any h
  obtain ⟨⟨owners, closed⟩, hsettle, h⟩ := exists_ok_of_any h
  obtain ⟨built, hbuilt, h⟩ := exists_ok_of_any h
  exact ⟨hm, hbare, plan, owners, closed, built, hplan, hsettle, hbuilt, of_decide_eq_true h,
    owners_backed hm hbare hplan hsettle hbuilt⟩

/-- A machine whose main thread writes a member in the code of an imported method only, while
another thread reads it. -/
def importedWriter : Machine :=
  let method (name imported : String) (code : List Insn) : Slot :=
    ⟨name, .method ⟨name, [], [], [⟨"v", .num, 8, false, 0⟩], code, "", "", imported, .none⟩⟩
  let this := RegisterId.unused
  ⟨[⟨"top", .plain, 0, 0, false, false, [⟨"t", "g"⟩],
      [⟨"x", .num 8 0 false⟩, method "main" "" [.call this "f" []],
        method "g" "" [.memberRead 0 this "x"], method "f" "ext" [.memberWrite this "x" 0]]⟩]⟩

/-- The code of the imported method is on record, but it is not lowered, so the main thread is to
hold the member and does not. -/
theorem importedWriter_unbacked : ∃ plan owners closed built e,
    Plan.ofRoot importedWriter 0 = .ok plan ∧ plan.accesses.settle = .ok (owners, closed) ∧
    buildTables importedWriter owners 32 0 plan.threads = .ok built ∧
    link built = .error (.error e) ∧ e.message = "no owner resource for shared obj#0.x" := by
  have h : (Plan.ofRoot importedWriter 0).toOption.any (fun plan =>
      plan.accesses.settle.toOption.any fun x =>
        (buildTables importedWriter x.1 32 0 plan.threads).toOption.any fun built =>
          stopsWith (·.message = "no owner resource for shared obj#0.x") (link built)) = true := by
    decide +kernel
  obtain ⟨plan, hplan, h⟩ := exists_ok_of_any h
  obtain ⟨⟨owners, closed⟩, hsettle, h⟩ := exists_ok_of_any h
  obtain ⟨built, hbuilt, h⟩ := exists_ok_of_any h
  obtain ⟨e, he, hmessage⟩ := exists_of_stopsWith h
  exact ⟨plan, owners, closed, built, e, hplan, hsettle, hbuilt, he, of_decide_eq_true hmessage⟩

end Synthesis
end Synth
end MachineSynth
