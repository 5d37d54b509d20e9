import Mathlib
import MachineSynth.Proofs.Access
import MachineSynth.Proofs.Pool
import MachineSynth.Synth.Builder

/-! Builders grow: registers are only added, a member keeps its register, and the resources
registered for a shared entity stay registered and are those its keys stand for. -/
namespace MachineSynth

theorem getElem?_of_isPrefix {α : Type} {xs ys : List α} (h : xs <+: ys) {i : Nat} {x : α}
    (hx : xs[i]? = some x) : ys[i]? = some x := by
  obtain ⟨rest, rfl⟩ := h
  rw [List.getElem?_append_left (List.getElem?_eq_some_iff.mp hx).1]
  exact hx

section Forall

variable {α β : Type} {r : α → β → Prop} {xs : List α} {ys : List β}

theorem exists_getElem?_of_forall₂ (h : List.Forall₂ r xs ys) {n : Nat} {x : α}
    (hx : xs[n]? = some x) : ∃ y, ys[n]? = some y ∧ r x y := by
  obtain ⟨hn, rfl⟩ := List.getElem?_eq_some_iff.mp hx
  have hn' : n < ys.length := h.length_eq ▸ hn
  exact ⟨_, List.getElem?_eq_getElem hn', h.get hn hn'⟩

theorem exists_mem_of_forall₂ (h : List.Forall₂ r xs ys) {y : β} (hy : y ∈ ys) :
    ∃ x ∈ xs, r x y := by
  induction h with
  | nil => cases hy
  | cons hr _ ih =>
    rcases List.mem_cons.mp hy with rfl | hy
    · exact ⟨_, List.mem_cons_self, hr⟩
    · obtain ⟨x, hx, hxy⟩ := ih hy
      exact ⟨x, List.mem_cons_of_mem _ hx, hxy⟩

end Forall

namespace Synth
namespace Links

variable {ρ : Type}

theorem lookup_updateLink (e e' : Entity) (f : Link ρ → Link ρ) (entries : List (Entity × Link ρ)) :
    ((updateLink e f entries).lookup e').getD ⟨none, []⟩ =
      if e' = e then f ((entries.lookup e).getD ⟨none, []⟩)
      else (entries.lookup e').getD ⟨none, []⟩ := by
  induction entries with
  | nil => by_cases h : e' = e <;> simp [updateLink, lookup_cons_eq, h]
  | cons entry rest ih =>
    obtain ⟨k, l⟩ := entry
    by_cases hk : k = e
    · subst hk
      by_cases h : e' = k <;> simp [updateLink, lookup_cons_eq, h]
    · by_cases h : e' = k
      · subst h
        simp [updateLink, hk]
      · have hek : ¬ e = k := fun he => hk he.symm
        simpa [updateLink, lookup_cons_eq, hk, h, hek] using ih

/-- Whether each entity has one entry at most. -/
def Distinct (l : Links ρ) : Prop := (l.entries.map (·.1)).Nodup

theorem keys_updateLink (e : Entity) (f : Link ρ → Link ρ) (entries : List (Entity × Link ρ)) :
    (updateLink e f entries).map (·.1) =
      if e ∈ entries.map (·.1) then entries.map (·.1) else entries.map (·.1) ++ [e] := by
  induction entries with
  | nil => simp [updateLink]
  | cons entry rest ih =>
    obtain ⟨k, l⟩ := entry
    by_cases hk : k = e
    · simp [updateLink, hk]
    · have hek : e ≠ k := fun he => hk he.symm
      simp only [updateLink, hk, if_false, List.map_cons, ih, List.mem_cons, hek, false_or]
      split <;> simp

theorem distinct_updateLink {e : Entity} {f : Link ρ → Link ρ} {entries : List (Entity × Link ρ)}
    (h : (entries.map (·.1)).Nodup) : ((updateLink e f entries).map (·.1)).Nodup := by
  rw [keys_updateLink]
  split
  · exact h
  · rename_i he
    exact List.nodup_append.mpr ⟨h, by simp, fun x hx y hy hxy =>
      he (List.mem_singleton.mp hy ▸ hxy ▸ hx)⟩

theorem distinct_empty : (empty : Links ρ).Distinct := List.nodup_nil

theorem find_of_mem {l : Links ρ} (h : l.Distinct) {e : Entity} {k : Link ρ}
    (hk : (e, k) ∈ l.entries) : l.find e = k := by
  obtain ⟨entries⟩ := l
  simp only [Distinct, find] at h hk ⊢
  induction entries with
  | nil => cases hk
  | cons entry rest ih =>
    obtain ⟨e', k'⟩ := entry
    obtain ⟨hnot, hrest⟩ := List.nodup_cons.mp h
    rw [lookup_cons_eq]
    rcases List.mem_cons.mp hk with heq | hmem
    · cases heq
      simp
    · have hne : e ≠ e' := fun heq => hnot (heq ▸ List.mem_map.mpr ⟨_, hmem, rfl⟩)
      rw [if_neg hne]
      exact ih hrest hmem

theorem mem_of_find {l : Links ρ} {e : Entity} (h : l.find e ≠ ⟨none, []⟩) :
    (e, l.find e) ∈ l.entries := by
  unfold find at h ⊢
  cases hk : l.entries.lookup e with
  | none => simp [hk] at h
  | some k => exact mem_of_lookup hk

variable [DecidableEq ρ]

theorem find_addAccessor (l : Links ρ) (e e' : Entity) (r : ρ) :
    (l.addAccessor e r).find e' =
      if e' = e then
        { l.find e with accessors :=
            if (l.find e).accessors.contains r then (l.find e).accessors
            else (l.find e).accessors ++ [r] }
      else l.find e' :=
  lookup_updateLink e e' _ l.entries

/-- An owner is registered once; registering it again changes nothing. -/
theorem find_addOwner {l l' : Links ρ} {e : Entity} {r : ρ} (h : l.addOwner e r = .ok l')
    (e' : Entity) :
    l'.find e' = if e' = e then { l.find e with owner := some r } else l.find e' := by
  unfold addOwner at h
  split at h
  · rename_i o ho
    split at h
    · obtain rfl : l = l' := by simpa using h
      by_cases he : e' = e
      · subst he
        subst_vars
        simp [← ho]
      · simp [he]
    · cases h
  · obtain rfl : _ = l' := by simpa using h
    exact lookup_updateLink e e' _ l.entries

theorem Distinct.addOwner {l l' : Links ρ} {e : Entity} {r : ρ} (hl : l.Distinct)
    (h : l.addOwner e r = .ok l') : l'.Distinct := by
  unfold Links.addOwner at h
  split at h
  · split at h
    · cases h
      exact hl
    · cases h
  · cases h
    exact distinct_updateLink hl

theorem Distinct.addAccessor {l : Links ρ} (hl : l.Distinct) (e : Entity) (r : ρ) :
    (l.addAccessor e r).Distinct :=
  distinct_updateLink hl

theorem owner_of_addOwner {l l' : Links ρ} {e : Entity} {r o : ρ} (h : l.addOwner e r = .ok l')
    (ho : (l.find e).owner = some o) : o = r := by
  unfold addOwner at h
  simp only [ho] at h
  split at h
  · assumption
  · cases h

end Links

namespace Pool

/-- Whether a resource of the table stands for an entity under one of the given kinds. -/
def Backs (p : Pool) (kinds : List String) (e : Entity) (r : Rtl.ResourceRef) : Prop :=
  r.owner = p.place ∧
    ∃ kind ∈ kinds, p.keys.lookup ⟨kind, e.member, e.object, .truth⟩ = some r.resource

def ownerKinds : List String := ["shared-reg", "shared-memory"]

def accessorKinds : List String :=
  ["shared-reg-reader", "shared-reg-writer", "shared-memory-reader", "shared-memory-writer",
    "axi-master-port"]

theorem Backs.mono {p q : Pool} {kinds : List String} {e : Entity} {r : Rtl.ResourceRef}
    (h : p.Backs kinds e r) (hpq : p.Extends q) : q.Backs kinds e r := by
  obtain ⟨ho, kind, hk, hl⟩ := h
  exact ⟨ho.trans hpq.place.symm, kind, hk, hpq.key hl⟩

theorem Backs.entity_eq {p : Pool} (hp : p.Sound) {kinds kinds' : List String} {e e' : Entity}
    {r : Rtl.ResourceRef} (h : p.Backs kinds e r) (h' : p.Backs kinds' e' r) : e = e' := by
  obtain ⟨-, kind, -, hl⟩ := h
  obtain ⟨-, kind', -, hl'⟩ := h'
  have hk := hp.unique hl hl'
  simp only [ResourceKey.mk.injEq] at hk
  cases e
  cases e'
  simp_all

end Pool

namespace Builder

/-- A builder later than another. -/
structure Extends (b b' : Builder) : Prop where
  pool : b.pool.Extends b'.pool
  registers : b.registers <+: b'.registers
  member : ∀ {e : Entity} {i : Nat}, b.members.lookup e = some i → b'.members.lookup e = some i
  /-- A register that has come to hold a member is a new one. -/
  memberNew : ∀ {e : Entity} {i : Nat}, b'.members.lookup e = some i →
    b.members.lookup e = some i ∨ b.registers.length ≤ i
  owner : ∀ {e : Entity} {r : Rtl.ResourceRef}, (b.links.find e).owner = some r →
    (b'.links.find e).owner = some r
  accessor : ∀ {e : Entity} {r : Rtl.ResourceRef}, r ∈ (b.links.find e).accessors →
    r ∈ (b'.links.find e).accessors
  stateCount : b.stateCount ≤ b'.stateCount
  insnCount : b.insnCount ≤ b'.insnCount

namespace Extends

theorem refl (b : Builder) : b.Extends b :=
  ⟨.refl _, List.prefix_refl _, id, .inl, id, id, le_rfl, le_rfl⟩

theorem trans {a b c : Builder} (h : a.Extends b) (h' : b.Extends c) : a.Extends c := by
  refine ⟨h.pool.trans h'.pool, h.registers.trans h'.registers, fun hm => h'.member (h.member hm),
    fun hm => ?_, fun ho => h'.owner (h.owner ho), fun ha => h'.accessor (h.accessor ha),
    h.stateCount.trans h'.stateCount, h.insnCount.trans h'.insnCount⟩
  rcases h'.memberNew hm with hm | hm
  · exact h.memberNew hm
  · exact .inr (h.registers.length_le.trans hm)

theorem register {b b' : Builder} (h : b.Extends b') {i : Nat} {r : Rtl.Register}
    (hr : b.registers[i]? = some r) : b'.registers[i]? = some r :=
  getElem?_of_isPrefix h.registers hr

end Extends

/-- Members have storage registers of their own, and what is registered for a shared entity is
what its keys stand for. -/
structure Sound (b : Builder) : Prop where
  pool : b.pool.Sound
  member : ∀ {e : Entity} {i : Nat}, b.members.lookup e = some i →
    ∃ r, b.registers[i]? = some r ∧ r.kind = .storage
  memberUnique : ∀ {e e' : Entity} {i : Nat}, b.members.lookup e = some i →
    b.members.lookup e' = some i → e = e'
  owner : ∀ {e : Entity} {r : Rtl.ResourceRef}, (b.links.find e).owner = some r →
    b.pool.Backs Pool.ownerKinds e r
  accessor : ∀ {e : Entity} {r : Rtl.ResourceRef}, r ∈ (b.links.find e).accessors →
    b.pool.Backs Pool.accessorKinds e r
  distinct : b.links.Distinct

theorem sound_ofPool {p : Pool} (h : p.Sound) : (ofPool p).Sound :=
  ⟨h, fun h => by simp [ofPool] at h, fun h => by simp [ofPool] at h,
    fun h => by simp [ofPool, Links.find, Links.empty] at h,
    fun h => by simp [ofPool, Links.find, Links.empty] at h, Links.distinct_empty⟩

theorem Sound.member_lt {b : Builder} (h : b.Sound) {e : Entity} {i : Nat}
    (hm : b.members.lookup e = some i) : i < b.registers.length := by
  obtain ⟨r, hr, -⟩ := h.member hm
  exact (List.getElem?_eq_some_iff.mp hr).1

/-- Whether a resource of some kind is registered for a shared entity, as the one that holds it or
as one that accesses it. -/
structure Serves (b : Builder) (owner : Bool) (kind : String) (e : Entity) (r : Nat) : Prop where
  kind : Rtl.kindAt b.pool.resources r = some kind
  registered : if owner then (b.links.find e).owner = some (b.pool.ref r)
    else b.pool.ref r ∈ (b.links.find e).accessors

theorem Serves.mono {b b' : Builder} {owner : Bool} {kind : String} {e : Entity} {r : Nat}
    (h : b.Serves owner kind e r) (hext : b.Extends b') : b'.Serves owner kind e r := by
  have href : b'.pool.ref r = b.pool.ref r := by simp [Pool.ref, hext.pool.place]
  have hregistered := h.registered
  refine ⟨hext.pool.kindAt h.kind, ?_⟩
  rw [href]
  cases owner with
  | true => exact hext.owner hregistered
  | false => exact hext.accessor hregistered

/-- What a later builder uses, it used before or was allowed to come to use. -/
structure Covered (u : Uses) (b b' : Builder) : Prop where
  member : ∀ {e : Entity} {i : Nat}, b'.members.lookup e = some i →
    b.members.lookup e = some i ∨ u.own e
  array : ∀ {id i : Nat}, b'.pool.keys.lookup ⟨"array", "", id, .truth⟩ = some i →
    b.pool.keys.lookup ⟨"array", "", id, .truth⟩ = some i ∨ u.own (.whole id)
  owner : ∀ {e : Entity} {r : Rtl.ResourceRef}, (b'.links.find e).owner = some r →
    (b.links.find e).owner = some r ∨ u.hold e
  accessor : ∀ {e : Entity} {r : Rtl.ResourceRef}, r ∈ (b'.links.find e).accessors →
    r ∈ (b.links.find e).accessors ∨ u.reach e
  port : ∀ {k : ResourceKey} {i : Nat}, k.kind ∈ Pool.portKinds →
    b'.pool.keys.lookup k = some i → b.pool.keys.lookup k = some i ∨ u.port k.name

namespace Covered

variable {u : Uses} {a b c : Builder}

theorem of_eq (hm : b.members = a.members) (hk : b.pool.keys = a.pool.keys)
    (hl : b.links = a.links) : Covered u a b :=
  ⟨fun h => .inl (hm ▸ h), fun h => .inl (hk ▸ h), fun h => .inl (hl ▸ h), fun h => .inl (hl ▸ h),
    fun _ h => .inl (hk ▸ h)⟩

theorem refl (u : Uses) (b : Builder) : Covered u b b := of_eq rfl rfl rfl

theorem trans (h : Covered u a b) (h' : Covered u b c) : Covered u a c :=
  ⟨fun hm => (h'.member hm).elim h.member .inr, fun hk => (h'.array hk).elim h.array .inr,
    fun ho => (h'.owner ho).elim h.owner .inr, fun ha => (h'.accessor ha).elim h.accessor .inr,
    fun hp hk => (h'.port hp hk).elim (h.port hp) .inr⟩

theorem mono {v : Uses} (h : Covered u a b) (huv : u ≤ v) : Covered v a b :=
  ⟨fun hm => (h.member hm).imp_right (huv.1 _), fun hk => (h.array hk).imp_right (huv.1 _),
    fun ho => (h.owner ho).imp_right (huv.2.1 _), fun ha => (h.accessor ha).imp_right (huv.2.2.1 _),
    fun hp hk => (h.port hp hk).imp_right (huv.2.2.2 _)⟩

end Covered

theorem resource_covered {take : Pool → Nat × Pool} {kind : String} (h : Pool.TakesOther take kind)
    (u : Uses) (b : Builder) : Covered u b (b.resource take).2 :=
  ⟨.inl, fun hk => .inl ((h.tracked b.pool rfl).symm.trans hk), .inl, .inl,
    fun hp hk => .inl ((h.tracked b.pool (Pool.isTracked_of_port hp)).symm.trans hk)⟩

theorem port_covered {u : Uses} {name : String} (hu : u.port name) (output : Bool) (width : UInt64)
    (b : Builder) : Covered u b (b.resource (·.port name output width)).2 := by
  refine ⟨.inl, fun hk => .inl ?_, .inl, .inl, fun {k i} hp hk => ?_⟩
  · exact (Pool.lookup_request_of_ne b.pool _ (by cases output <;> simp)).symm.trans hk
  · by_cases hname : k.name = name
    · exact .inr (hname ▸ hu)
    · refine .inl ((Pool.lookup_request_of_ne b.pool _ ?_).symm.trans hk)
      rintro rfl
      exact hname rfl

theorem privateArray_covered {u : Uses} {id : Nat} (hu : u.own (.whole id)) (o : Object)
    (b : Builder) : Covered u b (b.resource (·.privateArray id o)).2 := by
  refine ⟨.inl, fun {object i} hk => ?_, .inl, .inl, fun {k i} hp hk => .inl ?_⟩
  · by_cases hid : object = id
    · exact .inr (hid ▸ hu)
    · exact .inl ((Pool.lookup_request_of_ne b.pool _ (by simp [hid])).symm.trans hk)
  · refine (Pool.lookup_request_of_ne b.pool _ ?_).symm.trans hk
    rintro rfl
    have harray : "array" ∉ Pool.portKinds := by decide
    exact harray hp

theorem memberRegister_covered {u : Uses} {e : Entity} (hu : u.own e) (b : Builder)
    (width : UInt64) (initial : Int64) : Covered u b (b.memberRegister e width initial).2 := by
  unfold memberRegister
  split
  · exact .refl u b
  · refine ⟨fun {e' i} hm => ?_, .inl, .inl, .inl, fun _ => .inl⟩
    by_cases he : e' = e
    · exact .inr (he ▸ hu)
    · exact .inl (by simpa [lookup_cons_eq, he, freshRegister, addRegister] using hm)

theorem addOwner_covered {u : Uses} {b : Builder} {e : Entity} {r : Rtl.ResourceRef}
    {links : Links Rtl.ResourceRef} (hu : u.hold e) (h : b.links.addOwner e r = .ok links) :
    Covered u b { b with links := links } := by
  refine ⟨.inl, .inl, fun {e' o} ho => ?_, fun {e' a} ha => ?_, fun _ => .inl⟩ <;>
    by_cases he : e' = e
  · exact .inr (he ▸ hu)
  · exact .inl (by simpa [Links.find_addOwner h, he] using ho)
  · exact .inl (by simpa [Links.find_addOwner h, he] using ha)
  · exact .inl (by simpa [Links.find_addOwner h, he] using ha)

theorem addAccessor_covered {u : Uses} {e : Entity} (hu : u.reach e) (b : Builder)
    (r : Rtl.ResourceRef) : Covered u b { b with links := b.links.addAccessor e r } := by
  refine ⟨.inl, .inl, fun {e' o} ho => ?_, fun {e' a} ha => ?_, fun _ => .inl⟩ <;>
    by_cases he : e' = e
  · exact .inl (by simpa [Links.find_addAccessor, he] using ho)
  · exact .inl (by simpa [Links.find_addAccessor, he] using ho)
  · exact .inr (he ▸ hu)
  · exact .inl (by simpa [Links.find_addAccessor, he] using ha)

section Resources

variable {take : Pool → Nat × Pool} {kind : String}

theorem setPool_extends {b : Builder} {pool : Pool} (hg : b.pool.Extends pool) :
    b.Extends { b with pool := pool } :=
  ⟨hg, List.prefix_refl _, id, .inl, id, id, le_rfl, le_rfl⟩

theorem resource_extends (b : Builder) (h : Pool.Takes take kind) : b.Extends (b.resource take).2 :=
  setPool_extends (h.grows b.pool)

theorem setPool_sound {b : Builder} (hb : b.Sound) {pool : Pool} (hp : pool.Sound)
    (hg : b.pool.Extends pool) : Sound { b with pool := pool } :=
  ⟨hp, hb.member, hb.memberUnique, fun ho => (hb.owner ho).mono hg,
    fun ha => (hb.accessor ha).mono hg, hb.distinct⟩

theorem resource_sound {b : Builder} (hb : b.Sound) (h : Pool.Takes take kind) :
    (b.resource take).2.Sound :=
  setPool_sound hb (h.sound hb.pool) (h.grows b.pool)

end Resources

theorem addRegister_extends (b : Builder) (name : String) (type : Rtl.ValueType)
    (kind : Rtl.RegisterKind) (initial : Option Int64) :
    b.Extends (b.addRegister name type kind initial).2 :=
  ⟨.refl _, List.prefix_append _ _, id, .inl, id, id, le_rfl, le_rfl⟩

theorem addRegister_sound {b : Builder} (h : b.Sound) (name : String) (type : Rtl.ValueType)
    (kind : Rtl.RegisterKind) (initial : Option Int64) :
    (b.addRegister name type kind initial).2.Sound := by
  refine ⟨h.pool, fun hm => ?_, h.memberUnique, h.owner, h.accessor, h.distinct⟩
  obtain ⟨r, hr, hk⟩ := h.member hm
  exact ⟨r, (b.addRegister_extends name type kind initial).register hr, hk⟩

theorem freshRegister_extends (b : Builder) (stem : String) (type : Rtl.ValueType)
    (kind : Rtl.RegisterKind) (initial : Option Int64) :
    b.Extends (b.freshRegister stem type kind initial).2 :=
  ⟨.refl _, List.prefix_append _ _, id, .inl, id, id, le_rfl, le_rfl⟩

theorem freshRegister_sound {b : Builder} (h : b.Sound) (stem : String) (type : Rtl.ValueType)
    (kind : Rtl.RegisterKind) (initial : Option Int64) :
    (b.freshRegister stem type kind initial).2.Sound := by
  refine ⟨h.pool, fun hm => ?_, h.memberUnique, h.owner, h.accessor, h.distinct⟩
  obtain ⟨r, hr, hk⟩ := h.member hm
  exact ⟨r, (b.freshRegister_extends stem type kind initial).register hr, hk⟩

@[simp] theorem freshRegister_fst (b : Builder) (stem : String) (type : Rtl.ValueType)
    (kind : Rtl.RegisterKind) (initial : Option Int64) :
    (b.freshRegister stem type kind initial).1 = b.registers.length := rfl

theorem getElem?_freshRegister (b : Builder) (stem : String) (type : Rtl.ValueType)
    (kind : Rtl.RegisterKind) (initial : Option Int64) :
    ∃ r, (b.freshRegister stem type kind initial).2.registers[b.registers.length]? = some r ∧
      r.kind = kind ∧ r.initial = initial := by
  simp [freshRegister, addRegister]

theorem memberRegister_eq (b : Builder) (e : Entity) (width : UInt64) (initial : Int64) :
    b.memberRegister e width initial =
      match b.members.lookup e with
      | some r => (r, b)
      | none =>
        let b' := (b.freshRegister ("m_" ++ e.member) (.unsigned width) .storage (some initial)).2
        (b.registers.length, { b' with members := (e, b.registers.length) :: b.members }) := by
  unfold memberRegister
  cases b.members.lookup e <;> rfl

theorem memberRegister_extends (b : Builder) (e : Entity) (width : UInt64) (initial : Int64) :
    b.Extends (b.memberRegister e width initial).2 := by
  rw [memberRegister_eq]
  split
  · exact .refl b
  · rename_i hnone
    refine ⟨.refl _, List.prefix_append _ _, fun {e' i} hm => ?_, fun {e' i} hm => ?_, id, id,
      le_rfl, le_rfl⟩
    · have hne : e' ≠ e := by rintro rfl; simp [hm] at hnone
      simpa [lookup_cons_eq, hne] using hm
    · rw [lookup_cons_eq] at hm
      split at hm
      · exact .inr (Option.some.inj hm).le
      · exact .inl hm

theorem memberRegister_sound {b : Builder} (h : b.Sound) (e : Entity) (width : UInt64)
    (initial : Int64) : (b.memberRegister e width initial).2.Sound := by
  rw [memberRegister_eq]
  split
  · exact h
  · set b' := (b.freshRegister ("m_" ++ e.member) (.unsigned width) .storage (some initial)).2
    have hb' : b'.Sound := freshRegister_sound h _ _ _ _
    have hcases : ∀ {e' i}, List.lookup e' ((e, b.registers.length) :: b.members) = some i →
        (e' = e ∧ i = b.registers.length) ∨ b.members.lookup e' = some i := by
      intro e' i hi
      rw [lookup_cons_eq] at hi
      split at hi
      · exact .inl ⟨by assumption, (Option.some.inj hi).symm⟩
      · exact .inr hi
    refine ⟨hb'.pool, fun hm => ?_, fun {e₁ e₂ i} h₁ h₂ => ?_, hb'.owner, hb'.accessor,
      hb'.distinct⟩
    · rcases hcases hm with ⟨-, rfl⟩ | hm
      · obtain ⟨r, hr, hk, -⟩ := b.getElem?_freshRegister ("m_" ++ e.member) (.unsigned width)
          .storage (some initial)
        exact ⟨r, hr, hk⟩
      · exact hb'.member hm
    · rcases hcases h₁ with ⟨rfl, rfl⟩ | h₁'
      · rcases hcases h₂ with ⟨rfl, -⟩ | h₂'
        · rfl
        · exact absurd (h.member_lt h₂') (lt_irrefl _)
      · rcases hcases h₂ with ⟨rfl, rfl⟩ | h₂'
        · exact absurd (h.member_lt h₁') (lt_irrefl _)
        · exact h.memberUnique h₁' h₂'

theorem lookup_memberRegister (b : Builder) (e : Entity) (width : UInt64) (initial : Int64) :
    (b.memberRegister e width initial).2.members.lookup e =
      some (b.memberRegister e width initial).1 := by
  rw [memberRegister_eq]
  split
  · assumption
  · simp

theorem newState_extends (b : Builder) : b.Extends b.newState.2 :=
  ⟨.refl _, List.prefix_refl _, id, .inl, id, id, Nat.le_succ _, le_rfl⟩

theorem newInsn_extends (b : Builder) : b.Extends b.newInsn.2 :=
  ⟨.refl _, List.prefix_refl _, id, .inl, id, id, le_rfl, Nat.le_succ _⟩

theorem newState_sound {b : Builder} (h : b.Sound) : b.newState.2.Sound :=
  ⟨h.pool, h.member, h.memberUnique, h.owner, h.accessor, h.distinct⟩

theorem newInsn_sound {b : Builder} (h : b.Sound) : b.newInsn.2.Sound :=
  ⟨h.pool, h.member, h.memberUnique, h.owner, h.accessor, h.distinct⟩

section Links

variable {b : Builder} {e : Entity} {r : Rtl.ResourceRef} {links : Links Rtl.ResourceRef}

theorem addOwner_extends (h : b.links.addOwner e r = .ok links) :
    b.Extends { b with links := links } := by
  refine ⟨.refl _, List.prefix_refl _, id, .inl, fun {e' o} ho => ?_, fun {e' a} ha => ?_,
    le_rfl, le_rfl⟩
  · rw [Links.find_addOwner h]
    split
    · subst_vars
      rw [Links.owner_of_addOwner h ho]
    · exact ho
  · rw [Links.find_addOwner h]
    split
    · subst_vars
      exact ha
    · exact ha

theorem addOwner_sound (hb : b.Sound) (h : b.links.addOwner e r = .ok links)
    (hr : b.pool.Backs Pool.ownerKinds e r) : Sound { b with links := links } := by
  refine ⟨hb.pool, hb.member, hb.memberUnique, fun {e' o} ho => ?_, fun {e' a} ha => ?_,
    hb.distinct.addOwner h⟩
  · rw [Links.find_addOwner h] at ho
    split at ho
    · obtain rfl : r = o := by simpa using ho
      subst_vars
      exact hr
    · exact hb.owner ho
  · rw [Links.find_addOwner h] at ha
    split at ha
    · subst_vars
      exact hb.accessor ha
    · exact hb.accessor ha

theorem addAccessor_extends (b : Builder) (e : Entity) (r : Rtl.ResourceRef) :
    b.Extends { b with links := b.links.addAccessor e r } := by
  refine ⟨.refl _, List.prefix_refl _, id, .inl, fun {e' o} ho => ?_, fun {e' a} ha => ?_,
    le_rfl, le_rfl⟩
  · rw [Links.find_addAccessor]
    split
    · subst_vars
      exact ho
    · exact ho
  · rw [Links.find_addAccessor]
    split
    · subst_vars
      show a ∈ ite _ _ _
      split
      · exact ha
      · exact List.mem_append_left _ ha
    · exact ha

theorem mem_addAccessor (l : Links Rtl.ResourceRef) (e : Entity) (r : Rtl.ResourceRef) :
    r ∈ ((l.addAccessor e r).find e).accessors := by
  rw [Links.find_addAccessor]
  simp only [if_true]
  split
  · rename_i h
    simpa using h
  · simp

theorem addAccessor_sound (hb : b.Sound) (hr : b.pool.Backs Pool.accessorKinds e r) :
    Sound { b with links := b.links.addAccessor e r } := by
  refine ⟨hb.pool, hb.member, hb.memberUnique, fun {e' o} ho => ?_, fun {e' a} ha => ?_,
    hb.distinct.addAccessor e r⟩
  · rw [Links.find_addAccessor] at ho
    split at ho
    · subst_vars
      exact hb.owner ho
    · exact hb.owner ho
  · rw [Links.find_addAccessor] at ha
    split at ha
    · subst_vars
      replace ha : a ∈ ite _ _ _ := ha
      split at ha
      · exact hb.accessor ha
      · rcases List.mem_append.mp ha with ha | ha
        · exact hb.accessor ha
        · rw [List.mem_singleton.mp ha]
          exact hr
    · exact hb.accessor ha

end Links
end Builder
end Synth
end MachineSynth
