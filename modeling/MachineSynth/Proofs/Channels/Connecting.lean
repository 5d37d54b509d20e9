import Mathlib
import MachineSynth.Proofs.Channels.Accesses
import MachineSynth.Proofs.Storage

/-! Connecting channels: a design has one channel for each channel object that is accessed, between
the resource that writes the object and the one that reads it, unless two threads do either. -/
namespace MachineSynth

namespace Rtl

theorem Params.get?_set (key value : String) (p : Params) :
    (p.set key value).get? key = some value := by
  induction p with
  | nil => simp [set, get?]
  | cons x rest ih =>
    obtain ⟨k, v⟩ := x
    by_cases h : k = key
    · simp [set, get?, h]
    · simpa [set, get?, h, lookup_cons_eq, Ne.symm h] using ih

theorem Params.set_set (key value : String) (p : Params) :
    (p.set key value).set key value = p.set key value := by
  induction p with
  | nil => simp [set]
  | cons x rest ih =>
    obtain ⟨k, v⟩ := x
    by_cases h : k = key <;> simp [set, h, ih]

end Rtl

namespace Synth

namespace Channels

variable {d d' : Rtl.Design} {e : ChannelEnds} {ends : List (Nat × ChannelEnds)}
  {p : Rtl.ResourceRef} {number : String}

theorem foldl_updateResource (rs : List Rtl.ResourceRef) (d : Rtl.Design) :
    (rs.foldl (fun d r => d.updateResource r (·.setParam "CHANNEL" number)) d).channels =
        d.channels ∧
      (rs.foldl (fun d r => d.updateResource r (·.setParam "CHANNEL" number)) d).resource? p =
        (d.resource? p).map fun r => if p ∈ rs then r.setParam "CHANNEL" number else r := by
  induction rs generalizing d with
  | nil => simp
  | cons r rest ih =>
    obtain ⟨hchannels, hresource⟩ := ih (d.updateResource r (·.setParam "CHANNEL" number))
    refine ⟨hchannels, ?_⟩
    rw [List.foldl_cons, hresource, Rtl.Design.resource?_updateResource, Option.map_map]
    refine congrArg (Option.map · _) (funext fun x => ?_)
    by_cases hr : r = p
    · subst hr
      by_cases hrest : r ∈ rest <;> simp [hrest, Rtl.Resource.setParam, Rtl.Params.set_set]
    · have hr' : p ≠ r := fun h => hr h.symm
      simp [hr, hr']

theorem channels_connect (d : Rtl.Design) (e : ChannelEnds) : (connect d e).channels =
    d.channels ++ [⟨d.channels.length + 1, .unsigned e.width, e.writers.head?, e.readers.head?⟩] := by
  simp only [connect, Rtl.Design.addChannel]
  rw [(foldl_updateResource (p := default) _ _).1]

theorem resource?_connect (d : Rtl.Design) (e : ChannelEnds) : (connect d e).resource? p =
    (d.resource? p).map fun r =>
      if p ∈ e.writers ++ e.readers then
        r.setParam "CHANNEL" (toString (d.channels.length + 1))
      else r :=
  (foldl_updateResource _ _).2

/-- Channels are added in the order of the objects, and numbered from where the design stands. -/
theorem channels_connectAll (h : connectAll ends d = (d', none)) : d'.channels =
    d.channels ++ ends.mapIdx fun n x =>
      ⟨d.channels.length + n + 1, .unsigned x.2.width, x.2.writers.head?, x.2.readers.head?⟩ := by
  induction ends generalizing d with
  | nil =>
    cases h
    simp
  | cons x rest ih =>
    obtain ⟨object, e⟩ := x
    simp only [connectAll] at h
    split at h
    · cases h
    · rw [ih h, channels_connect, List.mapIdx_cons, List.append_assoc, List.length_append]
      simp only [List.length_singleton, List.singleton_append, add_zero, Nat.add_right_comm,
        Nat.add_assoc]

theorem resource?_connectAll_of_not_mem (h : connectAll ends d = (d', none))
    (hp : ∀ x ∈ ends, p ∉ x.2.writers ++ x.2.readers) : d'.resource? p = d.resource? p := by
  induction ends generalizing d with
  | nil =>
    cases h
    rfl
  | cons x rest ih =>
    obtain ⟨object, e⟩ := x
    simp only [connectAll] at h
    split at h
    · cases h
    · rw [ih h fun y hy => hp y (List.mem_cons_of_mem _ hy), resource?_connect]
      simp only [if_neg (hp (object, e) List.mem_cons_self), Option.map_id']

theorem number_connectAll {n : Nat} {x : Nat × ChannelEnds} {r : Rtl.Resource}
    (h : connectAll ends d = (d', none)) (hx : ends[n]? = some x)
    (hp : p ∈ x.2.writers ++ x.2.readers)
    (honly : ∀ k y, ends[k]? = some y → p ∈ y.2.writers ++ y.2.readers → k = n)
    (hr : d'.resource? p = some r) :
    r.params.get? "CHANNEL" = some (toString (d.channels.length + n + 1)) := by
  induction ends generalizing d n with
  | nil => simp at hx
  | cons y rest ih =>
    obtain ⟨object, e⟩ := y
    simp only [connectAll] at h
    split at h
    · cases h
    · cases n with
      | zero =>
        cases Option.some.inj hx
        have hrest : ∀ z ∈ rest, p ∉ z.2.writers ++ z.2.readers := by
          intro z hz hmem
          obtain ⟨k, hk⟩ := List.mem_iff_getElem?.mp hz
          exact absurd (honly (k + 1) z hk hmem) (Nat.succ_ne_zero k)
        rw [resource?_connectAll_of_not_mem h hrest, resource?_connect] at hr
        obtain ⟨r₀, -, rfl⟩ := Option.map_eq_some_iff.mp hr
        rw [if_pos hp]
        exact Rtl.Params.get?_set _ _ _
      | succ n =>
        have hnumber := ih h hx fun k z hk hmem => Nat.succ.inj (honly (k + 1) z hk hmem)
        rw [hnumber, channels_connect, List.length_append, List.length_singleton]
        congr 2
        omega

end Channels

theorem Builder.setChannels_extends (b : Builder) (channels : Channels) :
    b.Extends { b with channels := channels } :=
  ⟨.refl _, List.prefix_refl _, id, .inl, id, id, le_rfl, le_rfl⟩

section Accesses

variable {m : Machine} {owners : OwnershipTable} {limit : Nat} {thread : ThreadId} {t : ThreadPlan}
  {table : ThreadTable} {c : Nat × Bool}

open Lowering (Emits)

theorem Lower.instruction_channel {s : Site} {l l' : Lowering} {i : Insn} (hl : l.Sound)
    (hc : l.walker.carried? s.machine i = some c)
    (h : (Lower.instruction s i).run l = .ok ((), l')) :
    ∃ unit, Emits unit l l' ∧ l'.builder.pool.keys.lookup (channelKey c.1 c.2) = some unit := by
  have haccess : ∀ {channel r : RegisterId} {write : Bool},
      (l.walker.channel? s.machine channel).map (·, write) = some c →
      (Lower.channelAccess s channel r write).run l = .ok ((), l') →
      ∃ unit, Emits unit l l' ∧ l'.builder.pool.keys.lookup (channelKey c.1 c.2) = some unit := by
    intro channel r write hc h
    obtain ⟨id, o, unit, l₁, own, l₂, inputs, outputs, l₃, hid, ho, hchannel, hunit, hown, hemit,
      rfl⟩ := Lower.channelAccess_parts h
    obtain rfl : (id, write) = c := by
      simpa [Walker.channel?, hid, ho, hchannel, Option.filter] using hc
    obtain ⟨q₁, -⟩ := Lower.resource_quiet (u := .all) hl (Pool.channel_takes id write o.width) hunit
    have q₂ : Lowering.Quiet .all l₁ l₂ := Lower.register_quiet q₁.sound hown
    have hemits := (q₁.trans q₂).emits (Lower.emit_emits hemit)
    have hkey : l₁.builder.pool.keys.lookup (channelKey id write) = some unit := by
      cases Lower.run_build_eq_ok.mp hunit
      exact Pool.lookup_request _ _ _
    have hbuilder := q₂.builder.trans (Lower.emit_emits hemit).builder
    exact ⟨unit, ⟨hemits.builder.trans (Builder.setChannels_extends _ _), hemits.state⟩,
      hbuilder.pool.key hkey⟩
  cases i with
  | channelRead target object => exact haccess hc h
  | channelWrite object source => exact haccess hc h
  | _ => cases hc

namespace ThreadTable

theorem build_conveys (hpool : t.pool.Sound) (h : build m owners limit thread t = .ok table)
    {w : Walker} {i : Insn} {st : LoweredState} (hi : table.Lowers m w i st)
    (hc : w.carried? m i = some c) : ∃ unit, st.DoneBy table.resources unit ∧
      table.builder.pool.keys.lookup (channelKey c.1 c.2) = some unit := by
  obtain ⟨name, x, a, a', -, ha, rfl, hrun, hext, hdone⟩ := build_at hpool h hi
  obtain ⟨unit, hemits, hkey⟩ := Lower.instruction_channel ha hc hrun
  exact ⟨unit, hdone unit hemits, hext.pool.key hkey⟩

theorem build_channelAccesses (hpool : t.pool.Sound)
    (h : build m owners limit thread t = .ok table) : c ∈ table.channelAccesses m ↔
      ∃ w i st, table.Lowers m w i st ∧ w.carried? m i = some c := by
  obtain ⟨b, entry, x, hlower, -, -, -, htable⟩ := build_spec hpool h
  have hplan : table.plan = t := by rw [htable]
  simp only [channelAccesses, List.mem_flatMap, Walker.mem_carries]
  constructor
  · rintro ⟨⟨name, x⟩, hx, k, i, w, hi, hw, hc⟩
    obtain ⟨-, -, -, hall⟩ := lowerAll_spec (Builder.sound_ofPool hpool) hlower
    obtain ⟨-, b₁, b₂, hb₁, -, hlowered, -⟩ := hall name x hx
    obtain ⟨-, -, hobject, -⟩ := Site.lower_spec hb₁ hlowered
    obtain ⟨st, hst⟩ := lowers_of_code hpool hlower hx hi (hobject ▸ hw)
    exact ⟨w, i, st, ⟨name, x, k, hx, hi, hw, hplan ▸ hst⟩, hc⟩
  · rintro ⟨w, i, st, ⟨name, x, k, hx, hi, hw, -⟩, hc⟩
    exact ⟨(name, x), hx, k, i, w, hi, hw, hc⟩

/-- Whether a table has collected the channel accesses of its methods, with one resource for each
object and direction and no others for channels. -/
structure Collects (m : Machine) (w : ThreadTable) (uses : List ChannelUse) : Prop where
  accesses : uses.map (·.access) = w.channelAccesses m
  channels : w.builder.channels = .ofUses m uses
  key : ∀ u ∈ uses, w.builder.pool.keys.lookup (channelKey u.object u.write) =
    some u.resource.resource
  place : ∀ u ∈ uses, u.resource.owner = w.plan.place
  used : ∀ {i : Nat} {r : Rtl.Resource}, w.resources[i]? = some r → Pool.IsChannel r.kind →
    ∃ u ∈ uses, u.resource.resource = i

end ThreadTable

end Accesses

namespace Synthesis

variable {m : Machine} {root : Nat} {plan : Plan} {tables : List ThreadTable}
  {owners : OwnershipTable} {limit : Nat} {built : List ThreadTable}
  {ps : List (Rtl.ResourceRef × Rtl.ResourceRef)} {w : ThreadTable}

theorem Wired.toBuilt (h : Wired m root plan tables owners limit built ps) :
    Built m root plan owners limit built := ⟨h.plans, h.settles, h.builds⟩

theorem Wired.collects (h : Wired m root plan tables owners limit built ps) (hw : w ∈ tables) :
    ∃ uses, w.Collects m uses := by
  obtain ⟨k, hk⟩ := List.mem_iff_getElem?.mp hw
  obtain ⟨b, w', hb, hw', hbuild, hplan, hplan', hgrows, hwire⟩ := h.thread (h.table hk)
  cases Option.some.inj (hk.symm.trans hw')
  have hpool := (Plan.ofRoot_housed h.plans).pool _ (List.mem_of_getElem? (h.table hk))
  obtain ⟨uses, haccesses, htunes⟩ := ThreadTable.build_tuned hpool hbuild
  have hcontexts : w.contexts = b.contexts := hgrows.contexts
  have hkeys : w.builder.pool.keys = b.builder.pool.keys := hgrows.keys
  refine ⟨uses, ?_, hgrows.channels.trans htunes.channels, fun u hu => ?_, fun u hu => ?_,
    fun {i r} hr hkind => ?_⟩
  · rw [haccesses, ThreadTable.channelAccesses, ThreadTable.channelAccesses, hcontexts]
  · rw [hkeys]
    exact htunes.key u hu
  · rw [htunes.place u hu, (h.toBuilt.sound hb).2, hplan]
  · -- what wiring adds makes calls, and linking keeps kinds
    rcases ThreadTable.wire_adds hwire i r hr with hlinked | hcall
    · obtain ⟨r₀, hr₀, rfl⟩ := getElem?_linked hlinked
      exact htunes.used hr₀ hkind
    · rcases hkind with hkind | hkind <;> rw [hkind] at hcall <;> exact absurd hcall (by decide)

def channelUses (tables : List ThreadTable) : List ChannelUse :=
  tables.flatMap (·.builder.channels.listed)

/-- The channel objects that lowered methods access, in the order of first access. -/
def channelObjects (m : Machine) (tables : List ThreadTable) : List Nat :=
  ((tables.flatMap (·.channelAccesses m)).map (·.1)).eraseDups

namespace Wired

theorem mem_channelUses (h : Wired m root plan tables owners limit built ps) {u : ChannelUse} :
    u ∈ channelUses tables ↔ ∃ w ∈ tables, ∃ uses, w.Collects m uses ∧ u ∈ uses := by
  simp only [channelUses, List.mem_flatMap]
  constructor
  · rintro ⟨w, hw, hu⟩
    obtain ⟨uses, hcollects⟩ := h.collects hw
    rw [hcollects.channels, Channels.mem_listed_ofUses] at hu
    exact ⟨w, hw, uses, hcollects, hu⟩
  · rintro ⟨w, hw, uses, hcollects, hu⟩
    exact ⟨w, hw, by rwa [hcollects.channels, Channels.mem_listed_ofUses]⟩

theorem allChannels_eq (h : Wired m root plan tables owners limit built ps) :
    allChannels tables = .ofUses m (channelUses tables) :=
  Synthesis.allChannels_eq fun _ hw =>
    let ⟨uses, hcollects⟩ := h.collects hw
    ⟨uses, hcollects.channels⟩

theorem channelObjects_eq (h : Wired m root plan tables owners limit built ps) :
    ((channelUses tables).map (·.object)).eraseDups = channelObjects m tables := by
  rw [channelUses, channelObjects, List.map_flatMap, List.map_flatMap]
  refine eraseDups_flatMap_congr fun w hw => ?_
  obtain ⟨uses, hcollects⟩ := h.collects hw
  rw [hcollects.channels, Channels.eraseDups_listed_ofUses, ← hcollects.accesses, List.map_map]
  rfl

theorem eq_of_place (h : Wired m root plan tables owners limit built ps) {j k : Nat}
    {a b : ThreadTable} (ha : tables[j]? = some a) (hb : tables[k]? = some b)
    (hplace : a.plan.place = b.plan.place) : j = k :=
  h.ranked.injective (r := a.plan.place) (by simp [ha]) (by simp [hb, hplace])

theorem access_unique (h : Wired m root plan tables owners limit built ps) {u u' : ChannelUse}
    (hu : u ∈ channelUses tables) (hu' : u' ∈ channelUses tables)
    (hresource : u.resource = u'.resource) : u.access = u'.access := by
  obtain ⟨w, hw, uses, hcollects, hu⟩ := h.mem_channelUses.mp hu
  obtain ⟨w', hw', uses', hcollects', hu'⟩ := h.mem_channelUses.mp hu'
  obtain ⟨j, hj⟩ := List.mem_iff_getElem?.mp hw
  obtain ⟨k, hk⟩ := List.mem_iff_getElem?.mp hw'
  have hplace : w.plan.place = w'.plan.place := by
    rw [← hcollects.place u hu, ← hcollects'.place u' hu', hresource]
  obtain rfl := h.eq_of_place hj hk hplace
  cases Option.some.inj (hj.symm.trans hk)
  obtain ⟨b, w', hb, hw', -, -, -, hgrows, -⟩ := h.thread (h.table hj)
  cases Option.some.inj (hj.symm.trans hw')
  have hkeys : w.builder.pool.keys = b.builder.pool.keys := hgrows.keys
  have hkey := hcollects.key u hu
  have hkey' := hcollects'.key u' hu'
  rw [hkeys] at hkey hkey'
  rw [hresource] at hkey
  obtain ⟨hobject, hwrite⟩ := channelKey_inj ((h.toBuilt.sound hb).1.pool.unique hkey hkey')
  exact Prod.ext hobject hwrite

theorem agree_iff (h : Wired m root plan tables owners limit built ps) :
    Channels.Agree (channelUses tables) ↔
      ∀ (j k : Nat) (a b : ThreadTable) (c : Nat × Bool), tables[j]? = some a → tables[k]? = some b →
        c ∈ a.channelAccesses m → c ∈ b.channelAccesses m → j = k := by
  constructor
  · intro hagree j k a b c ha hb hac hbc
    obtain ⟨uses, hcollects⟩ := h.collects (List.mem_of_getElem? ha)
    obtain ⟨uses', hcollects'⟩ := h.collects (List.mem_of_getElem? hb)
    rw [← hcollects.accesses] at hac
    rw [← hcollects'.accesses] at hbc
    obtain ⟨u, hu, rfl⟩ := List.mem_map.mp hac
    obtain ⟨u', hu', hsame⟩ := List.mem_map.mp hbc
    have hmem := h.mem_channelUses.mpr ⟨a, List.mem_of_getElem? ha, uses, hcollects, hu⟩
    have hmem' := h.mem_channelUses.mpr ⟨b, List.mem_of_getElem? hb, uses', hcollects', hu'⟩
    simp only [ChannelUse.access, Prod.mk.injEq] at hsame
    have hresource := hagree u hmem u' hmem' hsame.1.symm hsame.2.symm
    refine h.eq_of_place ha hb ?_
    rw [← hcollects.place u hu, ← hcollects'.place u' hu', hresource]
  · intro hthreads u hu u' hu' hobject hwrite
    obtain ⟨a, ha, uses, hcollects, hu⟩ := h.mem_channelUses.mp hu
    obtain ⟨b, hb, uses', hcollects', hu'⟩ := h.mem_channelUses.mp hu'
    obtain ⟨j, hj⟩ := List.mem_iff_getElem?.mp ha
    obtain ⟨k, hk⟩ := List.mem_iff_getElem?.mp hb
    have hac : u.access ∈ a.channelAccesses m := hcollects.accesses ▸ List.mem_map_of_mem hu
    have hbc : u'.access ∈ b.channelAccesses m := hcollects'.accesses ▸ List.mem_map_of_mem hu'
    have hsame : u.access = u'.access := Prod.ext hobject hwrite
    obtain rfl := hthreads j k a b u.access hj hk hac (hsame ▸ hbc)
    cases Option.some.inj (hj.symm.trans hk)
    have hkey := hcollects.key u hu
    rw [hobject, hwrite, hcollects'.key u' hu'] at hkey
    have howner : u.resource.owner = u'.resource.owner :=
      (hcollects.place u hu).trans (hcollects'.place u' hu').symm
    have heq : (⟨u.resource.owner, u.resource.resource⟩ : Rtl.ResourceRef) =
        ⟨u'.resource.owner, u'.resource.resource⟩ := by
      rw [howner, Option.some.inj hkey]
    exact heq

theorem mem_channelAccesses (h : Wired m root plan tables owners limit built ps) (hw : w ∈ tables)
    {c : Nat × Bool} : c ∈ w.channelAccesses m ↔
      ∃ v i st, w.Lowers m v i st ∧ v.carried? m i = some c := by
  obtain ⟨k, hk⟩ := List.mem_iff_getElem?.mp hw
  obtain ⟨b, w', hb, hw', hbuild, hplan, -, hgrows, -⟩ := h.thread (h.table hk)
  cases Option.some.inj (hk.symm.trans hw')
  have hcontexts : w.contexts = b.contexts := hgrows.contexts
  have haccesses : w.channelAccesses m = b.channelAccesses m := by
    rw [ThreadTable.channelAccesses, ThreadTable.channelAccesses, hcontexts]
  have hlowers : ∀ v i st, w.Lowers m v i st ↔ b.Lowers m v i st := fun v i st => hgrows.lowers
  simp only [haccesses, hlowers]
  exact ThreadTable.build_channelAccesses (h.toBuilt.sound_plan hb).pool (h.toBuilt.thread hb).2

end Wired

/-- Whether a resource of a design is the one that writes, or reads, a channel object: it is an end
of a channel, and does the work of an access to the object. -/
def Conveys (m : Machine) (s : Synthesis) (id : Nat) (write : Bool) (r : Rtl.ResourceRef) : Prop :=
  ∃ w ∈ s.tables, ∃ v i st k x, w.Lowers m v i st ∧ v.carried? m i = some (id, write) ∧
    st.DoneBy w.resources k ∧ r = ⟨w.plan.place, k⟩ ∧ s.design.resource? r = some x ∧
    x.kind = channelKind write

/-- Whether a channel of a design is that of a channel object: as wide, and between the resources
that write and read the object, as far as there are any. -/
structure Joins (m : Machine) (s : Synthesis) (id : Nat) (c : Rtl.Channel) : Prop where
  type : ∃ o, m.object? id = some o ∧ o.isChannel = true ∧ c.type = .unsigned o.width
  writer : ∀ r, c.writer = some r ↔ Conveys m s id true r
  reader : ∀ r, c.reader = some r ↔ Conveys m s id false r

/-- Whether the channels of a design are those of the channel objects that are accessed. -/
structure Connected (m : Machine) (s : Synthesis) : Prop where
  length : s.design.channels.length = (channelObjects m s.tables).length
  joins : ∀ {n : Nat} {id : Nat}, (channelObjects m s.tables)[n]? = some id →
    ∃ c, s.design.channels[n]? = some c ∧ c.id = n + 1 ∧ Joins m s id c
  conveyed : ∀ {w : ThreadTable} {v : Walker} {i : Insn} {st : LoweredState} {id : Nat} {write : Bool},
    w ∈ s.tables → w.Lowers m v i st → v.carried? m i = some (id, write) →
    ∃ k, st.DoneBy w.resources k ∧ Conveys m s id write ⟨w.plan.place, k⟩
  numbered : ∀ {w : ThreadTable} {k : Nat} {x : Rtl.Resource}, w ∈ s.tables →
    s.design.resource? ⟨w.plan.place, k⟩ = some x → Pool.IsChannel x.kind →
    ∃ c ∈ s.design.channels, x.params.get? "CHANNEL" = some (toString c.id) ∧
      if x.kind = channelWriteKind then c.writer = some ⟨w.plan.place, k⟩
      else c.reader = some ⟨w.plan.place, k⟩

namespace Staged

variable {s : Synthesis} {id : Nat} {write : Bool} {r : Rtl.ResourceRef}

theorem conveyed (h : Staged m root s owners limit built ps) (hw : w ∈ s.tables) {v : Walker}
    {i : Insn} {st : LoweredState} (hi : w.Lowers m v i st)
    (hc : v.carried? m i = some (id, write)) :
    ∃ k, st.DoneBy w.resources k ∧ w.builder.pool.keys.lookup (channelKey id write) = some k ∧
      Conveys m s id write ⟨w.plan.place, k⟩ := by
  obtain ⟨n, hn⟩ := List.mem_iff_getElem?.mp hw
  obtain ⟨b, hb, horigin⟩ := h.origin hn
  obtain ⟨k, hdone, hkey⟩ := ThreadTable.build_conveys (h.toBuilt.sound_plan hb).pool
    (h.toBuilt.thread hb).2 (horigin.grows.lowers.mp hi) hc
  obtain ⟨x, hx, hkind, -⟩ := Origin.resource? h hn horigin (horigin.sound.pool.kind hkey)
  have hkeys : w.builder.pool.keys = b.builder.pool.keys := horigin.grows.keys
  exact ⟨k, horigin.doneBy hdone, hkeys ▸ hkey,
    w, hw, v, i, st, k, x, hi, hc, horigin.doneBy hdone, rfl, hx, hkind⟩

/-- The uses of channels tell which resources write and read them. -/
theorem conveys_iff (h : Staged m root s owners limit built ps) :
    Conveys m s id write r ↔ ⟨id, write, r⟩ ∈ channelUses s.tables := by
  rw [h.toWired.mem_channelUses]
  constructor
  · rintro ⟨w, hw, v, i, st, k, x, hi, hc, hdone, rfl, -, -⟩
    obtain ⟨k', hdone', hkey, -⟩ := h.conveyed hw hi hc
    obtain rfl := hdone.unique hdone'
    obtain ⟨uses, hcollects⟩ := h.toWired.collects hw
    refine ⟨w, hw, uses, hcollects, ?_⟩
    have hmem := (h.toWired.mem_channelAccesses hw).mpr ⟨v, i, st, hi, hc⟩
    rw [← hcollects.accesses] at hmem
    obtain ⟨⟨id', write', ⟨place, k'⟩⟩, hu, haccess⟩ := List.mem_map.mp hmem
    cases haccess
    cases hcollects.place _ hu
    cases Option.some.inj (hkey.symm.trans (hcollects.key _ hu))
    exact hu
  · rintro ⟨w, hw, uses, hcollects, hu⟩
    have hmem : (id, write) ∈ w.channelAccesses m :=
      hcollects.accesses ▸ List.mem_map_of_mem hu
    obtain ⟨v, i, st, hi, hc⟩ := (h.toWired.mem_channelAccesses hw).mp hmem
    obtain ⟨k, -, hkey, hconveys⟩ := h.conveyed hw hi hc
    obtain ⟨place, k'⟩ := r
    cases hcollects.place _ hu
    cases Option.some.inj (hkey.symm.trans (hcollects.key _ hu))
    exact hconveys

theorem isChannel_of_mem (h : Staged m root s owners limit built ps)
    (hid : id ∈ channelObjects m s.tables) : ∃ o, m.object? id = some o ∧ o.isChannel = true := by
  rw [channelObjects, List.mem_eraseDups, List.mem_map] at hid
  obtain ⟨⟨id', write⟩, hmem, rfl⟩ := hid
  obtain ⟨w, hw, hmem⟩ := List.mem_flatMap.mp hmem
  obtain ⟨v, i, st, -, hc⟩ := (h.toWired.mem_channelAccesses hw).mp hmem
  have hchannel : ∀ {r : RegisterId} {write' : Bool},
      (v.channel? m r).map (·, write') = some (id', write) →
      ∃ o, m.object? id' = some o ∧ o.isChannel = true := by
    intro r write' hc
    obtain ⟨id, hid, heq⟩ := Option.map_eq_some_iff.mp hc
    cases heq
    obtain ⟨-, hany⟩ := Option.filter_eq_some_iff.mp hid
    exact Option.any_eq_true _ _ |>.mp hany
  cases i with
  | channelRead target object => exact hchannel hc
  | channelWrite object source => exact hchannel hc
  | _ => cases hc

theorem agree (h : Staged m root s owners limit built ps) :
    Channels.Agree (channelUses s.tables) := by
  have hnone := congrArg Prod.snd h.connects
  rwa [h.toWired.allChannels_eq, Channels.resolve_eq_none] at hnone

theorem head?_users_iff (h : Staged m root s owners limit built ps) :
    (Channels.users (channelUses s.tables) id write).head? = some r ↔ Conveys m s id write r := by
  have hle : (Channels.users (channelUses s.tables) id write).length ≤ 1 := by
    refine Channels.length_users_le_one.mpr fun u hu u' hu' ho hw ho' hw' => ?_
    exact h.agree u hu u' hu' (ho.trans ho'.symm) (hw.trans hw'.symm)
  rw [h.conveys_iff, ← Channels.mem_users]
  constructor
  · exact List.mem_of_head?
  · intro hr
    obtain ⟨x, hx⟩ := List.length_eq_one_iff.mp (le_antisymm hle (List.length_pos_of_mem hr))
    rw [hx, List.mem_singleton] at hr
    rw [hx, hr]
    rfl

theorem connectAll_eq (h : Staged m root s owners limit built ps) :
    Channels.connectAll ((channelObjects m s.tables).map fun id =>
      (id, Channels.endsOf m (channelUses s.tables) id)) (assemble m s.plan s.tables) =
        (s.design, none) := by
  rw [← h.toWired.channelObjects_eq, ← Channels.ends_ofUses, ← h.toWired.allChannels_eq]
  exact h.connects

/-- The channels of a design stand in the order in which their objects are accessed first. -/
theorem channels_eq (h : Staged m root s owners limit built ps) : s.design.channels =
    (channelObjects m s.tables).mapIdx fun n id => ⟨n + 1, .unsigned (m.width id),
      (Channels.users (channelUses s.tables) id true).head?,
      (Channels.users (channelUses s.tables) id false).head?⟩ := by
  have hnone : (assemble m s.plan s.tables).channels = [] := rfl
  rw [Channels.channels_connectAll h.connectAll_eq, hnone, List.nil_append]
  refine List.ext_getElem? fun n => ?_
  simp only [List.getElem?_mapIdx, List.getElem?_map, Option.map_map]
  refine congrArg (Option.map · _) (funext fun id => ?_)
  simp [Channels.endsOf]

theorem number_of_mem (h : Staged m root s owners limit built ps) {u : ChannelUse}
    (hu : u ∈ channelUses s.tables) {n : Nat}
    (hn : (channelObjects m s.tables)[n]? = some u.object) {x : Rtl.Resource}
    (hx : s.design.resource? u.resource = some x) :
    x.params.get? "CHANNEL" = some (toString (n + 1)) := by
  have hends : ∀ {id}, u.resource ∈ (Channels.endsOf m (channelUses s.tables) id).writers ++
      (Channels.endsOf m (channelUses s.tables) id).readers ↔
      ∃ write, ⟨id, write, u.resource⟩ ∈ channelUses s.tables := by
    intro id
    rw [List.mem_append, Channels.endsOf, Channels.mem_users, Channels.mem_users, Bool.exists_bool,
      or_comm]
  have hnumber := Channels.number_connectAll (n := n)
    (x := (u.object, Channels.endsOf m (channelUses s.tables) u.object)) h.connectAll_eq
    (by simp [hn]) (hends.mpr ⟨u.write, hu⟩) (fun k y hk hmem => ?_) hx
  · have hnone : (assemble m s.plan s.tables).channels = [] := rfl
    simpa [hnone] using hnumber
  · rw [List.getElem?_map, Option.map_eq_some_iff] at hk
    obtain ⟨id, hid, rfl⟩ := hk
    obtain ⟨write, hu'⟩ := hends.mp hmem
    have hsame : id = u.object := congrArg Prod.fst (h.toWired.access_unique hu' hu rfl)
    have hlt := (List.getElem?_eq_some_iff.mp hid).1
    exact (List.getElem?_inj hlt (nodup_eraseDups _)).mp (by rw [hid, hn, hsame])

theorem connected (h : Staged m root s owners limit built ps) : Connected m s where
  length := by rw [h.channels_eq, List.length_mapIdx]
  joins {n id} hn := by
    obtain ⟨o, ho, hchannel⟩ := h.isChannel_of_mem (List.mem_of_getElem? hn)
    have hwidth : m.width id = o.width := by simp [Machine.width, ho]
    refine ⟨_, by rw [h.channels_eq, List.getElem?_mapIdx, hn, Option.map_some], rfl,
      ⟨o, ho, hchannel, by rw [hwidth]⟩, fun r => h.head?_users_iff, fun r => h.head?_users_iff⟩
  conveyed hw hi hc := by
    obtain ⟨k, hdone, -, hconveys⟩ := h.conveyed hw hi hc
    exact ⟨k, hdone, hconveys⟩
  numbered {w k x} hw hx hkind := by
    have hsame := h.resource?_iff (k := k) hw
    rw [hx, Option.map_some] at hsame
    obtain ⟨x₀, hx₀, hunnumbered⟩ := Option.map_eq_some_iff.mp hsame.symm
    have hkind₀ : x.kind = x₀.kind := (Rtl.Resource.eq_of_unnumbered hunnumbered).1.symm
    obtain ⟨uses, hcollects⟩ := h.toWired.collects hw
    obtain ⟨u, hu, rfl⟩ := hcollects.used hx₀ (hkind₀ ▸ hkind)
    rw [← hcollects.place u hu] at hx ⊢
    have hmem := h.toWired.mem_channelUses.mpr ⟨w, hw, uses, hcollects, hu⟩
    have hconveys := h.conveys_iff.mpr hmem
    have hobject : u.object ∈ channelObjects m s.tables := by
      rw [← h.toWired.channelObjects_eq, List.mem_eraseDups]
      exact List.mem_map_of_mem hmem
    obtain ⟨n, hn⟩ := List.mem_iff_getElem?.mp hobject
    refine ⟨_, List.mem_of_getElem? (i := n)
      (by rw [h.channels_eq, List.getElem?_mapIdx, hn, Option.map_some]),
      h.number_of_mem hmem hn hx, ?_⟩
    have hhead : (Channels.users (channelUses s.tables) u.object u.write).head? =
        some u.resource := h.head?_users_iff.mpr hconveys
    obtain ⟨-, -, -, -, -, -, x', -, -, -, -, hx', hkind'⟩ := hconveys
    cases Option.some.inj (hx.symm.trans hx')
    rw [hkind']
    cases hwrite : u.write with
    | true =>
      rw [hwrite] at hhead
      exact hhead
    | false =>
      rw [hwrite] at hhead
      exact hhead

end Staged

/-- Once all tables are wired, their channels can be connected if and only if no channel object is
written by two threads and none is read by two. There is then one channel for each object that is
accessed, and none besides. -/
theorem channels_connected {m : Machine} {root depth : Nat} {plan : Plan}
    {tables : List ThreadTable} (h : wired m root depth = .ok (plan, tables)) :
    ((∃ s, synthesize m root depth = .ok s) ↔
      ∀ (j k : Nat) (a b : ThreadTable) (c : Nat × Bool), tables[j]? = some a → tables[k]? = some b →
        c ∈ a.channelAccesses m → c ∈ b.channelAccesses m → j = k) ∧
    ∀ s, synthesize m root depth = .ok s → s.plan = plan ∧ s.tables = tables ∧ Connected m s := by
  obtain ⟨owners, limit, built, ps, hwired⟩ := wired_of_ok h
  have hsame : ∀ s, synthesize m root depth = .ok s → s.plan = plan ∧ s.tables = tables := by
    intro s hs
    cases h.symm.trans (synthesize_eq_ok.mp hs).1
    exact ⟨rfl, rfl⟩
  refine ⟨?_, fun s hs => ⟨(hsame s hs).1, (hsame s hs).2, ?_⟩⟩
  · rw [← hwired.agree_iff]
    constructor
    · rintro ⟨s, hs⟩
      obtain ⟨-, rfl⟩ := hsame s hs
      obtain ⟨_, _, _, _, hstaged⟩ := staged_of_ok hs
      exact hstaged.agree
    · intro hagree
      have hnone : ((allChannels tables).resolve (assemble m plan tables)).2 = none := by
        rwa [hwired.allChannels_eq, Channels.resolve_eq_none]
      exact ⟨⟨plan, tables, ((allChannels tables).resolve (assemble m plan tables)).1⟩,
        synthesize_eq_ok.mpr ⟨h, Prod.ext rfl hnone⟩⟩
  · obtain ⟨_, _, _, _, hstaged⟩ := staged_of_ok hs
    exact hstaged.connected

/-- A machine whose main thread writes a channel that another thread reads, or writes as well. -/
def pipe (write : Bool) : Machine :=
  let method (name : String) (access : Insn) : Slot :=
    ⟨name, .method ⟨name, [], [], [⟨"v", .num, 8, false, 0⟩, ⟨"c", .object, 0, false, 0⟩],
      [.loadObject 1 RegisterId.unused "ch", access, .goto 0], "", "", "", .none⟩⟩
  ⟨[⟨"top", .plain, 0, 0, false, false, [⟨"other", "f"⟩],
      [⟨"ch", .object 1⟩, method "main" (.channelWrite 1 0),
        method "f" (if write then .channelWrite 1 0 else .channelRead 0 1)]⟩,
    Object.channel "ch" 8]⟩

theorem pipe_connected : (∃ s, synthesize (pipe false) 0 0 = .ok s ∧ Connected (pipe false) s ∧
      channelObjects (pipe false) s.tables = [1]) ∧
    (∃ plan tables, wired (pipe true) 0 0 = .ok (plan, tables)) ∧
      ¬ ∃ s, synthesize (pipe true) 0 0 = .ok s := by
  constructor
  · have h : (synthesize (pipe false) 0 0).toOption.any (fun s => decide
        (channelObjects (pipe false) s.tables = [1])) = true := by decide +kernel
    obtain ⟨s, hs, hobjects⟩ := exists_ok_of_any h
    have hconnected := (channels_connected (synthesize_eq_ok.mp hs).1).2 s hs
    exact ⟨s, hs, hconnected.2.2, of_decide_eq_true hobjects⟩
  · have h : (wired (pipe true) 0 0).toOption.any (fun x => (x.2[0]?).any fun a =>
        (x.2[1]?).any fun b => decide ((1, true) ∈ a.channelAccesses (pipe true) ∧
          (1, true) ∈ b.channelAccesses (pipe true))) = true := by decide +kernel
    obtain ⟨⟨plan, tables⟩, hwired, h⟩ := exists_ok_of_any h
    obtain ⟨a, ha, h⟩ := (Option.any_eq_true _ _).mp h
    obtain ⟨b, hb, h⟩ := (Option.any_eq_true _ _).mp h
    obtain ⟨hac, hbc⟩ := of_decide_eq_true h
    refine ⟨⟨plan, tables, hwired⟩, fun hs => ?_⟩
    have hthreads := (channels_connected hwired).1.mp hs 0 1 a b (1, true)
    exact absurd (hthreads ha hb hac hbc) (by decide)

end Synthesis

end Synth
end MachineSynth