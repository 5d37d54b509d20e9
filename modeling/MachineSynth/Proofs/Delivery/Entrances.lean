import Mathlib
import MachineSynth.Proofs.Journal.Storage
import MachineSynth.Proofs.Lowering.Stability
import MachineSynth.Proofs.Tables.Provenance

/-! Entrances: the resources at which other tables reach a table. A table has one of each kind that
it needs to be reached, if its entry has code of its own; if not, it has none. -/
namespace MachineSynth

/-- Whether a method is run by code of its own, and is no call of an external module and no port. -/
def Method.Compiled (f : Method) : Prop :=
  f.isNative = false ∧ f.isImported = false ∧ f.marks.isPort = false

instance (f : Method) : Decidable f.Compiled := inferInstanceAs (Decidable (_ ∧ _))

namespace Rtl

theorem positionsOfKind_eq_singleton {resources : List Resource} {kind : String} {i : Nat}
    (h : ∀ j, kindAt resources j = some kind ↔ j = i) : positionsOfKind resources kind = [i] := by
  have hmem : ∀ j, j ∈ positionsOfKind resources kind ↔ j = i := by
    intro j
    rw [← h j, positionsOfKind, List.mem_filter, List.mem_range, kindAt]
    cases hj : resources[j]? with
    | none => simp
    | some r => simp [(List.getElem?_eq_some_iff.mp hj).1]
  have hnodup : (positionsOfKind resources kind).Nodup := List.nodup_range.filter _
  exact List.perm_singleton.mp ((List.perm_ext_iff_of_nodup hnodup (List.nodup_singleton i)).mpr
    fun j => by rw [hmem, List.mem_singleton])

theorem positionsOfKind_eq_nil {resources : List Resource} {kind : String}
    (h : ∀ j, kindAt resources j ≠ some kind) : positionsOfKind resources kind = [] := by
  refine List.filter_eq_nil_iff.mpr fun j _ hj => h j ?_
  obtain ⟨r, hr, hkind⟩ := (Option.any_eq_true _ _).mp hj
  simp [kindAt, hr, of_decide_eq_true hkind]

theorem firstOfKind?_eq_head? (resources : List Resource) (kind : String) :
    firstOfKind? resources kind = (positionsOfKind resources kind).head? := by
  rw [positionsOfKind, List.head?_filter, firstOfKind?]
  cases h : resources.findIdx? (·.kind = kind) with
  | none =>
    refine (List.find?_eq_none.mpr fun i hi => ?_).symm
    have hlt := List.mem_range.mp hi
    simpa [List.getElem?_eq_getElem hlt] using List.findIdx?_eq_none_iff.mp h _ (List.getElem_mem hlt)
  | some i =>
    obtain ⟨hlt, hkind, hfirst⟩ := List.findIdx?_eq_some_iff_getElem.mp h
    refine (List.find?_range_eq_some.mpr ⟨?_, List.mem_range.mpr hlt, fun j hj => ?_⟩).symm
    · simpa [List.getElem?_eq_getElem hlt] using hkind
    · simpa [List.getElem?_eq_getElem (hj.trans hlt)] using hfirst j hj

theorem positionsOfKind_of_adds {a b : List Resource} (hgrows : a <+: b) {kinds : List String}
    (hadds : Adds kinds a b) {kind : String} (hkind : kind ∉ kinds) :
    positionsOfKind b kind = positionsOfKind a kind := by
  obtain ⟨new, rfl⟩ := hgrows
  have hnew : (List.map (a.length + ·) (List.range new.length)).filter
      (fun i => ((a ++ new)[i]?).any (·.kind = kind)) = [] := by
    refine List.filter_eq_nil_iff.mpr fun i hi hany => ?_
    obtain ⟨j, -, rfl⟩ := List.mem_map.mp hi
    obtain ⟨r, hr, heq⟩ := (Option.any_eq_true _ _).mp hany
    obtain rfl : r.kind = kind := of_decide_eq_true heq
    rcases hadds _ r hr with hold | hmem
    · exact absurd (List.getElem?_eq_some_iff.mp hold).1 (by omega)
    · exact hkind hmem
  rw [positionsOfKind, List.length_append, List.range_add, List.filter_append, hnew,
    List.append_nil, positionsOfKind]
  refine List.filter_congr fun i hi => ?_
  rw [List.getElem?_append_left (List.mem_range.mp hi)]

end Rtl

namespace Synth

open Rtl (kindAt)
open Builder (Act)

namespace Pool

/-- The kinds of the resources at which a table is reached: where it is started, where it hands its
results back, and where it is told of data-flow calls. -/
def entranceKinds : List String := [Rtl.taskKind, Rtl.taskReturnKind, Rtl.dataFlowKind]

def soleKey (kind : String) : ResourceKey := ⟨kind, "", 0, .truth⟩

/-- Whether entrances are found by their keys, and no resource is there for a call of a task. -/
structure Entered (p : Pool) : Prop extends p.Sound where
  sole : ∀ {kind : String} {i : Nat}, kind ∈ entranceKinds → kindAt p.resources i = some kind →
    p.keys.lookup (soleKey kind) = some i
  uncalled : ∀ {kind : String} {i : Nat}, kindAt p.resources i = some kind →
    kind ∉ Rtl.taskCallKinds

def Shut (p : Pool) : Prop := ∀ kind ∈ entranceKinds, p.keys.lookup (soleKey kind) = none

variable {p q : Pool} {key : ResourceKey} {prepare : Rtl.Resource → Rtl.Resource} {kind : String}
  {i : Nat}

theorem lookup_soleKey_dataFlow (p : Pool) (width : UInt64) :
    (p.dataFlow width).2.keys.lookup (soleKey Rtl.dataFlowKind) = some (p.dataFlow width).1 := by
  simp only [dataFlow, soleKey]
  split
  · assumption
  · exact List.lookup_cons_self

namespace Entered

theorem positions_of_lookup (h : p.Entered) (hkind : kind ∈ entranceKinds)
    (hkey : p.keys.lookup (soleKey kind) = some i) :
    Rtl.positionsOfKind p.resources kind = [i] := by
  refine Rtl.positionsOfKind_eq_singleton fun j => ⟨fun hj => ?_, fun hj => ?_⟩
  · exact Option.some.inj ((h.sole hkind hj).symm.trans hkey)
  · rw [hj]
    exact h.kind hkey

theorem positions_of_shut (h : p.Entered) (hshut : p.Shut) (hkind : kind ∈ entranceKinds) :
    Rtl.positionsOfKind p.resources kind = [] := by
  refine Rtl.positionsOfKind_eq_nil fun j hj => ?_
  have hkey := h.sole hkind hj
  rw [hshut kind hkind] at hkey
  cases hkey

/-- A pool stays entered if what is new is no entrance, or the one of its key, and is not there for
calls. -/
theorem grow (h : p.Entered) (hq : q.Sound) (hext : p.Extends q)
    (hnew : ∀ kind i, kindAt q.resources i = some kind → kindAt p.resources i = some kind ∨
      kind ∉ Rtl.taskCallKinds ∧
        (kind ∈ entranceKinds → q.keys.lookup (soleKey kind) = some i)) : q.Entered := by
  refine { hq with sole := fun {kind i} hkind hi => ?_, uncalled := fun {kind i} hi => ?_ }
  · rcases hnew kind i hi with hold | ⟨-, hsole⟩
    · exact hext.key (h.sole hkind hold)
    · exact hsole hkind
  · rcases hnew kind i hi with hold | ⟨huncalled, -⟩
    · exact h.uncalled hold
    · exact huncalled

theorem request (h : p.Entered) (hp : ∀ r, (prepare r).kind = r.kind)
    (hcall : key.kind ∉ Rtl.taskCallKinds) (hkey : key.kind ∈ entranceKinds → key = soleKey key.kind) :
    (p.request key prepare).2.Entered := by
  have htakes := request_takes key hp
  refine h.grow (htakes.sound h.toSound) (htakes.grows p) fun kind i hi => ?_
  obtain ⟨r, hr, rfl⟩ := Option.map_eq_some_iff.mp hi
  rcases eq_of_mem_request hr with hr | rfl
  · exact .inl (by simp [kindAt, hr])
  · have hkind : r.kind = key.kind := Option.some.inj (hi.symm.trans (htakes.kind h.toSound))
    rw [hkind]
    refine .inr ⟨hcall, fun hentrance => ?_⟩
    rw [← hkey hentrance]
    exact lookup_request p key prepare

theorem transition (h : p.Entered) : p.transition.2.Entered := by
  refine h.grow (transition_takes.sound h.toSound) (transition_takes.grows p) fun kind i hi => ?_
  unfold Pool.transition at hi
  split at hi
  · exact .inl hi
  · obtain ⟨r, hr, rfl⟩ := Option.map_eq_some_iff.mp hi
    rcases mem_add hr with hr | ⟨-, rfl⟩
    · exact .inl (by simp [kindAt, hr])
    · exact .inr ⟨show Rtl.Resource.transitionKind ∉ _ by decide,
        fun hmem => absurd hmem (show Rtl.Resource.transitionKind ∉ _ by decide)⟩

theorem setWidth (h : p.Entered) (j : Nat) (width : UInt64) :
    (p.update j (·.setWidth width)).Entered := by
  refine h.grow (update_sound h.toSound fun _ _ => rfl)
    (update_extends fun r _ => setWidth_becomes r width) fun kind i hi => .inl ?_
  rw [← hi, kindAt, kindAt, getElem?_update]
  cases p.resources[i]? with
  | none => rfl
  | some r =>
    rw [Option.map_some, Option.map_some, Option.map_some]
    split <;> rfl

theorem hold (h : p.Entered) (e : Entity) (width : UInt64) :
    ((p.sharedMember e true false).2.update (p.sharedMember e true false).1
      (·.setWidth width)).Entered := by
  have hheld : (p.sharedMember e true false).2.Entered :=
    h.request (fun _ => rfl) (show "shared-reg" ∉ _ by decide) fun hmem =>
      absurd hmem (show "shared-reg" ∉ _ by decide)
  exact hheld.setWidth _ width

theorem dataFlow (h : p.Entered) (width : UInt64) : (p.dataFlow width).2.Entered := by
  have htakes := dataFlow_takes width
  cases hkey : p.keys.lookup ⟨Rtl.dataFlowKind, "", 0, .truth⟩ with
  | some i =>
    have hsame : p.dataFlow width = (i, p) := by simp [Pool.dataFlow, hkey]
    exact hsame ▸ h
  | none =>
    refine h.grow (htakes.sound h.toSound) (htakes.grows p) fun kind i hi => ?_
    obtain ⟨r, hr, rfl⟩ := Option.map_eq_some_iff.mp hi
    rcases mem_dataFlow hkey width hr with ⟨r₀, hr₀, hkind, -⟩ | ⟨rfl, hkind⟩ | hkind
    · exact .inl (by simp [kindAt, hr₀, hkind])
    · refine .inr ⟨by rw [hkind]; decide, fun _ => ?_⟩
      rw [hkind, lookup_soleKey_dataFlow]
      simp [Pool.dataFlow, hkey, add]
    · exact .inr ⟨by rw [hkind]; decide, fun hmem => absurd (hkind ▸ hmem) (by decide)⟩

end Entered

theorem not_entrance (hplain : IsPlain kind) (hkind : kind ∉ handoverKinds) :
    kind ∉ entranceKinds ∧ kind ∉ Rtl.taskCallKinds := by
  have hflow : kind ≠ Rtl.dataFlowKind := hplain.2
  simp only [handoverKinds, List.mem_cons, List.not_mem_nil, or_false, not_or] at hkind
  simp [entranceKinds, Rtl.taskCallKinds, hkind, hflow]

theorem not_entrance_of_channel (h : IsChannel kind) :
    kind ∉ entranceKinds ∧ kind ∉ Rtl.taskCallKinds := by
  rcases h with rfl | rfl <;> decide

theorem Planned.entered (h : p.Planned) : p.Entered := by
  have hplanned : ∀ {kind i}, kindAt p.resources i = some kind → kind ∈ plannedKinds := by
    intro kind i hi
    obtain ⟨r, hr, rfl⟩ := Option.map_eq_some_iff.mp hi
    exact h.ports r (List.mem_of_getElem? hr)
  have hentrance : ∀ kind ∈ plannedKinds, kind ∉ entranceKinds ∧ kind ∉ Rtl.taskCallKinds := by
    decide
  exact { h.toSound with
    sole := fun hkind hi => absurd hkind (hentrance _ (hplanned hi)).1
    uncalled := fun hi => (hentrance _ (hplanned hi)).2 }

theorem Planned.shut (h : p.Planned) : p.Shut := by
  intro kind hkind
  refine Option.eq_none_iff_forall_ne_some.mpr fun i hi => ?_
  obtain ⟨r, hr, heq⟩ := Option.map_eq_some_iff.mp (h.kind hi)
  have hport := h.ports r (List.mem_of_getElem? hr)
  rw [heq] at hport
  have hapart : ∀ kind ∈ plannedKinds, kind ∉ entranceKinds := by decide
  exact hapart kind hport hkind

theorem Shut.request (h : p.Shut) (hkey : key.kind ∉ entranceKinds) :
    (p.request key prepare).2.Shut := by
  intro kind hkind
  refine (lookup_request_of_ne p prepare ?_).trans (h kind hkind)
  rintro rfl
  exact hkey hkind

end Pool

namespace Builder.Act

/-- An act of a thread: it requests nothing for calls, and an entrance by its key alone. -/
def Enters : Act → Prop
  | request key prepare => (∀ r, (prepare r).kind = r.kind) ∧ key.kind ∉ Rtl.taskCallKinds ∧
      (key.kind ∈ Pool.entranceKinds → key = Pool.soleKey key.kind)
  | _ => True

def Shuts : Act → Prop
  | request key _ => key.kind ∉ Pool.entranceKinds
  | dataFlow _ => False
  | _ => True

variable {b b' : Builder} {act : Act}

theorem entered_onPool {p : Pool} (hact : act.Enters) (hp : p.Entered) :
    (act.onPool p).Entered := by
  cases act with
  | request key prepare => exact hp.request hact.1 hact.2.1 hact.2.2
  | transition => exact hp.transition
  | dataFlow width => exact hp.dataFlow width
  | hold e width => exact hp.hold e width
  | _ => exact hp

theorem shut_onPool {p : Pool} (hact : act.Shuts) (hp : p.Shut) : (act.onPool p).Shut := by
  cases act with
  | request key prepare => exact hp.request hact
  | transition =>
    intro kind hkind
    rw [← hp kind hkind]
    simp only [onPool, Pool.transition]
    split <;> rfl
  | dataFlow width => exact hact.elim
  | hold e width =>
    exact (hp.request (show "shared-reg" ∉ _ by decide) : (p.sharedMember e true false).2.Shut)
  | _ => exact hp

theorem extends_onPool (hact : act.Enters) (p : Pool) : p.Extends (act.onPool p) := by
  cases act with
  | request key prepare => exact (Pool.request_takes key hact.1).grows p
  | transition => exact Pool.transition_takes.grows p
  | dataFlow width => exact (Pool.dataFlow_takes width).grows p
  | hold e width =>
    exact ((Pool.sharedMember_takes e true false).grows p).trans
      (Pool.update_extends fun r _ => Pool.setWidth_becomes r width)
  | _ => exact .refl p

end Builder.Act

section Permits

theorem permits_enters (m : Machine) (owners : OwnershipTable) (thread : ThreadId) :
    Lower.Permits m owners thread Act.Enters :=
  Lower.permits_of_lowers fun act hact => by
    cases act with
    | request key prepare =>
      obtain ⟨hentrance, hcall⟩ := Pool.not_entrance hact.1.plain hact.2.2
      exact ⟨hact.1.kind, hcall, fun hmem => absurd hmem hentrance⟩
    | _ => trivial

theorem permitsChannels_enters : Lower.PermitsChannels Act.Enters where
  request h hchannel := by
    obtain ⟨hentrance, hcall⟩ := Pool.not_entrance_of_channel hchannel
    exact ⟨h.kind, hcall, fun hmem => absurd hmem hentrance⟩
  use _ _ _ _ _ := trivial

theorem permitsTasks_enters : Lower.PermitsTasks Act.Enters :=
  ⟨⟨fun _ => rfl, by decide, fun _ => rfl⟩, ⟨fun _ => rfl, by decide, fun _ => rfl⟩⟩

theorem permitsFlow_enters : Lower.PermitsFlow Act.Enters := fun _ => trivial

theorem permits_shuts (m : Machine) (owners : OwnershipTable) (thread : ThreadId) :
    Lower.Permits m owners thread Act.Shuts :=
  Lower.permits_of_lowers fun act hact => by
    cases act with
    | request key prepare => exact (Pool.not_entrance hact.1.plain hact.2.2).1
    | dataFlow width => exact hact.elim
    | _ => trivial

theorem permitsChannels_shuts : Lower.PermitsChannels Act.Shuts where
  request _ hchannel := (Pool.not_entrance_of_channel hchannel).1
  use _ _ _ _ _ := trivial

end Permits

section Logged

variable {σ α : Type} [Journaled σ] {x : StateT σ (Except Stop) α} {s s' : σ} {a : α}

theorem Logs.entered (hx : Logs Act.Enters x) (h : x.run s = .ok (a, s'))
    (hs : (Journaled.builder s).pool.Entered) : (Journaled.builder s').pool.Entered :=
  hx.pool Act.entered_onPool h hs

theorem Logs.shut (hx : Logs Act.Shuts x) (h : x.run s = .ok (a, s'))
    (hs : (Journaled.builder s).pool.Shut) : (Journaled.builder s').pool.Shut :=
  hx.pool Act.shut_onPool h hs

theorem Logs.extends (hx : Logs Act.Enters x) (h : x.run s = .ok (a, s')) :
    (Journaled.builder s).pool.Extends (Journaled.builder s').pool :=
  hx.rel (S := fun b b' => b.pool.Extends b'.pool) (fun _ => .refl _) .trans
    (fun hact hrun => Act.run_pool hrun ▸ Act.extends_onPool hact _) h

end Logged

def Pool.Opened (p : Pool) (kind : String) : Prop := ∃ i, p.keys.lookup (soleKey kind) = some i

theorem Pool.Opened.mono {p q : Pool} {kind : String} (h : p.Opened kind) (hpq : p.Extends q) :
    q.Opened kind :=
  h.imp fun _ => hpq.key

theorem Pool.opened_ofKind (p : Pool) (kind : String) : (p.ofKind kind).2.Opened kind :=
  ⟨_, lookup_request p _ _⟩

namespace Lower

variable {s : Site} {l l' : Lowering} {e e' : Rtl.Insn} {starts : List Nat}

/-- What is true once a state has been rewritten, and is kept while others are, is true in the
end. -/
theorem mapStates_reaches {f : Nat → LoweredState → Lower LoweredState} {Q : Lowering → Prop}
    (hkeep : ∀ j st a st' b, (f j st).run a = .ok (st', b) → Q a → Q b) {k n : Nat}
    {sts sts' : List LoweredState} (h : (mapStates f k sts).run l = .ok (sts', l'))
    (hl : Q l ∨ n < sts.length ∧ ∀ st a st' b, (f (k + n) st).run a = .ok (st', b) → Q b) :
    Q l' := by
  induction sts generalizing k l sts' n with
  | nil =>
    cases run_pure_eq_ok.mp h
    exact hl.resolve_right fun hlt => by simp at hlt
  | cons st rest ih =>
    simp only [mapStates, run_bind_eq_ok] at h
    obtain ⟨st', l₁, hf, rest', l₂, hrest, h⟩ := h
    cases run_pure_eq_ok.mp h
    refine ih (n := n - 1) hrest ?_
    rcases hl with hl | ⟨hlt, hat⟩
    · exact .inl (hkeep _ _ _ _ _ hf hl)
    · cases n with
      | zero => exact .inl (hat _ _ _ _ hf)
      | succ n =>
        refine .inr ⟨by simpa using hlt, ?_⟩
        rwa [Nat.add_sub_cancel, Nat.add_right_comm]

theorem wait_opened (h : (wait s e).run l = .ok ((), l')) :
    (s.role = .task → l'.builder.pool.Opened Rtl.taskKind) ∧
      (s.role ≠ .task → s.method.marks.dataFlowEntry = true →
        l'.builder.pool.Opened Rtl.dataFlowKind) := by
  have hemit : ∀ {unit : Nat} {l₁ : Lowering}, (emit unit "" [] e.inputs).run l₁ = .ok ((), l') →
      l₁.builder.pool.Extends l'.builder.pool := fun hrun => by
    cases run_emit_eq_ok.mp hrun
    exact .refl _
  simp only [wait, run_bind_eq_ok, run_get_eq_ok] at h
  obtain ⟨_, _, hget, h⟩ := h
  cases hget
  split at h
  · rename_i htask
    rw [run_bind_eq_ok] at h
    obtain ⟨unit, l₁, hunit, h⟩ := h
    cases run_build_eq_ok.mp hunit
    exact ⟨fun _ => (Pool.opened_ofKind _ _).mono (hemit h), fun hne => absurd htask hne⟩
  · rename_i htask
    refine ⟨fun heq => absurd heq htask, fun _ hflow => ?_⟩
    rw [if_pos hflow, run_bind_eq_ok] at h
    obtain ⟨unit, l₁, hunit, h⟩ := h
    cases run_build_eq_ok.mp hunit
    exact Pool.Opened.mono ⟨_, Pool.lookup_soleKey_dataFlow _ _⟩ (hemit h)

theorem opening_opened (h : (opening s).run l = .ok (e, l')) :
    (s.role = .task → l'.builder.pool.Opened Rtl.taskKind) ∧
      (s.role = .root → s.method.marks.dataFlowEntry = true →
        l'.builder.pool.Opened Rtl.dataFlowKind) := by
  simp only [opening, run_bind_eq_ok] at h
  obtain ⟨e', l₁, he, h⟩ := h
  split at h
  · rw [run_bind_eq_ok] at h
    obtain ⟨_, l₂, hwait, h⟩ := h
    cases run_pure_eq_ok.mp h
    obtain ⟨htask, hflow⟩ := wait_opened hwait
    exact ⟨htask, fun hroot => hflow (by rw [hroot]; decide)⟩
  · rename_i hrole
    replace hrole : s.role = .inner := by simpa using hrole
    exact ⟨fun htask => (by simp [hrole] at htask), fun hroot => (by simp [hrole] at hroot)⟩

/-- A task hands its results back in its last state. -/
theorem closeLoop_opened (hrole : s.role = .task) (hl : 0 < l.states.length)
    (h : (closeLoop s e).run l = .ok ((), l')) : l'.builder.pool.Opened Rtl.taskReturnKind := by
  have hP := permits_enters s.machine s.owners s.thread
  have hT : s.role = .task → PermitsTasks Act.Enters := fun _ => permitsTasks_enters
  simp only [closeLoop, updateStates, run_bind_eq_ok, run_get_eq_ok] at h
  obtain ⟨_, _, hget, _, _, hget', sts, l₁, hmap, h⟩ := h
  cases hget
  cases hget'
  cases run_modify_eq_ok.mp h
  suffices h₁ : l₁.builder.pool.Opened Rtl.taskReturnKind from h₁
  refine mapStates_reaches (Q := fun l => l.builder.pool.Opened Rtl.taskReturnKind)
    (fun j st a st' b hrun ha => ?_) hmap (.inr ⟨Nat.sub_one_lt_of_lt hl, fun st a st' b hrun => ?_⟩)
  · refine ha.mono (Logs.extends ?_ hrun)
    split
    · exact (logged_finish hP hT e).bind fun insns => logged_addTargets hP _ _
    · exact logs_pure st
  · rw [if_pos (Nat.zero_add _), run_bind_eq_ok] at hrun
    obtain ⟨fin, a₁, hfinish, hrun⟩ := hrun
    refine Pool.Opened.mono ?_ (Logs.extends (logged_addTargets hP _ _) hrun)
    simp only [finish, hrole, if_true, run_bind_eq_ok] at hfinish
    obtain ⟨unit, a₂, hunit, i, a₃, hi, hfinish⟩ := hfinish
    cases run_pure_eq_ok.mp hfinish
    cases run_build_eq_ok.mp hunit
    exact (Pool.opened_ofKind _ _).mono (Logs.extends (logged_insn hP _ _ _ _) hi)

theorem closing_opened (hrole : s.role = .task)
    (h : (closing s e starts).run l = .ok (e', l')) :
    l'.builder.pool.Opened Rtl.taskReturnKind := by
  simp only [closing, run_bind_eq_ok, run_get_eq_ok] at h
  obtain ⟨_, l₁, hpush, _, _, hget, _, l₃, hresolve, _, l₄, hlink, h⟩ := h
  cases hget
  rw [if_pos (by rw [hrole]; decide), run_bind_eq_ok] at h
  obtain ⟨_, l₅, hclose, h⟩ := h
  cases run_pure_eq_ok.mp h
  refine closeLoop_opened hrole ?_ hclose
  cases run_push_eq_ok.mp hpush
  simp only [linkStates, run_bind_eq_ok, run_get_eq_ok] at hlink
  obtain ⟨_, _, hget, hlink⟩ := hlink
  cases hget
  refine Nat.lt_of_lt_of_le ?_ ((updateStates_length_le (rewrites_resolveJump _) hresolve).trans
    (updateStates_length_le (rewrites_linkState _) hlink))
  simp

end Lower

section Methods

variable {m : Machine} {owners : OwnershipTable} {thread : ThreadId} {b b' : Builder}

/-- Only a method that is started, and has code of its own, makes entrances. -/
theorem Site.lower_shut {object : Nat} {slot : String} {role : Role} {c : Context}
    (hb : b.pool.Shut) (hrole : role ≠ .inner → ∀ o f, m.object? object = some o →
      o.method? slot = some f → ¬ f.Compiled)
    (h : lower m owners thread object slot role b = .ok (c, b')) : b'.pool.Shut := by
  have hP := permits_shuts m owners thread
  obtain ⟨o, f, e, l, ho, hf, himpl, -, rfl, hcases⟩ := lower_cases h
  rcases hcases with ⟨-, hrun⟩ | ⟨-, -, hrun⟩ | ⟨hnative, himported, hport, hrun⟩
  · exact Logs.shut (Lower.logged_imported hP) hrun hb
  · exact Logs.shut (Lower.logged_port hP) hrun hb
  · have hinner : role = .inner := by
      by_contra hne
      have hmethod : f = c.method := by simpa [implementation?, hnative] using himpl
      refine hrole hne o f ho hf ⟨hnative, ?_⟩
      rw [hmethod]
      exact ⟨himported, hport⟩
    exact Logs.shut (Lower.logged_body hP permitsChannels_shuts
      (fun htask => by cases hinner.symm.trans htask) fun hne => absurd hinner hne) hrun hb

/-- A method with code of its own that is started has the entrances that it needs. -/
theorem Site.lower_opened {object : Nat} {slot : String} {role : Role} {c : Context} {f : Method}
    (hf : Walker.calledMethod? m (some object) slot = some f) (hcompiled : f.Compiled)
    (h : lower m owners thread object slot role b = .ok (c, b')) :
    (role = .task → b'.pool.Opened Rtl.taskKind ∧ b'.pool.Opened Rtl.taskReturnKind) ∧
      (role = .root → f.marks.dataFlowEntry = true → b'.pool.Opened Rtl.dataFlowKind) := by
  have hP := permits_enters m owners thread
  obtain ⟨hnative, himported, hport⟩ := hcompiled
  obtain ⟨o, f', e, l, ho, hf', himpl, -, rfl, hcases⟩ := lower_cases h
  obtain rfl : f = f' := by simpa [Walker.calledMethod?, ho, hf'] using hf.symm
  obtain rfl : f = c.method := by simpa [implementation?, hnative] using himpl
  rcases hcases with ⟨himported', -⟩ | ⟨-, hport', -⟩ | ⟨-, -, -, hrun⟩
  · cases himported.symm.trans himported'
  · cases hport.symm.trans hport'
  · simp only [Lower.body_eq, run_bind_eq_ok] at hrun
    obtain ⟨e', l₁, hopening, starts, l₂, hcode, hclosing⟩ := hrun
    obtain ⟨htask, hflow⟩ := Lower.opening_opened hopening
    have hrest : l₁.builder.pool.Extends l.builder.pool :=
      (Logs.extends (Lower.logged_code hP permitsChannels_enters _) hcode).trans
        (Logs.extends (Lower.logged_closing hP (fun _ => permitsTasks_enters) e' starts) hclosing)
    exact ⟨fun hrole => ⟨(htask hrole).mono hrest, Lower.closing_opened hrole hclosing⟩,
      fun hrole hmark => (hflow hrole hmark).mono hrest⟩

namespace ThreadTable

variable {t : ThreadPlan}

theorem lowerAll_shut {names : List String} {cs : List (String × Context)} (hb : b.pool.Shut)
    (hentry : ∀ o f, m.object? t.object = some o → o.method? t.entry = some f → ¬ f.Compiled)
    (h : lowerAll m owners thread t names b = .ok (cs, b')) : b'.pool.Shut := by
  induction names generalizing b cs with
  | nil =>
    cases h
    exact hb
  | cons name rest ih =>
    simp only [lowerAll, except_bind_eq_ok] at h
    obtain ⟨⟨c, b₁⟩, hlower, ⟨cs', b₂⟩, hrest, h⟩ := h
    cases h
    refine ih (Site.lower_shut hb (fun hrole o f ho hf => ?_) hlower) hrest
    -- only the entry of the thread has a part of its own
    by_cases hname : name = t.entry
    · exact hentry o f ho (hname ▸ hf)
    · exact absurd (if_neg hname) hrole

structure Entrances (f : Method) (table : ThreadTable) : Prop where
  task : f.Compiled → table.plan.isTask = true → ∃ i j,
    Rtl.positionsOfKind table.resources Rtl.taskKind = [i] ∧
    Rtl.positionsOfKind table.resources Rtl.taskReturnKind = [j]
  flow : f.Compiled → table.plan.isTask = false → f.marks.dataFlowEntry = true → ∃ i,
    Rtl.positionsOfKind table.resources Rtl.dataFlowKind = [i]
  shut : ¬ f.Compiled → ∀ kind ∈ Pool.entranceKinds,
    Rtl.positionsOfKind table.resources kind = []

theorem build_entrances {limit : Nat} {table : ThreadTable} (hpool : t.pool.Planned)
    (h : build m owners limit thread t = .ok table) : table.builder.pool.Entered ∧
      ∃ f, Walker.calledMethod? m (some t.object) t.entry = some f ∧ Entrances f table := by
  obtain ⟨b, entry, first, last, x, hlower, hentry, hcopy, htable⟩ := build_eq_ok h
  have hplan : table.plan = t := by rw [htable]
  have hpools : table.builder.pool = x.builder.pool := by rw [htable]
  have hP := permits_enters m owners thread
  have hcopied := Expand.logs_copy (Expand.permits_of_lower hP) ⟨m, table.contexts, limit⟩
    (table.contexts.length + 1) [] entry
  have hlowered : b.pool.Entered := Logs.entered (x := lowerAll m owners thread t t.methods)
    (s := Builder.ofPool t.pool) (logs_lowerAll hP permitsChannels_enters permitsTasks_enters
      permitsFlow_enters _) hlower hpool.entered
  have hexpanded : x.builder.pool.Entered := hcopied.entered hcopy hlowered
  have hgrown : b.pool.Extends x.builder.pool := hcopied.extends hcopy
  obtain ⟨-, -, -, hall⟩ := lowerAll_spec (Builder.sound_ofPool hpool.toSound) hlower
  obtain ⟨-, b₁, b₂, -, -, hentered, hext⟩ := hall t.entry entry (mem_of_lookup hentry)
  obtain ⟨o, f, -, -, ho, hf, -⟩ := Site.lower_cases hentered
  have hcalled : Walker.calledMethod? m (some t.object) t.entry = some f := by
    simp [Walker.calledMethod?, ho, hf]
  have hrole : roleOf m t t.entry = entryRole m t := if_pos rfl
  have hfound : ∀ {kind}, kind ∈ Pool.entranceKinds → b₂.pool.Opened kind →
      ∃ i, Rtl.positionsOfKind table.resources kind = [i] := by
    intro kind hkind hopened
    obtain ⟨i, hi⟩ := hopened.mono (hext.pool.trans hgrown)
    exact ⟨i, by rw [resources, hpools]; exact hexpanded.positions_of_lookup hkind hi⟩
  refine ⟨hpools ▸ hexpanded, f, hcalled, ?_, ?_, ?_⟩
  · intro hcompiled htask
    rw [hplan] at htask
    obtain ⟨hstart, hfinish⟩ := (Site.lower_opened hcalled hcompiled hentered).1
      (by rw [hrole]; simp [entryRole, htask])
    obtain ⟨i, hi⟩ := hfound (by decide) hstart
    obtain ⟨j, hj⟩ := hfound (by decide) hfinish
    exact ⟨i, j, hi, hj⟩
  · intro hcompiled htask hmark
    rw [hplan] at htask
    refine hfound (by decide) ((Site.lower_opened hcalled hcompiled hentered).2 ?_ hmark)
    rw [hrole]
    simp [entryRole, htask, hcalled, Plan.isEntry, hmark]
  · intro hcompiled kind hkind
    have hshut : b.pool.Shut := lowerAll_shut hpool.shut (fun o' f' ho' hf' => by
      cases ho.symm.trans ho'
      cases hf.symm.trans hf'
      exact hcompiled) hlower
    have hcopies := Expand.logs_copy (Expand.permits_of_lower (permits_shuts m owners thread))
      ⟨m, table.contexts, limit⟩ (table.contexts.length + 1) [] entry
    rw [resources, hpools]
    exact hexpanded.positions_of_shut (hcopies.shut hcopy hshut) hkind

end ThreadTable

end Methods

end Synth
end MachineSynth
