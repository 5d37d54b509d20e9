import Mathlib
import MachineSynth.Proofs.Channels.Collecting
import MachineSynth.Proofs.Journal.Storage
import MachineSynth.Proofs.Threads

/-! Channel accesses: a table collects the channel objects that its lowered methods read and write,
in their order, and has one resource for each object and direction. -/
namespace MachineSynth
namespace Synth

open Rtl (kindAt)
open Builder (Act perform perform_cons)

namespace Walker

variable {m : Machine} {w v : Walker} {code : List Insn} {i : Insn} {u : Nat × Bool}

def channel? (m : Machine) (w : Walker) (r : RegisterId) : Option Nat :=
  (w.objectOf? r).filter fun id => (m.object? id).any (·.isChannel)

/-- The channel object that an instruction accesses, and whether it writes. -/
def carried? (m : Machine) (w : Walker) : Insn → Option (Nat × Bool)
  | .channelRead _ object => (w.channel? m object).map (·, false)
  | .channelWrite object _ => (w.channel? m object).map (·, true)
  | _ => none

/-- The channel accesses of code, one after the other. -/
def carries (m : Machine) : Walker → List Insn → List (Nat × Bool)
  | _, [] => []
  | w, i :: rest =>
    (w.carried? m i).toList ++
      match w.step m i with
      | .ok v => carries m v rest
      | .error _ => []

theorem mem_carries : u ∈ w.carries m code ↔ w.Along m code fun v i => v.carried? m i = some u := by
  induction code generalizing w with
  | nil => simp [carries, along_nil]
  | cons i rest ih =>
    rw [carries, List.mem_append, Option.mem_toList]
    cases hstep : w.step m i with
    | ok v => rw [along_cons hstep, ih]
    | error f =>
      -- the walk does not get past this instruction
      simp only [List.not_mem_nil, or_false]
      refine ⟨fun h => along_head h, fun ⟨k, j, v, hj, hv, hu⟩ => ?_⟩
      cases k with
      | zero =>
        cases Option.some.inj hj
        cases hv
        exact hu
      | succ k =>
        rw [List.take_succ_cons, walk, List.foldlM_cons, hstep] at hv
        cases hv

theorem carries_concat (h : w.walk m code = .ok v) :
    w.carries m (code ++ [i]) = w.carries m code ++ (v.carried? m i).toList := by
  induction code generalizing w with
  | nil =>
    cases h
    simp only [List.nil_append, carries]
    cases v.step m i <;> simp
  | cons j rest ih =>
    cases hstep : w.step m j with
    | error f =>
      rw [walk, List.foldlM_cons, hstep] at h
      cases h
    | ok v' =>
      rw [walk_cons hstep] at h
      simp only [List.cons_append, carries, hstep, ih h, List.append_assoc]

theorem carried?_of_not_onChannel (h : Lower.onChannel i = false) : w.carried? m i = none := by
  cases i <;> simp_all [carried?, Lower.onChannel]

end Walker

def ChannelUse.access (u : ChannelUse) : Nat × Bool := (u.object, u.write)

def channelKey (id : Nat) (write : Bool) : ResourceKey := ⟨channelKind write, "", id, .truth⟩

theorem channelKey_inj {id id' : Nat} {write write' : Bool}
    (h : channelKey id write = channelKey id' write') : id = id' ∧ write = write' := by
  simp only [channelKey, ResourceKey.mk.injEq, true_and, and_true] at h
  refine ⟨h.2, ?_⟩
  have hkinds : channelWriteKind ≠ channelReadKind := by decide
  cases write <;> cases write' <;> simp_all [channelKind]

namespace Pool

/-- Whether all that is new in a pool is no end of a channel. -/
structure Mutes (p q : Pool) : Prop extends p.Extends q where
  old : ∀ {i : Nat} {r : Rtl.Resource}, q.resources[i]? = some r → IsChannel r.kind →
    ∃ r₀, p.resources[i]? = some r₀ ∧ r₀.kind = r.kind

variable {p q : Pool} {key : ResourceKey} {prepare : Rtl.Resource → Rtl.Resource}

theorem Mutes.refl (p : Pool) : p.Mutes p := { Extends.refl p with old := fun hr _ => ⟨_, hr, rfl⟩ }

theorem Mutes.trans {p' : Pool} (h : p.Mutes q) (h' : q.Mutes p') : p.Mutes p' where
  toExtends := h.toExtends.trans h'.toExtends
  old hr hkind := by
    obtain ⟨r₁, hr₁, hkind₁⟩ := h'.old hr hkind
    obtain ⟨r₀, hr₀, hkind₀⟩ := h.old hr₁ (hkind₁ ▸ hkind)
    exact ⟨r₀, hr₀, hkind₀.trans hkind₁⟩

theorem mutes_request (hkey : ¬ IsChannel key.kind) (hp : ∀ r, (prepare r).kind = r.kind) :
    p.Mutes (p.request key prepare).2 where
  toExtends := (request_takes key hp).grows p
  old {i r} hr hkind := by
    rcases mem_request hr with hr | rfl
    · exact ⟨r, hr, rfl⟩
    · rw [hp] at hkind
      exact absurd hkind hkey

theorem mutes_add {kind : String} (hkind : ¬ IsChannel kind) : p.Mutes (p.add kind).2 where
  toExtends := p.add_extends kind
  old {i r} hr hchannel := by
    rcases mem_add hr with hr | ⟨-, rfl⟩
    · exact ⟨r, hr, rfl⟩
    · exact absurd hchannel hkind

theorem mutes_update {i : Nat} {f : Rtl.Resource → Rtl.Resource} (hf : ∀ r : Rtl.Resource, r.Becomes (f r)) :
    p.Mutes (p.update i f) where
  toExtends := update_extends fun r _ => hf r
  old {j r} hr _ := by
    rw [getElem?_update] at hr
    obtain ⟨r₀, hr₀, rfl⟩ := Option.map_eq_some_iff.mp hr
    refine ⟨r₀, hr₀, ?_⟩
    split
    · exact (hf r₀).kind.symm
    · rfl

theorem mutes_transition : p.Mutes p.transition.2 := by
  unfold transition
  split
  · exact .refl p
  · exact mutes_add (by decide)

theorem mutes_dataFlow (width : UInt64) : p.Mutes (p.dataFlow width).2 where
  toExtends := (dataFlow_takes width).grows p
  old {i r} hr hkind := by
    cases hkey : p.keys.lookup ⟨Rtl.dataFlowKind, "", 0, .truth⟩ with
    | some j =>
      simp only [dataFlow, hkey] at hr
      exact ⟨r, hr, rfl⟩
    | none =>
      rcases mem_dataFlow hkey width hr with ⟨r₀, hr₀, hkind₀, -⟩ | ⟨-, hinput⟩ | hregister
      · exact ⟨r₀, hr₀, hkind₀⟩
      · exact absurd (hinput ▸ hkind) (by decide)
      · exact absurd (hregister ▸ hkind) (by decide)

end Pool

namespace Builder

/-- Whether a builder leaves the channels as they are. -/
structure Mutes (b b' : Builder) : Prop where
  channels : b'.channels = b.channels
  pool : b.pool.Mutes b'.pool

def Act.Mute : Act → Prop
  | request key prepare => ¬ Pool.IsChannel key.kind ∧ ∀ r, (prepare r).kind = r.kind
  | channel _ _ _ _ _ => False
  | _ => True

variable {m : Machine} {b b' : Builder} {act : Act} {uses : List ChannelUse}

theorem Mutes.refl (b : Builder) : b.Mutes b := ⟨rfl, .refl _⟩

theorem Mutes.trans {c : Builder} (h : b.Mutes b') (h' : b'.Mutes c) : b.Mutes c :=
  ⟨h'.channels.trans h.channels, h.pool.trans h'.pool⟩

theorem Act.run_channels (hact : act.Mute) (h : act.run b = .ok b') :
    b'.channels = b.channels := by
  cases act with
  | member e width initial =>
    cases h
    rw [memberRegister_eq]
    split <;> rfl
  | owner e r =>
    obtain ⟨links, -, rfl⟩ := run_owner.mp h
    rfl
  | channel object name width kind r => exact hact.elim
  | _ =>
    cases h
    rfl

theorem Act.mutes_onPool (hact : act.Mute) (p : Pool) : p.Mutes (act.onPool p) := by
  cases act with
  | request key prepare => exact Pool.mutes_request hact.1 hact.2
  | transition => exact Pool.mutes_transition
  | dataFlow width => exact Pool.mutes_dataFlow width
  | hold e width =>
    have hkey : ¬ Pool.IsChannel (Pool.sharedKind "shared-reg" true false) := by decide
    have hrequest : p.Mutes (p.sharedMember e true false).2 :=
      Pool.mutes_request hkey fun _ => rfl
    exact hrequest.trans (Pool.mutes_update fun r => Pool.setWidth_becomes r width)
  | _ => exact .refl p

theorem Act.run_mutes (hact : act.Mute) (h : act.run b = .ok b') : b.Mutes b' :=
  ⟨run_channels hact h, run_pool h ▸ mutes_onPool hact b.pool⟩

theorem permits_mute (m : Machine) (owners : OwnershipTable) (thread : ThreadId) :
    Lower.Permits m owners thread Act.Mute :=
  Lower.permits_of_lowers fun act hact => by
    cases act with
    | request key prepare => exact ⟨hact.2.1, hact.1.kind⟩
    | channel object name width kind r => exact hact.elim
    | _ => trivial

theorem permitsFlow_mute : Lower.PermitsFlow Act.Mute := fun _ => trivial

theorem permitsTasks_mute : Lower.PermitsTasks Act.Mute :=
  ⟨⟨by decide, fun _ => rfl⟩, ⟨by decide, fun _ => rfl⟩⟩

/-- Whether a builder has collected some uses of channels, each by the resource that its key stands
for, and has no other resources for channels. -/
structure Tunes (m : Machine) (uses : List ChannelUse) (b : Builder) : Prop where
  channels : b.channels = .ofUses m uses
  key : ∀ u ∈ uses, b.pool.keys.lookup (channelKey u.object u.write) = some u.resource.resource
  place : ∀ u ∈ uses, u.resource.owner = b.pool.place
  used : ∀ {i : Nat} {r : Rtl.Resource}, b.pool.resources[i]? = some r → Pool.IsChannel r.kind →
    ∃ u ∈ uses, u.resource.resource = i

theorem Tunes.mutes (h : b.Tunes m uses) (h' : b.Mutes b') : b'.Tunes m uses where
  channels := h'.channels.trans h.channels
  key u hu := h'.pool.key (h.key u hu)
  place u hu := (h.place u hu).trans h'.pool.place.symm
  used hr hkind := by
    obtain ⟨r₀, hr₀, hkind₀⟩ := h'.pool.old hr hkind
    exact h.used hr₀ (hkind₀ ▸ hkind)

theorem tunes_ofPool {p : Pool} (hp : p.Planned) : (ofPool p).Tunes m [] where
  channels := rfl
  key u hu := by cases hu
  place u hu := by cases hu
  used hr hkind := by
    have hplanned := hp.ports _ (List.mem_of_getElem? hr)
    rcases hkind with hkind | hkind <;> rw [hkind] at hplanned <;> exact absurd hplanned (by decide)

theorem Tunes.concat (h : b.Tunes m uses) {id : Nat} {o : Object} (ho : m.object? id = some o)
    (write : Bool) :
    Tunes m (uses ++ [⟨id, write, b.pool.ref (b.pool.channel id write o.width).1⟩])
      { b with
        pool := (b.pool.channel id write o.width).2
        channels := b.channels.add id o.name o.width (channelKind write)
          (b.pool.ref (b.pool.channel id write o.width).1) } := by
  have hgrows := (Pool.channel_takes id write o.width).grows b.pool
  have hkey : (b.pool.channel id write o.width).2.keys.lookup (channelKey id write) =
      some (b.pool.channel id write o.width).1 := Pool.lookup_request _ _ _
  refine ⟨?_, fun u hu => ?_, fun u hu => ?_, fun {i r} hr hkind => ?_⟩
  · have hname : m.name id = o.name := by simp [Machine.name, ho]
    have hwidth : m.width id = o.width := by simp [Machine.width, ho]
    simp only [h.channels, Channels.ofUses, List.foldl_append, List.foldl_cons, List.foldl_nil,
      Channels.note, hname, hwidth]
  · rcases List.mem_append.mp hu with hu | hu
    · exact hgrows.key (h.key u hu)
    · rw [List.mem_singleton.mp hu]
      exact hkey
  · rcases List.mem_append.mp hu with hu | hu
    · exact (h.place u hu).trans hgrows.place.symm
    · rw [List.mem_singleton.mp hu]
      exact hgrows.place.symm
  · rcases Pool.eq_of_mem_request hr with hold | rfl
    · obtain ⟨u, hu, hi⟩ := h.used hold hkind
      exact ⟨u, List.mem_append_left _ hu, hi⟩
    · exact ⟨_, List.mem_append_right _ (List.mem_singleton_self _), rfl⟩

end Builder

namespace Lower

variable {s : Site} {l l' : Lowering} {uses : List ChannelUse}

theorem mutes_of_logs {α : Type} {x : Lower α} {a : α} (hx : Logs Act.Mute x)
    (h : x.run l = .ok (a, l')) : l.builder.Mutes l'.builder :=
  hx.rel Builder.Mutes.refl Builder.Mutes.trans Act.run_mutes h

theorem channelAccess_parts {channel r : RegisterId} {write : Bool}
    (h : (channelAccess s channel r write).run l = .ok ((), l')) :
    ∃ id o unit l₁ own l₂ inputs outputs l₃, l.walker.objectOf? channel = some id ∧
      s.machine.object? id = some o ∧ o.isChannel = true ∧
      (resource (·.channel id write o.width)).run l = .ok (unit, l₁) ∧
      (register s r).run l₁ = .ok (own, l₂) ∧
      (emit unit "" inputs outputs).run l₂ = .ok ((), l₃) ∧
      l' = { l₃ with builder := { l₃.builder with
        channels := l₃.builder.channels.add id o.name o.width (channelKind write)
          (l₃.builder.pool.ref unit) } } := by
  simp only [channelAccess, run_bind_eq_ok] at h
  obtain ⟨x, l₀, hheld, h⟩ := h
  split at h
  · rename_i id o
    obtain ⟨hid, ho, rfl⟩ := heldObject_some hheld
    split at h
    · rename_i hchannel
      simp only [run_bind_eq_ok] at h
      obtain ⟨unit, l₁, hunit, own, l₂, hown, h⟩ := h
      split at h
      · rename_i hwrite
        subst hwrite
        rw [run_bind_eq_ok] at h
        obtain ⟨_, l₃, hemit, h⟩ := h
        cases run_build_eq_ok.mp h
        exact ⟨id, o, unit, l₁, own, l₂, _, _, l₃, hid, ho, hchannel, hunit, hown, hemit, rfl⟩
      · rename_i hwrite
        simp only [Bool.not_eq_true] at hwrite
        subst hwrite
        rw [run_bind_eq_ok] at h
        obtain ⟨_, l₃, hemit, h⟩ := h
        cases run_build_eq_ok.mp h
        exact ⟨id, o, unit, l₁, own, l₂, _, _, l₃, hid, ho, hchannel, hunit, hown, hemit, rfl⟩
    · exact absurd h run_fault_ne_ok
  · exact absurd h run_fault_ne_ok

theorem channelAccess_tunes {channel r : RegisterId} {write : Bool}
    (hl : l.builder.Tunes s.machine uses)
    (h : (channelAccess s channel r write).run l = .ok ((), l')) :
    ∃ u : ChannelUse, u.write = write ∧ l.walker.channel? s.machine channel = some u.object ∧
      l'.builder.Tunes s.machine (uses ++ [u]) := by
  have hP := Builder.permits_mute s.machine s.owners s.thread
  obtain ⟨id, o, unit, l₁, own, l₂, inputs, outputs, l₃, hid, ho, hchannel, hunit, hown, hemit, rfl⟩ :=
    channelAccess_parts h
  cases run_build_eq_ok.mp hunit
  have hmutes := (mutes_of_logs (logged_register hP r) hown).trans
    (mutes_of_logs (logged_emit hP _ _ _ _) hemit)
  refine ⟨⟨id, write, _⟩, rfl, ?_, (hl.concat ho write).mutes ⟨?_, hmutes.pool⟩⟩
  · simp [Walker.channel?, hid, ho, hchannel]
  · -- the use is added after the access, when the table is still the same
    have hplace : l₃.builder.pool.place = l.builder.pool.place :=
      hmutes.pool.place.trans ((Pool.channel_takes id write o.width).grows _).place
    simp only [hmutes.channels, Pool.ref, hplace]
    rfl

theorem instruction_tunes {i : Insn} (hl : l.builder.Tunes s.machine uses)
    (h : (instruction s i).run l = .ok ((), l')) :
    ∃ us : List ChannelUse, us.map (·.access) = (l.walker.carried? s.machine i).toList ∧
      l'.builder.Tunes s.machine (uses ++ us) := by
  cases hchannel : onChannel i with
  | false =>
    have hP := Builder.permits_mute s.machine s.owners s.thread
    have hmutes := mutes_of_logs (logged_instruction hP i fun hi => by simp [hchannel] at hi) h
    exact ⟨[], by simp [Walker.carried?_of_not_onChannel hchannel], by simpa using hl.mutes hmutes⟩
  | true =>
    cases i with
    | channelRead target object =>
      obtain ⟨u, hwrite, hobject, htunes⟩ := channelAccess_tunes hl h
      exact ⟨[u], by simp [Walker.carried?, hobject, ChannelUse.access, hwrite], htunes⟩
    | channelWrite object source =>
      obtain ⟨u, hwrite, hobject, htunes⟩ := channelAccess_tunes hl h
      exact ⟨[u], by simp [Walker.carried?, hobject, ChannelUse.access, hwrite], htunes⟩
    | _ => cases hchannel

theorem force_mutes (n : Nat) (l : Lowering) : l.builder.Mutes (force n l).builder := by
  unfold force
  split
  · exact ⟨rfl, .refl _⟩
  · exact .refl _

/-- Code adds the uses that its instructions make, one after the other. -/
theorem code_tunes {is : List Insn} {starts : List Nat} (hsound : l.Sound)
    (hl : l.builder.Tunes s.machine uses) (h : (code s is).run l = .ok (starts, l')) :
    ∃ us : List ChannelUse, us.map (·.access) = l.walker.carries s.machine is ∧
      l'.builder.Tunes s.machine (uses ++ us) := by
  have hstep : ∀ done i rest a b, is = done ++ i :: rest →
      (Lowering.At s l done a ∧ ∃ us : List ChannelUse,
        us.map (·.access) = l.walker.carries s.machine done ∧
        a.builder.Tunes s.machine (uses ++ us)) →
      (instruction s i).run a = .ok ((), b) →
      (Lowering.At s l (done ++ [i]) (force a.states.length b) ∧ ∃ us : List ChannelUse,
        us.map (·.access) = l.walker.carries s.machine (done ++ [i]) ∧
        (force a.states.length b).builder.Tunes s.machine (uses ++ us)) ∧ True := by
    rintro done i rest a b - ⟨ha, us, hus, htunes⟩ hi
    obtain ⟨us', hus', htunes'⟩ := instruction_tunes htunes hi
    refine ⟨⟨(force_at ha hi).1, us ++ us', ?_, ?_⟩, trivial⟩
    · rw [List.map_append, hus, hus', Walker.carries_concat ha.walker]
    · rw [← List.append_assoc]
      exact htunes'.mutes (force_mutes _ b)
  have hstart : Lowering.At s l [] l := ⟨hsound, rfl, by simp⟩
  obtain ⟨⟨-, hend⟩, -⟩ := code_at (R := fun _ _ => True) (fun _ => trivial)
    (fun _ _ _ _ _ => trivial) (List.nil_append is).symm hstep
    ⟨hstart, [], rfl, by simpa using hl⟩ h
  exact hend

theorem body_tunes {e : Rtl.Insn} (hsound : l.Sound) (hl : l.builder.Tunes s.machine uses)
    (h : (body s).run l = .ok (e, l')) :
    ∃ us : List ChannelUse, us.map (·.access) = l.walker.carries s.machine s.method.code ∧
      l'.builder.Tunes s.machine (uses ++ us) := by
  have hP := Builder.permits_mute s.machine s.owners s.thread
  simp only [body_eq, run_bind_eq_ok] at h
  obtain ⟨e', l₁, hopening, starts, l₂, hcode, hclosing⟩ := h
  obtain ⟨hsound₁, hwalker⟩ := opening_walker hsound hopening
  have hl₁ := hl.mutes
    (mutes_of_logs (logged_opening hP (fun _ => Builder.permitsTasks_mute)
      fun _ => Builder.permitsFlow_mute) hopening)
  obtain ⟨us, hus, htunes⟩ := code_tunes hsound₁ hl₁ hcode
  rw [hwalker] at hus
  exact ⟨us, hus, htunes.mutes (mutes_of_logs
    (logged_closing hP (fun _ => Builder.permitsTasks_mute) e' starts) hclosing)⟩

end Lower

section Methods

variable {m : Machine} {owners : OwnershipTable} {thread : ThreadId} {b b' : Builder}
  {uses : List ChannelUse}

/-- A method adds the uses that it makes; one without code makes none. -/
theorem Site.lower_tunes {object : Nat} {slot : String} {role : Role} {c : Context} (hb : b.Sound)
    (htunes : b.Tunes m uses) (h : lower m owners thread object slot role b = .ok (c, b')) :
    ∃ us : List ChannelUse, us.map (·.access) = (Walker.start c.object).carries m c.code ∧
      b'.Tunes m (uses ++ us) := by
  have hP := Builder.permits_mute m owners thread
  obtain ⟨-, -, hobject, -⟩ := lower_spec hb h
  obtain ⟨o, f, e, l, -, -, -, -, rfl, hcases⟩ := lower_cases h
  rcases hcases with ⟨himported, hrun⟩ | ⟨-, hport, hrun⟩ | ⟨-, himported, hport, hrun⟩
  · refine ⟨[], by simp [Context.code, himported, Walker.carries], ?_⟩
    rw [List.append_nil]
    exact htunes.mutes (Lower.mutes_of_logs (Lower.logged_imported hP) hrun)
  · refine ⟨[], by simp [Context.code, hport, Walker.carries], ?_⟩
    rw [List.append_nil]
    exact htunes.mutes (Lower.mutes_of_logs (Lower.logged_port hP) hrun)
  · obtain ⟨us, hus, hend⟩ := Lower.body_tunes (start_sound hb object) htunes hrun
    refine ⟨us, ?_, hend⟩
    rw [hobject]
    simpa [Context.code, himported, hport] using hus

namespace ThreadTable

def channelAccesses (m : Machine) (t : ThreadTable) : List (Nat × Bool) :=
  t.contexts.flatMap fun x => (Walker.start x.2.object).carries m x.2.code

variable {t : ThreadPlan}

theorem lowerAll_tunes {names : List String} {cs : List (String × Context)} (hb : b.Sound)
    (htunes : b.Tunes m uses) (h : lowerAll m owners thread t names b = .ok (cs, b')) :
    ∃ us : List ChannelUse, (us.map (·.access) =
        cs.flatMap fun x => (Walker.start x.2.object).carries m x.2.code) ∧
      b'.Tunes m (uses ++ us) := by
  induction names generalizing b cs uses with
  | nil =>
    cases h
    exact ⟨[], rfl, by simpa using htunes⟩
  | cons name rest ih =>
    simp only [lowerAll, except_bind_eq_ok] at h
    obtain ⟨⟨c, b₁⟩, hlower, ⟨cs', b₂⟩, hrest, h⟩ := h
    cases h
    obtain ⟨us, hus, htunes₁⟩ := Site.lower_tunes hb htunes hlower
    obtain ⟨us', hus', htunes'⟩ := ih (Site.lower_spec hb hlower).1 htunes₁ hrest
    exact ⟨us ++ us', by rw [List.map_append, hus, hus', List.flatMap_cons],
      by rwa [← List.append_assoc]⟩

/-- Whether a table has collected the channel accesses of its methods. -/
def Tuned (m : Machine) (table : ThreadTable) (uses : List ChannelUse) : Prop :=
  uses.map (·.access) = table.channelAccesses m ∧ table.builder.Tunes m uses

/-- The table of a thread has collected the channel accesses of its methods. -/
theorem build_tuned {limit : Nat} {table : ThreadTable} (hpool : t.pool.Planned)
    (h : build m owners limit thread t = .ok table) : ∃ uses, table.Tuned m uses := by
  obtain ⟨b, entry, first, last, x, hlower, -, hcopy, htable⟩ := build_eq_ok h
  obtain ⟨us, hus, htunes⟩ := lowerAll_tunes (Builder.sound_ofPool hpool.toSound)
    (Builder.tunes_ofPool hpool) hlower
  have hmutes : b.Mutes x.builder :=
    (Expand.logs_copy (Expand.permits_of_lower (Builder.permits_mute m owners thread)) _ _ _ _).rel
      Builder.Mutes.refl Builder.Mutes.trans Act.run_mutes hcopy
  have hbuilder : table.builder = x.builder := by rw [htable]
  exact ⟨us, hus, hbuilder ▸ htunes.mutes hmutes⟩

end ThreadTable

end Methods

end Synth
end MachineSynth
