import Mathlib
import MachineSynth.Proofs.Lowering.Growth
import MachineSynth.Proofs.Planning
import MachineSynth.Synth.Expand

/-! Acts: the changes that builders go through, as entries of a journal. A computation that logs its
acts can be replayed with another registry: only an act that registers an owner looks at what has
been registered before. -/
namespace MachineSynth
namespace Synth

/-- What threads register in common: the resources for shared entities, and the users of
channels. -/
structure Registry where
  links : Links Rtl.ResourceRef
  channels : Channels

namespace Registry

def empty : Registry := ⟨.empty, .empty⟩

end Registry

namespace Entity

/-- The width and the initial value that a member which can be written is declared with. Truth
values have no width. -/
def declared? (m : Machine) (e : Entity) : Option (UInt64 × Int64) :=
  match (m.object? e.object).bind (·.lookup? e.member) with
  | some (.num width value false) => some (width, value)
  | some (.enum _ ordinal false) => some (0, ordinal)
  | _ => none

end Entity

/-- Whether a kind is neither that of shared registers nor that of data-flow inputs, which are
taken in ways of their own. -/
def Pool.IsPlain (kind : String) : Prop := kind ≠ "shared-reg" ∧ kind ≠ "dataflow-in"

namespace Builder

def registry (b : Builder) : Registry := ⟨b.links, b.channels⟩

def setRegistry (b : Builder) (R : Registry) : Builder :=
  { b with links := R.links, channels := R.channels }

def hold (b : Builder) (e : Entity) (width : UInt64) : Nat × Builder :=
  let (unit, b) := b.resource (·.sharedMember e true false)
  (unit, { b with pool := b.pool.update unit (·.setWidth width) })

/-- An entry of the journal. Resources are given by their positions. -/
inductive Act
  | request (key : ResourceKey) (prepare : Rtl.Resource → Rtl.Resource)
  | transition
  | dataFlow (width : UInt64)
  | hold (e : Entity) (width : UInt64)
  | register (name : String) (type : Rtl.ValueType) (kind : Rtl.RegisterKind)
      (initial : Option Int64)
  | fresh (stem : String) (type : Rtl.ValueType) (kind : Rtl.RegisterKind)
      (initial : Option Int64)
  | member (e : Entity) (width : UInt64) (initial : Int64)
  | state
  | insn
  | owner (e : Entity) (r : Nat)
  | accessor (e : Entity) (r : Nat)
  | channel (object : Nat) (name : String) (width : UInt64) (kind : String) (r : Nat)

namespace Act

def run (b : Builder) : Act → Except Fault Builder
  | request key prepare => .ok (b.resource (·.request key prepare)).2
  | transition => .ok (b.resource Pool.transition).2
  | dataFlow width => .ok (b.resource (·.dataFlow width)).2
  | hold e width => .ok (b.hold e width).2
  | register name type kind initial => .ok (b.addRegister name type kind initial).2
  | fresh stem type kind initial => .ok (b.freshRegister stem type kind initial).2
  | member e width initial => .ok (b.memberRegister e width initial).2
  | state => .ok b.newState.2
  | insn => .ok b.newInsn.2
  | owner e r => do return { b with links := ← b.links.addOwner e (b.pool.ref r) }
  | accessor e r => .ok { b with links := b.links.addAccessor e (b.pool.ref r) }
  | channel object name width kind r =>
    .ok { b with channels := b.channels.add object name width kind (b.pool.ref r) }

def onPool (p : Pool) : Act → Pool
  | request key prepare => (p.request key prepare).2
  | transition => p.transition.2
  | dataFlow width => (p.dataFlow width).2
  | hold e width =>
    (p.sharedMember e true false).2.update (p.sharedMember e true false).1 (·.setWidth width)
  | _ => p

/-- Whether an act is one of the thread that the ownership is settled for: what it keeps or holds
is as wide as it is declared, and what it holds it owns. -/
def Fits (m : Machine) (owners : OwnershipTable) (thread : ThreadId) : Act → Prop
  | request key prepare => Pool.IsPlain key.kind ∧ ∀ r, (prepare r).kind = r.kind
  | hold e width => ∃ initial, e.declared? m = some (width, initial)
  | member e width initial => e.declared? m = some (width, initial)
  | owner e _ => (owners.get e).isOwner thread = true
  | _ => True

end Act

def perform (acts : List Act) (b : Builder) : Except Fault Builder := acts.foldlM Act.run b

variable {b b' c : Builder} {R : Registry} {act : Act} {acts acts' : List Act}

@[simp] theorem perform_nil : perform [] b = .ok b := rfl

theorem perform_cons : perform (act :: acts) b = .ok c ↔
    ∃ b₁, act.run b = .ok b₁ ∧ perform acts b₁ = .ok c := by
  rw [perform, List.foldlM_cons, except_bind_eq_ok]
  rfl

@[simp] theorem perform_singleton : perform [act] b = act.run b := by
  cases h : act.run b <;> simp [perform, h, Bind.bind, Except.bind, pure, Except.pure]

theorem perform_append : perform (acts ++ acts') b = .ok c ↔
    ∃ b₁, perform acts b = .ok b₁ ∧ perform acts' b₁ = .ok c := by
  rw [perform, List.foldlM_append, except_bind_eq_ok]
  rfl

theorem perform_rel {P : Act → Prop} {S : Builder → Builder → Prop} (hrefl : ∀ b, S b b)
    (htrans : ∀ {a b c}, S a b → S b c → S a c)
    (hact : ∀ {act b c}, P act → act.run b = .ok c → S b c) (hacts : ∀ act ∈ acts, P act)
    (h : perform acts b = .ok c) : S b c := by
  induction acts generalizing b with
  | nil =>
    cases h
    exact hrefl _
  | cons act rest ih =>
    obtain ⟨b₁, hb₁, hrest⟩ := perform_cons.mp h
    exact htrans (hact (hacts act (by simp)) hb₁)
      (ih (fun act' h' => hacts act' (List.mem_cons_of_mem _ h')) hrest)

theorem Act.run_owner {e : Entity} {r : Nat} : (Act.owner e r).run b = .ok c ↔
    ∃ links, b.links.addOwner e (b.pool.ref r) = .ok links ∧ c = { b with links := links } := by
  simp only [run, except_bind_eq_ok]
  exact ⟨fun ⟨links, hlinks, h⟩ => ⟨links, hlinks, (Except.ok.inj h).symm⟩,
    fun ⟨links, hlinks, h⟩ => ⟨links, hlinks, h ▸ rfl⟩⟩

theorem Act.run_pool (h : act.run b = .ok b') : b'.pool = act.onPool b.pool := by
  cases act with
  | member e width initial =>
    cases h
    rw [memberRegister_eq]
    split <;> rfl
  | owner e r =>
    obtain ⟨links, -, rfl⟩ := run_owner.mp h
    rfl
  | _ =>
    cases h
    rfl

theorem memberRegister_setRegistry (b : Builder) (R : Registry) (e : Entity) (width : UInt64)
    (initial : Int64) : (b.setRegistry R).memberRegister e width initial =
      ((b.memberRegister e width initial).1, (b.memberRegister e width initial).2.setRegistry R) := by
  have hmembers : (b.setRegistry R).members = b.members := rfl
  rw [memberRegister_eq, memberRegister_eq, hmembers]
  cases b.members.lookup e <;> rfl

theorem Act.run_setRegistry (h : act.run b = .ok b') (h' : act.run (b.setRegistry R) = .ok c) :
    ∃ R', c = b'.setRegistry R' := by
  cases act with
  | owner e r =>
    obtain ⟨links, -, rfl⟩ := run_owner.mp h
    obtain ⟨links', -, rfl⟩ := run_owner.mp h'
    exact ⟨⟨links', R.channels⟩, rfl⟩
  | member e width initial =>
    cases h
    cases h'
    exact ⟨R, by rw [memberRegister_setRegistry]⟩
  | accessor e r =>
    cases h
    cases h'
    exact ⟨⟨R.links.addAccessor e (b.pool.ref r), R.channels⟩, rfl⟩
  | channel object name width kind r =>
    cases h
    cases h'
    exact ⟨⟨R.links, R.channels.add object name width kind (b.pool.ref r)⟩, rfl⟩
  | _ =>
    cases h
    cases h'
    exact ⟨R, rfl⟩

theorem perform_setRegistry (h : perform acts b = .ok b')
    (h' : perform acts (b.setRegistry R) = .ok c) :
    ∃ R', c = b'.setRegistry R' := by
  induction acts generalizing b R with
  | nil =>
    cases h
    cases h'
    exact ⟨R, rfl⟩
  | cons act rest ih =>
    obtain ⟨b₁, hb₁, h⟩ := perform_cons.mp h
    obtain ⟨c₁, hc₁, h'⟩ := perform_cons.mp h'
    obtain ⟨R₁, rfl⟩ := Act.run_setRegistry hb₁ hc₁
    exact ih h h'

end Builder

open Builder (Act perform perform_append perform_setRegistry)

class Journaled (σ : Type) where
  builder : σ → Builder
  setBuilder : σ → Builder → σ
  builder_setBuilder (s : σ) (b : Builder) : builder (setBuilder s b) = b
  setBuilder_setBuilder (s : σ) (b b' : Builder) :
    setBuilder (setBuilder s b) b' = setBuilder s b'

namespace Journaled

def setRegistry {σ : Type} [Journaled σ] (s : σ) (R : Registry) : σ :=
  setBuilder s ((builder s).setRegistry R)

instance : Journaled Builder := ⟨id, fun _ b => b, fun _ _ => rfl, fun _ _ _ => rfl⟩

instance : Journaled Lowering :=
  ⟨(·.builder), fun l b => { l with builder := b }, fun _ _ => rfl, fun _ _ _ => rfl⟩

instance : Journaled Expansion :=
  ⟨(·.builder), fun x b => { x with builder := b }, fun _ _ => rfl, fun _ _ _ => rfl⟩

end Journaled

section Logs

open Journaled (builder setBuilder setRegistry builder_setBuilder setBuilder_setBuilder)

variable {σ α β : Type} [Journaled σ] {P : Act → Prop}

/-- Whether all that a computation does to the builder are acts that are allowed, and whether it
ends in the same way with another registry, if the acts can be performed there. -/
def Logs (P : Act → Prop) (x : StateT σ (Except Stop) α) : Prop :=
  ∀ (s : σ) (a : α) (s' : σ), x.run s = .ok (a, s') → ∃ acts, (∀ act ∈ acts, P act) ∧
    perform acts (builder s) = .ok (builder s') ∧
    ∀ (R R' : Registry),
      perform acts ((builder s).setRegistry R) = .ok ((builder s').setRegistry R') →
      x.run (setRegistry s R) = .ok (a, setRegistry s' R')

theorem logs_of_ne_ok {x : StateT σ (Except Stop) α} (h : ∀ s r, x.run s ≠ .ok r) : Logs P x :=
  fun s a s' hrun => absurd hrun (h s (a, s'))

theorem logs_of_quiet {x : StateT σ (Except Stop) α}
    (h : ∀ {s a s'}, x.run s = .ok (a, s') → builder s' = builder s ∧
      ∀ R, x.run (setRegistry s R) = .ok (a, setRegistry s' R)) : Logs P x := by
  intro s a s' hrun
  obtain ⟨hsame, hreplay⟩ := h hrun
  refine ⟨[], by simp, by rw [hsame, Builder.perform_nil], fun R R' hperform => ?_⟩
  rw [Builder.perform_nil, hsame] at hperform
  have hR : R = R' := congrArg Builder.registry (Except.ok.inj hperform)
  exact hR ▸ hreplay R

theorem logs_pure (a : α) : Logs P (pure a : StateT σ (Except Stop) α) :=
  logs_of_quiet fun {s b s'} h => by
    cases run_pure_eq_ok.mp h
    exact ⟨rfl, fun R => rfl⟩

theorem logs_modify {f : σ → σ} (hbuilder : ∀ s, builder (f s) = builder s)
    (hregistry : ∀ s R, f (setRegistry s R) = setRegistry (f s) R) :
    Logs P (modify f : StateT σ (Except Stop) PUnit) :=
  logs_of_quiet fun {s b s'} h => by
    cases run_modify_eq_ok.mp h
    exact ⟨hbuilder s, fun R => run_modify_eq_ok.mpr (by rw [hregistry])⟩

theorem logs_of_act {x : StateT σ (Except Stop) α} {f : Builder → α × Builder} {act : Act}
    (hact : P act) (hact_run : ∀ b, act.run b = .ok (f b).2)
    (hanswer : ∀ b R, (f (b.setRegistry R)).1 = (f b).1)
    (hx : ∀ s, x.run s = .ok ((f (builder s)).1, setBuilder s (f (builder s)).2)) : Logs P x := by
  intro s a s' hrun
  rw [hx s] at hrun
  cases hrun
  refine ⟨[act], by simpa using hact, ?_, fun R R' hperform => ?_⟩
  · rw [Builder.perform_singleton, hact_run, builder_setBuilder]
  · rw [Builder.perform_singleton, hact_run, builder_setBuilder] at hperform
    rw [hx, setRegistry, builder_setBuilder, setBuilder_setBuilder, hanswer,
      Except.ok.inj hperform, setRegistry, builder_setBuilder, setBuilder_setBuilder]

theorem Logs.bind {x : StateT σ (Except Stop) α} {f : α → StateT σ (Except Stop) β}
    (hx : Logs P x) (hf : ∀ a, Logs P (f a)) : Logs P (x >>= f) := by
  intro s b s' hrun
  obtain ⟨a, s₁, hrun₁, hrun₂⟩ := run_bind_eq_ok.mp hrun
  obtain ⟨acts₁, hacts₁, hperform₁, hreplay₁⟩ := hx s a s₁ hrun₁
  obtain ⟨acts₂, hacts₂, hperform₂, hreplay₂⟩ := hf a s₁ b s' hrun₂
  refine ⟨acts₁ ++ acts₂, fun act hact => ?_, perform_append.mpr ⟨_, hperform₁, hperform₂⟩,
    fun R R' hperform => ?_⟩
  · exact (List.mem_append.mp hact).elim (hacts₁ act) (hacts₂ act)
  · obtain ⟨c, hc, hrest⟩ := perform_append.mp hperform
    obtain ⟨R₁, rfl⟩ := perform_setRegistry hperform₁ hc
    exact run_bind_eq_ok.mpr ⟨a, setRegistry s₁ R₁, hreplay₁ R R₁ hc, hreplay₂ R₁ R' hrest⟩

theorem Logs.rel {x : StateT σ (Except Stop) α} {s s' : σ} {a : α} (hx : Logs P x)
    {S : Builder → Builder → Prop} (hrefl : ∀ b, S b b)
    (htrans : ∀ {a b c}, S a b → S b c → S a c)
    (hact : ∀ {act b c}, P act → Act.run b act = .ok c → S b c) (h : x.run s = .ok (a, s')) :
    S (builder s) (builder s') := by
  obtain ⟨acts, hacts, hperform, -⟩ := hx s a s' h
  exact Builder.perform_rel hrefl htrans hact hacts hperform

/-- What every allowed act keeps true of a pool stays true of the one in the builder. -/
theorem Logs.pool {x : StateT σ (Except Stop) α} {s s' : σ} {a : α} (hx : Logs P x)
    {S : Pool → Prop} (hkeep : ∀ {act p}, P act → S p → S (Act.onPool p act))
    (h : x.run s = .ok (a, s')) (hs : S (builder s).pool) : S (builder s').pool := by
  refine hx.rel (S := fun b b' => S b.pool → S b'.pool) (fun _ => id)
    (fun hab hbc hb => hbc (hab hb)) (fun hact hrun hb => ?_) h hs
  rw [Act.run_pool hrun]
  exact hkeep hact hb

theorem logs_get {f : σ → StateT σ (Except Stop) α} (hf : ∀ s, Logs P (f s))
    (hreplay : ∀ s R, f (setRegistry s R) = f s) : Logs P (get >>= f) := by
  intro s a s' hrun
  rw [run_bind_of_ok (run_get_eq_ok.mpr rfl)] at hrun
  obtain ⟨acts, hacts, hperform, hrest⟩ := hf s s a s' hrun
  refine ⟨acts, hacts, hperform, fun R R' hR => ?_⟩
  rw [run_bind_of_ok (run_get_eq_ok.mpr rfl), hreplay]
  exact hrest R R' hR

end Logs
end Synth
end MachineSynth
