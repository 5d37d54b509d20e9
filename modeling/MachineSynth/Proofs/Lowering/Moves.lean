import Mathlib
import MachineSynth.Proofs.Lowering.Instructions
import MachineSynth.Proofs.Tidiness

/-! Moves: the elementary changes that lowering is made of. What a part of the lowering may do is
said once, with the moves; what one move preserves, lowering does. -/
namespace MachineSynth

/-- Whether a value is a number that never changes. -/
def Value.isConstant : Value → Bool
  | num _ _ const | enum _ _ const => const
  | _ => false

theorem Value.Stores.isConstant_eq {v : Value} {width : UInt64} {value : Int64} {const : Bool}
    (h : v.Stores width value const) : v.isConstant = const := by
  cases h <;> rfl

/-- The type of what a register holds, if that is no object. -/
def Register.type? (r : Register) : Option Rtl.ValueType :=
  match r.kind with
  | .num => some (.unsigned r.width)
  | .enum => some .truth
  | .object | .method => none

theorem Register.eq_of_type? {r : Register} {t : Rtl.ValueType} (h : r.type? = some t) :
    t = .unsigned (if r.kind = .enum then 0 else r.width) := by
  unfold type? at h
  split at h <;> rename_i hkind <;> cases h <;> simp [hkind, Rtl.ValueType.truth,
    Rtl.ValueType.unsigned]

/-- The type of what a register of a method holds. -/
def Method.type? (f : Method) (r : RegisterId) : Option Rtl.ValueType :=
  (f.register? r).bind (·.type?)

/-- Whether a register is declared as a constant. -/
def Method.Declares (f : Method) (r : RegisterId) : Prop :=
  ∃ reg, f.register? r = some reg ∧ reg.const.isSome

/-- Whether a place of a table is a register that is no constant. -/
def Rtl.Writable (regs : List Rtl.Register) (j : Nat) : Prop :=
  ∃ reg, regs[j]? = some reg ∧ reg.kind ≠ .const

theorem Rtl.Writable.mono {R R' : List Rtl.Register} {j : Nat} (h : Writable R j) (hR : R <+: R') :
    Writable R' j := by
  obtain ⟨reg, hreg, hkind⟩ := h
  exact ⟨reg, getElem?_of_isPrefix hR hreg, hkind⟩

theorem Rtl.Writable.lt {R : List Rtl.Register} {j : Nat} (h : Writable R j) : j < R.length := by
  obtain ⟨reg, hreg, -⟩ := h
  exact (List.getElem?_eq_some_iff.mp hreg).1

namespace Synth

/-- Whether a table register has the type of a register of the method. -/
def Site.Holds (s : Site) (R : List Rtl.Register) (r : RegisterId) (j : Nat) : Prop :=
  ∀ t, s.method.type? r = some t → (R[j]?).map (·.type) = some t

theorem Site.Holds.mono {s : Site} {R R' : List Rtl.Register} {r : RegisterId} {j : Nat}
    (h : s.Holds R r j) (hR : R <+: R') : s.Holds R' r j := by
  intro t ht
  obtain ⟨reg, hreg, htype⟩ := Option.map_eq_some_iff.mp (h t ht)
  rw [getElem?_of_isPrefix hR hreg, Option.map_some, htype]

/-- Whether a table register suits a register of the method: it has its type, and can be written
unless the register is a constant. -/
structure Site.Matches (s : Site) (R : List Rtl.Register) (r : RegisterId) (j : Nat) : Prop where
  holds : s.Holds R r j
  writable : ¬ s.method.Declares r → Rtl.Writable R j

/-- Whether a register of the method is that of a result. -/
def Site.IsResult (s : Site) (r : RegisterId) : Prop :=
  ∃ n < s.method.returns.length, r = s.method.returnRegister (UInt64.ofNat n)

section Obeys

variable {σ ε α β : Type} {E : ε → Prop} {step : σ → σ → Prop}

/-- Whether a computation stops only as allowed, and otherwise ends as required. -/
def Ends (E : ε → Prop) (Q : α → σ → Prop) (x : StateT σ (Except ε) α) (s : σ) : Prop :=
  (∀ e, x.run s = .error e → E e) ∧ ∀ a s', x.run s = .ok (a, s') → Q a s'

theorem ends_of_ok {Q : α → σ → Prop} {x : StateT σ (Except ε) α} {s s' : σ} {a : α}
    (h : x.run s = .ok (a, s')) (hQ : Q a s') : Ends E Q x s := by
  refine ⟨fun e he => ?_, fun b s₁ hs => ?_⟩
  · cases h.symm.trans he
  · cases h.symm.trans hs
    exact hQ

theorem ends_of_error {Q : α → σ → Prop} {x : StateT σ (Except ε) α} {s : σ} {e : ε}
    (h : x.run s = .error e) (he : E e) : Ends E Q x s := by
  refine ⟨fun e₁ he₁ => ?_, fun b s₁ hs => ?_⟩
  · cases h.symm.trans he₁
    exact he
  · cases h.symm.trans hs

theorem Ends.bind {P : α → σ → Prop} {Q : β → σ → Prop} {x : StateT σ (Except ε) α}
    {f : α → StateT σ (Except ε) β} {s : σ} (hx : Ends E P x s)
    (hf : ∀ a s', x.run s = .ok (a, s') → P a s' → Ends E Q (f a) s') : Ends E Q (x >>= f) s := by
  cases hrun : x.run s with
  | error e =>
    refine ends_of_error (e := e) ?_ (hx.1 e hrun)
    rw [StateT.run_bind, hrun]
    rfl
  | ok p =>
    obtain ⟨a, s₁⟩ := p
    obtain ⟨herror, hok⟩ := hf a s₁ hrun (hx.2 a s₁ hrun)
    refine ⟨fun e he => herror e ?_, fun b s₂ hb => hok b s₂ ?_⟩
    · rwa [run_bind_of_ok hrun] at he
    · rwa [run_bind_of_ok hrun] at hb

theorem Ends.mono {E' : ε → Prop} {P Q : α → σ → Prop} {x : StateT σ (Except ε) α} {s : σ}
    (h : Ends E P x s) (hE : ∀ e, E e → E' e) (hPQ : ∀ a s', P a s' → Q a s') : Ends E' Q x s :=
  ⟨fun e he => hE e (h.1 e he), fun a s' hs => hPQ a s' (h.2 a s' hs)⟩

theorem preserved_of_steps {P : σ → Prop} (hP : ∀ {a b}, step a b → P a → P b) {s s' : σ}
    (h : Relation.ReflTransGen step s s') (hs : P s) : P s' := by
  induction h with
  | refl => exact hs
  | tail _ hstep ih => exact hP hstep ih

/-- Whether a computation stops only as allowed, and otherwise gets on by steps. -/
def Obeys (E : ε → Prop) (step : σ → σ → Prop) (x : StateT σ (Except ε) α) (s : σ) : Prop :=
  Ends E (fun _ s' => Relation.ReflTransGen step s s') x s

theorem Obeys.bind {x : StateT σ (Except ε) α} {f : α → StateT σ (Except ε) β} {s : σ}
    (hx : Obeys E step x s) (hf : ∀ a s', x.run s = .ok (a, s') → Obeys E step (f a) s') :
    Obeys E step (x >>= f) s :=
  Ends.bind hx fun a s₁ ha hs₁ => (hf a s₁ ha).mono (fun _ => id) fun _ _ => hs₁.trans

/-- What steps preserve is still there when the rest starts. -/
theorem Obeys.bind_of_preserved {P : σ → Prop} {x : StateT σ (Except ε) α}
    {f : α → StateT σ (Except ε) β} {s : σ} (hx : Obeys E step x s)
    (hP : ∀ a b, step a b → P a → P b) (hs : P s)
    (hf : ∀ a s', x.run s = .ok (a, s') → P s' → Obeys E step (f a) s') :
    Obeys E step (x >>= f) s :=
  hx.bind fun a s₁ ha =>
    hf a s₁ ha (preserved_of_steps (fun {a b} (hab : step a b) => hP a b hab) (hx.2 a s₁ ha) hs)

theorem obeys_of_ok {x : StateT σ (Except ε) α} {s s' : σ} {a : α} (h : x.run s = .ok (a, s'))
    (hstep : Relation.ReflTransGen step s s') : Obeys E step x s :=
  ends_of_ok h hstep

theorem obeys_of_error {x : StateT σ (Except ε) α} {s : σ} {e : ε} (h : x.run s = .error e)
    (he : E e) : Obeys E step x s :=
  ends_of_error h he

theorem obeys_pure (a : α) (s : σ) : Obeys E step (pure a) s :=
  obeys_of_ok (run_pure_eq_ok.mpr rfl) .refl

theorem obeys_get (s : σ) : Obeys E step get s := obeys_of_ok (run_get_eq_ok.mpr rfl) .refl

theorem obeys_modify {f : σ → σ} {s : σ} (h : step s (f s)) :
    Obeys E step (modify f : StateT σ (Except ε) PUnit) s :=
  obeys_of_ok (run_modify_eq_ok.mpr rfl) (.single h)

theorem Obeys.mono {E' : ε → Prop} {step' : σ → σ → Prop} {x : StateT σ (Except ε) α} {s : σ}
    (h : Obeys E step x s) (hE : ∀ e, E e → E' e) (hstep : ∀ a b, step a b → step' a b) :
    Obeys E' step' x s :=
  Ends.mono h hE fun _ s' => Relation.ReflTransGen.mono hstep s s'

end Obeys

namespace Walker

/-- Whether a scan gets past an instruction: what the instruction names is there, and of the kind
that it takes it for. -/
def Passes (m : Machine) (w : Walker) : Insn → Prop
  | .loadObject target object label => ∃ w', w.load m target object label = .ok w'
  | i@(.memberRead _ _ label) | i@(.memberWrite _ label _) =>
    ∃ owner w' v, w.access m i = .ok (owner, w') ∧
      (m.object? owner).bind (·.lookup? label) = some v ∧ v.kind ≠ .method
  | .arrayRead _ object _ | .arrayWrite object _ _ =>
    ∃ id o, w.objectOf? object = some id ∧ m.object? id = some o ∧ o.isArray = true
  | .call object label _ =>
    ∃ callee f, w.objectOf? object = some callee ∧ calledMethod? m (some callee) label = some f
  | _ => True

/-- Whether a scan gets past all instructions of a sequence. -/
def Guarded (m : Machine) (w : Walker) (code : List Insn) : Prop :=
  ∀ (k : Nat) (i : Insn) (v : Walker), code[k]? = some i → w.walk m (code.take k) = .ok v →
    v.Passes m i

theorem Guarded.head {m : Machine} {w : Walker} {i : Insn} {code : List Insn}
    (h : w.Guarded m (i :: code)) : w.Passes m i :=
  h 0 i w rfl rfl

theorem Guarded.tail {m : Machine} {w w' : Walker} {i : Insn} {code : List Insn}
    (h : w.Guarded m (i :: code)) (hstep : w.step m i = .ok w') : w'.Guarded m code :=
  fun k j v hj hv => h (k + 1) j v hj (by rw [List.take_succ_cons, walk_cons hstep]; exact hv)

/-- Whether an instruction, which belongs to a method of an object, is a call that has to be
expanded. -/
def Leaves (m : Machine) (w : Walker) (object : Nat) (i : Insn) (c : Callee) : Prop :=
  ∃ r args, i = .call r c.method args ∧ w.objectOf? r = some c.object ∧
    c.outside = (c.object != object) ∧ w.isNativeCall m r c.method = false

/-- Whether an instruction makes a register of the method stand for a constant, as it does for a
number and for a member that is constant. -/
def Rebinds (m : Machine) (w : Walker) (i : Insn) (r : RegisterId) : Prop :=
  (∃ source, i = .num r source) ∨
    ∃ object label owner v, i = .memberRead r object label ∧ w.objectOf? object = some owner ∧
      (m.object? owner).bind (·.lookup? label) = some v ∧ v.isConstant = true

/-- The registers that an instruction gives values. One that comes to hold an object is given
none. -/
def results (m : Machine) (w : Walker) : Insn → List RegisterId
  | .loadObject _ _ _ => []
  | .memberRead target object label =>
    match ((w.objectOf? object).bind m.object?).bind (·.lookup? label) with
    | some (.object _) => []
    | _ => [target]
  | i => i.definitions

end Walker

def Stop.IsOfLowering : Stop → Prop
  | .fault (.unknownRegister _ _ _) | .fault (.nonNumeric _) | .fault (.unknownOperator _)
  | .fault (.notConstant _ _ _) | .fault (.severalOwners _) | .fault (.writeToObject _ _)
  | .fault (.writeToConstant _ _) | .fault (.channelExpected _ _) | .fault (.transferExpected _)
  | .fault (.doneWithoutCall _ _) | .fault (.jumpOutOfRange _ _ _) => True
  | .error (.unsupportedNative _ _) | .error (.unsupportedArgument _ _ _ _)
  | .error (.outputWithoutArgument _ _) | .error (.inputWithoutReturn _ _) => True
  | _ => False

/-- A later builder: what members have come to be held in can be written, and the builder stays
tidy. -/
structure Builder.Grows (b b' : Builder) : Prop extends b.Extends b' where
  writable : ∀ {e : Entity} {j : Nat}, b'.members.lookup e = some j →
    b.members.lookup e = some j ∨ Rtl.Writable b'.registers j
  tidy : b.Tidy → b'.Tidy

namespace Builder

theorem Grows.refl (b : Builder) : b.Grows b := ⟨.refl b, .inl, id⟩

theorem Grows.trans {a b c : Builder} (h : a.Grows b) (h' : b.Grows c) : a.Grows c := by
  refine ⟨h.toExtends.trans h'.toExtends, fun hj => ?_, fun ha => h'.tidy (h.tidy ha)⟩
  obtain hj | hnew := h'.writable hj
  · exact (h.writable hj).imp_right (·.mono h'.registers)
  · exact .inr hnew

variable {b : Builder}

theorem grows_setPool {pool : Pool} (hext : b.pool.Extends pool) (ht : b.pool.Tidy → pool.Tidy) :
    b.Grows { b with pool := pool } :=
  ⟨setPool_extends hext, .inl, fun hb => hb.setPool (ht hb.pool) hext⟩

theorem grows_resource {take : Pool → Nat × Pool} {kind : String}
    (ht : Pool.TakesTidily take kind) : b.Grows (b.resource take).2 :=
  grows_setPool (ht.grows b.pool) ht.tidy

theorem grows_setWidth (r : Nat) (width : UInt64) :
    b.Grows { b with pool := b.pool.update r (·.setWidth width) } :=
  grows_setPool (Pool.update_extends fun r _ => Pool.setWidth_becomes r width) fun hp =>
    Pool.update_tidy hp (fun _ => rfl) (fun _ => rfl) (fun _ => rfl) fun _ _ hq => .inl hq

theorem grows_constant (width : UInt64) (value : Int64) : b.Grows (b.constant width value).2 :=
  ⟨addRegister_extends _ _ _ _ _, .inl, fun hb => hb.addRegister _ _ _ _⟩

theorem grows_storage (stem : String) (width : UInt64) : b.Grows (b.storage stem width).2 :=
  ⟨freshRegister_extends _ _ _ _ _, .inl, fun hb => hb.freshRegister _ _ _ _⟩

theorem writable_storage (stem : String) (width : UInt64) :
    Rtl.Writable (b.storage stem width).2.registers (b.storage stem width).1 := by
  obtain ⟨reg, hreg, hkind, -⟩ := b.getElem?_freshRegister stem (.unsigned width) .storage none
  exact ⟨reg, hreg, by simp [hkind]⟩

theorem grows_memberRegister (e : Entity) (width : UInt64) (initial : Int64) :
    b.Grows (b.memberRegister e width initial).2 := by
  refine ⟨b.memberRegister_extends e width initial, fun {e' j} hj => ?_,
    fun hb => (hb.memberRegister e width initial).1⟩
  rw [memberRegister_eq] at hj ⊢
  cases hlookup : b.members.lookup e with
  | some k =>
    simp only [hlookup] at hj
    exact .inl hj
  | none =>
    simp only [hlookup] at hj ⊢
    rw [lookup_cons_eq] at hj
    split at hj
    · obtain ⟨reg, hreg, hkind, -⟩ := b.getElem?_freshRegister ("m_" ++ e.member)
        (.unsigned width) .storage (some initial)
      exact .inr (Option.some.inj hj ▸ ⟨reg, hreg, by simp [hkind]⟩)
    · exact .inl hj

theorem grows_newState : b.Grows b.newState.2 :=
  ⟨newState_extends b, .inl, fun hb => hb.newState⟩

theorem grows_newInsn : b.Grows b.newInsn.2 := ⟨newInsn_extends b, .inl, fun hb => hb.newInsn⟩

theorem grows_links {links : Links Rtl.ResourceRef} (h : b.Extends { b with links := links }) :
    b.Grows { b with links := links } :=
  ⟨h, .inl, fun hb => ⟨hb.pool, hb.register, hb.member, hb.channels⟩⟩

/-- A use of a channel, by a resource that the builder has a key for. -/
theorem grows_channel {key : ResourceKey} {unit : Nat} (hunit : b.pool.keys.lookup key = some unit)
    (object : Nat) (name : String) (width : UInt64) (kind : String) : b.Grows { b with
      channels := b.channels.add object name width kind (b.pool.ref unit) } :=
  ⟨⟨.refl _, List.prefix_rfl, id, .inl, id, id, le_rfl, le_rfl⟩, .inl, fun hb => ⟨hb.pool,
    hb.register, hb.member,
    Channels.add_within hb.channels _ _ _ _ rfl (Rtl.lt_of_kindAt (hb.pool.kind hunit))⟩⟩

end Builder

namespace Lowering

/-- Whether a table register is that of a register of the method, if it is one of some, or that of a
member, or one of the table that is as required. -/
def Has (l : Lowering) (P : RegisterId → Prop) (Q : Rtl.Register → Prop) (j : Nat) : Prop :=
  (∃ r, P r ∧ l.locals.lookup r = some j) ∨ (∃ e, l.builder.members.lookup e = some j) ∨
    ∃ reg, l.builder.registers[j]? = some reg ∧ Q reg

/-- Whether a table register is known, and so can be read. -/
def Knows (l : Lowering) (j : Nat) : Prop := l.Has (fun _ => True) (fun _ => True) j

/-- Whether a table register can be given a value, if some registers of the method may be. -/
def Gives (l : Lowering) (gives : RegisterId → Prop) (j : Nat) : Prop :=
  l.Has gives (·.kind ≠ .const) j

/-- Whether an instruction reads what is known, and gives values to what may be given one. -/
structure Admits (l : Lowering) (gives : RegisterId → Prop) (i : Rtl.Insn) : Prop where
  inputs : ∀ j ∈ i.inputs, l.Knows j
  outputs : ∀ j ∈ i.outputs, l.Gives gives j

/-- A part of the lowering that finds what a state needs, and keeps what was found before. -/
structure Fetches (l l' : Lowering) : Prop where
  states : l'.states = l.states
  builder : l.builder.Grows l'.builder
  kept : ∀ {r : RegisterId} {j : Nat}, l.locals.lookup r = some j → l'.locals.lookup r = some j

theorem Fetches.refl (l : Lowering) : l.Fetches l := ⟨rfl, .refl _, id⟩

variable {a b c l l' : Lowering} {P : RegisterId → Prop} {Q : Rtl.Register → Prop}
  {gives : RegisterId → Prop} {j : Nat}

theorem Fetches.trans (h : a.Fetches b) (h' : b.Fetches c) : a.Fetches c :=
  ⟨h'.states.trans h.states, h.builder.trans h'.builder, fun hj => h'.kept (h.kept hj)⟩

theorem Has.fetches (h : l.Has P Q j) (hf : l.Fetches l') : l'.Has P Q j := by
  obtain ⟨r, hr, hj⟩ | ⟨e, he⟩ | ⟨reg, hreg, hQ⟩ := h
  · exact .inl ⟨r, hr, hf.kept hj⟩
  · exact .inr (.inl ⟨e, hf.builder.member he⟩)
  · exact .inr (.inr ⟨reg, getElem?_of_isPrefix hf.builder.registers hreg, hQ⟩)

theorem Knows.fetches (h : l.Knows j) (hf : l.Fetches l') : l'.Knows j := Has.fetches h hf

theorem Gives.fetches (h : l.Gives gives j) (hf : l.Fetches l') : l'.Gives gives j :=
  Has.fetches h hf

theorem knows_local {r : RegisterId} (hj : l.locals.lookup r = some j) : l.Knows j :=
  .inl ⟨r, trivial, hj⟩

theorem knows_lt (hj : j < l.builder.registers.length) : l.Knows j :=
  .inr (.inr ⟨_, List.getElem?_eq_getElem hj, trivial⟩)

theorem knows_member {e : Entity} (hj : l.builder.members.lookup e = some j) : l.Knows j :=
  .inr (.inl ⟨e, hj⟩)

theorem gives_member {e : Entity} (hj : l.builder.members.lookup e = some j) : l.Gives gives j :=
  .inr (.inl ⟨e, hj⟩)

theorem gives_local {r : RegisterId} (hr : gives r) (hj : l.locals.lookup r = some j) :
    l.Gives gives j :=
  .inl ⟨r, hr, hj⟩

theorem gives_writable (hj : Rtl.Writable l.builder.registers j) : l.Gives gives j := .inr (.inr hj)

theorem Gives.mono {gives' : RegisterId → Prop} (h : l.Gives gives j)
    (hgives : ∀ r, gives r → gives' r) : l.Gives gives' j :=
  h.imp_left fun ⟨r, hr, hj⟩ => ⟨r, hgives r hr, hj⟩

theorem Admits.mono {gives' : RegisterId → Prop} {i : Rtl.Insn} (h : l.Admits gives i)
    (hgives : ∀ r, gives r → gives' r) : l.Admits gives' i :=
  ⟨h.inputs, fun j hj => (h.outputs j hj).mono hgives⟩

end Lowering

/-- A state and what it is rewritten to: it calls what it did, and its instructions have the
registers that they had. Those that have come to it are among some. -/
structure LoweredState.Widens (read written : Nat → Prop) (st st' : LoweredState) : Prop where
  callee : st'.callee = st.callee
  insns : ∀ i ∈ st.insns, ∃ i' ∈ st'.insns, i'.inputs = i.inputs ∧ i.outputs <+: i'.outputs
  inputs : ∀ i' ∈ st'.insns, ∀ j ∈ i'.inputs, read j ∨ ∃ i ∈ st.insns, j ∈ i.inputs
  outputs : ∀ i' ∈ st'.insns, ∀ j ∈ i'.outputs, written j ∨ ∃ i ∈ st.insns, j ∈ i.outputs

namespace LoweredState.Widens

variable {read written : Nat → Prop} {a b c : LoweredState}

theorem refl (st : LoweredState) : st.Widens read written st :=
  ⟨rfl, fun i hi => ⟨i, hi, rfl, List.prefix_rfl⟩, fun i hi _ hj => .inr ⟨i, hi, hj⟩,
    fun i hi _ hj => .inr ⟨i, hi, hj⟩⟩

theorem trans (h : a.Widens read written b) (h' : b.Widens read written c) :
    a.Widens read written c := by
  refine ⟨h'.callee.trans h.callee, fun i hi => ?_, fun k hk j hj => ?_, fun k hk j hj => ?_⟩
  · obtain ⟨i', hi', hin, hout⟩ := h.insns i hi
    obtain ⟨k, hk, hin', hout'⟩ := h'.insns i' hi'
    exact ⟨k, hk, hin'.trans hin, hout.trans hout'⟩
  · obtain hj | ⟨i, hi, hj⟩ := h'.inputs k hk j hj
    · exact .inl hj
    · exact h.inputs i hi j hj
  · obtain hj | ⟨i, hi, hj⟩ := h'.outputs k hk j hj
    · exact .inl hj
    · exact h.outputs i hi j hj

theorem mono {read' written' : Nat → Prop} (h : a.Widens read written b)
    (hread : ∀ j, read j → read' j) (hwritten : ∀ j, written j → written' j) :
    a.Widens read' written' b :=
  ⟨h.callee, h.insns, fun i hi j hj => (h.inputs i hi j hj).imp_left (hread j),
    fun i hi j hj => (h.outputs i hi j hj).imp_left (hwritten j)⟩

end LoweredState.Widens

/-- What a part of the lowering may do: the calls that it may leave in states, the registers of the
method that it may bind anew, those that it may give values to, and whether it may rewrite states,
which only get more. -/
structure Allowance where
  leaves : Callee → Prop
  rebinds : RegisterId → Prop
  gives : RegisterId → Prop
  amends : Prop

/-- Whether what is allowed is allowed by another allowance. -/
structure Allowance.Within (may may' : Allowance) : Prop where
  leaves : ∀ c, may.leaves c → may'.leaves c
  rebinds : ∀ r, may.rebinds r → may'.rebinds r
  gives : ∀ r, may.gives r → may'.gives r
  amends : may.amends → may'.amends

/-- Everything may be done, but only some calls may be left. -/
def Allowance.calling (leaves : Callee → Prop) : Allowance :=
  ⟨leaves, fun _ => True, fun _ => True, True⟩

/-- Everything may be done, but only some registers may be bound anew. -/
def Allowance.rebinding (rebinds : RegisterId → Prop) : Allowance :=
  ⟨fun _ => True, rebinds, fun _ => True, True⟩

/-- States may be rewritten, and some registers given values. -/
def Allowance.giving (gives : RegisterId → Prop) : Allowance :=
  ⟨fun _ => False, fun _ => False, gives, True⟩

/-- No state is added or rewritten, and no register bound anew. -/
def Allowance.none : Allowance := ⟨fun _ => False, fun _ => False, fun _ => False, False⟩

/-- Everything may be done. -/
def Allowance.all : Allowance := .calling fun _ => True

theorem Allowance.within_calling {may : Allowance} {leaves : Callee → Prop}
    (h : ∀ c, may.leaves c → leaves c) : may.Within (.calling leaves) :=
  ⟨h, fun _ _ => trivial, fun _ _ => trivial, fun _ => trivial⟩

theorem Allowance.within_rebinding {may : Allowance} {rebinds : RegisterId → Prop}
    (h : ∀ r, may.rebinds r → rebinds r) : may.Within (.rebinding rebinds) :=
  ⟨fun _ _ => trivial, h, fun _ _ => trivial, fun _ => trivial⟩

theorem Allowance.within_all (may : Allowance) : may.Within .all :=
  within_calling fun _ _ => trivial

/-- The elementary changes of a lowering, given what may be done. A register that is bound for the
first time has a table register that suits it. -/
inductive Lowering.Move (s : Site) (may : Allowance) : Lowering → Lowering → Prop
  | build (l : Lowering) {b : Builder} (grows : l.builder.Grows b) :
      Move s may l { l with builder := b }
  | push (l : Lowering) {b : Builder} (grows : l.builder.Grows b) {st : LoweredState}
      (callee : ∀ c ∈ st.callee, may.leaves c) (admits : ∀ i ∈ st.insns, l.Admits may.gives i) :
      Move s may l { l with builder := b, states := l.states ++ [st] }
  | bind {l : Lowering} {r : RegisterId} {j : Nat} (lt : j < l.builder.registers.length)
      (new : l.locals.lookup r = none ∧ s.Matches l.builder.registers r j ∨ may.rebinds r) :
      Move s may l { l with locals := (r, j) :: l.locals }
  | walk (l : Lowering) (w : Walker) : Move s may l { l with walker := w }
  | link (l : Lowering) {b : Builder} (grows : l.builder.Grows b) {states : List LoweredState}
      (widens : List.Forall₂ (LoweredState.Widens l.Knows (l.Gives may.gives)) l.states states)
      (amended : may.amends) : Move s may l { l with builder := b, states := states }

theorem Lowering.Move.mono {s : Site} {may may' : Allowance} {l l' : Lowering}
    (h : Move s may l l') (hmay : may.Within may') : Move s may' l l' := by
  cases h with
  | build grows => exact .build l grows
  | push grows callee admits =>
    exact .push l grows (fun c hc => hmay.leaves c (callee c hc))
      fun i hi => (admits i hi).mono hmay.gives
  | bind lt new => exact .bind lt (new.imp_right (hmay.rebinds _))
  | walk w => exact .walk l w
  | link grows widens amended =>
    refine .link l grows (widens.imp fun st st' h => h.mono (fun _ => id) fun j hj => ?_)
      (hmay.amends amended)
    exact hj.mono hmay.gives

namespace Lowering

variable {s : Site} {may : Allowance} {l l' : Lowering}

theorem Move.grows (h : Move s may l l') : l.builder.Grows l'.builder := by
  cases h with
  | build grows | push grows _ _ | link grows _ _ => exact grows
  | bind | walk => exact .refl _

theorem grows_of_moves (h : Relation.ReflTransGen (Move s may) l l') :
    l.builder.Grows l'.builder :=
  preserved_of_steps (P := fun a => l.builder.Grows a.builder)
    (fun hmove hgrows => hgrows.trans hmove.grows) h (.refl _)

theorem Move.within {i : Rtl.Insn} (h : Move s may l l')
    (hi : i.Within l.builder.registers.length) : i.Within l'.builder.registers.length :=
  hi.mono h.grows.registers.length_le

/-- Whether what registers of the method are bound to is in the table. -/
def Bounded (l : Lowering) : Prop :=
  ∀ (r : RegisterId) (j : Nat), l.locals.lookup r = some j → j < l.builder.registers.length

theorem Move.bounded (h : Move s may l l') (hl : l.Bounded) : l'.Bounded := by
  have hgrown : ∀ {b : Builder} {states : List LoweredState}, l.builder.Grows b →
      Bounded { l with builder := b, states := states } :=
    fun hb r j hj => (hl r j hj).trans_le hb.registers.length_le
  cases h with
  | build grows | push grows _ _ | link grows _ _ => exact hgrown grows
  | walk => exact hl
  | bind lt =>
    intro r' j hj
    rw [lookup_cons_eq] at hj
    split at hj
    · exact Option.some.inj hj ▸ lt
    · exact hl r' j hj

theorem bounded_of_moves (h : Relation.ReflTransGen (Move s may) l l') (hl : l.Bounded) :
    l'.Bounded :=
  preserved_of_steps (P := Bounded) (fun hmove => hmove.bounded) h hl

end Lowering

namespace Lower

variable {α : Type} {s : Site} {l l' : Lowering}

section Fetching

theorem build_fetches {f : Builder → α × Builder} {a : α}
    (hf : l.builder.Grows (f l.builder).2) (h : (build f).run l = .ok (a, l')) : l.Fetches l' := by
  cases run_build_eq_ok.mp h
  exact ⟨rfl, hf, id⟩

theorem resource_fetches {take : Pool → Nat × Pool} {kind : String} {unit : Nat}
    (ht : Pool.TakesTidily take kind) (h : (resource take).run l = .ok (unit, l')) :
    l.Fetches l' :=
  build_fetches (Builder.grows_resource ht) h

theorem constant_fetches {width : UInt64} {value : Int64} {j : Nat}
    (h : (build (·.constant width value)).run l = .ok (j, l')) : l.Fetches l' ∧ l'.Knows j := by
  refine ⟨build_fetches (Builder.grows_constant width value) h, ?_⟩
  cases run_build_eq_ok.mp h
  exact Lowering.knows_lt (by simp [Builder.constant, Builder.addRegister])

theorem storage_fetches {stem : String} {width : UInt64} {j : Nat}
    (h : (build (·.storage stem width)).run l = .ok (j, l')) :
    l.Fetches l' ∧ Rtl.Writable l'.builder.registers j := by
  refine ⟨build_fetches (Builder.grows_storage stem width) h, ?_⟩
  cases run_build_eq_ok.mp h
  exact Builder.writable_storage stem width

theorem memberRegister_fetches {e : Entity} {width : UInt64} {initial : Int64} {j : Nat}
    (h : (build (·.memberRegister e width initial)).run l = .ok (j, l')) :
    l.Fetches l' ∧ l'.builder.members.lookup e = some j := by
  refine ⟨build_fetches (Builder.grows_memberRegister e width initial) h, ?_⟩
  cases run_build_eq_ok.mp h
  exact Builder.lookup_memberRegister _ _ _ _

theorem setWidth_fetches {unit : Nat} {width : UInt64} (h : (build fun b => ((), { b with
    pool := b.pool.update unit (·.setWidth width) })).run l = .ok ((), l')) : l.Fetches l' :=
  build_fetches (Builder.grows_setWidth unit width) h

theorem insn_fetches {unit : Nat} {operand : String} {inputs outputs : List Nat} {i : Rtl.Insn}
    (h : (insn unit operand inputs outputs).run l = .ok (i, l')) :
    l.Fetches l' ∧ i.inputs = inputs ∧ i.outputs = outputs := by
  cases run_insn_eq_ok.mp h
  exact ⟨⟨rfl, Builder.grows_newInsn, id⟩, rfl, rfl⟩

theorem addOwner_fetches {e : Entity} {r : Nat} (h : (addOwner e r).run l = .ok ((), l')) :
    l.Fetches l' := by
  simp only [addOwner, run_bind_eq_ok, run_get_eq_ok] at h
  obtain ⟨_, _, hget, links, l₁, hlinks, h⟩ := h
  cases hget
  obtain ⟨howner, rfl⟩ := run_ofExcept_eq_ok.mp hlinks
  cases run_modify_eq_ok.mp h
  exact ⟨rfl, Builder.grows_links (Builder.addOwner_extends howner), id⟩

theorem addAccessor_fetches {e : Entity} {r : Nat} (h : (addAccessor e r).run l = .ok ((), l')) :
    l.Fetches l' :=
  build_fetches (Builder.grows_links (Builder.addAccessor_extends _ _ _)) h

theorem arrayResource_fetches {id : Nat} {o : Object} {write : Bool} {unit : Nat}
    (h : (arrayResource s id o write).run l = .ok (unit, l')) : l.Fetches l' := by
  simp only [arrayResource] at h
  split at h
  · exact resource_fetches (Pool.privateArray_tidily id o) h
  · split at h <;> simp only [run_bind_eq_ok] at h <;>
      obtain ⟨unit', l₁, hunit, _, l₂, hlink, h⟩ := h <;> cases run_pure_eq_ok.mp h
    · exact (resource_fetches (Pool.sharedArray_tidily id o true false) hunit).trans
        (addOwner_fetches hlink)
    · exact (resource_fetches (Pool.sharedArray_tidily id o false write) hunit).trans
        (addAccessor_fetches hlink)

/-- A new local changes the builder alone, and suits its register. -/
theorem run_newLocal {r : RegisterId} {reg : Register} (hr : s.method.register? r = some reg)
    (l : Lowering) : ∃ j b, (newLocal s r reg).run l = .ok (j, { l with builder := b }) ∧
      l.builder.Grows b ∧ j < b.registers.length ∧ s.Matches b.registers r j := by
  have htype : ∀ t, s.method.type? r = some t →
      t = .unsigned (if reg.kind = .enum then 0 else reg.width) := by
    intro t ht
    rw [Method.type?, hr, Option.bind_some] at ht
    exact Register.eq_of_type? ht
  unfold newLocal
  cases hconst : reg.const with
  | some value =>
    refine ⟨_, _, run_build_eq_ok.mpr rfl, Builder.grows_constant _ _, ?_, fun t ht => ?_,
      fun hnot => absurd ⟨reg, hr, by simp [hconst]⟩ hnot⟩
    · simp [Builder.constant, Builder.addRegister]
    · simp [htype t ht, Builder.constant, Builder.addRegister]
  | none =>
    refine ⟨_, _, run_build_eq_ok.mpr rfl, Builder.grows_storage _ _,
      (Builder.writable_storage _ _).lt, fun t ht => ?_, fun _ => Builder.writable_storage _ _⟩
    simp [htype t ht, Builder.storage, Builder.freshRegister, Builder.addRegister]

/-- A register of the method has the table register that it is bound to, or is bound to a new
one. -/
theorem register_cases {r : RegisterId} {j : Nat} (h : (register s r).run l = .ok (j, l')) :
    (l' = l ∧ l.locals.lookup r = some j) ∨ (l.locals.lookup r = none ∧
      ∃ b, l' = { l with builder := b, locals := (r, j) :: l.locals } ∧ l.builder.Grows b) := by
  simp only [register, run_bind_eq_ok, run_get_eq_ok] at h
  obtain ⟨_, _, hget, h⟩ := h
  cases hget
  split at h
  · rename_i j hj
    cases run_pure_eq_ok.mp h
    exact .inl ⟨rfl, hj⟩
  · rename_i hnone
    split at h
    · exact absurd h run_fault_ne_ok
    · rename_i reg hreg
      obtain ⟨j, b, hnew, hgrows, -⟩ := run_newLocal hreg l
      rw [run_bind_of_ok hnew, run_bind_of_ok (run_bindLocal_eq_ok.mpr rfl)] at h
      cases run_pure_eq_ok.mp h
      exact .inr ⟨hnone, b, rfl, hgrows⟩

theorem register_fetches {r : RegisterId} {j : Nat} (h : (register s r).run l = .ok (j, l')) :
    l.Fetches l' ∧ l'.locals.lookup r = some j := by
  obtain ⟨rfl, hj⟩ | ⟨hnone, b, rfl, hgrows⟩ := register_cases h
  · exact ⟨.refl _, hj⟩
  · refine ⟨⟨rfl, hgrows, fun {r' k} hk => ?_⟩, by simp⟩
    have hne : r' ≠ r := by
      rintro rfl
      cases hk.symm.trans hnone
    rwa [lookup_cons_eq, if_neg hne]

theorem registers_fetches {rs : List RegisterId} {js : List Nat}
    (h : (registers s rs).run l = .ok (js, l')) :
    l.Fetches l' ∧ js.map some = rs.map fun r => l'.locals.lookup r := by
  induction rs generalizing l js with
  | nil =>
    cases run_pure_eq_ok.mp h
    exact ⟨.refl _, rfl⟩
  | cons r rest ih =>
    simp only [registers, run_bind_eq_ok] at h
    obtain ⟨j, l₁, hr, js', l₂, hrest, h⟩ := h
    cases run_pure_eq_ok.mp h
    obtain ⟨f₁, hj⟩ := register_fetches hr
    obtain ⟨f₂, hjs⟩ := ih hrest
    exact ⟨f₁.trans f₂, by simp [hjs, f₂.kept hj]⟩

/-- Every table register that is found is that of one of the registers. -/
theorem exists_of_mem_registers {rs : List RegisterId} {js : List Nat}
    (h : js.map some = rs.map fun r => l.locals.lookup r) {j : Nat} (hj : j ∈ js) :
    ∃ r ∈ rs, l.locals.lookup r = some j := by
  have hmem := List.mem_map_of_mem (f := some) hj
  rw [h] at hmem
  exact List.mem_map.mp hmem

end Fetching
end Lower
end Synth
end MachineSynth
