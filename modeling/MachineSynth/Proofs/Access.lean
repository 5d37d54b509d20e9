import Mathlib
import MachineSynth.Synth.Context

/-! What an instruction touches: the member or array that it reads or writes, the array that it
moves over a port, what it needs of others, and the walker that it leaves behind. Both the scan of
a method and its lowering follow these. -/
namespace MachineSynth
namespace Synth

/-- What a call needs of a plan. -/
inductive Demand
  /-- A thread for a data-flow entry of an object. -/
  | flow (object : Nat) (method : String)
  /-- A task for a method of another object. -/
  | task (object : Nat) (method : String)
  /-- A method of the same object, in the thread itself. -/
  | own (method : String)
deriving DecidableEq, Repr

def Demand.object? : Demand → Option Nat
  | .flow object _ | .task object _ => some object
  | .own _ => none

namespace Walker

def step (m : Machine) (w : Walker) : Insn → Except Fault Walker
  | .loadObject target object label => w.load m target object label
  | i@(.memberRead _ _ _) | i@(.memberWrite _ _ _) => (w.access m i).map (·.2)
  | _ => .ok w

def walk (m : Machine) (w : Walker) (code : List Insn) : Except Fault Walker :=
  code.foldlM (step m) w

/-- The member of an object that can be read and written: a number that is not constant. -/
def storedMember? (m : Machine) (object : Nat) (label : String) : Option Entity :=
  match (m.object? object).bind (·.lookup? label) with
  | some (.num _ _ false) | some (.enum _ _ false) => some ⟨object, label⟩
  | _ => none

def array? (m : Machine) (w : Walker) (r : RegisterId) : Option Entity :=
  (w.objectOf? r).bind fun id =>
    if (m.object? id).any (·.isArray) then some (.whole id) else none

/-- What an instruction reads or writes, and whether it writes. -/
def accessed? (m : Machine) (w : Walker) : Insn → Option (Entity × Bool)
  | .memberRead _ object label =>
    ((w.objectOf? object).bind (storedMember? m · label)).map (·, false)
  | .memberWrite object label _ =>
    ((w.objectOf? object).bind (storedMember? m · label)).map (·, true)
  | .arrayRead _ object _ => (w.array? m object).map (·, false)
  | .arrayWrite object _ _ => (w.array? m object).map (·, true)
  | _ => none

def moved? (m : Machine) (w : Walker) : Insn → Option Entity
  | .call object label _ =>
    match calledMethod? m (w.objectOf? object) label with
    | some f =>
      if f.alt = "" ∧ (f.native = "load" ∨ f.native = "store") then
        (w.objectOf? object).map .whole
      else none
    | none => none
  | _ => none

/-- What an instruction needs of a plan: a call of a built-in operation needs nothing. -/
def demand? (m : Machine) (w : Walker) : Insn → Option Demand
  | .call object label _ =>
    match w.objectOf? object with
    | none => none
    | some callee =>
      match calledMethod? m (some callee) label with
      | none => none
      | some f =>
        if w.isNativeCall m object label then none
        else if f.marks.dataFlowEntry then some (.flow callee label)
        else if w.isOutsideCall object then some (.task callee label)
        else some (.own label)
  | _ => none

/-- Whether an instruction accesses an array, rather than a member. -/
def onArray : Insn → Bool
  | .arrayRead _ _ _ | .arrayWrite _ _ _ => true
  | _ => false

@[simp] theorem start_object (object : Nat) : (start object).object = object := rfl

@[simp] theorem bind_object (w : Walker) (r : RegisterId) (object : Nat) :
    (w.bind r object).object = w.object := rfl

theorem map_eq_ok {ε α β : Type} {x : Except ε α} {f : α → β} {b : β} :
    x.map f = .ok b ↔ ∃ a, x = .ok a ∧ f a = b := by
  cases x <;> simp [Except.map]

theorem load_object {m : Machine} {w w' : Walker} {target object : RegisterId} {label : String}
    (h : w.load m target object label = .ok w') : w'.object = w.object := by
  simp only [load] at h
  split at h
  · cases h
  · split at h
    · cases h
      rfl
    · split at h
      · simp only [memberObject] at h
        split at h
        · cases h
          rfl
        · cases h
      · cases h

theorem access_object {m : Machine} {w w' : Walker} {i : Insn} {owner : Nat}
    (h : w.access m i = .ok (owner, w')) : w'.object = w.object := by
  unfold access at h
  split at h
  · simp only [read, boundObject] at h
    split at h
    · simp only [Bind.bind, Except.bind, pure, Except.pure] at h
      split at h
      · simp only [memberObject] at h
        split at h
        · cases h
        · cases h
          rfl
      · cases h
        rfl
    · cases h
  · simp only [boundObject] at h
    split at h
    · cases h
      rfl
    · cases h
  · cases h

theorem objectOf?_of_read {m : Machine} {w w' : Walker} {target object : RegisterId}
    {label : String} {owner : Nat} (h : w.read m target object label = .ok (owner, w')) :
    w.objectOf? object = some owner := by
  simp only [read, boundObject] at h
  split at h
  · rename_i o ho
    simp only [Bind.bind, Except.bind, pure, Except.pure] at h
    split at h
    · split at h
      · cases h
      · cases h
        exact ho
    · cases h
      exact ho
  · cases h

theorem objectOf?_of_write {m : Machine} {w w' : Walker} {object source : RegisterId}
    {label : String} {owner : Nat}
    (h : w.access m (.memberWrite object label source) = .ok (owner, w')) :
    w.objectOf? object = some owner := by
  simp only [access, boundObject] at h
  split at h
  · cases h
    assumption
  · cases h

/-- Walking never changes whose method is walked. -/
theorem step_object {m : Machine} {w w' : Walker} {i : Insn} (h : w.step m i = .ok w') :
    w'.object = w.object := by
  unfold step at h
  split at h
  · exact load_object h
  · obtain ⟨⟨owner, v⟩, hv, rfl⟩ := map_eq_ok.mp h
    exact access_object hv
  · obtain ⟨⟨owner, v⟩, hv, rfl⟩ := map_eq_ok.mp h
    exact access_object hv
  · cases h
    rfl

/-- Whether a condition holds of some instruction of a sequence and the walker that comes to it. -/
def Along (m : Machine) (w : Walker) (code : List Insn) (P : Walker → Insn → Prop) : Prop :=
  ∃ k i v, code[k]? = some i ∧ w.walk m (code.take k) = .ok v ∧ P v i

theorem walk_cons {m : Machine} {w w' : Walker} {i : Insn} (h : w.step m i = .ok w')
    (code : List Insn) : w.walk m (i :: code) = w'.walk m code := by
  rw [walk, List.foldlM_cons, h]
  rfl

theorem along_head {m : Machine} {w : Walker} {i : Insn} {code : List Insn}
    {P : Walker → Insn → Prop} (h : P w i) : w.Along m (i :: code) P :=
  ⟨0, i, w, rfl, rfl, h⟩

theorem along_cons {m : Machine} {w w' : Walker} {i : Insn} {code : List Insn}
    {P : Walker → Insn → Prop} (h : w.step m i = .ok w') :
    w.Along m (i :: code) P ↔ P w i ∨ w'.Along m code P := by
  constructor
  · rintro ⟨k, j, v, hj, hv, hP⟩
    cases k with
    | zero =>
      cases Option.some.inj hj
      cases hv
      exact .inl hP
    | succ k =>
      rw [List.take_succ_cons, walk_cons h] at hv
      exact .inr ⟨k, j, v, hj, hv, hP⟩
  · rintro (hP | ⟨k, j, v, hj, hv, hP⟩)
    · exact along_head hP
    · exact ⟨k + 1, j, v, hj, by rw [List.take_succ_cons, walk_cons h]; exact hv, hP⟩

theorem along_nil {m : Machine} {w : Walker} {P : Walker → Insn → Prop} : ¬ w.Along m [] P := by
  rintro ⟨k, i, v, hi, -⟩
  simp at hi

end Walker

/-- The ways in which a table can come to use entities and ports. -/
structure Uses where
  /-- Entities that the table keeps for itself. -/
  own : Entity → Prop
  /-- Shared entities that the table holds for all. -/
  hold : Entity → Prop
  /-- Shared entities that the table reaches through another table's resource. -/
  reach : Entity → Prop
  /-- Ports of the design that the table has, by their names. -/
  port : String → Prop

namespace Uses

def none : Uses := ⟨fun _ => False, fun _ => False, fun _ => False, fun _ => False⟩

/-- Every way of using every entity and port. -/
def all : Uses := ⟨fun _ => True, fun _ => True, fun _ => True, fun _ => True⟩

instance : LE Uses :=
  ⟨fun u v => (∀ e, u.own e → v.own e) ∧ (∀ e, u.hold e → v.hold e) ∧
    (∀ e, u.reach e → v.reach e) ∧ ∀ name, u.port name → v.port name⟩

theorem none_le (u : Uses) : none ≤ u :=
  ⟨fun _ => False.elim, fun _ => False.elim, fun _ => False.elim, fun _ => False.elim⟩

end Uses

/-- Whether what an instruction accesses belongs to one thread alone. An array that is moved over
a port does not. -/
def OwnershipTable.isPrivate (owners : OwnershipTable) (i : Insn) (e : Entity) : Bool :=
  !(owners.get e).isShared && !(Walker.onArray i && (owners.get e).isMoved)

namespace Site

def isOwner (s : Site) (e : Entity) : Bool := (s.owners.get e).isOwner s.thread

/-- How an instruction uses entities: what it accesses is kept, held or reached as the settled
ownership says, and an array that it moves is reached if it has an owner. -/
def uses (s : Site) (w : Walker) (i : Insn) : Uses where
  own e := ∃ write, w.accessed? s.machine i = some (e, write) ∧ s.owners.isPrivate i e
  hold e := ∃ write, w.accessed? s.machine i = some (e, write) ∧ !s.owners.isPrivate i e ∧ s.isOwner e
  reach e :=
    (∃ write, w.accessed? s.machine i = some (e, write) ∧ !s.owners.isPrivate i e ∧ !s.isOwner e) ∨
      (w.moved? s.machine i = some e ∧ (s.owners.get e).owner.isSome)
  port _ := False

end Site
end Synth
end MachineSynth
