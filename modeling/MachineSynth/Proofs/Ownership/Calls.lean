import Mathlib
import MachineSynth.Proofs.FirstOccurrences
import MachineSynth.Proofs.Ports

/-! Calls on accesses: what threads read, write, move and claim is put on record by one call after
the other. The ownership that is settled in the end is a function of these calls, and no call that
comes later changes it. -/
namespace MachineSynth
namespace Synth

inductive Call
  /-- A thread reads or writes a member of an object. -/
  | member (thread : ThreadId) (object : Nat) (member : String) (write : Bool)
  /-- A thread reads or writes an object as a whole. -/
  | object (thread : ThreadId) (object : Nat) (write : Bool) (name : String)
  /-- A thread moves an object over a port. -/
  | mover (thread : ThreadId) (object : Nat)
  /-- A thread claims a port method. -/
  | claim (thread : ThreadId) (method : MethodKey)
  /-- The threads that access an entity are counted. -/
  | count (e : Entity)
deriving DecidableEq, Repr

/-- What a call gives back. -/
inductive Answer
  | nothing
  | granted (own : Bool)
  | number (n : Nat)
deriving DecidableEq, Repr

namespace Call

def run (s : Accesses) : Call → Except Fault (Answer × Accesses)
  | member thread id name write => (s.addMember thread id name write).map (.nothing, ·)
  | object thread id write name => (s.addObject thread id write name).map (.nothing, ·)
  | mover thread id => (s.addMover thread id).map (.nothing, ·)
  | claim thread method => (s.claimPort thread method).map fun x => (.granted x.1, x.2)
  | count e => .ok (.number (s.count e).1, (s.count e).2)

/-- Whether a call puts something on record. -/
def adds : Call → Bool
  | count _ => false
  | _ => true

/-- The accesses after a call, which a call that fails leaves as they were. -/
def attempt (s : Accesses) (c : Call) : Accesses :=
  match c.run s with
  | .ok (_, s') => s'
  | .error _ => s

/-- The thread that reads or writes an entity by a call, and whether it writes. -/
def access? (e : Entity) : Call → Option (ThreadId × Bool)
  | member thread id name write =>
    if (⟨id, name⟩ : Entity) = e then some (thread, write) else none
  | object thread id write _ => if .whole id = e then some (thread, write) else none
  | _ => none

def move? (e : Entity) : Call → Option ThreadId
  | mover thread id => if .whole id = e then some thread else none
  | _ => none

def claim? (method : MethodKey) : Call → Option ThreadId
  | claim thread m => if m = method then some thread else none
  | _ => none

end Call

/-- The reads and writes of an entity by calls, in their order. -/
def accessesOf (e : Entity) (calls : List Call) : List (ThreadId × Bool) :=
  calls.filterMap (·.access? e)

def firstClaim? (method : MethodKey) (calls : List Call) : Option ThreadId :=
  calls.findSome? (·.claim? method)

namespace Accesses

def run (s : Accesses) : List Call → Except Fault (List Answer × Accesses)
  | [] => .ok ([], s)
  | c :: rest => do
    let (a, s) ← c.run s
    let (as, s) ← run s rest
    return (a :: as, s)

@[simp] theorem run_nil (s : Accesses) : s.run [] = .ok ([], s) := rfl

theorem run_cons_eq_ok {s t : Accesses} {c : Call} {rest : List Call} {answers : List Answer} :
    s.run (c :: rest) = .ok (answers, t) ↔ ∃ a s' as, c.run s = .ok (a, s') ∧
      run s' rest = .ok (as, t) ∧ answers = a :: as := by
  simp only [run, except_bind_eq_ok, Prod.exists, pure, Except.pure, Except.ok.injEq, Prod.mk.injEq]
  constructor
  · rintro ⟨a, s', hc, as, s'', hrest, rfl, rfl⟩
    exact ⟨a, s', as, hc, hrest, rfl⟩
  · rintro ⟨a, s', as, hc, hrest, rfl⟩
    exact ⟨a, s', hc, as, t, hrest, rfl, rfl⟩

theorem run_append {s t u : Accesses} {cs ds : List Call} {as bs : List Answer}
    (hc : s.run cs = .ok (as, t)) (hd : t.run ds = .ok (bs, u)) :
    s.run (cs ++ ds) = .ok (as ++ bs, u) := by
  induction cs generalizing s as with
  | nil =>
    cases hc
    exact hd
  | cons c rest ih =>
    obtain ⟨a, s', as', hone, hrest, rfl⟩ := run_cons_eq_ok.mp hc
    exact run_cons_eq_ok.mpr ⟨a, s', as' ++ bs, hone, ih hrest, rfl⟩

end Accesses

namespace Call

def record (e : Entity) (a : Access) (c : Call) : Access :=
  match c.access? e, c.move? e with
  | some (t, write), _ => a.add t write
  | none, some t => { a with movers := a.movers.insert t }
  | none, none => a

variable {s s' : Accesses} {c : Call} {a : Answer}

theorem find_run (h : c.run s = .ok (a, s')) (e : Entity) :
    ∃ name, s'.find e = { c.record e (s.find e) with name := name } := by
  have hname : ∀ r : Access, ∃ name, r = { r with name := name } := fun r => ⟨r.name, rfl⟩
  cases c with
  | member t id name write =>
    obtain ⟨s₁, hadd, heq⟩ := Walker.map_eq_ok.mp h
    cases heq
    rw [Accesses.find_update hadd]
    by_cases he : e = ⟨id, name⟩
    · subst he
      simpa [record, access?] using hname _
    · rw [if_neg he]
      simpa [record, access?, move?, Ne.symm he] using hname _
  | object t id write name =>
    obtain ⟨s₁, hadd, heq⟩ := Walker.map_eq_ok.mp h
    cases heq
    rw [Accesses.find_update hadd]
    by_cases he : e = .whole id
    · subst he
      exact ⟨_, by simp [record, access?]; rfl⟩
    · rw [if_neg he]
      simpa [record, access?, move?, Ne.symm he] using hname _
  | mover t id =>
    obtain ⟨s₁, hadd, heq⟩ := Walker.map_eq_ok.mp h
    cases heq
    rw [Accesses.find_update hadd]
    by_cases he : e = .whole id
    · subst he
      rw [if_pos rfl]
      refine (hname _).imp fun name hrecord => hrecord.trans ?_
      simp [record, access?, move?]
    · rw [if_neg he]
      simpa [record, access?, move?, Ne.symm he] using hname _
  | claim t method =>
    obtain ⟨⟨granted, s₁⟩, hclaim, heq⟩ := Walker.map_eq_ok.mp h
    cases heq
    rw [Accesses.find_claimPort hclaim]
    exact hname _
  | count e' =>
    cases h
    have hfind : (s.count e').2.find e = s.find e := by
      simp only [Accesses.count, Accesses.find, Accesses.lookup_updateRecord, id]
      split
      · rename_i he
        rw [he]
        rfl
      · rfl
    rw [hfind]
    exact hname _

theorem closed_run (h : c.run s = .ok (a, s')) : s'.closed = s.closed := by
  have hupdate : ∀ {e : Entity} {f : Access → Access} {s₁ : Accesses},
      s.update e f = .ok s₁ → s₁.closed = s.closed := by
    intro e f s₁ hadd
    unfold Accesses.update at hadd
    split at hadd <;> cases hadd
    rfl
  cases c with
  | member | object | mover =>
    obtain ⟨s₁, hadd, heq⟩ := Walker.map_eq_ok.mp h
    cases heq
    exact hupdate hadd
  | claim t method =>
    obtain ⟨⟨granted, s₁⟩, hclaim, heq⟩ := Walker.map_eq_ok.mp h
    cases heq
    unfold Accesses.claimPort at hclaim
    split at hclaim
    · cases hclaim
    · split at hclaim <;> cases hclaim <;> rfl
  | count =>
    cases h
    rfl

theorem ports_run (h : c.run s = .ok (a, s')) (method : MethodKey) :
    s'.ports.lookup method = (s.ports.lookup method).or (c.claim? method) := by
  cases c with
  | member | object | mover =>
    obtain ⟨s₁, hadd, heq⟩ := Walker.map_eq_ok.mp h
    cases heq
    simp [Accesses.ports_update hadd, claim?]
  | claim t key =>
    obtain ⟨⟨granted, s₁⟩, hclaim, heq⟩ := Walker.map_eq_ok.mp h
    cases heq
    unfold Accesses.claimPort at hclaim
    split at hclaim
    · cases hclaim
    · split at hclaim
      · rename_i t' ht'
        cases hclaim
        simp only [claim?]
        split
        · rename_i hkey
          rw [← hkey, ht']
          rfl
        · simp
      · cases hclaim
        rw [List.lookup_append]
        by_cases hkey : key = method
        · simp [claim?, hkey]
        · simp [claim?, hkey, List.lookup_cons,
            beq_eq_false_iff_ne.mpr (Ne.symm hkey)]
  | count =>
    cases h
    simp [claim?, Accesses.count]

theorem run_of_open (c : Call) (h : s.closed = false) : ∃ a s', c.run s = .ok (a, s') := by
  cases c with
  | member | object | mover =>
    simp [run, Accesses.addMember, Accesses.addObject, Accesses.addMover, Accesses.update, h,
      Except.map]
  | claim t key =>
    simp only [run, Accesses.claimPort, h, Bool.false_eq_true, if_false]
    split <;> exact ⟨_, _, rfl⟩
  | count => exact ⟨_, _, rfl⟩

end Call

section Lists

variable {e : Entity} {m : MethodKey} {calls : List Call} {c : Call}

@[simp] theorem accessesOf_nil : accessesOf e [] = [] := rfl

theorem accessesOf_append (cs ds : List Call) :
    accessesOf e (cs ++ ds) = accessesOf e cs ++ accessesOf e ds := List.filterMap_append

theorem accessesOf_concat :
    accessesOf e (calls ++ [c]) = accessesOf e calls ++ (c.access? e).toList := by
  rw [accessesOf_append]
  cases h : c.access? e <;> simp [accessesOf, h]

theorem firstClaim?_concat :
    firstClaim? m (calls ++ [c]) = (firstClaim? m calls).or (c.claim? m) := by
  rw [firstClaim?, List.findSome?_append]
  simp [firstClaim?]

end Lists

/-- The record of an entity after calls on accesses that were empty. -/
structure Access.Tallies (e : Entity) (calls : List Call) (a : Access) : Prop where
  accessors : a.accessors = ((accessesOf e calls).map (·.1)).eraseDups
  nodup : a.accessors.Nodup
  readers : ∀ t, a.readers.contains t = true ↔ (t, false) ∈ accessesOf e calls
  writers : ∀ t, a.writers.contains t = true ↔ (t, true) ∈ accessesOf e calls
  movers : ∀ t, a.movers.contains t = true ↔ ∃ c ∈ calls, c.move? e = some t

theorem Access.Tallies.empty (e : Entity) : Access.empty.Tallies e [] := by
  refine ⟨rfl, .nil, fun t => ?_, fun t => ?_, fun t => ?_⟩ <;>
    simp [Access.empty, BitSet.empty, BitSet.contains, BitSet.word]

namespace Access

variable {a : Access} {t u : ThreadId} {write : Bool}

theorem contains_insert_iff {b : BitSet} :
    (b.insert u).contains t = true ↔ b.contains t = true ∨ t = u := by
  rw [BitSet.contains_insert, Bool.or_eq_true, decide_eq_true_eq, or_comm]

theorem contains_readers_add : (a.add u write).readers.contains t = true ↔
    a.readers.contains t = true ∨ (t, false) = (u, write) := by
  cases write with
  | false =>
    refine contains_insert_iff.trans ?_
    simp
  | true =>
    have hsame : (a.add u true).readers = a.readers := rfl
    rw [hsame]
    simp

theorem contains_writers_add : (a.add u write).writers.contains t = true ↔
    a.writers.contains t = true ∨ (t, true) = (u, write) := by
  cases write with
  | false =>
    have hsame : (a.add u false).writers = a.writers := rfl
    rw [hsame]
    simp
  | true =>
    refine contains_insert_iff.trans ?_
    simp

/-- A call adds to the record of an entity what it says of it, whatever name the entity gets. -/
theorem Tallies.concat {e : Entity} {calls : List Call} (h : a.Tallies e calls) (c : Call)
    (name : String) : Tallies e (calls ++ [c]) { c.record e a with name := name } := by
  have hmoves : ∀ t, (∃ d ∈ calls ++ [c], d.move? e = some t) ↔
      a.movers.contains t = true ∨ c.move? e = some t := by
    intro t
    rw [h.movers]
    simp [or_and_right, exists_or]
  cases haccess : c.access? e with
  | none =>
    have hsame : accessesOf e (calls ++ [c]) = accessesOf e calls := by
      rw [accessesOf_concat, haccess, Option.toList_none, List.append_nil]
    cases hmove : c.move? e with
    | none =>
      simp only [Call.record, haccess, hmove]
      refine ⟨?_, h.nodup, fun t => ?_, fun t => ?_, fun t => ?_⟩
      · rw [hsame, h.accessors]
      · rw [hsame, h.readers]
      · rw [hsame, h.writers]
      · rw [hmoves, hmove]
        simp
    | some u =>
      simp only [Call.record, haccess, hmove]
      refine ⟨?_, h.nodup, fun t => ?_, fun t => ?_, fun t => ?_⟩
      · rw [hsame, h.accessors]
      · rw [hsame, h.readers]
      · rw [hsame, h.writers]
      · rw [hmoves, hmove, Option.some.injEq]
        exact contains_insert_iff.trans (or_congr_right eq_comm)
  | some x =>
    obtain ⟨u, write⟩ := x
    have hmore : accessesOf e (calls ++ [c]) = accessesOf e calls ++ [(u, write)] := by
      rw [accessesOf_concat, haccess, Option.toList_some]
    have hmove : c.move? e = none := by
      cases c <;> first | rfl | cases haccess
    simp only [Call.record, haccess]
    refine ⟨?_, (a.add_extends u write).nodup h.nodup, fun t => ?_, fun t => ?_, fun t => ?_⟩
    · rw [hmore, List.map_append, List.map_singleton, eraseDups_concat, ← contains_eraseDups,
        ← h.accessors]
      rfl
    · rw [contains_readers_add, hmore, List.mem_append, List.mem_singleton, h.readers]
    · rw [contains_writers_add, hmore, List.mem_append, List.mem_singleton, h.writers]
    · rw [hmoves, hmove]
      simp [add]

end Access

namespace Accesses

/-- What is on record after calls on accesses that were empty. -/
structure Tallies (calls : List Call) (s : Accesses) : Prop where
  opened : s.closed = false
  entities : ∀ e, (s.find e).Tallies e calls
  ports : ∀ m, s.ports.lookup m = firstClaim? m calls

variable {s t : Accesses} {past calls : List Call} {c : Call} {answers : List Answer}

theorem Tallies.empty : Accesses.empty.Tallies [] :=
  ⟨rfl, fun e => .empty e, fun _ => rfl⟩

theorem Tallies.concat {a : Answer} (h : s.Tallies calls) (hc : c.run s = .ok (a, t)) :
    t.Tallies (calls ++ [c]) := by
  refine ⟨(Call.closed_run hc).trans h.opened, fun e => ?_, fun m => ?_⟩
  · obtain ⟨name, hfind⟩ := Call.find_run hc e
    rw [hfind]
    exact (h.entities e).concat c name
  · rw [Call.ports_run hc, firstClaim?_concat, h.ports]

theorem Tallies.run (h : s.Tallies past) (hrun : s.run calls = .ok (answers, t)) :
    t.Tallies (past ++ calls) := by
  induction calls generalizing s past answers with
  | nil =>
    cases hrun
    rwa [List.append_nil]
  | cons c rest ih =>
    obtain ⟨a, s', as, hc, hrest, -⟩ := run_cons_eq_ok.mp hrun
    rw [List.append_cons]
    exact ih (h.concat hc) hrest

theorem run_of_open (calls : List Call) (h : s.closed = false) :
    ∃ answers t, s.run calls = .ok (answers, t) := by
  induction calls generalizing s with
  | nil => exact ⟨[], s, rfl⟩
  | cons c rest ih =>
    obtain ⟨a, s', hc⟩ := c.run_of_open h
    obtain ⟨as, t, hrest⟩ := ih ((Call.closed_run hc).trans h)
    exact ⟨a :: as, t, run_cons_eq_ok.mpr ⟨a, s', as, hc, hrest, rfl⟩⟩

theorem Tallies.claims (h : s.Tallies past) (hrun : s.run calls = .ok (answers, t)) {i : Nat}
    {thread : ThreadId} {m : MethodKey} (hi : calls[i]? = some (.claim thread m)) :
    answers[i]? = some (.granted (firstClaim? m (past ++ calls) = some thread)) := by
  induction calls generalizing s past answers i with
  | nil => cases hi
  | cons c rest ih =>
    obtain ⟨a, s', as, hc, hrest, rfl⟩ := run_cons_eq_ok.mp hrun
    rw [List.append_cons]
    cases i with
    | zero =>
      cases Option.some.inj hi
      obtain ⟨⟨granted, s₁⟩, hclaim, heq⟩ := Walker.map_eq_ok.mp hc
      cases heq
      have hfirst : firstClaim? m (past ++ [.claim thread m] ++ rest) =
          (s.ports.lookup m).or (some thread) := by
        rw [firstClaim?, List.findSome?_append, ← firstClaim?, firstClaim?_concat, h.ports]
        cases firstClaim? m past <;> simp [Call.claim?]
      rw [hfirst]
      unfold claimPort at hclaim
      split at hclaim
      · cases hclaim
      · split at hclaim
        · rename_i t' ht'
          cases hclaim
          simp [ht']
        · rename_i hnone
          cases hclaim
          simp [hnone]
    | succ i => exact ih (h.concat hc) hrest hi

/-- Calls that come later, each of which leaves the accesses as they were if it fails. -/
def attempts (s : Accesses) (calls : List Call) : Accesses := calls.foldl Call.attempt s

end Accesses

def OwnershipTable.sharing (owners : OwnershipTable) (s : Accesses) : OwnershipTable :=
  { owners with ports := s.ports }

def Lists (ts : List ThreadId) (p : ThreadId → Prop) : Prop :=
  ts.Pairwise (· < ·) ∧ ∀ t, t ∈ ts ↔ p t

/-- What a table says of an entity that is accessed by calls. -/
structure Ownership.Documents (e : Entity) (calls : List Call) (o : Ownership) : Prop where
  accessors : o.accessors = ((accessesOf e calls).map (·.1)).eraseDups
  nodup : o.accessors.Nodup
  readers : Lists o.readers fun t => (t, false) ∈ accessesOf e calls
  writers : Lists o.writers fun t => (t, true) ∈ accessesOf e calls
  movers : Lists o.movers fun t => ∃ c ∈ calls, c.move? e = some t
  owned : o.owner.isSome ↔ o.accessors ≠ []
  /-- The first thread that ever writes it, else the first that accesses it. -/
  owner : o.owner = (o.accessors.find? (· ∈ o.writers)).or o.accessors.head?

structure OwnershipTable.Documents (calls : List Call) (answers : List Answer)
    (owners : OwnershipTable) : Prop where
  entities : ∀ e, (owners.get e).Documents e calls
  ports : ∀ m, owners.ports.lookup m = firstClaim? m calls
  claims : ∀ (i : Nat) (t : ThreadId) (m : MethodKey), calls[i]? = some (.claim t m) →
    answers[i]? = some (.granted (firstClaim? m calls = some t))

/-- Nothing can be added any more, and the table answers as when it was settled. -/
structure OwnershipTable.Frozen (owners : OwnershipTable) (s : Accesses) : Prop where
  adds : ∀ c : Call, c.adds = true → c.run s = .error .scanClosed
  settles : s.settle = .error .scanClosed
  answers : owners.sharing s = owners

theorem lists_toList {b : BitSet} {p : ThreadId → Prop} (h : ∀ t, b.contains t = true ↔ p t) :
    Lists b.toList p :=
  ⟨b.sorted_toList, fun t => BitSet.mem_toList.trans (h t)⟩

namespace Access

theorem owner?_eq (a : Access) : a.owner? =
    (a.accessors.find? (· ∈ a.writers.toList)).or a.accessors.head? := by
  have hmem : (fun t => decide (t ∈ a.writers.toList)) = a.writers.contains := by
    funext t
    rw [Bool.eq_iff_iff, decide_eq_true_eq, BitSet.mem_toList]
  rw [hmem, owner?]
  cases a.accessors.find? a.writers.contains <;> rfl

theorem isSome_owner? (a : Access) : a.owner?.isSome ↔ a.accessors ≠ [] := by
  rw [owner?_eq]
  cases h : a.accessors with
  | nil => simp
  | cons t rest => simp

theorem Tallies.documents {a : Access} {e : Entity} {calls : List Call} (h : a.Tallies e calls) :
    (Ownership.of a).Documents e calls where
  accessors := h.accessors
  nodup := h.nodup
  readers := lists_toList h.readers
  writers := lists_toList h.writers
  movers := lists_toList h.movers
  owned := a.isSome_owner?
  owner := a.owner?_eq

end Access

namespace Accesses

variable {s s' : Accesses} {owners : OwnershipTable} {calls : List Call}

theorem settle_eq_ok (h : s.closed = false) :
    ∃ owners, s.settle = .ok (owners, { s with closed := true }) := by
  rw [settle, h]
  exact ⟨_, rfl⟩

theorem settle_spec (h : s.settle = .ok (owners, s')) :
    s'.closed = true ∧ s'.ports = s.ports ∧ owners.ports = s.ports := by
  unfold settle at h
  split at h <;> cases h
  exact ⟨rfl, rfl, rfl⟩

theorem documents_of_settle {answers : List Answer}
    (hrun : Accesses.empty.run calls = .ok (answers, s)) (hsettle : s.settle = .ok (owners, s')) : owners.Documents calls answers := by
  have htallies : s.Tallies calls := Tallies.empty.run hrun
  refine ⟨fun e => ?_, fun m => ?_, fun i t m hi => ?_⟩
  · rw [get_of_settle hsettle]
    exact (htallies.entities e).documents
  · rw [(settle_spec hsettle).2.2, htallies.ports]
  · exact Tallies.empty.claims hrun hi

end Accesses

namespace Call

theorem run_of_closed {s : Accesses} (h : s.closed = true) (c : Call) (hc : c.adds = true) :
    c.run s = .error .scanClosed := by
  cases c with
  | member | object | mover =>
    simp [run, Accesses.addMember, Accesses.addObject, Accesses.addMover, Accesses.update, h,
      Except.map]
  | claim =>
    simp [run, Accesses.claimPort, h, Except.map]
  | count => cases hc

/-- On closed accesses, a call leaves everything in place that the table shares. -/
theorem attempt_of_closed {s : Accesses} (h : s.closed = true) (c : Call) :
    (c.attempt s).closed = true ∧ (c.attempt s).ports = s.ports := by
  cases hc : c.adds with
  | true =>
    rw [attempt, run_of_closed h c hc]
    exact ⟨h, rfl⟩
  | false =>
    cases c <;> first | exact ⟨h, rfl⟩ | cases hc

end Call

/-- Whatever is called after ownership is settled, it stays as it is. -/
theorem Accesses.frozen_of_settle {s s' : Accesses} {owners : OwnershipTable}
    (h : s.settle = .ok (owners, s')) (later : List Call) :
    owners.Frozen (s'.attempts later) := by
  have hlater : ∀ {t : Accesses}, t.closed = true → t.ports = owners.ports →
      (t.attempts later).closed = true ∧ (t.attempts later).ports = owners.ports := by
    induction later with
    | nil => exact fun hclosed hports => ⟨hclosed, hports⟩
    | cons c rest ih =>
      intro t hclosed hports
      obtain ⟨hclosed', hports'⟩ := Call.attempt_of_closed hclosed c
      exact ih hclosed' (hports'.trans hports)
  obtain ⟨hclosed, hports, howners⟩ := settle_spec h
  obtain ⟨hclosed, hports⟩ := hlater hclosed (hports.trans howners.symm)
  refine ⟨Call.run_of_closed hclosed, ?_, ?_⟩
  · rw [settle, hclosed]
    rfl
  · rw [OwnershipTable.sharing, hports]

end Synth
end MachineSynth
