import Mathlib
import MachineSynth.Proofs.Complaints

/-! Slots: where those of a machine come from that is loaded from a listing. They are for built-in
operations, or the term of the listing declares them, and so all of them have names. -/
namespace MachineSynth

open Synth (except_bind_eq_ok)

namespace Located

variable {d root : Located} {items : List Located} {span : Span} {name : String}

def DeclaresMethod (root : Located) (name : String) (clauses : List Located) : Prop :=
  ∃ span s s', .list span (.symbol s "method" :: .symbol s' name :: clauses) ∈ root.nodes

mutual

theorem nodes_trans : ∀ {d e : Located}, e ∈ d.nodes → e.nodes ⊆ d.nodes
  | symbol _ _, _, he => List.mem_singleton.mp he ▸ List.Subset.refl _
  | list _ _, _, he => by
    obtain rfl | he := List.mem_cons.mp he
    · exact List.Subset.refl _
    · exact List.subset_cons_of_subset _ (nodesOf_trans he)

theorem nodesOf_trans : ∀ {ds : List Located} {e : Located}, e ∈ nodesOf ds → e.nodes ⊆ nodesOf ds
  | _ :: _, _, he => by
    obtain he | he := List.mem_append.mp he
    · exact List.subset_append_of_subset_left _ (nodes_trans he)
    · exact List.subset_append_of_subset_right _ (nodesOf_trans he)

end

theorem mem_nodes_item (hd : d ∈ items) : d ∈ (list span items).nodes :=
  List.mem_cons_of_mem _ (mem_nodesOf.mpr ⟨d, hd, self_mem_nodes d⟩)

end Located

namespace Listing

section Declared

variable {root d : Located} {id : Nat} {c c' member : Family} {o : Object} {f : Form}
  {name : String} {v : Value} {ops : List String} {span : Span} {source : Source} {m : Machine}

/-- Whether a machine that is read from a term may have some slot: it is for a built-in operation,
or the term declares it, as a method or as something else. -/
inductive Gives (root : Located) : Slot → Prop
  | native {op : String} (named : op ≠ "") : Gives root ⟨op, .method (.ofNative op)⟩
  | method {name : String} {clauses : List Located} {f : Method}
      (declares : root.DeclaresMethod name clauses) (read : readMethod name clauses = .ok f) :
      Gives root ⟨name, .method f⟩
  | value {span : Span} {name : String} {v : Value} (declares : .symbol span name ∈ root.nodes)
      (none : ∀ f, v ≠ .method f) : Gives root ⟨name, v⟩

/-- Whether a term declares all slots of an object. -/
def GivesAll (root : Located) (o : Object) : Prop := ∀ s ∈ o.slots, Gives root s

def GivesFamily (root : Located) (c : Family) : Prop := ∀ o ∈ c.objects, GivesAll root o

theorem GivesAll.set (h : GivesAll root o) (hv : Gives root ⟨name, v⟩) :
    GivesAll root (o.set name v) :=
  Object.forall_slots_set h hv

theorem givesAll_withNatives (hops : ∀ op ∈ ops, op ≠ "") (kind : ObjectKind)
    (width length : UInt64) : GivesAll root (.withNatives name kind width length ops) := by
  have hadd : ∀ (ops : List String) (o : Object), (∀ op ∈ ops, op ≠ "") → GivesAll root o →
      GivesAll root ((ops.map Method.ofNative).foldl Object.addMethod o) := by
    intro ops
    induction ops with
    | nil => exact fun _ _ ho => ho
    | cons op ops ih =>
      intro o hops ho
      obtain ⟨hop, hops⟩ := List.forall_mem_cons.mp hops
      exact ih _ hops (ho.set (.native hop))
  exact hadd ops _ hops fun s hs => nomatch hs

theorem GivesFamily.update (h : GivesFamily root c) (ho : GivesAll root o) :
    GivesFamily root { c with object := o } :=
  List.forall_mem_cons.mpr ⟨ho, (List.forall_mem_cons.mp h).2⟩

theorem GivesFamily.set (h : GivesFamily root c) (hv : Gives root ⟨name, v⟩) :
    GivesFamily root { c with object := c.object.set name v } :=
  h.update ((List.forall_mem_cons.mp h).1.set hv)

theorem GivesFamily.adopt (h : GivesFamily root c) (hmember : GivesFamily root member)
    (hname : .symbol span name ∈ root.nodes) : GivesFamily root (c.adopt id name member) := by
  obtain ⟨hobject, hbelow⟩ := List.forall_mem_cons.mp h
  exact List.forall_mem_cons.mpr ⟨hobject.set (.value hname nofun),
    List.forall_mem_append.mpr ⟨hbelow, hmember⟩⟩

theorem givesFamily_plain (name : String) : GivesFamily root ⟨.plain name, []⟩ :=
  List.forall_mem_singleton.mpr (givesAll_withNatives (by simp) .plain 0 0)

theorem readArray_gives (h : readArray name f = .ok o) : GivesFamily root ⟨o, []⟩ := by
  simp only [readArray, except_bind_eq_ok] at h
  obtain ⟨width, -, length, -, flags, -, h⟩ := h
  cases h
  have hslots : GivesAll root (.array name width length) :=
    givesAll_withNatives (by simp) .array width length
  exact List.forall_mem_singleton.mpr hslots

theorem readChannel_gives (h : readChannel name f = .ok o) : GivesFamily root ⟨o, []⟩ := by
  unfold readChannel at h
  split at h
  · simp only [except_bind_eq_ok] at h
    obtain ⟨width, -, h⟩ := h
    cases h
    exact List.forall_mem_singleton.mpr (givesAll_withNatives (by simp) .channel width 0)
  · cases h

theorem second_of_symbol {first second : Located} {rest : List Located}
    (h : Form.symbol ⟨span, first :: second :: rest⟩ 1 = .ok name) :
    ∃ s, second = .symbol s name := by
  cases second with
  | symbol s n =>
    cases h
    exact ⟨s, rfl⟩
  | list => cases h

mutual

/-- Members add no slots but those that they declare and those of built-in operations. -/
theorem readMembers_gives : ∀ {ts : List Located} {id : Nat} {c c' : Family},
    (∀ t ∈ ts, t.nodes ⊆ root.nodes) → GivesFamily root c → readMembers id c ts = .ok c' →
    GivesFamily root c'
  | [], _, _, _, _, hc, h => by
    rw [readMembers] at h
    cases h
    exact hc
  | t :: ts, _, _, _, hroot, hc, h => by
    simp only [readMembers, except_bind_eq_ok] at h
    obtain ⟨c₁, hc₁, h⟩ := h
    obtain ⟨ht, hts⟩ := List.forall_mem_cons.mp hroot
    exact readMembers_gives hts (readMember_gives ht hc hc₁) h

theorem readMember_gives : ∀ {t : Located} {id : Nat} {c c' : Family},
    t.nodes ⊆ root.nodes → GivesFamily root c → readMember id c t = .ok c' →
    GivesFamily root c'
  | .symbol _ _, _, _, _, _, _, h => nomatch h
  | .list _ [], _, _, _, _, _, h => nomatch h
  | .list _ [.symbol _ _], _, _, _, _, _, h => nomatch h
  | .list _ (.list _ _ :: _), _, _, _, _, _, h => nomatch h
  | .list span (.symbol s kind :: second :: rest), _, c, c', hroot, hc, h => by
    simp only [readMember, except_bind_eq_ok] at h
    obtain ⟨name, hname, u, -, h⟩ := h
    obtain ⟨s', rfl⟩ := second_of_symbol hname
    have hsymbol : .symbol s' name ∈ root.nodes :=
      hroot (Located.mem_nodes_item (List.mem_cons_of_mem _ List.mem_cons_self))
    split at h
    case h_1 =>
      obtain ⟨v, hv, h⟩ := except_bind_eq_ok.mp h
      cases h
      obtain ⟨_, _, _, rfl⟩ := readNum_eq_num hv
      exact hc.set (.value hsymbol nofun)
    case h_2 =>
      obtain ⟨v, hv, h⟩ := except_bind_eq_ok.mp h
      cases h
      obtain ⟨_, _, _, rfl⟩ := readEnum_eq_enum hv
      exact hc.set (.value hsymbol nofun)
    case h_3 =>
      obtain ⟨o, ho, h⟩ := except_bind_eq_ok.mp h
      cases h
      exact hc.adopt (readArray_gives ho) hsymbol
    case h_4 =>
      obtain ⟨o, ho, h⟩ := except_bind_eq_ok.mp h
      cases h
      exact hc.adopt (readChannel_gives ho) hsymbol
    case h_5 =>
      obtain ⟨member, hmember, h⟩ := except_bind_eq_ok.mp h
      cases h
      refine hc.adopt (readMembers_gives (fun t ht => ?_) (givesFamily_plain name) hmember)
        hsymbol
      exact List.Subset.trans (Located.nodes_trans
        (Located.mem_nodes_item (List.mem_cons_of_mem _ (List.mem_cons_of_mem _ ht)))) hroot
    case h_6 =>
      obtain ⟨thread, -, h⟩ := except_bind_eq_ok.mp h
      cases h
      exact hc.update (List.forall_mem_cons.mp hc).1
    case h_7 =>
      obtain ⟨f, hf, h⟩ := except_bind_eq_ok.mp h
      cases h
      obtain ⟨rfl, -⟩ := readMethod_closed hf
      exact hc.set (.method ⟨span, s, s', hroot (Located.self_mem_nodes _)⟩ hf)
    case h_8 => cases h

end

theorem readTop_gives (h : readTop root = .ok c) : GivesFamily root c := by
  unfold readTop at h
  split at h
  · split at h
    · simp only [except_bind_eq_ok] at h
      obtain ⟨n, -, h⟩ := h
      exact readMembers_gives (fun t ht => Located.nodes_trans (Located.mem_nodes_item
        (List.mem_cons_of_mem _ (List.mem_cons_of_mem _ ht)))) (givesFamily_plain n) h
    · cases h
  · cases h

theorem exists_gives_of_load (h : load source = .ok m) :
    ∃ root, source.term = .ok (some root) ∧ ∀ o ∈ m.objects, GivesAll root o := by
  obtain ⟨root, hterm, h⟩ := except_bind_eq_ok.mp h
  cases root with
  | none => cases h
  | some root =>
    dsimp only at h
    split at h
    · rename_i c htop
      cases h
      exact ⟨root, hterm, readTop_gives htop⟩
    · cases h

/-- Slots of a listing have names: those of built-in operations, or symbols of the text. -/
theorem name_ne_of_load {s : Slot} (h : load source = .ok m) (ho : o ∈ m.objects)
    (hs : s ∈ o.slots) : s.name ≠ "" := by
  obtain ⟨root, hterm, hgives⟩ := exists_gives_of_load h
  cases hgives o ho s hs with
  | native named => exact named
  | method declares =>
    obtain ⟨span, s, s', hmem⟩ := declares
    have hname : .symbol s' _ ∈ root.nodes := Located.nodes_trans hmem
      (Located.mem_nodes_item (List.mem_cons_of_mem _ List.mem_cons_self))
    exact Source.name_ne_of_term hterm hname
  | value declares => exact Source.name_ne_of_term hterm declares

end Declared

end Listing
end MachineSynth
