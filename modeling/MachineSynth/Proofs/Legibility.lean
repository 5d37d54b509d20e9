import Mathlib
import MachineSynth.Rtl.Text
import MachineSynth.Proofs.Reading

/-! Legibility: where names are names, the terms of an image show all of it. -/
namespace MachineSynth

/-- What a function tells of the elements of a list it tells of the list. -/
theorem map_eq_map_of_map_eq {α β γ : Type} {f : α → β} {e : α → γ} {xs ys : List α}
    (h : ∀ x ∈ xs, ∀ y ∈ ys, f x = f y → e x = e y) (heq : xs.map f = ys.map f) :
    xs.map e = ys.map e := by
  induction xs generalizing ys with
  | nil => rw [List.map_eq_nil_iff.mp heq.symm]
  | cons x xs ih =>
    obtain ⟨y, ys, rfl, hy, hys⟩ := List.map_eq_cons_iff.mp heq.symm
    rw [List.map_cons, List.map_cons, h x List.mem_cons_self y List.mem_cons_self hy.symm,
      ih (fun x hx y hy => h x (List.mem_cons_of_mem _ hx) y (List.mem_cons_of_mem _ hy)) hys.symm]

theorem eq_of_map_eq {α β : Type} {f : α → β} {xs ys : List α}
    (h : ∀ x ∈ xs, ∀ y ∈ ys, f x = f y → x = y) (heq : xs.map f = ys.map f) : xs = ys := by
  simpa using map_eq_map_of_map_eq (e := id) h heq

/-- Elements of the form `f x` that come first are told from those that are not of this form. -/
theorem map_append_inj {α β : Type} {f : α → β} {xs ys : List α} {l l' : List β}
    (hl : ∀ x, f x ∉ l) (hl' : ∀ x, f x ∉ l') (h : xs.map f ++ l = ys.map f ++ l') :
    xs.map f = ys.map f ∧ l = l' := by
  induction xs generalizing ys with
  | nil =>
    cases ys with
    | nil => exact ⟨rfl, h⟩
    | cons y ys =>
      rw [List.map_nil, List.nil_append] at h
      exact absurd (by simp [h]) (hl y)
  | cons x xs ih =>
    cases ys with
    | nil =>
      rw [List.map_nil, List.nil_append] at h
      exact absurd (by simp [← h]) (hl' x)
    | cons y ys =>
      obtain ⟨hx, hrest⟩ := List.cons.inj h
      obtain ⟨hxs, hl⟩ := ih hrest
      exact ⟨by rw [List.map_cons, List.map_cons, hx, hxs], hl⟩

theorem eq_of_toList_map_eq {α β : Type} {f : α → β} {a b : Option α}
    (hf : ∀ x y, f x = f y → x = y) (h : a.toList.map f = b.toList.map f) : a = b := by
  have hlists := List.map_injective_iff.mpr (fun x y => hf x y) h
  cases a <;> cases b <;> simp_all

namespace Token

theorem isDelimiter_of_isDigit {c : Char} (h : c.isDigit = true) : isDelimiter c = false := by
  have hne : ∀ d : Char, d.isDigit = false → c ≠ d := fun d hd he => by simp [he, hd] at h
  simp [isDelimiter, isBlank, hne ' ' rfl, hne '\t' rfl, hne '\n' rfl, hne '\r' rfl, hne '(' rfl,
    hne ')' rfl, hne ';' rfl]

theorem isName_nat (n : Nat) : IsName (toString n) := by
  have hlist : (toString n).toList = Nat.toDigits 10 n := by simp [toString, Nat.repr]
  refine ⟨fun h => ?_, fun c hc => ?_⟩
  · rw [h] at hlist
    exact Nat.toDigits_ne_nil hlist.symm
  · rw [hlist] at hc
    exact isDelimiter_of_isDigit (Nat.isDigit_of_mem_toDigits (by decide) (by decide) hc)

theorem isName_int (n : Int) : IsName (toString n) := by
  cases n with
  | ofNat n => exact isName_nat n
  | negSucc n =>
    have hdigits := (isName_nat (n + 1)).2
    have hlist : (toString (Int.negSucc n)).toList = '-' :: (toString (n + 1)).toList := by
      simp [toString, Int.repr]
    refine ⟨fun h => ?_, fun c hc => ?_⟩
    · rw [h] at hlist
      exact nomatch hlist
    · rw [hlist] at hc
      obtain rfl | hc := List.mem_cons.mp hc
      · rfl
      · exact hdigits c hc

end Token

namespace Term

open Token (IsName)

@[simp] theorem legible_list {items : List (Term String)} :
    (list items).Legible ↔ ∀ t ∈ items, t.Legible := allLegible_iff

theorem legible_symbol {name : String} (h : IsName name) : (symbol name).Legible := .inr h

@[simp] theorem reread_list (items : List (Term String)) : (list items).reread = list (items.map reread) := by
  rw [reread, rereadAll_eq_map]

theorem reread_symbol {name : String} (h : IsName name) : (symbol name).reread = symbol name := by
  rw [reread, if_neg h.ne_parens]

end Term

namespace Rtl

open Token (IsName)

structure Register.Legible (r : Register) : Prop where
  name : r.name = "" ∨ IsName r.name
  kind : r.kind = .storage ∨ r.kind = .const ∨ r.kind = .wire

end Rtl

namespace Image

open Term Token

section Records

variable {n m : Nat}

structure Resource.Legible (r : Resource) : Prop where
  kind : IsName r.kind
  params : ∀ p ∈ r.params, IsName p.1 ∧ IsName p.2

structure Insn.Legible (i : Insn) : Prop where
  kind : IsName i.kind
  operand : i.operand = "" ∨ IsName i.operand

structure Table.Legible (t : Table) : Prop where
  name : IsName t.name
  registers : ∀ r ∈ t.registers, r.Legible
  resources : ∀ r ∈ t.resources, r.Legible
  insns : ∀ s ∈ t.states, ∀ i ∈ s.insns, i.Legible

structure Module.Legible (m : Module) : Prop where
  name : IsName m.name
  tables : ∀ t ∈ m.tables, t.Legible

def words : List String :=
  ["MODULE", "PARENT", "TABLE", "REGISTERS", "REGISTER", "RESOURCES", "RESOURCE", "PARAMS", "ARRAY",
    "EXTERNAL", "INTERNAL", "PARENT-RESOURCE", "CALLEE-TABLE", "INITIAL", "STATE", "INSN", "CHANNEL",
    "INT", "UINT"]

theorem legible_word {w : String} (h : w ∈ words) : (symbol w).Legible := by
  have hnames : ∀ w ∈ words, IsName w := by simp [words, IsName, isDelimiter, isBlank]
  exact legible_symbol (hnames w h)

theorem legible_tagged {w : String} {items : List (Term String)} (hw : w ∈ words)
    (h : ∀ t ∈ items, t.Legible) : (list (symbol w :: items)).Legible :=
  legible_list.mpr (List.forall_mem_cons.mpr ⟨legible_word hw, h⟩)

@[simp] theorem legible_num (n : Nat) : (num n).Legible := legible_symbol (isName_nat n)

@[simp] theorem reread_num (n : Nat) : (num n).reread = num n := reread_symbol (isName_nat n)

@[simp] theorem num_inj : num n = num m ↔ n = m := by
  refine ⟨fun h => Nat.repr_inj.mp (Term.symbol.inj h), congrArg num⟩

@[simp] theorem legible_nums (ns : List Nat) : (nums ns).Legible := by
  simp [nums]

theorem nums_inj {ns ms : List Nat} (h : (nums ns).reread = (nums ms).reread) : ns = ms := by
  simp only [nums, reread_list, List.map_map, Term.list.injEq] at h
  exact eq_of_map_eq (fun n _ m _ hnm => by simpa using hnm) h

theorem legible_typeTerm (t : Rtl.ValueType) : (typeTerm t).Legible := by
  have hsign : (symbol (if t.signed then "INT" else "UINT")).Legible := by
    split <;> exact legible_word (by decide)
  have hwidth : (symbol (toString t.width)).Legible := legible_num t.width.toNat
  simp [typeTerm, hsign, hwidth]

theorem typeTerm_inj {t u : Rtl.ValueType} (h : (typeTerm t).reread = (typeTerm u).reread) :
    t = u := by
  obtain ⟨w, s⟩ := t
  obtain ⟨w', s'⟩ := u
  have hnum : ∀ w : UInt64, symbol (toString w) = num w.toNat := fun _ => rfl
  cases s <;> cases s' <;> simp [typeTerm, hnum, UInt64.toNat_inj, reread] at h ⊢
  all_goals exact h

theorem nameTerm_inj {a b : String} (ha : a = "" ∨ IsName a) (hb : b = "" ∨ IsName b)
    (h : (symbol (if a = "" then "()" else a)).reread =
      (symbol (if b = "" then "()" else b)).reread) : a = b := by
  obtain rfl | ha := ha <;> obtain rfl | hb := hb
  · rfl
  · simp [reread, hb.1, hb.ne_parens] at h
  · simp [reread, ha.1, ha.ne_parens] at h
  · simpa [reread, ha.1, ha.ne_parens, hb.1, hb.ne_parens] using h

theorem isName_kind {r : Rtl.Register} (h : r.Legible) : IsName r.kind.name := by
  obtain hk | hk | hk := h.kind <;> rw [hk] <;>
    simp [IsName, isDelimiter, isBlank, Rtl.RegisterKind.name]

theorem kind_inj {r s : Rtl.Register} (hr : r.Legible) (hs : s.Legible)
    (h : r.kind.name = s.kind.name) : r.kind = s.kind := by
  obtain hr | hr | hr := hr.kind <;> obtain hs | hs | hs := hs.kind <;> rw [hr, hs] at h ⊢ <;>
    simp [Rtl.RegisterKind.name] at h

theorem legible_registerTerm {r : Rtl.Register} (h : r.Legible) : (registerTerm r).Legible := by
  have hname : (symbol (if r.name = "" then "()" else r.name)).Legible := by
    split
    · exact .inl rfl
    · exact legible_symbol (h.name.resolve_left ‹_›)
  have hkind := legible_symbol (isName_kind h)
  refine legible_tagged (by decide) ?_
  cases r.initial with
  | none => simp [hname, hkind, legible_typeTerm]
  | some v =>
    have hv : (symbol (toString v)).Legible := legible_symbol (isName_int v.toInt)
    simp [hname, hkind, hv, legible_typeTerm]

theorem initialTerm_inj {a b : Option Int64}
    (h : (match a with | some v => symbol (toString v) | none => list [] : Term String).reread =
      (match b with | some v => symbol (toString v) | none => list [] : Term String).reread) : a = b := by
  have hread : ∀ v : Int64, (symbol (toString v)).reread = symbol (toString v) := fun v =>
    reread_symbol (isName_int v.toInt)
  cases a with
  | none =>
    cases b with
    | none => rfl
    | some w => simp [hread] at h
  | some v =>
    cases b with
    | none => simp [hread] at h
    | some w =>
      simp only [hread] at h
      have hrepr : v.toInt.repr = w.toInt.repr := Term.symbol.inj h
      rw [Int64.toInt_inj.mp (Int.repr_inj.mp hrepr)]

theorem registerTerm_inj {r s : Rtl.Register} (hr : r.Legible) (hs : s.Legible)
    (h : (registerTerm r).reread = (registerTerm s).reread) : r = s := by
  simp only [registerTerm, reread_list, List.map_cons, List.map_nil, reread_num,
    reread_symbol (isName_kind hr), reread_symbol (isName_kind hs), Term.list.injEq,
    List.cons.injEq, num_inj, Term.symbol.injEq, true_and, and_true] at h
  obtain ⟨hid, hname, hkind, htype, hinitial⟩ := h
  obtain ⟨id, name, type, kind, initial⟩ := r
  obtain ⟨id', name', type', kind', initial'⟩ := s
  cases hid
  cases nameTerm_inj hr.name hs.name hname
  cases kind_inj hr hs hkind
  cases typeTerm_inj htype
  cases initialTerm_inj hinitial
  rfl

theorem legible_arrayTerm (a : Rtl.ArrayShape) : (arrayTerm a).Legible := by
  have hplace : (symbol (if a.external then "EXTERNAL" else "INTERNAL")).Legible := by
    split <;> exact legible_word (by decide)
  have hwidth : (symbol (toString a.addressWidth)).Legible := legible_num a.addressWidth.toNat
  exact legible_tagged (by decide) (by simp [hplace, hwidth, legible_typeTerm])

theorem arrayTerm_inj {a b : Rtl.ArrayShape} (h : (arrayTerm a).reread = (arrayTerm b).reread) :
    a = b := by
  have hnum : ∀ w : UInt64, symbol (toString w) = num w.toNat := fun _ => rfl
  simp only [arrayTerm, hnum, reread_list, List.map_cons, List.map_nil, reread_num,
    Term.list.injEq, List.cons.injEq, num_inj, UInt64.toNat_inj, true_and, and_true] at h
  obtain ⟨hwidth, hdata, hplace⟩ := h
  obtain ⟨width, data, external⟩ := a
  obtain ⟨width', data', external'⟩ := b
  cases hwidth
  cases typeTerm_inj hdata
  cases external <;> cases external' <;> simp [reread] at hplace ⊢

theorem legible_types (ts : List Rtl.ValueType) : (list (ts.map typeTerm)).Legible := by
  simp [legible_typeTerm]

theorem types_inj {ts us : List Rtl.ValueType}
    (h : ts.map (reread ∘ typeTerm) = us.map (reread ∘ typeTerm)) : ts = us :=
  eq_of_map_eq (fun _ _ _ _ => typeTerm_inj) h

theorem legible_params {ps : Rtl.Params} (h : ∀ p ∈ ps, IsName p.1 ∧ IsName p.2) :
    (list (symbol "PARAMS" :: ps.map fun (k, v) => .list [symbol k, symbol v])).Legible := by
  refine legible_tagged (by decide) (List.forall_mem_map.mpr fun p hp => ?_)
  simp [legible_symbol (h p hp).1, legible_symbol (h p hp).2]

theorem params_inj {ps qs : Rtl.Params} (hps : ∀ p ∈ ps, IsName p.1 ∧ IsName p.2)
    (hqs : ∀ q ∈ qs, IsName q.1 ∧ IsName q.2)
    (h : ps.map (reread ∘ fun p => list [symbol p.1, symbol p.2]) =
      qs.map (reread ∘ fun p => list [symbol p.1, symbol p.2])) : ps = qs := by
  refine eq_of_map_eq (fun p hp q hq hpq => ?_) h
  simpa [reread_symbol (hps p hp).1, reread_symbol (hps p hp).2, reread_symbol (hqs q hq).1,
    reread_symbol (hqs q hq).2, Prod.ext_iff] using hpq

theorem legible_resourceTerm {r : Resource} (h : r.Legible) : (resourceTerm r).Legible := by
  simp only [resourceTerm, legible_list, List.mem_append, List.mem_cons, List.mem_map]
  rintro t (((ht | ⟨a, -, rfl⟩) | ⟨p, -, rfl⟩) | ⟨c, -, rfl⟩)
  · obtain rfl | rfl | rfl | rfl | rfl | rfl | ht := ht
    · exact legible_word (by decide)
    · exact legible_num r.id
    · exact legible_symbol h.kind
    · exact legible_types r.inputs
    · exact legible_types r.outputs
    · exact legible_params h.params
    · exact nomatch ht
  · exact legible_arrayTerm a
  · exact legible_tagged (by decide) (by simp)
  · exact legible_tagged (by decide) (by simp)

theorem parentTerm_inj {p q : ResourceRef}
    (h : (list [symbol "PARENT-RESOURCE", num p.module, num p.table, num p.resource]).reread =
      (list [symbol "PARENT-RESOURCE", num q.module, num q.table, num q.resource]).reread) :
    p = q := by
  cases p
  cases q
  simpa [reread] using h

theorem calleeTerm_inj {c e : TableRef}
    (h : (list [symbol "CALLEE-TABLE", num c.module, num c.table]).reread =
      (list [symbol "CALLEE-TABLE", num e.module, num e.table]).reread) : c = e := by
  cases c
  cases e
  simpa [reread] using h

/-- The optional parts are told apart by the words they start with. -/
theorem resourceTerm_inj {r s : Resource} (hr : r.Legible) (hs : s.Legible)
    (h : (resourceTerm r).reread = (resourceTerm s).reread) : r = s := by
  simp only [resourceTerm, reread_list, List.map_append, List.map_map, List.append_assoc,
    List.map_cons, List.cons_append, List.nil_append, reread_num, reread_symbol hr.kind,
    reread_symbol hs.kind, Term.list.injEq, List.cons.injEq, num_inj, Term.symbol.injEq,
    true_and] at h
  obtain ⟨hid, hkind, hinputs, houtputs, hparams, hrest⟩ := h
  obtain ⟨harray, hrest⟩ := map_append_inj (by simp [arrayTerm, reread])
    (by simp [arrayTerm, reread]) hrest
  obtain ⟨hparent, hcallee⟩ := map_append_inj (by simp [reread]) (by simp [reread]) hrest
  obtain ⟨id, kind, inputs, outputs, params, parent, callee, array⟩ := r
  obtain ⟨id', kind', inputs', outputs', params', parent', callee', array'⟩ := s
  cases hid
  cases hkind
  cases types_inj hinputs
  cases types_inj houtputs
  cases params_inj hr.params hs.params hparams
  cases eq_of_toList_map_eq (fun _ _ => arrayTerm_inj) harray
  cases eq_of_toList_map_eq (fun _ _ => parentTerm_inj) hparent
  cases eq_of_toList_map_eq (fun _ _ => calleeTerm_inj) hcallee
  rfl

theorem legible_insnTerm {i : Insn} (h : i.Legible) : (insnTerm i).Legible := by
  have hoperand : (list (if i.operand = "" then [] else [symbol i.operand])).Legible := by
    split
    · simp
    · simp [legible_symbol (h.operand.resolve_left ‹_›)]
  exact legible_tagged (by decide) (by simp [hoperand, legible_symbol h.kind])

theorem operand_inj {a b : String} (ha : a = "" ∨ IsName a) (hb : b = "" ∨ IsName b)
    (h : (list (if a = "" then [] else [symbol a])).reread =
      (list (if b = "" then [] else [symbol b])).reread) : a = b := by
  obtain rfl | ha := ha <;> obtain rfl | hb := hb
  · rfl
  · simp [hb.1] at h
  · simp [ha.1] at h
  · simpa [ha.1, hb.1, reread_symbol ha, reread_symbol hb] using h

theorem insnTerm_inj {i j : Insn} (hi : i.Legible) (hj : j.Legible)
    (h : (insnTerm i).reread = (insnTerm j).reread) : i = j := by
  rw [insnTerm, insnTerm, reread_list, reread_list] at h
  simp only [List.map_cons, List.map_nil, reread_num, reread_symbol hi.kind,
    reread_symbol hj.kind, Term.list.injEq, List.cons.injEq, num_inj, Term.symbol.injEq,
    true_and, and_true] at h
  obtain ⟨hid, hkind, hresource, hoperand, htargets, hinputs, houtputs⟩ := h
  obtain ⟨id, resource, kind, operand, targets, inputs, outputs⟩ := i
  obtain ⟨id', resource', kind', operand', targets', inputs', outputs'⟩ := j
  cases hid
  cases hkind
  cases hresource
  cases operand_inj hi.operand hj.operand hoperand
  cases nums_inj htargets
  cases nums_inj hinputs
  cases nums_inj houtputs
  rfl

theorem legible_stateTerm {s : State} (h : ∀ i ∈ s.insns, i.Legible) : (stateTerm s).Legible := by
  refine legible_tagged (by decide) (List.forall_mem_cons.mpr ⟨legible_num s.id, ?_⟩)
  exact List.forall_mem_map.mpr fun i hi => legible_insnTerm (h i hi)

theorem stateTerm_inj {s u : State} (hs : ∀ i ∈ s.insns, i.Legible) (hu : ∀ i ∈ u.insns, i.Legible)
    (h : (stateTerm s).reread = (stateTerm u).reread) : s = u := by
  simp only [stateTerm, reread_list, List.map_cons, List.map_map, reread_num, Term.list.injEq,
    List.cons.injEq, num_inj, true_and] at h
  obtain ⟨hid, hinsns⟩ := h
  obtain ⟨id, insns⟩ := s
  obtain ⟨id', insns'⟩ := u
  cases hid
  cases eq_of_map_eq (fun i hi j hj => insnTerm_inj (hs i hi) (hu j hj)) hinsns
  rfl

theorem legible_tableTerm {t : Table} (h : t.Legible) : (tableTerm t).Legible := by
  have hregisters : (list (symbol "REGISTERS" :: t.registers.map registerTerm)).Legible :=
    legible_tagged (by decide)
      (List.forall_mem_map.mpr fun r hr => legible_registerTerm (h.registers r hr))
  have hresources : (list (symbol "RESOURCES" :: t.resources.map resourceTerm)).Legible :=
    legible_tagged (by decide)
      (List.forall_mem_map.mpr fun r hr => legible_resourceTerm (h.resources r hr))
  rw [tableTerm, legible_list]
  simp only [List.mem_append, List.mem_cons, List.mem_map]
  rintro u ((hu | ⟨k, -, rfl⟩) | ⟨s, hs, rfl⟩)
  · obtain rfl | rfl | rfl | rfl | rfl | hu := hu
    · exact legible_word (by decide)
    · exact legible_num t.id
    · exact legible_symbol h.name
    · exact hregisters
    · exact hresources
    · exact nomatch hu
  · exact legible_tagged (by decide) (by simp)
  · exact legible_stateTerm (h.insns s hs)

theorem tableTerm_inj {t u : Table} (ht : t.Legible) (hu : u.Legible)
    (h : (tableTerm t).reread = (tableTerm u).reread) : t = u := by
  simp only [tableTerm, reread_list, List.map_append, List.map_map, List.map_cons,
    List.cons_append, List.nil_append, reread_num, reread_symbol ht.name, reread_symbol hu.name,
    Term.list.injEq, List.cons.injEq, num_inj, Term.symbol.injEq, true_and] at h
  obtain ⟨hid, hname, hregisters, hresources, hrest⟩ := h
  obtain ⟨hinitial, hstates⟩ := map_append_inj (by simp [stateTerm, reread])
    (by simp [stateTerm, reread]) hrest
  obtain ⟨id, name, initial, registers, resources, states⟩ := t
  obtain ⟨id', name', initial', registers', resources', states'⟩ := u
  cases hid
  cases hname
  cases eq_of_map_eq
    (fun r hr s hs => registerTerm_inj (ht.registers r hr) (hu.registers s hs)) hregisters
  cases eq_of_map_eq
    (fun r hr s hs => resourceTerm_inj (ht.resources r hr) (hu.resources s hs)) hresources
  cases eq_of_map_eq (fun r hr s hs => stateTerm_inj (ht.insns r hr) (hu.insns s hs)) hstates
  have hinitial : initial = initial' :=
    eq_of_toList_map_eq (fun k l h => by simpa [reread] using h) hinitial
  rw [hinitial]

theorem legible_moduleTerm {m : Module} (h : m.Legible) : (moduleTerm m).Legible := by
  rw [moduleTerm, legible_list]
  simp only [List.mem_append, List.mem_cons, List.mem_map]
  rintro u ((hu | ⟨p, -, rfl⟩) | ⟨t, ht, rfl⟩)
  · obtain rfl | rfl | rfl | hu := hu
    · exact legible_word (by decide)
    · exact legible_num m.id
    · exact legible_symbol h.name
    · exact nomatch hu
  · exact legible_tagged (by decide) (by simp)
  · exact legible_tableTerm (h.tables t ht)

theorem moduleTerm_inj {m n : Module} (hm : m.Legible) (hn : n.Legible)
    (h : (moduleTerm m).reread = (moduleTerm n).reread) : m = n := by
  simp only [moduleTerm, reread_list, List.map_append, List.map_map, List.map_cons,
    List.cons_append, List.nil_append, reread_num, reread_symbol hm.name, reread_symbol hn.name,
    Term.list.injEq, List.cons.injEq, num_inj, Term.symbol.injEq, true_and] at h
  obtain ⟨hid, hname, hrest⟩ := h
  obtain ⟨hparent, htables⟩ := map_append_inj (by simp [tableTerm, reread])
    (by simp [tableTerm, reread]) hrest
  obtain ⟨id, name, parent, tables⟩ := m
  obtain ⟨id', name', parent', tables'⟩ := n
  cases hid
  cases hname
  cases eq_of_map_eq (fun t ht u hu => tableTerm_inj (hm.tables t ht) (hn.tables u hu)) htables
  have hparent : parent = parent' :=
    eq_of_toList_map_eq (fun k l h => by simpa [reread] using h) hparent
  rw [hparent]

theorem legible_endTerm (r : Option ResourceRef) : (endTerm r).Legible := by
  cases r <;> simp [endTerm]

theorem endTerm_inj {r s : Option ResourceRef} (h : (endTerm r).reread = (endTerm s).reread) :
    r = s := by
  cases r with
  | none =>
    cases s with
    | none => rfl
    | some s => simp [endTerm, nums] at h
  | some r =>
    cases s with
    | none => simp [endTerm, nums] at h
    | some s =>
      have hnumbers := nums_inj h
      obtain ⟨m, t, k⟩ := r
      obtain ⟨m', t', k'⟩ := s
      simpa using hnumbers

theorem legible_channelTerm (c : Channel) : (channelTerm c).Legible :=
  legible_tagged (by decide) (by simp [legible_typeTerm, legible_endTerm])

theorem channelTerm_inj {c e : Channel} (h : (channelTerm c).reread = (channelTerm e).reread) :
    c = e := by
  simp only [channelTerm, reread_list, List.map_cons, List.map_nil, reread_num, Term.list.injEq,
    List.cons.injEq, num_inj, true_and, and_true] at h
  obtain ⟨hid, htype, hwriter, hreader⟩ := h
  obtain ⟨id, type, writer, reader⟩ := c
  obtain ⟨id', type', writer', reader'⟩ := e
  cases hid
  cases typeTerm_inj htype
  cases endTerm_inj hwriter
  cases endTerm_inj hreader
  rfl

end Records

theorem legible_terms {i : Image} (h : ∀ m ∈ i.modules, m.Legible) : ∀ t ∈ i.terms, t.Legible := by
  simp only [terms, List.forall_mem_append, List.forall_mem_map]
  exact ⟨fun m hm => legible_moduleTerm (h m hm), fun c _ => legible_channelTerm c⟩

theorem terms_inj {i j : Image} (hi : ∀ m ∈ i.modules, m.Legible) (hj : ∀ m ∈ j.modules, m.Legible)
    (h : i.terms.map reread = j.terms.map reread) : i = j := by
  simp only [terms, List.map_append, List.map_map] at h
  obtain ⟨hmodules, hchannels⟩ := map_append_inj (by simp [moduleTerm, channelTerm, reread])
    (by simp [moduleTerm, channelTerm, reread]) h
  obtain ⟨modules, channels⟩ := i
  obtain ⟨modules', channels'⟩ := j
  cases eq_of_map_eq (fun m hm n hn => moduleTerm_inj (hi m hm) (hj n hn)) hmodules
  cases eq_of_map_eq (fun _ _ _ _ => channelTerm_inj) hchannels
  rfl

theorem prints_text {i : Image} (h : ∀ m ∈ i.modules, m.Legible) :
    Prints i.text (lexemesOf (i.terms.map reread)) := by
  have hterms : ∀ t ∈ i.terms.map (3, ·), t.2.Legible := by simpa using legible_terms h
  have hlines := prints_linesOf hterms
  simpa [text, linesOf, List.flatMap_map, Function.comp_def] using hlines

theorem text_inj {i j : Image} (hi : ∀ m ∈ i.modules, m.Legible) (hj : ∀ m ∈ j.modules, m.Legible)
    (h : i.text = j.text) : i = j := by
  obtain ⟨cs, htext, hlays⟩ := prints_text hi
  obtain ⟨cs', htext', hlays'⟩ := prints_text hj
  have hsame : cs = cs' := utf8_inj (by rw [← htext, ← htext', h])
  have hterms := (Reader.readAll_terms hlays.ofText).1
  rw [hsame, (Reader.readAll_terms hlays'.ofText).1] at hterms
  exact terms_inj hi hj hterms.symm

end Image

end MachineSynth
