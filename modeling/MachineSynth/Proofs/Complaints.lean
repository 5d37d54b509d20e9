import Mathlib
import MachineSynth.Proofs.Loading
import MachineSynth.Proofs.Spans

/-! Complaints: what is wrong with a listing is said about one of the nodes of its term. -/
namespace MachineSynth

open Synth (except_bind_eq_error mapError_eq_error)

def Located.AllSpans (P : Span → Prop) (d : Located) : Prop := ∀ e ∈ d.nodes, P e.span

namespace Located

variable {P : Span → Prop} {d : Located} {ds : List Located}

theorem mem_nodesOf {e : Located} : e ∈ nodesOf ds ↔ ∃ d ∈ ds, e ∈ d.nodes := by
  induction ds with
  | nil => simp [nodesOf]
  | cons d ds ih => simp [nodesOf, ih]

theorem allSpans_list {span : Span} {items : List Located} :
    (list span items).AllSpans P ↔ P span ∧ ∀ d ∈ items, d.AllSpans P := by
  rw [AllSpans, nodes, List.forall_mem_cons]
  simp only [mem_nodesOf, AllSpans]
  exact and_congr_right' ⟨fun h d hd e he => h e ⟨d, hd, he⟩, fun h e ⟨d, hd, he⟩ => h d hd e he⟩

theorem self_mem_nodes (d : Located) : d ∈ d.nodes := by
  cases d <;> exact List.mem_cons_self

theorem AllSpans.span (h : d.AllSpans P) : P d.span := h d (self_mem_nodes d)

end Located

open Located (AllSpans allSpans_list)

namespace Listing

/-- Whether a reader that gives no value complains about a span with some property. -/
def Complains {α : Type} (P : Span → Prop) (r : Read α) : Prop := ∀ c, r = .error c → P c.span

def Form.AllSpans (P : Span → Prop) (f : Form) : Prop := (Located.list f.span f.items).AllSpans P

section Calculus

variable {P : Span → Prop} {α β : Type} {r : Read α} {g : α → Read β} {span : Span}

theorem Complains.ok (a : α) : Complains P (.ok a) := fun _ h => nomatch h

theorem complains_complain (cause : Cause) (h : P span) :
    Complains P (complain span cause : Read α) := by
  intro c hc
  cases hc
  exact h

theorem Complains.bind (h : Complains P r) (hg : ∀ a, r = .ok a → Complains P (g a)) :
    Complains P (r >>= g) := by
  intro c hc
  obtain hc | ⟨a, ha, hc⟩ := except_bind_eq_error.mp hc
  · exact h c hc
  · exact hg a ha c hc

theorem Complains.bind_pure {k : α → β} (h : Complains P r) :
    Complains P (r >>= fun a => pure (k a)) := h.bind fun _ _ => .ok _

end Calculus

section Form

variable {P : Span → Prop} {f : Form} {ds : List Located}

theorem Form.AllSpans.span (h : f.AllSpans P) : P f.span := (allSpans_list.mp h).1

theorem Form.AllSpans.items (h : f.AllSpans P) : ∀ d ∈ f.items, d.AllSpans P :=
  (allSpans_list.mp h).2

theorem Form.AllSpans.spanAt (h : f.AllSpans P) (i : Nat) : P (f.spanAt i) := by
  unfold Form.spanAt
  cases hi : f.items[i]? with
  | none => exact h.span
  | some d => exact (h.items d (List.mem_of_getElem? hi)).span

theorem Form.AllSpans.symbol (h : f.AllSpans P) (i : Nat) : Complains P (f.symbol i) := by
  unfold Form.symbol
  split
  · exact complains_complain _ h.span
  · exact .ok _
  · rename_i hi
    exact complains_complain _ (h.items _ (List.mem_of_getElem? hi)).span

theorem Form.AllSpans.number (h : f.AllSpans P) (i bits : Nat) :
    Complains P (f.number i bits) := by
  refine (h.symbol i).bind fun s _ => ?_
  split
  · exact .ok _
  · exact complains_complain _ (h.spanAt i)

theorem Form.AllSpans.word (h : f.AllSpans P) (i bits : Nat) : Complains P (f.word i bits) :=
  (h.number i bits).bind_pure

theorem Form.AllSpans.integer (h : f.AllSpans P) (i : Nat) : Complains P (f.integer i) := by
  refine (h.symbol i).bind fun s _ => ?_
  split
  · exact .ok _
  · exact complains_complain _ (h.spanAt i)

theorem Form.AllSpans.name (h : f.AllSpans P) : Complains P f.name := by
  unfold Form.name
  split
  · exact h.symbol 1
  · exact complains_complain _ h.span

theorem readFlags_complains {allowed : List String} (h : ∀ d ∈ ds, d.AllSpans P) :
    Complains P (Form.readFlags allowed ds) := by
  induction ds with
  | nil => exact .ok _
  | cons d ds ih =>
    obtain ⟨hd, hds⟩ := List.forall_mem_cons.mp h
    cases d with
    | list span items => exact complains_complain _ hd.span
    | symbol span name =>
      rw [Form.readFlags]
      split
      · exact (ih hds).bind_pure
      · exact complains_complain _ hd.span

theorem Form.AllSpans.flags (h : f.AllSpans P) (start : Nat) (allowed : List String) :
    Complains P (f.flags start allowed) :=
  readFlags_complains fun d hd => h.items d (List.mem_of_mem_drop hd)

theorem Form.AllSpans.register (h : f.AllSpans P) (regs : List Register) (i : Nat) :
    Complains P (f.register regs i) := by
  refine (h.symbol i).bind fun name _ => ?_
  split
  · exact .ok _
  · split
    · exact .ok _
    · exact complains_complain _ (h.spanAt i)

theorem Form.AllSpans.registers (h : f.AllSpans P) (regs : List Register) (start n : Nat) :
    Complains P (f.registers regs start n) := by
  induction n generalizing start with
  | zero => exact .ok _
  | succ n ih => exact (h.register regs start).bind fun r _ => (ih (start + 1)).bind_pure

end Form

section Insn

variable {P : Span → Prop}

/-- Whether a reader of instructions complains about the nodes of its form only. -/
def ComplainsInside (P : Span → Prop) (read : InsnReader) : Prop :=
  ∀ (regs : List Register) (f : Form), f.AllSpans P → Complains P (read regs f)

theorem complains_registerReaders : ∀ p ∈ registerReaders, ComplainsInside P p.2.2 := by
  simp only [registerReaders, List.forall_mem_cons, List.not_mem_nil, false_imp_iff,
    implies_true, and_true]
  refine ⟨?_, ?_, ?_, ?_, ?_, ?_, ?_, ?_, ?_, ?_, ?_, ?_, ?_⟩
  all_goals
    intro regs f hf
    have hregister := hf.register regs
    have hword := hf.word
    repeat' first
      | exact .ok _
      | exact hregister _
      | exact hword _ _
      | refine .bind ?_ fun _ _ => ?_

theorem complains_accessReaders : ∀ p ∈ accessReaders, ComplainsInside P p.2.2 := by
  simp only [accessReaders, List.forall_mem_cons, List.not_mem_nil, false_imp_iff,
    implies_true, and_true]
  refine ⟨?_, ?_, ?_, ?_, ?_, ?_, ?_, ?_⟩
  all_goals
    intro regs f hf
    have hregister := hf.register regs
    have hsymbol := hf.symbol
    repeat' first
      | exact .ok _
      | exact hregister _
      | exact hsymbol _
      | refine .bind ?_ fun _ _ => ?_

theorem complains_readBinary (op : BinaryOp) : ComplainsInside P (readBinary op) :=
  fun regs _ hf => (hf.register regs 1).bind fun _ _ =>
    (hf.register regs 2).bind fun _ _ => (hf.register regs 3).bind_pure

theorem complains_fixedReaders : ∀ p ∈ fixedReaders, ComplainsInside P p.2.2 := by
  intro p hp
  simp only [fixedReaders, List.mem_append] at hp
  obtain (hp | hp) | hp := hp
  · exact complains_registerReaders p hp
  · obtain ⟨⟨name, op⟩, -, rfl⟩ := List.mem_map.mp hp
    exact complains_readBinary op
  · exact complains_accessReaders p hp

theorem complains_readLoadObject : ComplainsInside P readLoadObject := by
  intro regs f hf
  unfold readLoadObject
  split
  · exact (hf.register regs 1).bind fun _ _ => (hf.register regs 2).bind_pure
  · split
    · exact (hf.register regs 1).bind fun _ _ =>
        (hf.register regs 2).bind fun _ _ => (hf.symbol 3).bind_pure
    · exact complains_complain _ hf.span

theorem complains_readCall : ComplainsInside P readCall := by
  intro regs f hf
  unfold readCall
  split
  · exact complains_complain _ hf.span
  · exact (hf.register regs 1).bind fun _ _ =>
      (hf.symbol 2).bind fun _ _ => (hf.registers regs 3 _).bind_pure

theorem complains_readCallDone : ComplainsInside P readCallDone :=
  fun regs _ hf => (hf.registers regs 1 _).bind_pure

end Insn

end Listing

namespace Dispatch

variable {ε α : Type} {P : Span → Prop} {d : Dispatch ε α} {name : String} {rule : Rule ε α}

/-- Whether a rule complains about the nodes of its list only. -/
def Inside (P : Span → Prop) (rule : Rule ε α) : Prop := ∀ (span : Span) (items : List Located),
  (Located.list span items).AllSpans P →
    ∀ c, rule (.list span items) items = .error (.at c) → P c.span

/-- Whether all rules do so, and a term is reported under its own span. -/
structure Complains (P : Span → Prop) (d : Dispatch ε α) : Prop where
  spanOf : d.spanOf = Located.span
  rules : ∀ p ∈ d.rules, Inside P p.2

theorem Complains.add (h : d.Complains P) (hrule : Inside P rule) : (d.add name rule).Complains P :=
  ⟨h.spanOf, List.forall_mem_cons.mpr ⟨hrule, h.rules⟩⟩

theorem Complains.addArity {n : Int} (h : d.Complains P) (hrule : Inside P rule) :
    (d.addArity name n rule).Complains P := by
  refine h.add fun span items hspans c hc => ?_
  split at hc
  · exact hrule span items hspans c hc
  · cases hc

theorem Complains.apply {t : Located} {c : Complaint ε} (h : d.Complains P) (ht : t.AllSpans P)
    (hc : d.apply t = .error c) : P c.span := by
  have hself : P (d.spanOf t) := by
    rw [h.spanOf]
    exact ht.span
  unfold Dispatch.apply at hc
  split at hc
  · cases hc
    exact hself
  · split at hc
    · split at hc
      · cases hc
        exact hself
      · split at hc
        · cases hc
          rw [h.spanOf]
          exact ((allSpans_list.mp ht).2 _ List.mem_cons_self).span
        · rename_i rule hrule
          split at hc <;> cases hc
          · exact hself
          · exact h.rules _ (mem_of_lookup hrule) _ _ ht _ ‹_›
    · cases hc
      exact hself

end Dispatch

namespace Listing

section Method

variable {P : Span → Prop} {regs : List Register} {ts : List Located}

theorem insnRules_complains (regs : List Register) : (insnRules regs).Complains P := by
  have hrule : ∀ {read : InsnReader}, ComplainsInside P read →
      Dispatch.Inside P (insnRule regs read) := by
    intro read hread span items hspans c hc
    obtain ⟨c', hc', hat⟩ := mapError_eq_error.mp hc
    cases hat
    exact hread regs ⟨span, items⟩ hspans c hc'
  have hfixed : ∀ (readers : List (String × Int × InsnReader)) (d : Dispatch Cause Insn),
      (∀ p ∈ readers, ComplainsInside P p.2.2) → d.Complains P →
      (readers.foldl (fun d p => d.addArity p.1 p.2.1 (insnRule regs p.2.2)) d).Complains P := by
    intro readers
    induction readers with
    | nil => exact fun _ _ hd => hd
    | cons p readers ih =>
      intro d hreaders hd
      obtain ⟨hp, hreaders⟩ := List.forall_mem_cons.mp hreaders
      exact ih _ hreaders (hd.addArity (hrule hp))
  have hempty : (⟨Located.span, .mismatch, []⟩ : Dispatch Cause Insn).Complains P :=
    ⟨rfl, by simp⟩
  exact (((hfixed _ _ complains_fixedReaders hempty).add (hrule complains_readLoadObject)).add
    (hrule complains_readCall)).add (hrule complains_readCallDone)

theorem readInsns_complains {size : Nat} (h : ∀ t ∈ ts, t.AllSpans P) :
    Complains P (readInsns regs size ts) := by
  induction ts with
  | nil => exact .ok _
  | cons t ts ih =>
    obtain ⟨ht, hts⟩ := List.forall_mem_cons.mp h
    have hinsn : Complains P ((insnRules regs).apply t) := fun c hc =>
      (insnRules_complains regs).apply ht hc
    refine hinsn.bind fun i _ => ?_
    dsimp only
    split
    · exact (complains_complain _ ht.span).bind fun _ _ => (ih hts).bind_pure
    · exact (ih hts).bind_pure

theorem Form.AllSpans.type {f : Form} (h : f.AllSpans P) (i : Nat) :
    Complains P (readType f i) := by
  refine (h.symbol i).bind fun kind _ => ?_
  split
  · exact (h.word (i + 1) 64).bind_pure
  · exact .ok _
  · exact .ok _
  · exact .ok _
  · exact complains_complain _ (h.spanAt i)

theorem readDecl_complains {named : Bool} {t : Located} (h : t.AllSpans P) :
    Complains P (readDecl named t) := by
  unfold readDecl
  split
  · rename_i span first rest
    have hf : Form.AllSpans P ⟨span, first :: rest⟩ := h
    dsimp only
    split
    · exact (hf.symbol 0).bind fun _ _ => (hf.type 1).bind_pure
    · exact (hf.type 0).bind_pure
  · exact complains_complain _ h.span

theorem readDecls_complains {named : Bool} (h : ∀ t ∈ ts, t.AllSpans P) :
    Complains P (readDecls named ts) := by
  induction ts with
  | nil => exact .ok _
  | cons t ts ih =>
    obtain ⟨ht, hts⟩ := List.forall_mem_cons.mp h
    exact (readDecl_complains ht).bind fun d _ => (ih hts).bind_pure

theorem readMarks_complains {marks : Marks} (h : ∀ t ∈ ts, t.AllSpans P) :
    Complains P (readMarks marks ts) := by
  induction ts generalizing marks with
  | nil => exact .ok _
  | cons t ts ih =>
    obtain ⟨ht, hts⟩ := List.forall_mem_cons.mp h
    have hmark : Complains P (readMark t) := by
      unfold readMark
      split
      · exact .ok _
      · exact .ok _
      · exact complains_complain _ ht.span
    refine hmark.bind fun p _ => ?_
    dsimp only
    split
    case h_5 => exact (complains_complain _ ht.span).bind fun _ _ => ih hts
    all_goals exact ih hts

theorem readRegister_complains {f : Form} (h : f.AllSpans P) : Complains P (readRegister f) := by
  refine (h.symbol 0).bind fun name _ => (h.symbol 1).bind fun kind _ => ?_
  split
  · exact (h.word 2 64).bind_pure
  · exact .ok _
  · exact .ok _
  · exact (h.word 2 64).bind fun width _ => (h.integer 3).bind_pure
  · exact complains_complain _ (h.spanAt 1)

theorem readForms_complains (h : ∀ t ∈ ts, t.AllSpans P) : Complains P (readForms ts) ∧
    ∀ fs, readForms ts = .ok fs → ∀ f ∈ fs, f.AllSpans P := by
  induction ts with
  | nil =>
    refine ⟨.ok _, fun fs hfs => ?_⟩
    cases hfs
    simp
  | cons t ts ih =>
    obtain ⟨ht, hts⟩ := List.forall_mem_cons.mp h
    obtain ⟨hcomplains, hforms⟩ := ih hts
    cases t with
    | symbol span name => exact ⟨complains_complain _ ht.span, fun fs hfs => nomatch hfs⟩
    | list span items =>
      refine ⟨hcomplains.bind_pure, fun fs hfs => ?_⟩
      simp only [readForms, Synth.except_bind_eq_ok] at hfs
      obtain ⟨rest, hrest, hfs⟩ := hfs
      cases hfs
      exact List.forall_mem_cons.mpr ⟨ht, hforms rest hrest⟩

theorem addLocals_complains {fs : List Form} (h : ∀ f ∈ fs, f.AllSpans P) :
    Complains P (addLocals regs fs) := by
  induction fs generalizing regs with
  | nil => exact .ok _
  | cons f fs ih =>
    obtain ⟨hf, hfs⟩ := List.forall_mem_cons.mp h
    refine (readRegister_complains hf).bind fun r _ => ?_
    dsimp only
    split
    · exact (complains_complain _ hf.span).bind fun _ _ => ih hfs
    · exact ih hfs

def Clauses.AllSpans (P : Span → Prop) (c : Clauses) : Prop :=
  (∀ f ∈ c.locals, f.AllSpans P) ∧ ∀ t ∈ c.code, t.AllSpans P

variable {c : Clauses}

theorem readClause_complains {f : Form} (hc : c.AllSpans P) (hf : f.AllSpans P)
    (hts : ∀ t ∈ ts, t.AllSpans P) : Complains P (readClause c f ts) ∧
      ∀ c', readClause c f ts = .ok c' → c'.AllSpans P := by
  obtain ⟨hforms, hlocals⟩ := readForms_complains hts
  constructor
  · unfold readClause
    split
    · exact (readDecls_complains hts).bind_pure
    · exact (readDecls_complains hts).bind_pure
    · exact (readMarks_complains hts).bind_pure
    · exact hf.name.bind_pure
    · exact hf.name.bind_pure
    · exact hf.name.bind_pure
    · exact hforms.bind_pure
    · exact .ok _
    · exact complains_complain _ (hf.spanAt 0)
  · intro c' hc'
    unfold readClause at hc'
    split at hc'
    case h_7 =>
      simp only [Synth.except_bind_eq_ok] at hc'
      obtain ⟨fs, hfs, hc'⟩ := hc'
      cases hc'
      exact ⟨hlocals fs hfs, hc.2⟩
    case h_8 =>
      cases hc'
      exact ⟨hc.1, hts⟩
    case h_9 => cases hc'
    all_goals
      simp only [Synth.except_bind_eq_ok] at hc'
      obtain ⟨_, -, hc'⟩ := hc'
      cases hc'
      exact hc

theorem readClauses_complains (hc : c.AllSpans P) (h : ∀ t ∈ ts, t.AllSpans P) :
    Complains P (readClauses c ts) ∧ ∀ c', readClauses c ts = .ok c' → c'.AllSpans P := by
  fun_induction readClauses c ts with
  | case1 c =>
    refine ⟨.ok _, fun c' hc' => ?_⟩
    cases hc'
    exact hc
  | case2 c span s head arguments rest ih =>
    obtain ⟨ht, hrest⟩ := List.forall_mem_cons.mp h
    have harguments : ∀ t ∈ arguments, t.AllSpans P :=
      (List.forall_mem_cons.mp (allSpans_list.mp ht).2).2
    obtain ⟨hclause, hyields⟩ :=
      readClause_complains (f := ⟨span, .symbol s head :: arguments⟩) hc ht harguments
    refine ⟨hclause.bind fun c₁ hc₁ => (ih c₁ (hyields c₁ hc₁) hrest).1, fun c' hc' => ?_⟩
    obtain ⟨c₁, hc₁, hc'⟩ := Synth.except_bind_eq_ok.mp hc'
    exact (ih c₁ (hyields c₁ hc₁) hrest).2 c' hc'
  | case3 c t rest =>
    refine ⟨complains_complain _ (List.forall_mem_cons.mp h).1.span, fun c' hc' => ?_⟩
    cases hc'

theorem readMethod_complains {name : String} (h : ∀ t ∈ ts, t.AllSpans P) :
    Complains P (readMethod name ts) := by
  obtain ⟨hclauses, hyields⟩ := readClauses_complains
    (c := ⟨⟨name, [], [], [], [], "", "", "", .none⟩, [], []⟩) (by simp [Clauses.AllSpans]) h
  refine hclauses.bind fun c hc => ?_
  obtain ⟨hlocals, hcode⟩ := hyields c hc
  exact (addLocals_complains hlocals).bind fun regs _ => (readInsns_complains hcode).bind_pure

end Method

section Members

variable {P : Span → Prop} {f : Form} {name : String}

theorem readNum_complains (h : f.AllSpans P) : Complains P (readNum f) := by
  refine (h.word 2 64).bind fun width _ => ?_
  split
  · exact (h.flags 4 _).bind_pure
  · exact (h.flags 3 _).bind_pure

theorem readEnum_complains (h : f.AllSpans P) : Complains P (readEnum f) :=
  (h.number 2 64).bind fun _ _ => (h.flags 3 _).bind_pure

theorem readArray_complains (h : f.AllSpans P) : Complains P (readArray name f) :=
  (h.word 2 64).bind fun _ _ => (h.word 3 32).bind fun _ _ => (h.flags 4 _).bind_pure

theorem readChannel_complains (h : f.AllSpans P) : Complains P (readChannel name f) := by
  unfold readChannel
  split
  · exact (h.word 2 64).bind_pure
  · exact complains_complain _ h.span

theorem readThread_complains (h : f.AllSpans P) : Complains P (readThread name f) := by
  unfold readThread
  split
  · exact (h.symbol 2).bind_pure
  · exact complains_complain _ h.span

theorem checkName_complains {o : Object} (h : f.AllSpans P) : Complains P (checkName o f name) := by
  unfold checkName
  split
  · exact .ok _
  · split
    · exact .ok _
    · exact complains_complain _ (h.spanAt 1)

mutual

theorem readMembers_complains : ∀ {ts : List Located} {id : Nat} {c : Family},
    (∀ t ∈ ts, t.AllSpans P) → Complains P (readMembers id c ts)
  | [], _, _, _ => by
    rw [readMembers]
    exact .ok _
  | t :: ts, _, _, h => by
    obtain ⟨ht, hts⟩ := List.forall_mem_cons.mp h
    rw [readMembers]
    exact (readMember_complains ht).bind fun c _ => readMembers_complains hts

theorem readMember_complains : ∀ {t : Located} {id : Nat} {c : Family}, t.AllSpans P →
    Complains P (readMember id c t)
  | .list span (.symbol s kind :: second :: rest), id, c, h => by
    have hf : Form.AllSpans P ⟨span, .symbol s kind :: second :: rest⟩ := h
    have hrest : ∀ t ∈ rest, t.AllSpans P := fun t ht => hf.items t (by simp [ht])
    rw [readMember]
    refine (hf.symbol 1).bind fun name _ => (checkName_complains hf).bind fun _ _ => ?_
    split
    · exact (readNum_complains hf).bind_pure
    · exact (readEnum_complains hf).bind_pure
    · exact (readArray_complains hf).bind_pure
    · exact (readChannel_complains hf).bind_pure
    · exact (readMembers_complains hrest).bind_pure
    · exact (readThread_complains hf).bind_pure
    · exact (readMethod_complains hrest).bind_pure
    · exact complains_complain _ (hf.spanAt 0)
  | .symbol span name, _, _, h => by
    rw [readMember]
    · exact complains_complain _ h.span
    · simp
  | .list span [], _, _, h => by
    rw [readMember]
    · exact complains_complain _ h.span
    · simp
  | .list span [_], _, _, h => by
    rw [readMember]
    · exact complains_complain _ h.span
    · simp
  | .list span (.list _ _ :: _ :: _), _, _, h => by
    rw [readMember]
    · exact complains_complain _ h.span
    · simp

end

/-- What is wrong with the top-level object is said about one of the nodes of its term. -/
theorem readTop_complains {t : Located} (h : t.AllSpans P) : Complains P (readTop t) := by
  unfold readTop
  split
  · rename_i span s head name members
    have hf : Form.AllSpans P ⟨span, .symbol s head :: name :: members⟩ := h
    split
    · refine (hf.symbol 1).bind fun n _ => readMembers_complains fun t ht => ?_
      exact hf.items t (by simp [ht])
    · exact complains_complain _ h.span
  · exact complains_complain _ h.span

end Members

end Listing
end MachineSynth
