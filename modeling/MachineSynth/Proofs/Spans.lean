import Mathlib
import MachineSynth.Proofs.Printing

/-! Where terms stand in a text: the tokens that a term was read from, and the part of the text that
they take up. -/
namespace MachineSynth

def Lexeme.chars : Lexeme → List Char
  | opening => ['(']
  | closing => [')']
  | symbol name => name

namespace Token

/-- The position just after a token. -/
def stop (t : Token) : Nat := t.start + t.lexeme.chars.length

theorem span_start (t : Token) : t.span.start = t.start := by
  unfold span
  split <;> rfl

theorem span_stop (t : Token) : t.span.stop = t.stop := by
  obtain ⟨start, lexeme⟩ := t
  cases lexeme <;> rfl

/-- The first of two tokens ends where the second starts, or before. -/
def Precedes (t u : Token) : Prop := t.stop ≤ u.start

/-- The tokens of a text, seen from one of them: the text before it has those before it, with it or
without it, and what is left has those after it. -/
structure Around (i : Nat) (cs : List Char) (before : List Token) (t : Token)
    (after : List Token) (front rest : List Char) : Prop where
  text : cs = front ++ (t.lexeme.chars ++ rest)
  start : t.start = i + front.length
  ahead : Scans i front before
  through : Scans i (front ++ t.lexeme.chars) (before ++ [t])
  behind : Scans t.stop rest after

section Scan

variable {i : Nat} {cs : List Char} {ts before after : List Token} {t : Token}

theorem scans_symbol {name : List Char} (hne : name ≠ [])
    (hplain : ∀ c ∈ name, isDelimiter c = false) : Scans i name [⟨i, .symbol name⟩] := by
  have hscans := Scans.symbol (i := i) hne hplain bounded_nil .done
  rwa [List.append_nil] at hscans

/-- Each token is scanned from its own code points. -/
theorem Scans.single (h : Scans i cs ts) (ht : t ∈ ts) : Scans t.start t.lexeme.chars [t] := by
  induction h with
  | done => cases ht
  | blank _ _ ih | comment _ _ _ ih => exact ih ht
  | opening _ ih =>
    obtain rfl | ht := List.mem_cons.mp ht
    · exact .opening .done
    · exact ih ht
  | closing _ ih =>
    obtain rfl | ht := List.mem_cons.mp ht
    · exact .closing .done
    · exact ih ht
  | symbol hne hplain _ _ ih =>
    obtain rfl | ht := List.mem_cons.mp ht
    · exact scans_symbol hne hplain
    · exact ih ht

theorem Scans.chars_ne_nil (h : Scans i cs ts) (ht : t ∈ ts) : t.lexeme.chars ≠ [] := by
  intro hnil
  have hsingle := h.single ht
  rw [hnil] at hsingle
  cases hsingle.scan_eq

theorem Scans.around (h : Scans i cs (before ++ t :: after)) :
    ∃ front rest, Around i cs before t after front rest := by
  generalize hts : before ++ t :: after = ts at h
  induction h generalizing before with
  | done => simp at hts
  | blank hblank _ ih =>
    obtain ⟨front, rest, h⟩ := ih hts
    refine ⟨_ :: front, rest, ?_, ?_, h.ahead.blank hblank, h.through.blank hblank, h.behind⟩
    · rw [h.text, List.cons_append]
    · rw [h.start, List.length_cons]; omega
  | @comment i body cs ts hline hends _ ih =>
    obtain ⟨front, rest, h⟩ := ih hts
    -- What comes after the comment still starts with the end of its line.
    rw [h.text] at hends
    have hfront : ∀ c ∈ front.head?, c = '\n' := fun c hc =>
      hends c (List.mem_head?_append_of_mem_head? hc)
    have hthrough : ∀ c ∈ (front ++ t.lexeme.chars).head?, c = '\n' := fun c hc =>
      hends c (List.append_assoc .. ▸ List.mem_head?_append_of_mem_head? hc)
    refine ⟨';' :: (body ++ front), rest, ?_, ?_, h.ahead.comment hline hfront, ?_, h.behind⟩
    · rw [h.text, List.cons_append, List.append_assoc]
    · rw [h.start, List.length_cons, List.length_append]; omega
    · rw [List.cons_append, List.append_assoc]
      exact h.through.comment hline hthrough
  | @opening i cs ts hrest ih =>
    cases before with
    | nil =>
      cases hts
      exact ⟨[], cs, rfl, rfl, .done, .opening .done, hrest⟩
    | cons u before =>
      cases hts
      obtain ⟨front, rest, h⟩ := ih rfl
      refine ⟨'(' :: front, rest, ?_, ?_, h.ahead.opening, h.through.opening, h.behind⟩
      · rw [h.text, List.cons_append]
      · rw [h.start, List.length_cons]; omega
  | @closing i cs ts hrest ih =>
    cases before with
    | nil =>
      cases hts
      exact ⟨[], cs, rfl, rfl, .done, .closing .done, hrest⟩
    | cons u before =>
      cases hts
      obtain ⟨front, rest, h⟩ := ih rfl
      refine ⟨')' :: front, rest, ?_, ?_, h.ahead.closing, h.through.closing, h.behind⟩
      · rw [h.text, List.cons_append]
      · rw [h.start, List.length_cons]; omega
  | @symbol i name cs ts hne hplain hends hrest ih =>
    cases before with
    | nil =>
      cases hts
      exact ⟨[], cs, rfl, rfl, .done, scans_symbol hne hplain, hrest⟩
    | cons u before =>
      cases hts
      obtain ⟨front, rest, h⟩ := ih rfl
      rw [h.text] at hends
      have hfront : Bounded front := fun c hc =>
        hends c (List.mem_head?_append_of_mem_head? hc)
      have hthrough : Bounded (front ++ t.lexeme.chars) := fun c hc =>
        hends c (List.append_assoc .. ▸ List.mem_head?_append_of_mem_head? hc)
      refine ⟨name ++ front, rest, ?_, ?_, h.ahead.symbol hne hplain hfront, ?_, h.behind⟩
      · rw [h.text, List.append_assoc]
      · rw [h.start, List.length_append]; omega
      · rw [List.append_assoc]
        exact h.through.symbol hne hplain hthrough

theorem Scans.stop_le (h : Scans 0 cs ts) (ht : t ∈ ts) : t.stop ≤ cs.length := by
  obtain ⟨before, after, rfl⟩ := List.append_of_mem ht
  obtain ⟨front, rest, hat⟩ := h.around
  rw [hat.text, stop, hat.start]
  simp only [List.length_append]
  omega

theorem Scans.bracketed {o c : Token} {inner : List Token}
    (h : Scans 0 cs (before ++ o :: (inner ++ c :: after))) (ho : o.lexeme = .opening)
    (hc : c.lexeme = .closing) : ∃ front inside rest,
      cs = front ++ ('(' :: (inside ++ [')']) ++ rest) ∧ o.start = front.length ∧
        c.start = front.length + 1 + inside.length ∧ Scans o.stop inside inner ∧
        Scans o.start ('(' :: (inside ++ [')'])) (o :: (inner ++ [c])) := by
  obtain ⟨start, _⟩ := o
  obtain ⟨_, _⟩ := c
  cases ho
  cases hc
  obtain ⟨front, rest, hopening⟩ := h.around
  obtain ⟨inside, rest, hclosing⟩ := hopening.behind.around
  have hstart : start = front.length := by rw [← Nat.zero_add front.length]; exact hopening.start
  refine ⟨front, inside, rest, ?_, hstart, ?_, hclosing.ahead, hclosing.through.opening⟩
  · rw [hopening.text, hclosing.text]
    simp [Lexeme.chars]
  · rw [hclosing.start, ← hstart]
    rfl

/-- The lexemes of a text do not depend on where it starts. -/
theorem Scans.moved (h : Scans i cs ts) (j : Nat) :
    ∃ us, Scans j cs us ∧ us.map (·.lexeme) = ts.map (·.lexeme) := by
  induction h generalizing j with
  | done => exact ⟨[], .done, rfl⟩
  | blank hblank _ ih =>
    obtain ⟨us, hus, hmap⟩ := ih (j + 1)
    exact ⟨us, hus.blank hblank, hmap⟩
  | comment hline hends _ ih =>
    obtain ⟨us, hus, hmap⟩ := ih (j + 1 + _)
    exact ⟨us, hus.comment hline hends, hmap⟩
  | opening _ ih =>
    obtain ⟨us, hus, hmap⟩ := ih (j + 1)
    exact ⟨_, hus.opening, by rw [List.map_cons, List.map_cons, hmap]⟩
  | closing _ ih =>
    obtain ⟨us, hus, hmap⟩ := ih (j + 1)
    exact ⟨_, hus.closing, by rw [List.map_cons, List.map_cons, hmap]⟩
  | symbol hne hplain hends _ ih =>
    obtain ⟨us, hus, hmap⟩ := ih (j + _)
    exact ⟨_, hus.symbol hne hplain hends, by rw [List.map_cons, List.map_cons, hmap]⟩

theorem Scans.lexemes_ofText (h : Scans i cs ts) :
    (ofText cs).map (·.lexeme) = ts.map (·.lexeme) := by
  obtain ⟨us, hus, hmap⟩ := h.moved 0
  rw [ofText, ← scans_iff.mp hus, hmap]

/-- Tokens come one after the other. -/
theorem Scans.pairwise (h : Scans i cs ts) : ts.Pairwise Precedes ∧ ∀ t ∈ ts, i ≤ t.start := by
  induction h with
  | done => simp
  | blank _ _ ih => exact ⟨ih.1, fun t ht => by have := ih.2 t ht; omega⟩
  | comment _ _ _ ih => exact ⟨ih.1, fun t ht => by have := ih.2 t ht; omega⟩
  | opening _ ih | closing _ ih | symbol _ _ _ _ ih =>
    refine ⟨List.pairwise_cons.mpr ⟨ih.2, ih.1⟩, List.forall_mem_cons.mpr ⟨le_rfl, fun t ht => ?_⟩⟩
    have := ih.2 t ht
    omega

end Scan
end Token

def Span.cut (s : Span) (text : List Char) : List Char :=
  (text.drop s.start.toNat).take (s.stop - s.start).toNat

theorem Span.cut_append {s : Span} {front part rest : List Char} (hstart : s.start = front.length)
    (hstop : s.stop = front.length + part.length) : s.cut (front ++ (part ++ rest)) = part := by
  have hlen : (s.stop - s.start).toNat = part.length := by omega
  rw [cut, hlen, hstart, Int.toNat_natCast, List.drop_left, List.take_left]

namespace Located

mutual

def nodes : Located → List Located
  | symbol span name => [symbol span name]
  | list span items => list span items :: nodesOf items

def nodesOf : List Located → List Located
  | [] => []
  | d :: ds => d.nodes ++ nodesOf ds

end

/-- Whether the spans of some terms are disjoint and come in their order. -/
def Apart (ds : List Located) : Prop := ds.Pairwise fun d e => d.span.stop ≤ e.span.start

/-- Whether a list stands between its own parentheses, with its items strictly inside. -/
def Encloses (text : List Char) : Located → Prop
  | symbol _ _ => True
  | list span items =>
    (∃ inside, span.cut text = '(' :: (inside ++ [')']) ∧
      ∀ file, Source.AreRead ⟨file, inside⟩ (terms items)) ∧
    (∀ d ∈ items, span.start < d.span.start ∧ d.span.stop < span.stop) ∧ Apart items

/-- Whether the span of a term is the part of a text that it is read from. -/
structure Exact (text : List Char) (d : Located) : Prop where
  nonneg : 0 ≤ d.span.start
  nonempty : d.span.start < d.span.stop
  bounded : d.span.stop ≤ text.length
  /-- By itself the part is read as the same term. -/
  read : ∀ file, Source.IsRead ⟨file, d.span.cut text⟩ d.term
  encloses : d.Encloses text

mutual

/-- The tokens that a term was read from, whose spans make up its own. -/
inductive Spells : List Token → Located → Prop
  | symbol {t : Token} {name : List Char} (lexeme : t.lexeme = .symbol name) :
      Spells [t] (.symbol t.span (String.ofList name))
  | list {o c : Token} {ts : List Token} {ds : List Located} (opening : o.lexeme = .opening)
      (closing : c.lexeme = .closing) (items : SpellsAll ts ds) :
      Spells (o :: (ts ++ [c])) (.list (o.span.hull c.span) ds)

/-- The tokens that some terms were read from, one after the other. -/
inductive SpellsAll : List Token → List Located → Prop
  | nil : SpellsAll [] []
  | cons {ts us : List Token} {d : Located} {ds : List Located} (first : Spells ts d)
      (rest : SpellsAll us ds) : SpellsAll (ts ++ us) (d :: ds)

end

mutual

theorem Spells.lexemes_eq :
    ∀ {d : Located} {ts : List Token}, Spells ts d → ts.map (·.lexeme) = d.term.lexemes
  | _, _, .symbol lexeme => by
    rw [term, Term.lexemes, String.toList_ofList, List.map_singleton, lexeme]
  | _, _, .list opening closing items => by
    rw [term, Term.lexemes, List.map_cons, List.map_append, List.map_singleton, opening, closing,
      SpellsAll.lexemes_eq items]

theorem SpellsAll.lexemes_eq : ∀ {ds : List Located} {ts : List Token}, SpellsAll ts ds →
    ts.map (·.lexeme) = Term.lexemesOf (terms ds)
  | _, _, .nil => rfl
  | _, _, .cons first rest => by
    rw [terms, Term.lexemesOf, List.map_append, Spells.lexemes_eq first, SpellsAll.lexemes_eq rest]

end

mutual

theorem Spells.nodes : ∀ {d : Located} {ts : List Token}, Spells ts d →
    ∀ e ∈ d.nodes, ∃ us, us <:+: ts ∧ Spells us e
  | _, _, .symbol lexeme, e, he => by
    obtain rfl := List.mem_singleton.mp he
    exact ⟨_, List.infix_rfl, .symbol lexeme⟩
  | _, _, .list opening closing items, e, he => by
    obtain rfl | he := List.mem_cons.mp he
    · exact ⟨_, List.infix_rfl, .list opening closing items⟩
    · obtain ⟨us, hus, hspells⟩ := SpellsAll.nodes items e he
      exact ⟨us, hus.trans ⟨[_], [_], rfl⟩, hspells⟩

theorem SpellsAll.nodes : ∀ {ds : List Located} {ts : List Token}, SpellsAll ts ds →
    ∀ e ∈ nodesOf ds, ∃ us, us <:+: ts ∧ Spells us e
  | _, _, .cons first rest, e, he => by
    obtain he | he := List.mem_append.mp he
    · obtain ⟨us, hus, hspells⟩ := Spells.nodes first e he
      exact ⟨us, hus.trans (List.prefix_append _ _).isInfix, hspells⟩
    · obtain ⟨us, hus, hspells⟩ := SpellsAll.nodes rest e he
      exact ⟨us, hus.trans (List.suffix_append _ _).isInfix, hspells⟩

end

section Spells

open Token

variable {ts us : List Token} {d : Located} {ds es : List Located} {text : List Char}

theorem SpellsAll.append (h : SpellsAll ts ds) (h' : SpellsAll us es) :
    SpellsAll (ts ++ us) (ds ++ es) := by
  induction ds generalizing ts with
  | nil => cases h; exact h'
  | cons d ds ih =>
    cases h with
    | cons first rest =>
      rw [List.append_assoc]
      exact .cons first (ih rest)

theorem Spells.single (h : Spells ts d) : SpellsAll ts [d] := by
  have hsingle := SpellsAll.cons h .nil
  rwa [List.append_nil] at hsingle

theorem hull_spans {o c : Token} (h : Precedes o c) :
    (o.span.hull c.span).start = o.start ∧ (o.span.hull c.span).stop = c.stop := by
  have hprecedes : o.start + o.lexeme.chars.length ≤ c.start := h
  simp only [Span.hull, span_start, span_stop, stop]
  omega

theorem Spells.ends (h : Spells ts d) (hts : ts.Pairwise Precedes) :
    (∃ t ∈ ts, d.span.start = t.start) ∧ ∃ t ∈ ts, d.span.stop = t.stop := by
  cases h with
  | @symbol t name =>
    exact ⟨⟨t, List.mem_singleton_self t, t.span_start⟩, t, List.mem_singleton_self t, t.span_stop⟩
  | @list o c inner ds =>
    have hc : c ∈ inner ++ [c] := by simp
    obtain ⟨hstart, hstop⟩ := hull_spans ((List.pairwise_cons.mp hts).1 c hc)
    exact ⟨⟨o, List.mem_cons_self, hstart⟩, c, List.mem_cons_of_mem _ hc, hstop⟩

/-- Each of some terms has some of their tokens. -/
theorem SpellsAll.exists_spells (h : SpellsAll ts ds) (hd : d ∈ ds) :
    ∃ us, us <:+: ts ∧ Spells us d := by
  induction ds generalizing ts with
  | nil => cases hd
  | cons e ds ih =>
    cases h with
    | @cons first rest _ _ hfirst hrest =>
      obtain rfl | hd := List.mem_cons.mp hd
      · exact ⟨first, (List.prefix_append _ _).isInfix, hfirst⟩
      · obtain ⟨us, hus, hspells⟩ := ih hrest hd
        exact ⟨us, hus.trans (List.suffix_append _ _).isInfix, hspells⟩

theorem SpellsAll.apart (h : SpellsAll ts ds) (hts : ts.Pairwise Precedes) : Apart ds := by
  induction ds generalizing ts with
  | nil => exact .nil
  | cons d ds ih =>
    cases h with
    | cons hfirst hrest =>
      obtain ⟨hfirsts, hrests, hacross⟩ := List.pairwise_append.mp hts
      refine List.pairwise_cons.mpr ⟨fun e he => ?_, ih hrest hrests⟩
      obtain ⟨us, hus, he⟩ := hrest.exists_spells he
      obtain ⟨-, t, ht, hstop⟩ := hfirst.ends hfirsts
      obtain ⟨⟨u, hu, hstart⟩, -⟩ := he.ends (hrests.sublist hus.sublist)
      rw [hstop, hstart]
      exact_mod_cast hacross t ht u (hus.subset hu)

/-- The items of a list stand between its parentheses. -/
theorem SpellsAll.within {o c : Token} (h : SpellsAll ts ds)
    (hts : (o :: (ts ++ [c])).Pairwise Precedes) (hd : d ∈ ds) :
    (o.stop : Int) ≤ d.span.start ∧ d.span.stop ≤ c.start := by
  obtain ⟨hopening, hrest⟩ := List.pairwise_cons.mp hts
  obtain ⟨hinner, -, hclosing⟩ := List.pairwise_append.mp hrest
  obtain ⟨us, hus, hspells⟩ := h.exists_spells hd
  obtain ⟨⟨t, ht, hstart⟩, u, hu, hstop⟩ := hspells.ends (hinner.sublist hus.sublist)
  rw [hstart, hstop]
  exact_mod_cast And.intro (hopening t (List.mem_append_left _ (hus.subset ht)))
    (hclosing u (hus.subset hu) c (List.mem_singleton_self c))

theorem exact_of_part {front part rest : List Char} (hstart : d.span.start = front.length)
    (hstop : d.span.stop = front.length + part.length) (hne : part ≠ [])
    (hlexemes : (Token.ofText part).map (·.lexeme) = d.term.lexemes)
    (hencloses : d.Encloses (front ++ (part ++ rest))) : d.Exact (front ++ (part ++ rest)) where
  nonneg := by omega
  nonempty := by
    have := List.length_pos_iff.mpr hne
    omega
  bounded := by
    simp only [hstop, List.length_append]
    omega
  read file := by
    rw [Span.cut_append hstart hstop]
    exact Source.isRead_of_areRead
      (Source.areRead_of_lexemes (by rwa [Term.lexemesOf_singleton]))
  encloses := hencloses

/-- A term is read from the part of the text that its tokens take up. -/
theorem Spells.exact {tokens : List Token} (htokens : Scans 0 text tokens) (hts : ts <:+: tokens)
    (h : Spells ts d) : d.Exact text := by
  have hpairwise : ts.Pairwise Precedes := htokens.pairwise.1.sublist hts.sublist
  obtain ⟨before, after, rfl⟩ := hts
  have hlexemes := h.lexemes_eq
  rw [List.append_assoc] at htokens
  cases h with
  | @symbol t name lexeme =>
    obtain ⟨front, rest, hat⟩ := htokens.around
    have ht : t ∈ before ++ ([t] ++ after) := by simp
    have hstart : t.start = front.length := by rw [hat.start, Nat.zero_add]
    rw [hat.text]
    refine exact_of_part ?_ ?_ (htokens.chars_ne_nil ht) ?_ trivial
    · rw [span, span_start, hstart]
    · rw [span, span_stop, stop, hstart]
      exact Int.natCast_add _ _
    · rw [(htokens.single ht).lexemes_ofText, hlexemes]
  | @list o c inner ds opening closing items =>
    rw [List.cons_append, List.append_assoc] at htokens
    obtain ⟨front, inside, rest, rfl, hostart, hcstart, hinside, hpart⟩ :=
      htokens.bracketed opening closing
    obtain ⟨hstart, hstop⟩ := hull_spans ((List.pairwise_cons.mp hpairwise).1 c (by simp))
    rw [hostart] at hstart
    have hlast : (o.span.hull c.span).stop = front.length + ('(' :: (inside ++ [')'])).length := by
      rw [hstop, stop, closing, hcstart]
      simp only [Lexeme.chars, List.length_cons, List.length_append, List.length_nil]
      omega
    refine exact_of_part hstart hlast (List.cons_ne_nil _ _) ?_
      ⟨⟨inside, ?_, fun file => ?_⟩, ?_, ?_⟩
    · rw [hpart.lexemes_ofText, hlexemes]
    · exact Span.cut_append hstart hlast
    · exact Source.areRead_of_lexemes (by rw [hinside.lexemes_ofText, items.lexemes_eq])
    · intro d hd
      obtain ⟨hafter, hbefore⟩ := items.within hpairwise hd
      rw [stop, opening, hostart] at hafter
      simp only [Lexeme.chars, List.length_singleton] at hafter
      rw [hstart, hstop, stop, closing]
      simp only [Lexeme.chars, List.length_singleton]
      omega
    · exact items.apart (List.pairwise_append.mp (List.pairwise_cons.mp hpairwise).2).1

end Spells

end Located

namespace Reader

open Located

/-- The tokens of some lists that are still open, the innermost first. -/
inductive Opened : List Frame → List Token → Prop
  | nil : Opened [] []
  | cons {f : Frame} {fs : List Frame} {outer inner : List Token} (outside : Opened fs outer)
      (opening : f.opening.lexeme = .opening) (items : SpellsAll inner f.items.reverse) :
      Opened (f :: fs) (outer ++ f.opening :: inner)

section Opened

variable {fs fs' : List Frame} {ts us : List Token} {t : Token} {d : Located}

def Took : Option Located × List Frame → List Token → Prop
  | (none, fs), ts => Opened fs ts
  | (some d, fs), ts => fs = [] ∧ Spells ts d

theorem Opened.place (h : Opened fs ts) (hd : Spells us d) : Took (place d fs) (ts ++ us) := by
  cases h with
  | nil => exact ⟨rfl, hd⟩
  | @cons f fs outer inner outside opening items =>
    have hitems : SpellsAll (inner ++ us) (d :: f.items).reverse := by
      rw [List.reverse_cons]
      exact items.append hd.single
    rw [List.append_assoc, List.cons_append]
    exact .cons (f := { f with items := d :: f.items }) outside opening hitems

/-- A token that is taken comes after those that were. -/
theorem Opened.feed {p : Option Located × List Frame} (h : Opened fs ts)
    (hfeed : feed fs t = .ok p) : Took p (ts ++ [t]) := by
  cases hlexeme : t.lexeme with
  | opening =>
    simp only [Reader.feed, hlexeme] at hfeed
    cases hfeed
    exact .cons (f := ⟨t, []⟩) h hlexeme .nil
  | symbol name =>
    simp only [Reader.feed, hlexeme] at hfeed
    cases hfeed
    exact h.place (.symbol hlexeme)
  | closing =>
    cases h with
    | nil =>
      simp only [Reader.feed, hlexeme] at hfeed
      cases hfeed
    | @cons f fs outer inner outside opening items =>
      simp only [Reader.feed, hlexeme] at hfeed
      cases hfeed
      rw [List.append_assoc, List.cons_append]
      exact outside.place (.list opening hlexeme items)

theorem Opened.readAll (h : Opened fs ts) (tokens : List Token) :
    ∃ front, front <+: ts ++ tokens ∧ SpellsAll front (readAll fs tokens).terms := by
  induction tokens generalizing fs ts with
  | nil => exact ⟨[], List.nil_prefix, .nil⟩
  | cons t tokens ih =>
    cases hfeed : Reader.feed fs t with
    | error e =>
      simp only [Reader.readAll, hfeed]
      exact ⟨[], List.nil_prefix, .nil⟩
    | ok p =>
      have htook := h.feed hfeed
      rw [readAll_cons hfeed, List.append_cons]
      obtain ⟨_ | d, fs'⟩ := p
      · exact ih htook
      · obtain ⟨rfl, hd⟩ := htook
        obtain ⟨front, hfront, hspells⟩ := ih .nil
        exact ⟨_, (List.prefix_append_right_inj _).mpr hfront, .cons hd hspells⟩

end Opened
end Reader

namespace Source

open Located

variable {s : Source} {d : Located}

theorem exists_spellsAll_terms (s : Source) :
    ∃ front, front <+: Token.ofText s.text ∧ SpellsAll front s.terms.1 :=
  Reader.Opened.nil.readAll (Token.ofText s.text)

theorem scans_text (s : Source) : Token.Scans 0 s.text (Token.ofText s.text) :=
  Token.scans_iff.mpr rfl

theorem terms_exact (s : Source) : ∀ d ∈ nodesOf s.terms.1, d.Exact s.text := by
  intro d hd
  obtain ⟨front, hfront, hspells⟩ := s.exists_spellsAll_terms
  obtain ⟨ts, hts, hd⟩ := hspells.nodes d hd
  exact hd.exact s.scans_text (hts.trans hfront.isInfix)

theorem terms_apart (s : Source) : Apart s.terms.1 := by
  obtain ⟨front, hfront, hspells⟩ := s.exists_spellsAll_terms
  exact hspells.apart (s.scans_text.pairwise.1.sublist hfront.sublist)

theorem nodes_term (h : s.term = .ok (some d)) : d.nodes ⊆ nodesOf s.terms.1 := by
  intro e he
  rw [((term_eq_ok _).mp h).2, Option.toList, nodesOf]
  exact List.mem_append_left _ he

theorem term_exact (h : s.term = .ok (some d)) : ∀ e ∈ d.nodes, e.Exact s.text :=
  fun e he => s.terms_exact e (nodes_term h he)

theorem name_ne_of_term {span : Span} {name : String} (h : s.term = .ok (some d))
    (he : .symbol span name ∈ d.nodes) : name ≠ "" := by
  obtain ⟨front, hfront, hspells⟩ := s.exists_spellsAll_terms
  obtain ⟨ts, hts, hsymbol⟩ := hspells.nodes _ (nodes_term h he)
  cases hsymbol with
  | @symbol t chars lexeme =>
    have ht : t ∈ Token.ofText s.text :=
      (hts.trans hfront.isInfix).subset (List.mem_singleton_self t)
    have hne := s.scans_text.chars_ne_nil ht
    rw [lexeme] at hne
    simpa [Lexeme.chars] using hne

/-- The spans of the terms that are read from a source are exact: every node of them spans a part of
the text that by itself is read as the same term, a list from its opening to its closing parenthesis
with its items apart and strictly inside, and the terms themselves are apart. This holds of all
terms before the first fault, and of the one term of a source. -/
theorem spans_exact (s : Source) :
    (∀ d ∈ nodesOf s.terms.1, d.Exact s.text) ∧ Apart s.terms.1 ∧
      ∀ d, s.term = .ok (some d) → ∀ e ∈ d.nodes, e.Exact s.text :=
  ⟨s.terms_exact, s.terms_apart, fun _ => term_exact⟩

end Source
end MachineSynth
