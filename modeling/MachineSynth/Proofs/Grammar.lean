import Mathlib
import MachineSynth.Proofs.Reading

/-! The grammar of terms: which texts are sequences of terms, and what is read of those that are
not. Tokens and phrases are relations here; the scanner and the stack of open lists compute them. -/
namespace MachineSynth

namespace Token

/-- The tokens of a text that starts at position `i`: parentheses and longest runs of other code
points. Blanks are skipped, and a semicolon with all that follows it on its line. -/
inductive Scans : Nat → List Char → List Token → Prop
  | done {i : Nat} : Scans i [] []
  | blank {i : Nat} {c : Char} {cs : List Char} {ts : List Token} (blank : isBlank c = true)
      (rest : Scans (i + 1) cs ts) : Scans i (c :: cs) ts
  | comment {i : Nat} {body cs : List Char} {ts : List Token} (line : ∀ c ∈ body, c ≠ '\n')
      (ends : ∀ c ∈ cs.head?, c = '\n') (rest : Scans (i + 1 + body.length) cs ts) :
      Scans i (';' :: (body ++ cs)) ts
  | opening {i : Nat} {cs : List Char} {ts : List Token} (rest : Scans (i + 1) cs ts) :
      Scans i ('(' :: cs) (⟨i, .opening⟩ :: ts)
  | closing {i : Nat} {cs : List Char} {ts : List Token} (rest : Scans (i + 1) cs ts) :
      Scans i (')' :: cs) (⟨i, .closing⟩ :: ts)
  | symbol {i : Nat} {name cs : List Char} {ts : List Token} (nonempty : name ≠ [])
      (plain : ∀ c ∈ name, isDelimiter c = false) (ends : Bounded cs)
      (rest : Scans (i + name.length) cs ts) : Scans i (name ++ cs) (⟨i, .symbol name⟩ :: ts)

section Scan

variable {i : Nat} {cs : List Char} {ts : List Token}

theorem scan_closing :
    scan .between i (')' :: cs) = ⟨i, .closing⟩ :: scan .between (i + 1) cs := rfl

theorem scan_comment {body : List Char} (hbody : ∀ c ∈ body, c ≠ '\n')
    (hcs : ∀ c ∈ cs.head?, c = '\n') :
    scan .comment i (body ++ cs) = scan .between (i + body.length) cs := by
  induction body generalizing i with
  | nil =>
    cases cs with
    | nil => rfl
    | cons c cs =>
      cases hcs c rfl
      rfl
  | cons c body ih =>
    have hc : c ≠ '\n' := hbody c List.mem_cons_self
    have hrest := ih (i := i + 1) fun c' hc' => hbody c' (List.mem_cons_of_mem _ hc')
    simp only [List.cons_append, scan, Mode.step, hc, if_false, List.nil_append, hrest,
      List.length_cons]
    rw [Nat.add_right_comm, Nat.add_assoc]

theorem Scans.scan_eq (h : Scans i cs ts) : scan .between i cs = ts := by
  induction h with
  | done => rfl
  | blank hblank _ ih => rw [scan_blank hblank, ih]
  | comment hline hends _ ih => rw [← ih, ← scan_comment hline hends]; rfl
  | opening _ ih => rw [scan_opening, ih]
  | closing _ ih => rw [scan_closing, ih]
  | @symbol i name cs ts hne hplain hends _ ih =>
    have hname : IsName (String.ofList name) := by
      refine ⟨fun h => hne ?_, by rwa [String.toList_ofList]⟩
      simpa using congrArg String.toList h
    simpa [String.toList_ofList, ih] using scan_name (i := i) hname hends

/-- What is left of a text after a run of code points starts with another one. -/
theorem of_mem_head?_dropWhile {p : Char → Bool} {c : Char} (h : c ∈ (cs.dropWhile p).head?) :
    p c = false := by
  have hhead := List.head?_dropWhile_not p cs
  rw [Option.mem_def.mp h] at hhead
  exact hhead

theorem exists_scans (i : Nat) (cs : List Char) : ∃ ts, Scans i cs ts := by
  induction h : cs.length using Nat.strong_induction_on generalizing i cs with
  | _ n ih =>
    subst h
    cases cs with
    | nil => exact ⟨[], .done⟩
    | cons c cs =>
      -- What comes after the next token is scanned, whatever its position.
      have hrest : ∀ j rest, rest.length ≤ cs.length → ∃ ts, Scans j rest ts := fun j rest hlen =>
        ih rest.length (Nat.lt_succ_of_le hlen) j rest rfl
      have hafter : ∀ j p, ∃ ts, Scans j (cs.dropWhile p) ts := fun j p =>
        hrest j _ (List.length_dropWhile_le p cs)
      obtain ⟨next, hnext⟩ := hrest (i + 1) cs le_rfl
      by_cases hblank : isBlank c = true
      · exact ⟨next, .blank hblank hnext⟩
      by_cases hopening : c = '('
      · exact ⟨⟨i, .opening⟩ :: next, hopening ▸ hnext.opening⟩
      by_cases hclosing : c = ')'
      · exact ⟨⟨i, .closing⟩ :: next, hclosing ▸ hnext.closing⟩
      by_cases hcomment : c = ';'
      · obtain ⟨ts, hts⟩ := hafter (i + 1 + (cs.takeWhile (· != '\n')).length) (· != '\n')
        have hscans := Scans.comment (fun c' hc' => by simpa using List.mem_takeWhile_imp hc')
          (fun c' hc' => by simpa using of_mem_head?_dropWhile hc') hts
        rw [List.takeWhile_append_dropWhile] at hscans
        exact ⟨ts, hcomment ▸ hscans⟩
      · have hc : isDelimiter c = false := by
          simp [isDelimiter, hblank, hopening, hclosing, hcomment]
        obtain ⟨ts, hts⟩ := hafter (i + (c :: cs.takeWhile (!isDelimiter ·)).length)
          (!isDelimiter ·)
        have hscans := Scans.symbol (List.cons_ne_nil _ _)
          (List.forall_mem_cons.mpr ⟨hc, fun c' hc' => by simpa using List.mem_takeWhile_imp hc'⟩)
          (fun c' hc' => by simpa using of_mem_head?_dropWhile hc') hts
        rw [List.cons_append, List.takeWhile_append_dropWhile] at hscans
        exact ⟨_, hscans⟩

/-- The scanner finds the tokens of a text. -/
theorem scans_iff : Scans i cs ts ↔ ts = scan .between i cs := by
  refine ⟨fun h => h.scan_eq.symm, ?_⟩
  rintro rfl
  obtain ⟨ts, hts⟩ := exists_scans i cs
  rwa [hts.scan_eq]

end Scan
end Token

mutual

/-- The lexemes that a term derives from: a symbol, or the items of a list in parentheses. -/
inductive Phrase : List Lexeme → Term String → Prop
  | symbol (name : List Char) : Phrase [.symbol name] (.symbol (String.ofList name))
  | list {ls : List Lexeme} {ts : List (Term String)} (items : Phrases ls ts) :
      Phrase (.opening :: (ls ++ [.closing])) (.list ts)

/-- The lexemes that some terms derive from, one after the other. -/
inductive Phrases : List Lexeme → List (Term String) → Prop
  | nil : Phrases [] []
  | cons {ls ls' : List Lexeme} {t : Term String} {ts : List (Term String)} (first : Phrase ls t)
      (rest : Phrases ls' ts) : Phrases (ls ++ ls') (t :: ts)

end

namespace Term

mutual

theorem lexemes_of_phrase : ∀ {t : Term String} {ls : List Lexeme}, Phrase ls t → ls = t.lexemes
  | _, _, .symbol name => by rw [lexemes, String.toList_ofList]
  | _, _, .list items => by rw [lexemes, ← lexemesOf_of_phrases items]

theorem lexemesOf_of_phrases :
    ∀ {ts : List (Term String)} {ls : List Lexeme}, Phrases ls ts → ls = lexemesOf ts
  | _, _, .nil => rfl
  | _, _, .cons first rest => by
    rw [lexemesOf, ← lexemes_of_phrase first, ← lexemesOf_of_phrases rest]

end

mutual

theorem phrase_lexemes : ∀ t : Term String, Phrase t.lexemes t
  | symbol name => by
    have h := Phrase.symbol name.toList
    rwa [String.ofList_toList] at h
  | list items => .list (phrases_lexemesOf items)

theorem phrases_lexemesOf : ∀ ts : List (Term String), Phrases (lexemesOf ts) ts
  | [] => .nil
  | t :: ts => .cons (phrase_lexemes t) (phrases_lexemesOf ts)

end

theorem phrases_iff {ls : List Lexeme} {ts : List (Term String)} : Phrases ls ts ↔ ls = lexemesOf ts :=
  ⟨lexemesOf_of_phrases, fun h => h ▸ phrases_lexemesOf ts⟩

@[simp] theorem lexemesOf_append (ts us : List (Term String)) :
    lexemesOf (ts ++ us) = lexemesOf ts ++ lexemesOf us := by
  induction ts with
  | nil => rfl
  | cons t ts ih => rw [List.cons_append, lexemesOf, lexemesOf, ih, List.append_assoc]

@[simp] theorem lexemesOf_singleton (t : Term String) : lexemesOf [t] = t.lexemes := List.append_nil _

def opens : List (List (Term String)) → List Lexeme
  | [] => []
  | ts :: levels => .opening :: (lexemesOf ts ++ opens levels)

theorem opens_concat (levels : List (List (Term String))) (ts : List (Term String)) :
    opens (levels ++ [ts]) = opens levels ++ .opening :: lexemesOf ts := by
  induction levels with
  | nil => simp [opens]
  | cons us levels ih => simp [opens, ih]

end Term

@[simp] theorem Located.terms_append (ds ds' : List Located) :
    Located.terms (ds ++ ds') = Located.terms ds ++ Located.terms ds' := by
  induction ds with
  | nil => rfl
  | cons d ds ih => rw [List.cons_append, Located.terms, Located.terms, ih, List.cons_append]

namespace Reader

open Term

/-- The items so far of the open lists, the outermost first. -/
def levels (fs : List Frame) : List (List (Term String)) :=
  (fs.map fun f => Located.terms f.items.reverse).reverse

/-- The lexemes that were read when some terms are complete and some lists are open. -/
def consumed (done : List (Term String)) (fs : List Frame) : List Lexeme :=
  lexemesOf done ++ opens (levels fs)

section Step

variable {done : List (Term String)} {fs fs' : List Frame} {t : Token} {d : Located} {e : ReadError}

theorem consumed_nil : consumed done [] = lexemesOf done := List.append_nil _

theorem consumed_cons (f : Frame) :
    consumed done (f :: fs) =
      consumed done fs ++ .opening :: lexemesOf (Located.terms f.items.reverse) := by
  simp [consumed, levels, opens_concat]

theorem consumed_place : consumed (done ++ Located.terms (place d fs).1.toList) (place d fs).2 =
    consumed done fs ++ d.term.lexemes := by
  cases fs with
  | nil => simp [place, consumed_nil, Located.terms]
  | cons f fs => simp [place, consumed_cons, Located.terms]

/-- Each token that is taken is added to what was read. -/
theorem consumed_feed {p : Option Located × List Frame} (h : feed fs t = .ok p) :
    consumed (done ++ Located.terms p.1.toList) p.2 = consumed done fs ++ [t.lexeme] := by
  cases hlexeme : t.lexeme with
  | opening =>
    simp only [feed, hlexeme] at h
    cases h
    simp [consumed_cons, Located.terms, lexemesOf]
  | symbol name =>
    simp only [feed, hlexeme] at h
    cases h
    simp [consumed_place, Located.term, lexemes]
  | closing =>
    cases fs with
    | nil => simp only [feed, hlexeme] at h; cases h
    | cons f fs =>
      simp only [feed, hlexeme] at h
      cases h
      simp [consumed_place, consumed_cons, Located.term, lexemes]

/-- Only a closing parenthesis outside of lists is not taken. -/
theorem feed_eq_error (h : feed fs t = .error e) :
    fs = [] ∧ t.lexeme = .closing ∧ e = .endOfList t.start := by
  unfold feed at h
  split at h <;> cases h
  exact ⟨rfl, ‹_›, rfl⟩

end Step

/-- Token sequences by the fault that they have, with the terms before it. -/
inductive Ends : List Token → List (Term String) → Option ReadError → Prop
  | complete {tokens : List Token} {ts : List (Term String)}
      (all : tokens.map (·.lexeme) = lexemesOf ts) : Ends tokens ts none
  | unclosed {tokens : List Token} {ts : List (Term String)} {levels : List (List (Term String))}
      (opened : levels ≠ []) (all : tokens.map (·.lexeme) = lexemesOf ts ++ opens levels) :
      Ends tokens ts (some .endOfFile)
  | unmatched {before after : List Token} {t : Token} {ts : List (Term String)}
      (closing : t.lexeme = .closing) (done : before.map (·.lexeme) = lexemesOf ts) :
      Ends (before ++ t :: after) ts (some (.endOfList t.start))

section Ends

variable {before tokens rest : List Token} {fs : List Frame} {done ts us : List (Term String)}
  {e e' : Option ReadError}

theorem ends_readAll_aux (h : before.map (·.lexeme) = consumed done fs) :
    Ends (before ++ tokens) (done ++ Located.terms (readAll fs tokens).terms)
      (readAll fs tokens).error := by
  induction tokens generalizing before done fs with
  | nil =>
    simp only [readAll, Located.terms, List.append_nil]
    cases fs with
    | nil => exact .complete (h.trans consumed_nil)
    | cons f fs => exact .unclosed (by simp [levels]) h
  | cons t tokens ih =>
    cases hfeed : feed fs t with
    | error e =>
      obtain ⟨rfl, ht, rfl⟩ := feed_eq_error hfeed
      simp only [readAll, hfeed, Located.terms, List.append_nil]
      exact .unmatched ht (h.trans consumed_nil)
    | ok p =>
      have hbefore : (before ++ [t]).map (·.lexeme) =
          consumed (done ++ Located.terms p.1.toList) p.2 := by
        rw [consumed_feed hfeed, List.map_append, h, List.map_singleton]
      have hrest := ih hbefore
      rw [readAll_cons hfeed]
      obtain ⟨_ | d, fs'⟩ := p
      · simpa [deliver, Located.terms] using hrest
      · simpa [deliver, Located.terms] using hrest

theorem ends_readAll (tokens : List Token) :
    Ends tokens (Located.terms (readAll [] tokens).terms) (readAll [] tokens).error := by
  simpa using @ends_readAll_aux [] tokens [] [] rfl

theorem readAll_opens {levels : List (List (Term String))} (h : fs ≠ [] ∨ levels ≠ [])
    (htokens : tokens.map (·.lexeme) = opens levels) :
    readAll fs tokens = ⟨[], some .endOfFile⟩ := by
  induction levels generalizing fs tokens with
  | nil =>
    rw [opens, List.map_eq_nil_iff] at htokens
    subst htokens
    simp [readAll, h.resolve_right (fun h => h rfl)]
  | cons ts levels ih =>
    rw [opens] at htokens
    obtain ⟨t, tokens, rfl, ht, htokens⟩ := List.map_eq_cons_iff.mp htokens
    obtain ⟨items, rest, rfl, hitems, hrest⟩ := List.map_eq_append_iff.mp htokens
    have hfirst : feed fs t = .ok (none, ⟨t, []⟩ :: fs) := by simp only [feed, ht]
    obtain ⟨ds, -, hread⟩ := readAll_lexemesOf t [] fs hitems
    rw [readAll_cons hfirst, deliver, hread]
    exact ih (.inl (List.cons_ne_nil _ _)) hrest

theorem Ends.readAll_eq (h : Ends tokens ts e) :
    Located.terms (readAll [] tokens).terms = ts ∧ (readAll [] tokens).error = e := by
  cases h with
  | complete all => exact readAll_terms all
  | unclosed opened all =>
    obtain ⟨done, rest, rfl, hdone, hrest⟩ := List.map_eq_append_iff.mp all
    obtain ⟨ds, hds, hread⟩ := readAll_append hdone
    rw [hread, readAll_opens (.inr opened) hrest, List.append_nil]
    exact ⟨hds, rfl⟩
  | @unmatched before after t ts closing done =>
    obtain ⟨ds, hds, hread⟩ := readAll_append done
    have hlast : readAll [] (t :: after) = ⟨[], some (.endOfList t.start)⟩ := by
      simp only [readAll, feed, closing]
    rw [hread, hlast, List.append_nil]
    exact ⟨hds, rfl⟩

theorem Ends.derives (h : Ends tokens ts none) : tokens.map (·.lexeme) = lexemesOf ts := by
  cases h with
  | complete all => exact all

theorem exists_ends (tokens : List Token) : ∃ ts e, Ends tokens ts e :=
  ⟨_, _, ends_readAll tokens⟩

theorem Ends.unique (h : Ends tokens ts e) (h' : Ends tokens us e') : ts = us ∧ e = e' :=
  ⟨h.readAll_eq.1.symm.trans h'.readAll_eq.1, h.readAll_eq.2.symm.trans h'.readAll_eq.2⟩

/-- A list that is closed after the terms that are read would be one more of them. -/
theorem Ends.not_closed {inner : List Token} {t c : Token} (hbefore : before.map (·.lexeme) =
    lexemesOf ts) (ht : t.lexeme = .opening) (hinner : inner.map (·.lexeme) = lexemesOf us)
    (hc : c.lexeme = .closing) : ¬ Ends (before ++ t :: (inner ++ c :: rest)) ts e := by
  intro hends
  have hall : (before ++ t :: (inner ++ [c])).map (·.lexeme) = lexemesOf (ts ++ [.list us]) := by
    simp [hbefore, ht, hinner, hc, lexemes]
  obtain ⟨ds, hds, hread⟩ := readAll_append hall
  have hsplit : before ++ t :: (inner ++ c :: rest) = before ++ t :: (inner ++ [c]) ++ rest := by
    simp
  have hterms := hends.readAll_eq.1
  rw [hsplit, hread, Located.terms_append, hds] at hterms
  simpa using congrArg List.length hterms

end Ends

/-- Whether a closing parenthesis after some tokens ends a list: one is open, and only whole terms
have come since. -/
def Closes (before : List Token) : Prop :=
  ∃ (outer : List Token) (t : Token) (inner : List Token) (ts : List (Term String)),
    before = outer ++ t :: inner ∧ t.lexeme = .opening ∧ Phrases (inner.map (·.lexeme)) ts

/-- Whether every closing parenthesis among some tokens ends a list. -/
def Matched (tokens : List Token) : Prop :=
  ∀ (before : List Token) (t : Token) (after : List Token),
    tokens = before ++ t :: after → t.lexeme = .closing → Closes before

section Closes

variable {before tokens : List Token} {ts : List (Term String)} {levels : List (List (Term String))}

theorem closes_of_opens (h : levels ≠ [])
    (hbefore : before.map (·.lexeme) = lexemesOf ts ++ opens levels) : Closes before := by
  obtain ⟨levels, us, rfl⟩ := (List.eq_nil_or_concat levels).resolve_left h
  rw [List.concat_eq_append, opens_concat, ← List.append_assoc] at hbefore
  obtain ⟨outer, rest, rfl, -, hrest⟩ := List.map_eq_append_iff.mp hbefore
  obtain ⟨t, inner, rfl, ht, hinner⟩ := List.map_eq_cons_iff.mp hrest
  exact ⟨outer, t, inner, us, rfl, ht, phrases_iff.mpr hinner⟩

/-- No list is open after whole terms. -/
theorem not_closes_of_lexemesOf (h : before.map (·.lexeme) = lexemesOf ts) : ¬ Closes before := by
  rintro ⟨outer, t, inner, us, rfl, ht, hinner⟩
  -- If one were, then the end of the file, or a fault before it, would be found.
  have hopened : ∀ done levels, outer.map (·.lexeme) = lexemesOf done ++ opens levels → False := by
    intro done levels houter
    have hall : (outer ++ t :: inner).map (·.lexeme) =
        lexemesOf done ++ opens (levels ++ [us]) := by
      rw [opens_concat, List.map_append, List.map_cons, houter, ht, phrases_iff.mp hinner,
        List.append_assoc]
    exact nomatch ((Ends.complete h).unique (.unclosed (by simp) hall)).2
  obtain ⟨done, _, houter⟩ := exists_ends outer
  cases houter with
  | complete all => exact hopened done [] (by rw [all, opens, List.append_nil])
  | unclosed _ all => exact hopened done _ all
  | @unmatched first after t' _ closing hdone =>
    have hends : Ends (first ++ t' :: after ++ t :: inner) done (some (.endOfList t'.start)) := by
      rw [List.append_assoc, List.cons_append]
      exact .unmatched closing hdone
    exact nomatch ((Ends.complete h).unique hends).2

/-- Before the first closing parenthesis that ends no list there are whole terms. -/
theorem exists_lexemesOf_of_not_closes (h : ¬ Closes before) (hmatched : Matched before) :
    ∃ ts, before.map (·.lexeme) = lexemesOf ts := by
  obtain ⟨_, _, hends⟩ := exists_ends before
  cases hends with
  | complete all => exact ⟨_, all⟩
  | unclosed opened all => exact absurd (closes_of_opens opened all) h
  | unmatched closing done =>
    exact absurd (hmatched _ _ _ rfl closing) (not_closes_of_lexemesOf done)

end Closes

section Single

variable {fs fs' : List Frame} {t : Token} {d : Located} {tokens : List Token}

/-- A term is complete only outside of lists. -/
theorem feed_some (h : feed fs t = .ok (some d, fs')) : fs' = [] := by
  have hplace : ∀ {c : Located} {fs : List Frame}, place c fs = (some d, fs') → fs' = [] := by
    intro c fs hplace
    cases fs with
    | nil => cases hplace; rfl
    | cons f fs => cases hplace
  unfold feed at h
  split at h
  · cases h
  · cases h
  · exact hplace (Except.ok.inj h)
  · exact hplace (Except.ok.inj h)

theorem readAll_of_readFirst : readAll fs tokens = match readFirst fs tokens with
    | .error e => ⟨[], some e⟩
    | .ok (none, _) => ⟨[], none⟩
    | .ok (some d, rest) => ⟨d :: (readAll [] rest).terms, (readAll [] rest).error⟩ := by
  induction tokens generalizing fs with
  | nil => cases fs <;> rfl
  | cons t tokens ih =>
    simp only [readAll, readFirst]
    cases hfeed : feed fs t with
    | error e => rfl
    | ok p =>
      obtain ⟨_ | d, fs'⟩ := p
      · exact ih
      · cases feed_some hfeed
        rfl

/-- Without a term there is nothing left. -/
theorem readFirst_none {rest : List Token} (h : readFirst fs tokens = .ok (none, rest)) :
    rest = [] := by
  induction tokens generalizing fs with
  | nil =>
    cases fs with
    | nil => cases h; rfl
    | cons f fs => cases h
  | cons t tokens ih =>
    simp only [readFirst] at h
    split at h
    · cases h
    · exact ih h
    · cases h

theorem readOne_eq_ok {r : Option Located} :
    readOne tokens = .ok r ↔ readAll [] tokens = ⟨r.toList, none⟩ := by
  rw [readAll_of_readFirst, readOne]
  cases hfirst : readFirst [] tokens with
  | error e => simp
  | ok p =>
    obtain ⟨_ | d, rest⟩ := p
    · cases readFirst_none hfirst
      cases r <;> simp
    · cases rest with
      | nil => cases r <;> simp [readAll, eq_comm]
      | cons next rest =>
        -- What is read of the remainder is not nothing.
        have hrest : readAll [] (next :: rest) ≠ ⟨[], none⟩ := by
          intro hrest
          have hends := ends_readAll (next :: rest)
          rw [hrest] at hends
          simpa [Located.terms, Term.lexemesOf] using hends.derives
        cases hreading : readAll [] (next :: rest) with
        | mk terms error =>
          rw [hreading] at hrest
          cases r <;> simp_all

end Single

end Reader

open Term in
structure Source.Grammatical (s : Source) (tokens : List Token) : Prop where
  /-- There is no fault just if the tokens derive some terms, and these are read. -/
  derived : ∀ ts : List (Term String), Phrases (tokens.map (·.lexeme)) ts ↔
    s.terms.2 = none ∧ Located.terms s.terms.1 = ts
  /-- The first closing parenthesis that ends no list is the fault, if there is one. The terms
  before it are read. -/
  unmatched : ∀ (before : List Token) (t : Token) (after : List Token),
    tokens = before ++ t :: after → t.lexeme = .closing → ¬ Reader.Closes before →
    Reader.Matched before →
    s.terms.2 = some ⟨s, Span.ofLength t.start 1, "unexpected end-of-list"⟩ ∧
      Phrases (before.map (·.lexeme)) (Located.terms s.terms.1)
  /-- Else the end of the text is the fault. The terms before the first list that is never closed
  are read. -/
  unclosed : Reader.Matched tokens → (¬ ∃ ts, Phrases (tokens.map (·.lexeme)) ts) →
    s.terms.2 = some ⟨s, Span.ofLength s.length 0, "unexpected end-of-file"⟩ ∧
      ∃ (before : List Token) (t : Token) (after : List Token),
        tokens = before ++ t :: after ∧ t.lexeme = .opening ∧
        Phrases (before.map (·.lexeme)) (Located.terms s.terms.1) ∧
        ∀ (inner : List Token) (c : Token) (rest : List Token), after = inner ++ c :: rest →
          c.lexeme = .closing → ¬ ∃ ts, Phrases (inner.map (·.lexeme)) ts
  /-- A source has one term, or none, just if there is no more and no fault. -/
  single : ∀ r : Option Located, s.term = .ok r ↔ s.terms.2 = none ∧ s.terms.1 = r.toList

namespace Source

open Term Reader

variable {s : Source} {ts : List (Term String)} {e : Option ReadError}

theorem ends_terms (h : Ends (Token.ofText s.text) ts e) :
    Located.terms s.terms.1 = ts ∧ s.terms.2 = e.map (·.report s) := by
  obtain ⟨hterms, herror⟩ := h.readAll_eq
  exact ⟨hterms, congrArg (Option.map _) herror⟩

theorem phrases_iff_terms : Phrases ((Token.ofText s.text).map (·.lexeme)) ts ↔
    s.terms.2 = none ∧ Located.terms s.terms.1 = ts := by
  rw [phrases_iff]
  refine ⟨fun h => (ends_terms (.complete h)).symm, ?_⟩
  rintro ⟨hnone, hterms⟩
  have hends := ends_readAll (Token.ofText s.text)
  rw [Option.map_eq_none_iff.mp hnone] at hends
  exact hterms ▸ hends.derives

theorem term_eq_ok (r : Option Located) :
    s.term = .ok r ↔ s.terms.2 = none ∧ s.terms.1 = r.toList := by
  have hone : readOne (Token.ofText s.text) = .ok r ↔ _ := readOne_eq_ok
  simp only [term, terms, Option.map_eq_none_iff]
  cases hread : readOne (Token.ofText s.text) <;> cases hall : readAll [] (Token.ofText s.text) <;>
    simp_all [Except.mapError, and_comm]

/-- A source is read by the grammar of terms: its text has tokens, and what is read of it, and the
fault that is reported, are those of the tokens. -/
theorem reading_is_grammatical (s : Source) :
    ∃ tokens, (∀ ts, Token.Scans 0 s.text ts ↔ ts = tokens) ∧ s.Grammatical tokens := by
  refine ⟨Token.ofText s.text, fun _ => Token.scans_iff, ?_⟩
  constructor
  case derived => exact fun ts => phrases_iff_terms
  case single => exact term_eq_ok
  case unmatched =>
    intro before t after htokens ht hopen hmatched
    obtain ⟨ts, hts⟩ := exists_lexemesOf_of_not_closes hopen hmatched
    have hends : Ends (Token.ofText s.text) ts (some (.endOfList t.start)) :=
      htokens ▸ .unmatched ht hts
    obtain ⟨hterms, herror⟩ := ends_terms hends
    exact ⟨herror, hterms ▸ phrases_iff.mpr hts⟩
  case unclosed =>
    intro hmatched hnone
    obtain ⟨ts, e, hends⟩ := exists_ends (Token.ofText s.text)
    obtain ⟨hterms, herror⟩ := ends_terms hends
    generalize Token.ofText s.text = tokens at hmatched hnone hends
    cases id hends with
    | complete all => exact absurd ⟨ts, phrases_iff.mpr all⟩ hnone
    | unmatched closing done =>
      exact absurd (hmatched _ _ _ rfl closing) (not_closes_of_lexemesOf done)
    | @unclosed _ _ levels opened all =>
      refine ⟨herror, ?_⟩
      obtain ⟨us, levels, rfl⟩ := List.exists_cons_of_ne_nil opened
      obtain ⟨before, rest, rfl, hbefore, hrest⟩ := List.map_eq_append_iff.mp all
      obtain ⟨t, after, rfl, ht, -⟩ := List.map_eq_cons_iff.mp hrest
      refine ⟨before, t, after, rfl, ht, hterms ▸ phrases_iff.mpr hbefore, ?_⟩
      rintro inner c rest rfl hc ⟨us, hinner⟩
      exact Ends.not_closed hbefore ht (phrases_iff.mp hinner) hc hends

-- The parenthesis in the comment is no token, and the last one is the fault.
example : let s : Source := ⟨"terms", ['(', 'a', ';', ')', '\n', ')', 'b', ')', 'c']⟩
    Located.terms s.terms.1 = [.list [.symbol "a"], .symbol "b"] ∧
      s.terms.2 = some ⟨s, Span.ofLength 7 1, "unexpected end-of-list"⟩ :=
  ⟨rfl, rfl⟩

end Source
end MachineSynth
