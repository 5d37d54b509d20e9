import Mathlib
import MachineSynth.Term.Printer
import MachineSynth.Term.Reader

/-! Reading: terms that are laid out are read back, however they were broken into lines. -/
namespace MachineSynth

section Bytes

variable {c d : Char} {cs cs' : List Char} {rest : Bytes}

theorem utf8_append (cs cs' : List Char) : utf8 (cs ++ cs') = utf8 cs ++ utf8 cs' :=
  List.flatMap_append

theorem toByteArray_utf8 (cs : List Char) : (utf8 cs).toByteArray = cs.utf8Encode := rfl

theorem utf8_inj (h : utf8 cs = utf8 cs') : cs = cs' := by
  have hstrings : String.ofList cs = String.ofList cs' := by
    rw [← String.toByteArray_inj, String.toByteArray_ofList, String.toByteArray_ofList]
    exact congrArg List.toByteArray h
  exact String.ofList_injective hstrings

/-- The first code point can be told from the bytes. -/
theorem utf8_head (h : utf8 (c :: cs) = utf8 [d] ++ rest) : c = d := by
  have hbytes : (c :: cs).utf8Encode = (String.utf8EncodeChar d).toByteArray ++ rest.toByteArray := by
    rw [← toByteArray_utf8, h, List.toByteArray_append, utf8, List.flatMap_singleton]
  have hfirst : (c :: cs).utf8Encode.utf8DecodeChar? 0 = some c := List.utf8DecodeChar?_utf8Encode_cons
  rw [hbytes, ByteArray.utf8DecodeChar?_utf8EncodeChar_append] at hfirst
  exact (Option.some.inj hfirst).symm

theorem utf8_cons_ne_nil (c : Char) (cs : List Char) : utf8 (c :: cs) ≠ [] := by
  intro h
  have hnil : utf8 (c :: cs) = utf8 [] := h
  exact nomatch utf8_inj hnil

end Bytes

namespace Token

/-- A text that is read as one symbol: it is not empty, and has no blanks, parentheses or
semicolons. -/
def IsName (s : String) : Prop := s ≠ "" ∧ ∀ c ∈ s.toList, isDelimiter c = false

instance (s : String) : Decidable (IsName s) := inferInstanceAs (Decidable (_ ∧ _))

theorem IsName.ne_parens {name : String} (h : IsName name) : name ≠ "()" := by
  rintro rfl
  simp [IsName, isDelimiter] at h

/-- Whether a symbol that stands before some text ends there. -/
def Bounded (cs : List Char) : Prop := ∀ c ∈ cs.head?, isDelimiter c = true

theorem bounded_nil : Bounded [] := by simp [Bounded]

theorem bounded_cons {c : Char} (h : isDelimiter c = true) (cs : List Char) :
    Bounded (c :: cs) := by
  simpa [Bounded] using h

theorem Bounded.append {cs cs' : List Char} (h : Bounded cs) (h' : Bounded cs') :
    Bounded (cs ++ cs') := by
  cases cs with
  | nil => exact h'
  | cons c cs => exact h

section Scan

variable {c : Char} {cs rest : List Char} {i s : Nat}

theorem scan_blank (h : isBlank c = true) :
    scan .between i (c :: cs) = scan .between (i + 1) cs := by
  simp [scan, Mode.step, Mode.start, h]

theorem scan_opening :
    scan .between i ('(' :: cs) = ⟨i, .opening⟩ :: scan .between (i + 1) cs := rfl

theorem scan_symbol (name : List Char) (hcs : ∀ c ∈ cs, isDelimiter c = false)
    (hrest : Bounded rest) : scan (.symbol s name) i (cs ++ rest) =
      ⟨s, .symbol (name.reverse ++ cs)⟩ :: scan .between (i + cs.length) rest := by
  induction cs generalizing name i with
  | nil =>
    cases rest with
    | nil => simp [scan, Mode.finish]
    | cons c rest =>
      have hc : isDelimiter c = true := hrest c rfl
      simp [scan, Mode.step, Mode.finish, hc]
  | cons c cs ih =>
    have hc := hcs c List.mem_cons_self
    have hstep := ih (i := i + 1) (c :: name) fun c' hc' => hcs c' (List.mem_cons_of_mem _ hc')
    simp only [List.cons_append, scan, Mode.step, hc, Bool.false_eq_true, if_false,
      List.nil_append, hstep, List.reverse_cons, List.append_assoc, List.length_cons]
    rw [Nat.add_right_comm, Nat.add_assoc]

theorem scan_name {name : String} (h : IsName name) (hrest : Bounded rest) :
    scan .between i (name.toList ++ rest) =
      ⟨i, .symbol name.toList⟩ :: scan .between (i + name.toList.length) rest := by
  obtain ⟨hne, hname⟩ := h
  cases hlist : name.toList with
  | nil => exact absurd (String.toList_eq_nil_iff.mp hlist) hne
  | cons c cs =>
    rw [hlist] at hname
    have hc := hname c List.mem_cons_self
    simp only [isDelimiter, Bool.or_eq_false_iff, decide_eq_false_iff_not] at hc
    obtain ⟨⟨⟨hblank, hopening⟩, hclosing⟩, hcomment⟩ := hc
    have hstart : Mode.start i c = ([], .symbol i [c]) := by
      simp [Mode.start, hblank, hopening, hclosing, hcomment]
    have hrest := scan_symbol (s := i) (i := i + 1) [c]
      (fun c' hc' => hname c' (List.mem_cons_of_mem _ hc')) hrest
    simp only [List.cons_append, scan, Mode.step, hstart, List.nil_append, hrest, List.reverse_cons,
      List.reverse_nil, List.length_cons]
    rw [Nat.add_right_comm, Nat.add_assoc]

end Scan

/-- Whether a text is scanned to some lexemes, whatever follows it. -/
def Lays (cs : List Char) (ls : List Lexeme) : Prop :=
  ∀ (i : Nat) (rest : List Char), Bounded rest → (scan .between i (cs ++ rest)).map (·.lexeme) =
    ls ++ (scan .between (i + cs.length) rest).map (·.lexeme)

section Lays

variable {c : Char} {cs cs' : List Char} {ls ls' : List Lexeme}

theorem lays_nil : Lays [] [] := fun _ _ _ => rfl

theorem lays_blank (hc : isBlank c = true) (h : Lays cs ls) : Lays (c :: cs) ls := by
  intro i rest hrest
  rw [List.cons_append, scan_blank hc, h (i + 1) rest hrest, List.length_cons, Nat.add_right_comm,
    Nat.add_assoc]

theorem lays_blanks {gap : List Char} (hgap : ∀ c ∈ gap, isBlank c = true) (h : Lays cs ls) :
    Lays (gap ++ cs) ls := by
  induction gap with
  | nil => exact h
  | cons c gap ih =>
    exact lays_blank (hgap c List.mem_cons_self)
      (ih fun c' hc' => hgap c' (List.mem_cons_of_mem _ hc'))

theorem lays_opening (h : Lays cs ls) : Lays ('(' :: cs) (.opening :: ls) := by
  intro i rest hrest
  rw [List.cons_append, scan_opening, List.map_cons, h (i + 1) rest hrest, List.length_cons,
    Nat.add_right_comm, Nat.add_assoc]
  rfl

theorem lays_closing : Lays [')'] [.closing] := fun _ _ _ => rfl

theorem lays_name {name : String} (h : IsName name) : Lays name.toList [.symbol name.toList] := by
  intro i rest hrest
  rw [scan_name h hrest]
  rfl

theorem Lays.append (h : Lays cs ls) (h' : Lays cs' ls') (hb : Bounded cs') :
    Lays (cs ++ cs') (ls ++ ls') := by
  intro i rest hrest
  rw [List.append_assoc, h i (cs' ++ rest) (hb.append hrest), h' _ rest hrest, List.append_assoc,
    List.length_append, Nat.add_assoc]

/-- A text that is scanned to some lexemes, whatever follows it, has these if nothing does. -/
theorem Lays.ofText (h : Lays cs ls) : (Token.ofText cs).map (·.lexeme) = ls := by
  have hscan := h 0 [] bounded_nil
  rw [List.append_nil] at hscan
  simpa [Token.ofText, scan, Mode.finish] using hscan

end Lays

section Prints

variable {bs bs' : Bytes} {ls ls' : List Lexeme}

/-- Whether some bytes are a text that is scanned to some lexemes, whatever follows it. -/
def Prints (bs : Bytes) (ls : List Lexeme) : Prop := ∃ cs, bs = utf8 cs ∧ Lays cs ls

/-- Whether a symbol that stands before some bytes ends there. -/
def SetOff (bs : Bytes) : Prop := bs = [] ∨ ∃ c rest, isDelimiter c = true ∧ bs = utf8 [c] ++ rest

theorem bounded_of_setOff {cs : List Char} (h : SetOff (utf8 cs)) : Bounded cs := by
  cases cs with
  | nil => exact bounded_nil
  | cons c cs =>
    obtain hnil | ⟨d, rest, hd, heq⟩ := h
    · exact absurd hnil (utf8_cons_ne_nil c cs)
    · exact bounded_cons (utf8_head heq ▸ hd) cs

theorem prints_nil : Prints [] [] := ⟨[], rfl, lays_nil⟩

theorem prints_name {name : String} (h : IsName name) :
    Prints (utf8 name.toList) [.symbol name.toList] := ⟨_, rfl, lays_name h⟩

theorem prints_blanks {gap : List Char} (hgap : ∀ c ∈ gap, isBlank c = true) (h : Prints bs ls) :
    Prints (utf8 gap ++ bs) ls := by
  obtain ⟨cs, rfl, hcs⟩ := h
  exact ⟨gap ++ cs, (utf8_append gap cs).symm, lays_blanks hgap hcs⟩

theorem prints_parens (h : Prints bs ls) :
    Prints (utf8 ['('] ++ bs ++ utf8 [')']) (.opening :: (ls ++ [.closing])) := by
  obtain ⟨cs, rfl, hcs⟩ := h
  refine ⟨'(' :: (cs ++ [')']), ?_, lays_opening (hcs.append lays_closing (bounded_cons rfl []))⟩
  change _ = utf8 (['('] ++ (cs ++ [')']))
  rw [utf8_append, utf8_append, List.append_assoc]

theorem Prints.append (h : Prints bs ls) (h' : Prints bs' ls') (hoff : SetOff bs') :
    Prints (bs ++ bs') (ls ++ ls') := by
  obtain ⟨cs, rfl, hcs⟩ := h
  obtain ⟨cs', rfl, hcs'⟩ := h'
  exact ⟨cs ++ cs', (utf8_append cs cs').symm, hcs.append hcs' (bounded_of_setOff hoff)⟩

end Prints

end Token

namespace Term

mutual

/-- The symbols of a term are names, but for those that are written like an empty list. -/
def Legible : Term String → Prop
  | symbol name => name = "()" ∨ Token.IsName name
  | list items => AllLegible items

def AllLegible : List (Term String) → Prop
  | [] => True
  | t :: ts => t.Legible ∧ AllLegible ts

end

mutual

/-- The term as it is read back: a symbol that is written like an empty list is one. -/
def reread : Term String → Term String
  | symbol name => if name = "()" then list [] else symbol name
  | list items => list (rereadAll items)

def rereadAll : List (Term String) → List (Term String)
  | [] => []
  | t :: ts => t.reread :: rereadAll ts

end

mutual

def lexemes : Term String → List Lexeme
  | symbol name => [.symbol name.toList]
  | list items => .opening :: (lexemesOf items ++ [.closing])

def lexemesOf : List (Term String) → List Lexeme
  | [] => []
  | t :: ts => t.lexemes ++ lexemesOf ts

end

theorem allLegible_iff {ts : List (Term String)} : AllLegible ts ↔ ∀ t ∈ ts, t.Legible := by
  induction ts with
  | nil => simp [AllLegible]
  | cons t ts ih => simp [AllLegible, ih]

@[simp] theorem rereadAll_eq_map (ts : List (Term String)) : rereadAll ts = ts.map reread := by
  induction ts with
  | nil => rfl
  | cons t ts ih => rw [rereadAll, ih, List.map_cons]

section Layout

open Token

theorem prints_symbol {name : String} (h : (symbol name).Legible) :
    Prints (utf8 name.toList) (symbol name).reread.lexemes := by
  rw [Legible] at h
  by_cases hname : name = "()"
  · subst hname
    exact prints_parens prints_nil
  · rw [reread, if_neg hname]
    exact prints_name (h.resolve_left hname)

mutual

theorem prints_bytes : ∀ {t : Term String}, t.Legible → Prints t.encode.bytes t.reread.lexemes
  | symbol _, h => prints_symbol h
  | list items, h => by
    have hitems : Prints (bytesOf (encodeAll items)) (lexemesOf (rereadAll items)) :=
      prints_bytesOf h
    exact prints_parens hitems

theorem prints_bytesOf : ∀ {ts : List (Term String)}, AllLegible ts →
    Prints (bytesOf (encodeAll ts)) (lexemesOf (rereadAll ts))
  | [], _ => prints_nil
  | [t], h => by
    have ht := prints_bytes h.1
    simpa [encodeAll, bytesOf, lexemesOf] using ht
  | t :: u :: us, h => by
    have ht := prints_bytes h.1
    have hus : Prints (bytesOf (encodeAll (u :: us))) (lexemesOf (rereadAll (u :: us))) :=
      prints_bytesOf h.2
    have hgap : Prints (utf8 [' '] ++ bytesOf (encodeAll (u :: us))) _ :=
      prints_blanks (by simp [isBlank]) hus
    have hall := ht.append hgap (.inr ⟨' ', _, rfl, rfl⟩)
    rwa [← List.append_assoc] at hall

end

theorem isBlank_of_mem_newline {level : Nat} {c : Char} (h : c ∈ newline level) :
    isBlank c = true := by
  obtain rfl | hc := List.mem_cons.mp h
  · rfl
  · rw [List.eq_of_mem_replicate hc]
    rfl

theorem setOff_layoutItems (flat level : Nat) (leading : Bool) (ts : List (Term Bytes)) :
    SetOff (layoutItems flat level [' '] leading ts) := by
  cases ts with
  | nil => exact .inl rfl
  | cons t ts =>
    rw [layoutItems]
    split
    · exact .inr ⟨' ', _, rfl, List.append_assoc ..⟩
    · exact .inr ⟨'\n', _, rfl, by
        rw [newline, ← List.singleton_append, utf8_append, List.append_assoc, List.append_assoc]⟩

mutual

/-- Line breaks are not seen by a reader. -/
theorem prints_layout (flat level : Nat) :
    ∀ {t : Term String}, t.Legible → Prints (layout flat level t.encode) t.reread.lexemes
  | symbol _, h => prints_symbol h
  | list items, h => by
    rw [encode, layout]
    split
    · exact prints_bytes h
    · exact prints_parens (prints_layoutItems flat level [] true (fun _ hc => nomatch hc) h)

theorem prints_layoutItems (flat level : Nat) (gap : List Char) (leading : Bool)
    (hgap : ∀ c ∈ gap, isBlank c = true) : ∀ {ts : List (Term String)}, AllLegible ts →
      Prints (layoutItems flat level gap leading (encodeAll ts)) (lexemesOf (rereadAll ts))
  | [], _ => prints_nil
  | t :: ts, h => by
    have hgap' : ∀ c ∈ [' '], isBlank c = true := by simp [isBlank]
    rw [encodeAll, layoutItems]
    split
    · have hts := prints_layoutItems flat level [' '] true hgap' h.2
      exact (prints_blanks hgap (prints_bytes h.1)).append hts (setOff_layoutItems _ _ _ _)
    · have ht := prints_layout flat (level + 1) h.1
      have hts := prints_layoutItems flat level [' '] false hgap' h.2
      exact (prints_blanks (fun _ => isBlank_of_mem_newline) ht).append hts
        (setOff_layoutItems _ _ _ _)

end

/-- The bytes of some terms, each of which starts a line, in the form given for it. -/
def linesOf (ts : List (Nat × Term Bytes)) : Bytes :=
  ts.flatMap fun t => t.2.format t.1 ++ utf8 ['\n']

theorem prints_linesOf {ts : List (Nat × Term String)} (h : ∀ t ∈ ts, t.2.Legible) :
    Prints (linesOf (ts.map fun t => (t.1, t.2.encode))) (lexemesOf (ts.map (·.2.reread))) := by
  induction ts with
  | nil => exact prints_nil
  | cons t ts ih =>
    have ht := prints_layout t.1 0 (h t List.mem_cons_self)
    have hts := ih fun u hu => h u (List.mem_cons_of_mem _ hu)
    have hgap : Prints (utf8 ['\n'] ++ linesOf (ts.map fun t => (t.1, t.2.encode))) _ :=
      prints_blanks (by simp [isBlank]) hts
    have hall := ht.append hgap (.inr ⟨'\n', _, rfl, rfl⟩)
    rwa [← List.append_assoc] at hall

end Layout

end Term

namespace Reader

def deliver : Option Located × List Frame → List Token → Reading
  | (none, fs), ts => readAll fs ts
  | (some d, fs), ts => { readAll fs ts with terms := d :: (readAll fs ts).terms }

theorem readAll_cons {fs : List Frame} {t : Token} {p : Option Located × List Frame}
    (h : feed fs t = .ok p) (ts : List Token) : readAll fs (t :: ts) = deliver p ts := by
  obtain ⟨_ | d, fs'⟩ := p <;> rw [readAll, h] <;> rfl

mutual

theorem readAll_lexemes (fs : List Frame) : ∀ {t : Term String} {before : List Token},
    before.map (·.lexeme) = t.lexemes → ∃ d : Located, d.term = t ∧
      ∀ rest, readAll fs (before ++ rest) = deliver (place d fs) rest
  | .symbol name, _, h => by
    obtain ⟨tok, before, rfl, htok, hbefore⟩ := List.map_eq_cons_iff.mp h
    rw [List.map_eq_nil_iff] at hbefore
    subst hbefore
    refine ⟨.symbol tok.span (String.ofList name.toList), ?_, fun rest => readAll_cons ?_ rest⟩
    · rw [Located.term, String.ofList_toList]
    · simp only [feed, htok]
  | .list items, _, h => by
    rw [Term.lexemes] at h
    obtain ⟨tok, inner, rfl, htok, h⟩ := List.map_eq_cons_iff.mp h
    obtain ⟨before, closing, rfl, hbefore, h⟩ := List.map_eq_append_iff.mp h
    obtain ⟨last, none', rfl, hlast, h⟩ := List.map_eq_cons_iff.mp h
    rw [List.map_eq_nil_iff] at h
    subst h
    obtain ⟨ds, hds, hitems⟩ := readAll_lexemesOf tok [] fs hbefore
    refine ⟨.list (tok.span.hull last.span) ds, ?_, fun rest => ?_⟩
    · rw [Located.term, hds]
    · have hfirst : feed fs tok = .ok (none, ⟨tok, []⟩ :: fs) := by simp only [feed, htok]
      have hclose : feed (⟨tok, ds.reverse ++ []⟩ :: fs) last =
          .ok (place (.list (tok.span.hull last.span) ds) fs) := by
        simp [feed, hlast]
      rw [List.cons_append, readAll_cons hfirst, deliver, List.append_assoc, hitems,
        List.singleton_append, readAll_cons hclose]

/-- Inside a list they are kept, last first. -/
theorem readAll_lexemesOf (tok : Token) (done : List Located) (fs : List Frame) :
    ∀ {items : List (Term String)} {before : List Token}, before.map (·.lexeme) = Term.lexemesOf items →
      ∃ ds : List Located, Located.terms ds = items ∧
        ∀ rest, readAll (⟨tok, done⟩ :: fs) (before ++ rest) =
          readAll (⟨tok, ds.reverse ++ done⟩ :: fs) rest
  | [], _, h => by
    rw [Term.lexemesOf, List.map_eq_nil_iff] at h
    subst h
    exact ⟨[], rfl, fun _ => rfl⟩
  | t :: items, _, h => by
    rw [Term.lexemesOf] at h
    obtain ⟨first, before, rfl, hfirst, hbefore⟩ := List.map_eq_append_iff.mp h
    obtain ⟨d, hd, hread⟩ := readAll_lexemes (⟨tok, done⟩ :: fs) hfirst
    obtain ⟨ds, hds, hreads⟩ := readAll_lexemesOf tok (d :: done) fs hbefore
    refine ⟨d :: ds, ?_, fun rest => ?_⟩
    · rw [Located.terms, hd, hds]
    · rw [List.append_assoc, hread, place, deliver, hreads, List.reverse_cons, List.append_assoc,
        List.singleton_append]

end

theorem readAll_append {before : List Token} {ts : List (Term String)}
    (h : before.map (·.lexeme) = Term.lexemesOf ts) :
    ∃ ds : List Located, Located.terms ds = ts ∧ ∀ rest, readAll [] (before ++ rest) =
      ⟨ds ++ (readAll [] rest).terms, (readAll [] rest).error⟩ := by
  induction ts generalizing before with
  | nil =>
    rw [Term.lexemesOf, List.map_eq_nil_iff] at h
    subst h
    exact ⟨[], rfl, fun _ => rfl⟩
  | cons t ts ih =>
    rw [Term.lexemesOf] at h
    obtain ⟨first, before, rfl, hfirst, hbefore⟩ := List.map_eq_append_iff.mp h
    obtain ⟨d, hd, hread⟩ := readAll_lexemes [] hfirst
    obtain ⟨ds, hds, hreads⟩ := ih hbefore
    refine ⟨d :: ds, ?_, fun rest => ?_⟩
    · rw [Located.terms, hd, hds]
    · rw [List.append_assoc, hread, place, deliver, hreads, List.cons_append]

theorem readAll_terms {tokens : List Token} {ts : List (Term String)}
    (h : tokens.map (·.lexeme) = Term.lexemesOf ts) :
    Located.terms (readAll [] tokens).terms = ts ∧ (readAll [] tokens).error = none := by
  obtain ⟨ds, hds, hread⟩ := readAll_append h
  have hall := hread []
  rw [List.append_nil] at hall
  rw [hall]
  exact ⟨by rw [readAll, List.append_nil, hds], rfl⟩

end Reader

end MachineSynth
