import Mathlib
import MachineSynth.Proofs.Grammar

/-! Printing: a term whose symbols are names is read back from each of its written forms. -/
namespace MachineSynth

section Decoding

theorem decodeFrom_of_size_le {b : ByteArray} {i : Nat} (h : b.size ≤ i) : decodeFrom b i = [] := by
  rw [decodeFrom, if_neg (Nat.not_lt.mpr h)]

/-- Code points after some bytes are decoded as they were encoded. -/
theorem decodeFrom_append_utf8Encode (b : ByteArray) (cs : List Char) :
    decodeFrom (b ++ cs.utf8Encode) b.size = cs := by
  induction cs generalizing b with
  | nil => exact decodeFrom_of_size_le (by simp)
  | cons c cs ih =>
    have hsize : ([c].utf8Encode).size = c.utf8Size := by
      rw [List.utf8Encode_singleton, List.size_toByteArray, String.length_utf8EncodeChar]
    have hpos := c.utf8Size_pos
    have hfirst : (b ++ (c :: cs).utf8Encode).utf8DecodeChar? b.size = some c := by
      rw [ByteArray.utf8DecodeChar?_eq_utf8DecodeChar?_extract,
        ByteArray.extract_append_eq_right rfl ByteArray.size_append]
      exact List.utf8DecodeChar?_utf8Encode_cons
    have hlt : b.size < (b ++ (c :: cs).utf8Encode).size := by
      rw [ByteArray.size_append, List.utf8Encode_cons, ByteArray.size_append]
      omega
    have hrest := ih (b ++ [c].utf8Encode)
    rw [ByteArray.append_assoc, ← List.utf8Encode_cons, ByteArray.size_append, hsize] at hrest
    rw [decodeFrom, if_pos hlt, hfirst]
    exact congrArg (c :: ·) hrest

theorem Source.ofBytes_utf8 (name : String) (cs : List Char) :
    ofBytes name (utf8 cs).toByteArray = ⟨name, cs⟩ := by
  have hdecode := decodeFrom_append_utf8Encode ByteArray.empty cs
  rw [ByteArray.empty_append] at hdecode
  exact congrArg _ hdecode

end Decoding

namespace Term

mutual

/-- The symbols of a term are not empty, and have no parentheses, semicolons or blanks. -/
def Plain : Term Bytes → Prop
  | symbol name => name ≠ [] ∧ ∀ b ∈ utf8 ['(', ')', ';', ' ', '\t', '\n', '\r'], b ∉ name
  | list items => AllPlain items

def AllPlain : List (Term Bytes) → Prop
  | [] => True
  | t :: ts => t.Plain ∧ AllPlain ts

end

theorem plain_symbol {name : Bytes} : (symbol name).Plain ↔
    name ≠ [] ∧ ∀ b ∈ utf8 ['(', ')', ';', ' ', '\t', '\n', '\r'], b ∉ name := Iff.rfl

mutual

def IsText : Term Bytes → Prop
  | symbol name => ∃ cs, name = utf8 cs
  | list items => AllText items

def AllText : List (Term Bytes) → Prop
  | [] => True
  | t :: ts => t.IsText ∧ AllText ts

end

mutual

def Named : Term String → Prop
  | symbol name => Token.IsName name
  | list items => AllNamed items

def AllNamed : List (Term String) → Prop
  | [] => True
  | t :: ts => t.Named ∧ AllNamed ts

end

mutual

theorem Named.reread_eq : ∀ {t : Term String}, t.Named → t.Legible ∧ t.reread = t
  | symbol _, h => ⟨.inr h, if_neg (Token.IsName.ne_parens h)⟩
  | list items, h => by
    obtain ⟨hlegible, hitems⟩ := AllNamed.rereadAll_eq h
    exact ⟨hlegible, by rw [reread, hitems]⟩

theorem AllNamed.rereadAll_eq :
    ∀ {ts : List (Term String)}, AllNamed ts → AllLegible ts ∧ rereadAll ts = ts
  | [], _ => ⟨trivial, rfl⟩
  | t :: ts, h => by
    obtain ⟨hlegible, ht⟩ := Named.reread_eq h.1
    obtain ⟨hlegibles, hts⟩ := AllNamed.rereadAll_eq h.2
    exact ⟨⟨hlegible, hlegibles⟩, by rw [rereadAll, ht, hts]⟩

end

theorem mem_utf8 {c : Char} {cs : List Char} {b : UInt8} (hb : b ∈ String.utf8EncodeChar c)
    (hc : c ∈ cs) : b ∈ utf8 cs :=
  List.mem_flatMap.mpr ⟨c, hc, hb⟩

theorem isName_of_plain {cs : List Char} (h : (symbol (utf8 cs)).Plain) :
    Token.IsName (String.ofList cs) := by
  obtain ⟨hne, hplain⟩ := h
  refine ⟨fun hempty => hne ?_, fun c hc => ?_⟩
  · rw [String.ofList_eq_empty_iff.mp hempty]
    rfl
  · rw [String.toList_ofList] at hc
    by_contra hdelimiter
    have hmem : c ∈ ['(', ')', ';', ' ', '\t', '\n', '\r'] := by
      simp only [Token.isDelimiter, Token.isBlank] at hdelimiter
      grind
    obtain ⟨b, hb⟩ := List.exists_mem_of_ne_nil _ (utf8_cons_ne_nil c [])
    rw [utf8, List.flatMap_singleton] at hb
    exact hplain b (mem_utf8 hb hmem) (mem_utf8 hb hc)

mutual

theorem Plain.exists_encode :
    ∀ {t : Term Bytes}, t.Plain → t.IsText → ∃ u : Term String, u.Named ∧ u.encode = t
  | symbol _, h, ⟨cs, hcs⟩ => by
    subst hcs
    refine ⟨symbol (String.ofList cs), isName_of_plain h, ?_⟩
    rw [encode, String.toList_ofList]
  | list items, h, htext => by
    obtain ⟨us, hnamed, rfl⟩ := AllPlain.exists_encodeAll h htext
    exact ⟨list us, hnamed, rfl⟩

theorem AllPlain.exists_encodeAll : ∀ {ts : List (Term Bytes)}, AllPlain ts → AllText ts →
    ∃ us : List (Term String), AllNamed us ∧ encodeAll us = ts
  | [], _, _ => ⟨[], trivial, rfl⟩
  | t :: ts, h, htext => by
    obtain ⟨u, hu, rfl⟩ := Plain.exists_encode h.1 htext.1
    obtain ⟨us, hus, rfl⟩ := AllPlain.exists_encodeAll h.2 htext.2
    exact ⟨u :: us, ⟨hu, hus⟩, rfl⟩

end

mutual

theorem isText_encode : ∀ t : Term String, t.encode.IsText
  | symbol name => ⟨name.toList, rfl⟩
  | list items => allText_encodeAll items

theorem allText_encodeAll : ∀ ts : List (Term String), AllText (encodeAll ts)
  | [] => trivial
  | t :: ts => ⟨isText_encode t, allText_encodeAll ts⟩

end

end Term

namespace Source

open Term

variable {s : Source} {t : Term String} {ts : List (Term String)}

def IsRead (s : Source) (t : Term String) : Prop :=
  ∃ d : Located, s.term = .ok (some d) ∧ d.term = t

/-- Whether a source is read as some terms, without a fault. -/
def AreRead (s : Source) (ts : List (Term String)) : Prop :=
  ∃ ds : List Located, s.terms = (ds, none) ∧ Located.terms ds = ts

/-- Whether what a source is read as has the symbols of a given term. -/
def Yields (s : Source) (t : Term Bytes) : Prop := ∃ u, s.IsRead u ∧ u.encode = t

def YieldsAll (s : Source) (ts : List (Term Bytes)) : Prop :=
  ∃ us, s.AreRead us ∧ us.map encode = ts

theorem areRead_of_lexemes (h : (Token.ofText s.text).map (·.lexeme) = lexemesOf ts) :
    s.AreRead ts := by
  obtain ⟨hnone, hterms⟩ := phrases_iff_terms.mp (phrases_iff.mpr h)
  exact ⟨s.terms.1, Prod.ext rfl hnone, hterms⟩

theorem isRead_of_areRead (h : s.AreRead [t]) : s.IsRead t := by
  obtain ⟨ds, hterms, hds⟩ := h
  match ds, hds with
  | [d], hds =>
    simp only [Located.terms, List.cons.injEq, and_true] at hds
    refine ⟨d, (term_eq_ok (some d)).mpr ?_, hds⟩
    rw [hterms]
    exact ⟨rfl, rfl⟩

section Prints

variable {bs : Bytes} (file : String)

theorem areRead_of_prints (h : Token.Prints bs (lexemesOf ts)) :
    (ofBytes file bs.toByteArray).AreRead ts := by
  obtain ⟨cs, rfl, hlays⟩ := h
  rw [ofBytes_utf8]
  exact areRead_of_lexemes hlays.ofText

theorem isRead_of_prints (h : Token.Prints bs t.lexemes) :
    (ofBytes file bs.toByteArray).IsRead t :=
  isRead_of_areRead (areRead_of_prints file (by rwa [lexemesOf_singleton]))

end Prints

end Source

namespace Term

open Source

section Printing

variable (file : String)

theorem Named.isRead {t : Term String} (h : t.Named) (flat : Nat) :
    (ofBytes file (t.encode.format flat).toByteArray).IsRead t ∧
      (ofBytes file t.encode.bytes.toByteArray).IsRead t := by
  obtain ⟨hlegible, hsame⟩ := h.reread_eq
  have hlayout := prints_layout flat 0 hlegible
  have hbytes := prints_bytes hlegible
  rw [hsame] at hlayout hbytes
  exact ⟨isRead_of_prints file hlayout, isRead_of_prints file hbytes⟩

theorem areRead_linesOf {ts : List (Nat × Term String)} (h : ∀ t ∈ ts, t.2.Named) :
    (ofBytes file (linesOf (ts.map fun t => (t.1, t.2.encode))).toByteArray).AreRead
      (ts.map (·.2)) := by
  have hlines := prints_linesOf fun t ht => (h t ht).reread_eq.1
  have hsame : ts.map (·.2.reread) = ts.map (·.2) :=
    List.map_congr_left fun t ht => (h t ht).reread_eq.2
  rw [hsame] at hlines
  exact areRead_of_prints file hlines

/-- Printing and reading are inverse on just the terms whose symbols are texts: of those without
blanks, parentheses and semicolons in their symbols these are read back from their bytes, on one line
or broken into several, and so are many, each on lines of its own. -/
theorem printed_terms_are_read_back {ts : List (Nat × Term Bytes)} (h : ∀ t ∈ ts, t.2.Plain) :
    (∀ t ∈ ts, ((ofBytes file (t.2.format t.1).toByteArray).Yields t.2 ↔ t.2.IsText) ∧
      ((ofBytes file t.2.bytes.toByteArray).Yields t.2 ↔ t.2.IsText)) ∧
    ((ofBytes file (linesOf ts).toByteArray).YieldsAll (ts.map (·.2)) ↔
      ∀ t ∈ ts, t.2.IsText) := by
  have hyields : ∀ {s : Source} {t : Term Bytes}, s.Yields t → t.IsText := by
    rintro s _ ⟨u, -, rfl⟩
    exact isText_encode u
  refine ⟨fun t ht => ⟨⟨hyields, fun htext => ?_⟩, ⟨hyields, fun htext => ?_⟩⟩, ?_, fun htext => ?_⟩
  · obtain ⟨u, hnamed, hu⟩ := (h t ht).exists_encode htext
    exact ⟨u, hu ▸ (hnamed.isRead file t.1).1, hu⟩
  · obtain ⟨u, hnamed, hu⟩ := (h t ht).exists_encode htext
    exact ⟨u, hu ▸ (hnamed.isRead file t.1).2, hu⟩
  · rintro ⟨us, -, hus⟩ t ht
    obtain ⟨u, -, hu⟩ := List.mem_map.mp (hus ▸ List.mem_map_of_mem ht)
    exact hu ▸ isText_encode u
  · choose! read hnamed hread using fun t ht => (h t ht).exists_encode (htext t ht)
    have hnames : ∀ t ∈ ts.map fun t => (t.1, read t), t.2.Named := List.forall_mem_map.mpr hnamed
    have hlines := areRead_linesOf file hnames
    have hterms : (ts.map fun t => (t.1, read t)).map (fun t => (t.1, t.2.encode)) = ts := by
      have hsame : ∀ t ∈ ts, (t.1, (read t).encode) = id t := fun t ht => Prod.ext rfl (hread t ht)
      rw [List.map_map]
      exact (List.map_congr_left hsame).trans (List.map_id ts)
    rw [hterms] at hlines
    refine ⟨_, hlines, ?_⟩
    simp only [List.map_map]
    exact List.map_congr_left fun t ht => hread t ht

/-- A list that is broken into lines at two levels is read back. -/
theorem nested_list_is_read_back :
    let t := (list [symbol "a", list [symbol "b", list []], symbol "c"]).encode
    t.Plain ∧ t.IsText ∧ t.format 1 = utf8 "(a\n  (b\n    ())\n  c)".toList ∧
      (ofBytes "terms" (t.format 1).toByteArray).Yields t ∧
      (ofBytes "terms" (linesOf [(1, t), (3, t)]).toByteArray).YieldsAll [t, t] := by
  intro t
  have ha : (symbol "a").encode.Plain := plain_symbol.mpr (by decide +kernel)
  have hb : (symbol "b").encode.Plain := plain_symbol.mpr (by decide +kernel)
  have hc : (symbol "c").encode.Plain := plain_symbol.mpr (by decide +kernel)
  have hplain : t.Plain := ⟨ha, ⟨hb, trivial, trivial⟩, hc, trivial⟩
  have htext : t.IsText := isText_encode _
  have hformat : t.format 1 = utf8 "(a\n  (b\n    ())\n  c)".toList := by decide
  have hts : ∀ u ∈ [(1, t), (3, t)], u.2.Plain := by simp [hplain]
  obtain ⟨hone, hall⟩ := printed_terms_are_read_back "terms" hts
  exact ⟨hplain, htext, hformat, ((hone (1, t) (by simp)).1.mpr htext),
    hall.mpr (by simp [htext])⟩

/-- A symbol of a byte that starts no code point is read back as one of the replacement
character. -/
theorem stray_byte_is_replaced :
    let s := ofBytes "terms" ((symbol [0xFF]).format 0).toByteArray
    (symbol [0xFF]).Plain ∧ s.IsRead (symbol "\uFFFD") ∧ ¬ s.Yields (symbol [0xFF]) := by
  intro s
  have hs : s = ⟨"terms", ['\uFFFD']⟩ := by
    have hbytes : (layout 0 0 (symbol [0xFF])).toByteArray = ⟨#[0xFF]⟩ := rfl
    have hstray : (⟨#[0xFF]⟩ : ByteArray).utf8DecodeChar? 0 = none := by decide
    simp only [s, ofBytes, format, hbytes]
    rw [decodeFrom, if_pos (by decide), hstray, decodeFrom_of_size_le (by decide)]
  have hread : s.term = .ok (some (.symbol (Span.ofLength 0 1) "\uFFFD")) := by
    rw [hs]
    rfl
  refine ⟨plain_symbol.mpr (by decide +kernel), ⟨_, hread, rfl⟩, ?_⟩
  rintro ⟨_, ⟨d, hd, rfl⟩, hsymbol⟩
  rw [hread] at hd
  cases hd
  exact absurd (Term.symbol.inj hsymbol) (by decide)

end Printing

end Term
end MachineSynth
