import Mathlib
import MachineSynth.Proofs.Complaints

/-! Reports of syntax errors: each is about a span of its source, and is shown under the line on
which that starts. -/
namespace MachineSynth

namespace Line

/-- Whether a line of a text is the one on which a position stands: it starts just after the last
line break before the position, or at the start of the text, and reaches up to the first line break
from the position on, or to the end of the text. -/
structure Encloses (cs : List Char) (p : Nat) (l : Line) : Prop where
  number : l.number = 1 + (cs.take p).count '\n'
  start_le : l.start ≤ p
  first : l.start = 0 ∨ cs[l.start - 1]? = some '\n'
  unbroken : '\n' ∉ (cs.take p).drop l.start
  text : l.text = (cs.take p).drop l.start ++ (cs.drop p).takeWhile (· ≠ '\n')

section Find

variable {ahead gap here : List Char} {k p : Nat} {cs : List Char} {l : Line}

/-- The line that is left by lines that end before it, some of its own text, and what comes then. -/
theorem encloses_of_parts (hahead : ∀ c ∈ ahead.getLast?, c = '\n') (hgap : '\n' ∉ gap) :
    Encloses (ahead ++ (gap ++ here)) (ahead.length + gap.length)
      ⟨1 + ahead.count '\n', ahead.length, (gap ++ here).takeWhile (· ≠ '\n')⟩ := by
  have htake : (ahead ++ (gap ++ here)).take (ahead.length + gap.length) = ahead ++ gap := by
    rw [← List.append_assoc, ← List.length_append, List.take_left]
  have hdrop : (ahead ++ (gap ++ here)).drop (ahead.length + gap.length) = here := by
    rw [← List.append_assoc, ← List.length_append, List.drop_left]
  constructor
  case number => rw [htake, List.count_append, List.count_eq_zero.mpr hgap, Nat.add_zero]
  case start_le => exact Nat.le_add_right _ _
  case first =>
    obtain rfl | ⟨lines, c, rfl⟩ := List.eq_nil_or_concat' ahead
    · exact .inl rfl
    · have hc : c = '\n' := hahead c (by simp)
      exact .inr (by simp [hc])
  case unbroken => rwa [htake, List.drop_left]
  case text =>
    rw [htake, List.drop_left, hdrop]
    refine List.takeWhile_append_of_pos fun c hc => ?_
    rw [decide_eq_true_iff]
    exact fun hline => hgap (hline ▸ hc)

/-- Walking on to a position keeps the start of the line on which it stands. -/
theorem find_encloses {i number start : Nat} {line : List Char}
    (hahead : ∀ c ∈ ahead.getLast?, c = '\n') (hgap : '\n' ∉ gap)
    (hline : line = gap ++ here) (hi : i = ahead.length + gap.length)
    (hnumber : number = 1 + ahead.count '\n') (hstart : start = ahead.length)
    (hp : i ≤ p) (hp' : p ≤ i + here.length) :
    Encloses (ahead ++ (gap ++ here)) p (find p number start line i here) := by
  induction here generalizing ahead gap i number start line with
  | nil =>
    obtain rfl : p = ahead.length + gap.length := by rw [List.length_nil] at hp'; omega
    subst hline hnumber hstart
    exact encloses_of_parts hahead hgap
  | cons c here ih =>
    rw [List.length_cons] at hp'
    rw [find]
    split
    · obtain rfl : p = ahead.length + gap.length := by omega
      subst hline hnumber hstart
      exact encloses_of_parts hahead hgap
    · split
      · rename_i hc
        subst hc
        have hnext : Encloses ((ahead ++ (gap ++ ['\n'])) ++ ([] ++ here)) p
            (find p (number + 1) (i + 1) here (i + 1) here) :=
          ih (by simp) (by simp) rfl (by simp [hi]; omega)
            (by simp [hnumber, List.count_eq_zero.mpr hgap]; omega) (by simp [hi]; omega)
            (by omega) (by omega)
        simpa using hnext
      · rename_i hc
        have hgap' : '\n' ∉ gap ++ [c] := by simp [hgap, Ne.symm hc]
        have hnext : Encloses (ahead ++ ((gap ++ [c]) ++ here)) p
            (find p number start line (i + 1) here) :=
          ih hahead hgap' (by simp [hline]) (by simp [hi]; omega) hnumber hstart (by omega)
            (by omega)
        simpa using hnext

/-- The line of a position that is in a text, or at its end. -/
theorem enclosing_encloses (h : p ≤ cs.length) : Encloses cs p (enclosing cs p) :=
  have hahead : ∀ c ∈ ([] : List Char).getLast?, c = '\n' := by simp
  find_encloses hahead List.not_mem_nil rfl rfl rfl rfl (Nat.zero_le p) (by omega)

end Find
end Line

namespace SyntaxError

/-- The report of an error, with so many blanks and carets below the line. -/
def shown (e : SyntaxError) (margin carets : Nat) : String :=
  s!"{e.source.name}:{e.line.number}:{margin + 1}-{margin + 1 + carets} {e.message}\n\n" ++
    String.ofList (e.line.text ++ '\n' ::
      List.replicate margin ' ' ++ List.replicate carets '^' ++ ['\n'])

/-- Whether an error that starts at a position is shown: the blanks reach up to the position, and
the carets stay on the line, unless it ends there already. -/
structure IsShown (e : SyntaxError) (p margin carets : Nat) : Prop where
  report : e.report = .ok (e.shown margin carets)
  reaches : p = e.line.start + margin
  onLine : margin ≤ e.line.length
  positive : 1 ≤ carets
  inside : margin < e.line.length → margin + carets ≤ e.line.length
  atEnd : margin = e.line.length → carets = 1

variable {e : SyntaxError} {p : Nat}

theorem exists_isShown (hp : e.span.start = p) (hle : p ≤ e.source.length) :
    ∃ margin carets, e.IsShown p margin carets := by
  have hline : e.line.Encloses e.source.text p := by
    rw [line, hp]
    exact Line.enclosing_encloses hle
  have hlength : p ≤ e.line.start + e.line.length := by
    rw [Line.length, hline.text]
    simp only [List.length_append, List.length_drop, List.length_take]
    have : p ≤ e.source.text.length := hle
    omega
  obtain ⟨margin, hmargin⟩ := Nat.exists_eq_add_of_le hline.start_le
  have hcolumn : e.column = margin := by
    rw [column, hp, distance_of_nonneg (by omega) (by omega)]
    omega
  have hunderlined : 1 ≤ e.underlined := le_max_right _ _
  obtain ⟨carets, hcarets⟩ := Int.eq_ofNat_of_zero_le (by omega : 0 ≤ e.underlined)
  have hwidth : (carets : Int) = max (min ((e.line.length : Int) - margin) e.span.length) 1 := by
    rw [← hcarets, underlined, hcolumn]
  refine ⟨margin, carets, ?_, hmargin, ?_, ?_, ?_, ?_⟩
  · rw [report, if_neg (by omega), if_neg (by omega), hcolumn, hcarets]
    rfl
  all_goals omega

end SyntaxError

namespace Span

/-- Whether a span lies in a text of some length. -/
def Within (n : Nat) (s : Span) : Prop := 0 ≤ s.start ∧ s.stop ≤ n

end Span

namespace Reader

section Errors

variable {fs : List Frame} {tokens rest : List Token} {r : Option Located} {e : ReadError}

def Names (tokens : List Token) : ReadError → Prop
  | .endOfFile => True
  | .endOfList i | .remainder i => ∃ t ∈ tokens, t.start = i

theorem readAll_names (h : (readAll [] tokens).error = some e) : Names tokens e := by
  have hends := ends_readAll tokens
  rw [h] at hends
  cases hends with
  | unclosed => trivial
  | unmatched => exact ⟨_, by simp, rfl⟩

theorem readFirst_suffix (h : readFirst fs tokens = .ok (r, rest)) : rest <:+ tokens := by
  induction tokens generalizing fs with
  | nil =>
    cases fs <;> cases h
    exact List.suffix_rfl
  | cons t tokens ih =>
    rw [readFirst] at h
    split at h
    · cases h
    · exact (ih h).trans (List.suffix_cons t _)
    · cases h
      exact List.suffix_cons t _

theorem readOne_names (h : readOne tokens = .error e) : Names tokens e := by
  unfold readOne at h
  split at h
  · rename_i e' hfirst
    cases h
    refine readAll_names ?_
    rw [readAll_of_readFirst, hfirst]
  · cases h
  · rename_i next rest hfirst
    cases h
    exact ⟨next, (readFirst_suffix hfirst).subset List.mem_cons_self, rfl⟩

end Errors

end Reader

namespace Source

/-- The errors that are found in a source: by reading its one term, by reading all its terms, and by
loading it as a listing. -/
inductive Rejects (s : Source) : SyntaxError → Prop
  | one {e : SyntaxError} (term : s.term = .error e) : Rejects s e
  | all {e : SyntaxError} (terms : s.terms.2 = some e) : Rejects s e
  | listing {e : SyntaxError} (load : Listing.load s = .error e) : Rejects s e

variable {s : Source} {e : SyntaxError} {r : ReadError}

theorem within_of_names (h : Reader.Names (Token.ofText s.text) r) :
    (r.span s.length).Within s.length := by
  have htoken : ∀ t ∈ Token.ofText s.text, (Span.ofLength t.start 1).Within s.length := by
    intro t ht
    have hne := List.length_pos_iff.mpr (s.scans_text.chars_ne_nil ht)
    have hstop := s.scans_text.stop_le ht
    rw [Token.stop] at hstop
    simp only [Span.Within, Span.ofLength, Source.length]
    omega
  cases r with
  | endOfFile => simp [ReadError.span, Span.Within, Span.ofLength]
  | endOfList i | remainder i =>
    obtain ⟨t, ht, rfl⟩ := h
    exact htoken t ht

theorem term_error_within (h : s.term = .error e) : e.source = s ∧ e.span.Within s.length := by
  obtain ⟨r, hr, rfl⟩ := Synth.mapError_eq_error.mp h
  exact ⟨rfl, within_of_names (Reader.readOne_names hr)⟩

theorem terms_error_within (h : s.terms.2 = some e) : e.source = s ∧ e.span.Within s.length := by
  obtain ⟨r, hr, rfl⟩ := Option.map_eq_some_iff.mp h
  exact ⟨rfl, within_of_names (Reader.readAll_names hr)⟩

theorem load_error_within (h : Listing.load s = .error e) :
    e.source = s ∧ e.span.Within s.length := by
  rw [Listing.load, Synth.except_bind_eq_error] at h
  obtain h | ⟨r, hr, h⟩ := h
  · exact term_error_within h
  · cases r with
    | none =>
      cases h
      exact ⟨rfl, by simp [Span.Within, Span.ofLength]⟩
    | some d =>
      have hspans : d.AllSpans (Span.Within s.length) := fun e he =>
        ⟨(term_exact hr e he).nonneg, (term_exact hr e he).bounded⟩
      dsimp only at h
      split at h
      · cases h
      · rename_i c hc
        cases h
        exact ⟨rfl, Listing.readTop_complains hspans c hc⟩

theorem Rejects.within (h : s.Rejects e) : e.source = s ∧ e.span.Within s.length := by
  cases h with
  | one term => exact term_error_within term
  | all terms => exact terms_error_within terms
  | listing load => exact load_error_within load

/-- Every error that is found in a source is about a span of it, and can be shown: under the line on
which the span starts, with the carets from there on. -/
theorem errors_are_shown (h : s.Rejects e) :
    e.source = s ∧ ∃ p q : Nat, e.span.start = p ∧ e.span.stop = q ∧ p ≤ q ∧ q ≤ s.length ∧
      e.line.Encloses s.text p ∧ ∃ margin carets, e.IsShown p margin carets := by
  obtain ⟨hsource, hstart, hstop⟩ := h.within
  have hordered := e.span.ordered
  obtain ⟨p, hp⟩ := Int.eq_ofNat_of_zero_le hstart
  obtain ⟨q, hq⟩ := Int.eq_ofNat_of_zero_le (hstart.trans hordered)
  have hle : p ≤ s.text.length := by
    have : s.length = s.text.length := rfl
    omega
  refine ⟨hsource, p, q, hp, hq, by omega, by omega, ?_, ?_⟩
  · rw [SyntaxError.line, hsource, hp]
    exact Line.enclosing_encloses hle
  · exact SyntaxError.exists_isShown hp (hsource ▸ hle)

/-- A parenthesis on the last line that ends no list. -/
theorem unmatched_is_shown :
    let s : Source := ⟨"terms", ['a', '\n', 'b', ')']⟩
    let e : SyntaxError := ⟨s, Span.ofLength 3 1, "unexpected end-of-list"⟩
    s.Rejects e ∧ e.report = .ok "terms:2:2-3 unexpected end-of-list\n\nb)\n ^\n" ∧
      ∃ p q : Nat, e.span.start = p ∧ e.span.stop = q ∧ p ≤ q ∧ q ≤ s.length ∧
        e.line.Encloses s.text p ∧ ∃ margin carets, e.IsShown p margin carets := by
  intro s e
  have hrejects : s.Rejects e := .all rfl
  exact ⟨hrejects, by decide, (errors_are_shown hrejects).2⟩

end Source
end MachineSynth
