import Mathlib
import MachineSynth.Rtl.Summary

/-! Columns: how wide the rows of a summary are, and how wide they are once their first two columns
have been cut to fit. -/
namespace MachineSynth
namespace Summary

def columnWidth (rows : List Row) (i : Nat) : Nat :=
  (rows.map fun row : Row => (row.getD i []).length).foldr max 0

def rowWidth (rows : List Row) (count : Nat) : Nat :=
  3 * (count - 1) + ((List.range count).map (columnWidth rows)).sum

/-- A width is enough for rows once four bytes are left of each of the first two columns. -/
def CanFit (rows : List Row) (count width : Nat) : Prop :=
  3 * (count - 1) + 4 + 4 + (((List.range count).drop 2).map (columnWidth rows)).sum ≤ width

instance (rows : List Row) (count width : Nat) : Decidable (CanFit rows count width) :=
  inferInstanceAs (Decidable (_ ≤ _))

/-- How wide rows are beyond their first two columns and the separator after each of them. -/
def restWidth (rows : List Row) (count : Nat) : Nat :=
  3 * count + ((List.range count).map fun i => columnWidth rows (i + 2)).sum

theorem columnWidth_cons (row : Row) (rows : List Row) (i : Nat) :
    columnWidth (row :: rows) i = max (row.getD i []).length (columnWidth rows i) := rfl

theorem rowWidth_add_two (rows : List Row) (count : Nat) :
    rowWidth rows (count + 2) =
      3 + columnWidth rows 0 + columnWidth rows 1 + restWidth rows count := by
  have hcolumns : (List.range (count + 2)).map (columnWidth rows) =
      columnWidth rows 0 :: columnWidth rows 1 ::
        (List.range count).map fun i => columnWidth rows (i + 2) := by
    simp [List.range_succ_eq_map, Function.comp_def]
  rw [rowWidth, restWidth, hcolumns, List.sum_cons, List.sum_cons]
  omega

section Widths

variable {row : Row} {rows : List Row} {count : Nat}

def columns (count : Nat) (width : Nat → Nat) : List Int :=
  (List.range count).map fun i => (width i : Int)

theorem columns_succ (count : Nat) (width : Nat → Nat) :
    columns (count + 1) width = (width 0 : Int) :: columns count fun i => width (i + 1) := by
  simp [columns, List.range_succ_eq_map, Function.comp_def]

theorem widen_columns (h : row.length = count) (width : Nat → Nat) :
    widen (columns count width) row =
      .ok (columns count fun i => max (width i) (row.getD i []).length) := by
  induction row generalizing count width with
  | nil =>
    obtain rfl : count = 0 := h.symm
    rfl
  | cons c cs ih =>
    obtain ⟨n, rfl⟩ : ∃ n, count = n + 1 := ⟨cs.length, h.symm⟩
    rw [columns_succ, columns_succ, widen, ih (Nat.succ.inj h)]
    simp [Bind.bind, Except.bind, pure, Except.pure]

theorem foldlM_widen (h : ∀ row ∈ rows, row.length = count) (width : Nat → Nat) :
    rows.foldlM widen (columns count width) =
      .ok (columns count fun i => max (width i) (columnWidth rows i)) := by
  induction rows generalizing width with
  | nil => simp [columnWidth, pure, Except.pure]
  | cons row rows ih =>
    obtain ⟨hrow, hrows⟩ := List.forall_mem_cons.mp h
    rw [List.foldlM_cons, widen_columns hrow]
    show rows.foldlM widen _ = _
    rw [ih hrows]
    simp only [columnWidth_cons, max_assoc]

theorem widths_eq (hne : rows ≠ []) (h : ∀ row ∈ rows, row.length = count) :
    widths rows = .ok (columns count (columnWidth rows)) := by
  obtain ⟨first, rest, rfl⟩ := List.exists_cons_of_ne_nil hne
  have hzero : List.replicate first.length (0 : Int) = columns count fun _ => 0 := by
    rw [h first List.mem_cons_self]
    simp [columns]
  rw [widths, hzero, foldlM_widen h]
  simp

theorem total_columns (rows : List Row) (h : 0 < count) :
    total (columns count (columnWidth rows)) = rowWidth rows count := by
  have hsum : (columns count (columnWidth rows)).sum =
      (((List.range count).map (columnWidth rows)).sum : Nat) := by
    rw [Nat.cast_list_sum, List.map_map]
    rfl
  rw [total, ← List.sum_eq_foldr, hsum, rowWidth, columns, List.length_map, List.length_range]
  omega

end Widths

section Cutting

def cut (n : Nat) (c : Cell) : Cell :=
  if c.length ≤ n then c else c.take (n - 1) ++ ['~'.toNat.toUInt8]

theorem truncate_eq {n : Nat} (h : 1 ≤ n) (c : Cell) : truncate c n = .ok (cut n c) := by
  unfold truncate cut
  by_cases hle : c.length ≤ n
  · rw [if_pos (by omega), if_pos hle]
  · have hpred : ((n : Int) - 1).toNat = n - 1 := by omega
    rw [if_neg (by omega), if_pos (by omega), if_neg hle, hpred]

theorem length_cut {n : Nat} (h : 1 ≤ n) (c : Cell) : (cut n c).length = min c.length n := by
  unfold cut
  split
  · rename_i hle
    exact (min_eq_left hle).symm
  · rename_i hle
    rw [List.length_append, List.length_take, List.length_singleton]
    omega

/-- A cell as it was, or what is left of it once the rest of it gave way to a tilde. -/
inductive Abridges (c : Cell) : Cell → Prop
  | kept : Abridges c c
  | cut (n : Nat) (h : 3 ≤ n) (hlt : n + 1 < c.length) :
    Abridges c (c.take n ++ ['~'.toNat.toUInt8])

theorem abridges_cut {n : Nat} (h : 4 ≤ n) (c : Cell) : Abridges c (cut n c) := by
  unfold Summary.cut
  split
  · exact .kept
  · exact .cut (n - 1) (by omega) (by omega)

/-- A row of which at most the first two cells are cut. -/
inductive Narrows : Row → Row → Prop
  | cells {x y x' y' : Cell} {rest : Row} (first : Abridges x x') (second : Abridges y y') :
    Narrows (x :: y :: rest) (x' :: y' :: rest)

theorem narrows_refl {row : Row} (h : 2 ≤ row.length) : Narrows row row := by
  match row, h with
  | x :: y :: rest, _ => exact .cells .kept .kept

def cutCells (a b : Nat) : Row → Row
  | x :: y :: rest => cut a x :: cut b y :: rest
  | row => row

variable {a b : Nat} {row : Row} {rows : List Row}

theorem cutRow_eq (ha : 1 ≤ a) (hb : 1 ≤ b) (h : 2 ≤ row.length) :
    cutRow a b row = .ok (cutCells a b row) := by
  match row, h with
  | x :: y :: rest, _ =>
    rw [cutRow, truncate_eq ha, truncate_eq hb]
    rfl

theorem mapM_cutRow (ha : 1 ≤ a) (hb : 1 ≤ b) (h : ∀ row ∈ rows, 2 ≤ row.length) :
    rows.mapM (cutRow a b) = .ok (rows.map (cutCells a b)) := by
  induction rows with
  | nil => rfl
  | cons row rows ih =>
    obtain ⟨hrow, hrows⟩ := List.forall_mem_cons.mp h
    rw [List.mapM_cons, cutRow_eq ha hb hrow, ih hrows]
    rfl

theorem narrows_cutCells (ha : 4 ≤ a) (hb : 4 ≤ b) (h : 2 ≤ row.length) :
    Narrows row (cutCells a b row) := by
  match row, h with
  | x :: y :: rest, _ => exact .cells (abridges_cut ha x) (abridges_cut hb y)

theorem length_cutCells_zero (ha : 1 ≤ a) (h : 2 ≤ row.length) :
    ((cutCells a b row).getD 0 []).length = min (row.getD 0 []).length a := by
  match row, h with
  | x :: y :: rest, _ => exact length_cut ha x

theorem length_cutCells_one (hb : 1 ≤ b) (h : 2 ≤ row.length) :
    ((cutCells a b row).getD 1 []).length = min (row.getD 1 []).length b := by
  match row, h with
  | x :: y :: rest, _ => exact length_cut hb y

theorem cutCells_getD (a b : Nat) (row : Row) (i : Nat) :
    (cutCells a b row).getD (i + 2) [] = row.getD (i + 2) [] := by
  match row with
  | [] | [_] | _ :: _ :: _ => rfl

theorem columnWidth_map_min {f : Row → Row} {i n : Nat}
    (h : ∀ row ∈ rows, ((f row).getD i []).length = min (row.getD i []).length n) :
    columnWidth (rows.map f) i = min (columnWidth rows i) n := by
  induction rows with
  | nil => simp [columnWidth]
  | cons row rows ih =>
    obtain ⟨hrow, hrows⟩ := List.forall_mem_cons.mp h
    rw [List.map_cons, columnWidth_cons, columnWidth_cons, hrow, ih hrows]
    omega

theorem restWidth_cutCells (a b : Nat) (rows : List Row) (count : Nat) :
    restWidth (rows.map (cutCells a b)) count = restWidth rows count := by
  simp only [restWidth, columnWidth, List.map_map, Function.comp_def, cutCells_getD]

theorem rowWidth_cutCells {count : Nat} (ha : 1 ≤ a) (hb : 1 ≤ b)
    (h : ∀ row ∈ rows, row.length = count + 2) :
    rowWidth (rows.map (cutCells a b)) (count + 2) =
      3 + min (columnWidth rows 0) a + min (columnWidth rows 1) b + restWidth rows count := by
  have hlength : ∀ row ∈ rows, 2 ≤ row.length := fun row hrow => by
    have := h row hrow
    omega
  rw [rowWidth_add_two, restWidth_cutCells,
    columnWidth_map_min fun row hrow => length_cutCells_zero ha (hlength row hrow),
    columnWidth_map_min fun row hrow => length_cutCells_one hb (hlength row hrow)]

end Cutting

section Fitting

variable {rows : List Row} {count width : Nat}

/-- By how much rows exceed a width. -/
def surplus (rows : List Row) (count width : Nat) : Nat :=
  rowWidth rows count - width

/-- What a column loses of its share is no more than it has beyond four bytes. -/
theorem min_max_sub (w share : Nat) : min w (max (w - share) 4) = w - min share (w - 4) := by
  omega

/-- What is cut are the first two cells of each row, if anything has to be cut. -/
theorem fit_eq (hne : rows ≠ []) (h : ∀ row ∈ rows, row.length = count + 2) (hwidth : 0 < width) :
    fit rows width =
      .ok (if rowWidth rows (count + 2) ≤ width then rows else
        let e := surplus rows (count + 2) width
        rows.map (cutCells (max (columnWidth rows 0 - e / 2) 4)
          (max (columnWidth rows 1 - (e - e / 2)) 4))) := by
  have hlength : ∀ row ∈ rows, 2 ≤ row.length := fun row hrow => by
    have := h row hrow
    omega
  have hexcess : excess (columns (count + 2) (columnWidth rows)) width =
      rowWidth rows (count + 2) - width := by
    rw [excess, total_columns rows (Nat.succ_pos (count + 1)), if_neg (by omega)]
  rw [fit, if_neg (by omega), widths_eq hne h]
  show (if excess _ _ ≤ 0 then _ else _) = _
  rw [hexcess]
  by_cases hle : rowWidth rows (count + 2) ≤ width
  · rw [if_pos (by omega), if_pos hle]
    rfl
  · rw [if_neg (by omega), if_neg hle, columns_succ, columns_succ]
    have hsurplus : (rowWidth rows (count + 2) : Int) - width =
        (surplus rows (count + 2) width : Nat) := by
      rw [surplus]
      omega
    -- Below zero the subtraction of naturals stops, but four is more than zero.
    have hfirst (w e : Nat) : max ((w : Int) - e / 2) 4 = (max (w - e / 2) 4 : Nat) := by omega
    have hsecond (w e : Nat) :
        max ((w : Int) - (e - e / 2)) 4 = (max (w - (e - e / 2)) 4 : Nat) := by omega
    rw [hsurplus, ← mapM_cutRow (by omega) (by omega) hlength]
    simp only [hfirst, hsecond]

/-- The first two columns share what rows have in excess of a width, each half of it, and neither
is cut below four bytes: the rows fit if both are long enough for their halves. -/
theorem fit_narrows (hne : rows ≠ []) (hcount : 2 ≤ count) (h : ∀ row ∈ rows, row.length = count)
    (hwidth : 0 < width) :
    ∃ rows', fit rows width = .ok rows' ∧ List.Forall₂ Narrows rows rows' ∧
      (rowWidth rows' count ≤ width ↔
        surplus rows count width / 2 ≤ columnWidth rows 0 - 4 ∧
          surplus rows count width - surplus rows count width / 2 ≤ columnWidth rows 1 - 4) := by
  obtain ⟨n, rfl⟩ : ∃ n, count = n + 2 := ⟨count - 2, by omega⟩
  have hlength : ∀ row ∈ rows, 2 ≤ row.length := fun row hrow => by
    have := h row hrow
    omega
  rw [fit_eq hne h hwidth]
  by_cases hle : rowWidth rows (n + 2) ≤ width
  · have hsurplus : surplus rows (n + 2) width = 0 := Nat.sub_eq_zero_of_le hle
    rw [if_pos hle, hsurplus]
    refine ⟨rows, rfl, List.forall₂_same.mpr fun row hrow => narrows_refl (hlength row hrow), ?_⟩
    simp [hle]
  · rw [if_neg hle]
    refine ⟨_, rfl, List.forall₂_map_right_iff.mpr (List.forall₂_same.mpr fun row hrow =>
      narrows_cutCells (by omega) (by omega) (hlength row hrow)), ?_⟩
    have hwide := rowWidth_add_two rows n
    have hsurplus : surplus rows (n + 2) width = rowWidth rows (n + 2) - width := rfl
    rw [rowWidth_cutCells (by omega) (by omega) h, min_max_sub, min_max_sub]
    omega

def longNames : List Row :=
  [["Module", "Table", "States"].map cell, ["m", "a_rather_long_table_name", "3"].map cell]

theorem longNames_narrows :
    ∃ rows', fit longNames 38 = .ok rows' ∧ List.Forall₂ Narrows longNames rows' ∧
      rowWidth rows' 3 ≤ 38 := by
  have hlength : ∀ row ∈ longNames, row.length = 3 := by decide
  have hwidth : 0 < 38 := by decide
  obtain ⟨rows', hfit, hnarrows, hiff⟩ := fit_narrows (by decide) (by decide) hlength hwidth
  exact ⟨rows', hfit, hnarrows, hiff.mpr (by decide)⟩

/-- The short column is too short for its half, and the long one is not cut any further: the rows
stay wider than the width, though cells of four bytes would leave room enough. -/
theorem longNames_exceeds :
    CanFit longNames 3 30 ∧ ∃ rows', fit longNames 30 = .ok rows' ∧ 30 < rowWidth rows' 3 :=
  ⟨by decide, _, rfl, by decide⟩

end Fitting
end Summary
end MachineSynth
