import MachineSynth.Fault
import MachineSynth.Rtl.Image
import MachineSynth.Text.Columns

/-! Summaries: a row of counts for each table, and rows cut to fit a width. -/
namespace MachineSynth

def Image.summary (i : Image) : List (List String) :=
  ["Module", "Table", "States", "Insns", "Registers", "Resources"] ::
    i.modules.flatMap fun m => m.tables.map fun t =>
      [m.name, t.name, toString t.states.length,
        toString ((t.states.map (·.insns.length)).foldr (· + ·) 0),
        toString t.registers.length, toString t.resources.length]

namespace Summary

abbrev Cell := List UInt8

abbrev Row := List Cell

def cell (s : String) : Cell := s.toUTF8.data.toList

/-- Cuts a cell to `n` bytes, the last of which is then a tilde. -/
def truncate (c : Cell) (n : Int) : Except Fault Cell :=
  if (c.length : Int) ≤ n then .ok c
  else if 1 ≤ n then .ok (c.take (n - 1).toNat ++ ['~'.toNat.toUInt8])
  else .error .dangling

/-- Widens columns to hold the cells of a row, which has no more cells than there are columns. -/
def widen : List Int → Row → Except Fault (List Int)
  | ws, [] => .ok ws
  | [], _ :: _ => .error .dangling
  | w :: ws, c :: cs => do return max w c.length :: (← widen ws cs)

def widths : List Row → Except Fault (List Int)
  | [] => .error .dangling
  | first :: rest => (first :: rest).foldlM widen (List.replicate first.length 0)

/-- The width of rows of the given column widths, separators of three included. -/
def total (ws : List Int) : Int := 3 * ((ws.length : Int) - 1) + ws.foldr (· + ·) 0

/-- By how much rows of the given column widths exceed a width. A width so far below zero that the
excess is no 64-bit number is no limit. -/
def excess (ws : List Int) (width : Int) : Int :=
  let e := total ws - width
  if width < 0 ∧ 9223372036854775807 < e then 0 else e

def cutRow (first second : Int) : Row → Except Fault Row
  | a :: b :: rest => do return (← truncate a first) :: (← truncate b second) :: rest
  | _ => .error .dangling

/-- Cuts the first two columns so that the rows fit; a width of zero is no limit. The two columns
share the excess, but neither is cut below four bytes. -/
def fit (rows : List Row) (width : Int) : Except Fault (List Row) :=
  if width = 0 then .ok rows
  else do
    let ws ← widths rows
    let e := excess ws width
    if e ≤ 0 then return rows
    match ws with
    | a :: b :: _ => rows.mapM (cutRow (max (a - e / 2) 4) (max (b - (e - e / 2)) 4))
    | _ => .error .dangling

def shownWidths : List (List String) → List Nat
  | [] => []
  | row :: rest =>
    let below := shownWidths rest
    (List.range (max row.length below.length)).map fun i =>
      max ((row[i]?.map Columns.ofText).getD 0) (below.getD i 0)

/-- Cells filled up to their widths, but for the last. -/
def renderRow : List Nat → List String → String
  | _, [] => "\n"
  | _, [c] => c ++ "\n"
  | ws, c :: rest =>
    c ++ String.ofList (List.replicate (ws.headD 0 - Columns.ofText c) ' ') ++ " | " ++
      renderRow ws.tail rest

/-- Rows as lines with columns of equal width. -/
def render (rows : List (List String)) : String :=
  String.join (rows.map (renderRow (shownWidths rows)))

end Summary
end MachineSynth
