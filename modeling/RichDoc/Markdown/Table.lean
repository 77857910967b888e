import RichDoc.Text.Character
import RichDoc.Text.Lines

/-! Tables with columns set apart by bars. Rows may have any number of cells: each is filled up to
the longest, and the first one is the header. -/

namespace RichDoc.Markdown

open Text

/-- The text with a backslash before every bar. -/
def escapeBars (t : List Char) : List Char :=
  t.flatMap fun c => if c = '|' then ['\\', '|'] else [c]

/-- The content of a cell on one line: its lines are trimmed, those without content left out, and
the rest joined by spaces. -/
def normalizeCell (t : List Char) : List Char :=
  escapeBars (joinPresent [' '] ((lines t).map trim))

/-- The rows of a table, each a list of normalized cells. -/
structure Table where
  rows : List (List (List Char)) := []
  deriving DecidableEq

namespace Table

/-- What stands between two cells. -/
def separator : List Char := [' ', '|', ' ']

/-- The table with one more row below; a row without cells is left out. -/
def addRow (t : Table) (cells : List (List Char)) : Table :=
  if cells.isEmpty then t else ⟨t.rows ++ [cells.map normalizeCell]⟩

/-- The table of a list of rows. -/
def ofRows (rows : List (List (List Char))) : Table :=
  ⟨(rows.filter (!·.isEmpty)).map (·.map normalizeCell)⟩

/-- The number of cells in the longest row. -/
def columns (t : Table) : Nat := t.rows.foldl (fun n row => max n row.length) 0

/-- The row filled with empty cells up to a number of columns. -/
def fill (columns : Nat) (row : List (List Char)) : List (List Char) :=
  row ++ List.replicate (columns - row.length) []

/-- The line of a row. -/
def rowLine (cells : List (List Char)) : List Char := separator.intercalate cells

/-- The line below the header. -/
def ruler (columns : Nat) : List (List Char) := List.replicate columns ['-', '-', '-']

/-- The table as text; a table without rows is empty. -/
def render (t : Table) : List Char :=
  match t.rows.map (fill t.columns) with
  | [] => []
  | header :: body => unlines ((header :: ruler t.columns :: body).map rowLine)

@[simp] theorem ofRows_nil : ofRows [] = {} := rfl

theorem ofRows_concat (rows : List (List (List Char))) (row : List (List Char)) :
    ofRows (rows ++ [row]) = (ofRows rows).addRow row := by
  by_cases h : row.isEmpty <;> simp [ofRows, addRow, h, List.filter_append]

end Table

end RichDoc.Markdown
