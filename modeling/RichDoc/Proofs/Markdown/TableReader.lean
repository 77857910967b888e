import RichDoc.Proofs.Markdown.CellWords
import RichDoc.Proofs.Maximum
import Mathlib.Data.List.Induction

/-! Reading a table back from its text. Every bar in a cell has a backslash before it, and every bar
between two cells has a blank there, so no cell can be taken for two. -/

namespace RichDoc.Markdown

open Text

/-- How many bars of a text have no backslash right before them, where `before` is the character
that stands before the text. -/
def bareBarsAfter (before : Char) : List Char → Nat
  | [] => 0
  | c :: t => (if c = '|' ∧ before ≠ '\\' then 1 else 0) + bareBarsAfter c t

/-- How many bars of a line, or of a field of it, have no backslash right before them. -/
def bareBars (t : List Char) : Nat := bareBarsAfter ' ' t

/-- The fields of a line: what stands between separators, which are found from the left. -/
def fields : List Char → List (List Char)
  | [] => [[]]
  | ' ' :: '|' :: ' ' :: t => [] :: fields t
  | c :: t => (fields t).modifyHead (c :: ·)

variable {cell t : List Char} {cells : List (List Char)}

/-! ### Bars -/

theorem bareBarsAfter_escapeBars (before : Char) (t : List Char) :
    bareBarsAfter before (escapeBars t) = 0 := by
  induction t generalizing before with
  | nil => rfl
  | cons c t ih =>
    rw [escapeBars_cons]
    split
    · simp [bareBarsAfter, ih]
    · next h => simp [bareBarsAfter, h, ih]

theorem bareBars_normalizeCell (t : List Char) : bareBars (normalizeCell t) = 0 :=
  bareBarsAfter_escapeBars ' ' _

/-- A text and a separator have the bars of the text, and that of the separator. -/
theorem bareBarsAfter_append_separator (before : Char) (s t : List Char) :
    bareBarsAfter before (s ++ (Table.separator ++ t)) =
      bareBarsAfter before s + (1 + bareBars t) := by
  induction s generalizing before with
  | nil => simp [Table.separator, bareBarsAfter, bareBars]
  | cons c s ih => simp [bareBarsAfter, ih, Nat.add_assoc]

theorem rowLine_cons (cell : List Char) (hne : cells ≠ []) :
    Table.rowLine (cell :: cells) = cell ++ (Table.separator ++ Table.rowLine cells) := by
  rw [Table.rowLine, List.intercalate_cons_of_ne_nil hne, List.append_assoc]
  rfl

/-- The separators have the only bare bars of a row whose cells have none. -/
theorem bareBars_rowLine (h : ∀ cell ∈ cells, bareBars cell = 0) :
    bareBars (Table.rowLine cells) = cells.length - 1 := by
  induction cells with
  | nil => rfl
  | cons cell cells ih =>
    obtain ⟨hcell, hcells⟩ := List.forall_mem_cons.mp h
    by_cases hrest : cells = []
    · subst hrest
      simpa [Table.rowLine] using hcell
    · have hpos := List.length_pos_iff.mpr hrest
      rw [rowLine_cons cell hrest, bareBars, bareBarsAfter_append_separator, ← bareBars, hcell,
        ih hcells, List.length_cons]
      omega

/-! ### Fields -/

theorem fields_cons {c : Char} (h : c ≠ ' ' ∨ t.head? ≠ some '|') :
    fields (c :: t) = (fields t).modifyHead (c :: ·) := by
  apply fields.eq_3
  rintro u rfl rfl
  simp at h

/-- No separator begins inside a text without bare bars. -/
theorem fields_cons_append {before c : Char} {s : List Char}
    (h : bareBarsAfter before (c :: s) = 0) (ht : t.head? ≠ some '|') :
    fields (c :: s ++ t) = (fields (s ++ t)).modifyHead (c :: ·) := by
  apply fields_cons
  by_cases hc : c = ' '
  · right
    subst hc
    cases s with
    | nil => exact ht
    | cons d s =>
      have hd : d ≠ '|' := by
        rintro rfl
        simp [bareBarsAfter] at h
      simpa using hd
  · exact .inl hc

theorem bareBarsAfter_tail {before c : Char} {s : List Char}
    (h : bareBarsAfter before (c :: s) = 0) : bareBarsAfter c s = 0 :=
  (Nat.add_eq_zero_iff.mp h).2

theorem fields_append_separator {before : Char} (h : bareBarsAfter before cell = 0)
    (t : List Char) : fields (cell ++ (Table.separator ++ t)) = cell :: fields t := by
  induction cell generalizing before with
  | nil => rfl
  | cons c cell ih =>
    have hhead : (Table.separator ++ t).head? ≠ some '|' := by simp [Table.separator]
    rw [fields_cons_append h hhead, ih (bareBarsAfter_tail h)]
    rfl

theorem fields_of_bareBars {before : Char} (h : bareBarsAfter before cell = 0) :
    fields cell = [cell] := by
  induction cell generalizing before with
  | nil => rfl
  | cons c cell ih =>
    have hcons := fields_cons_append (t := []) h (by simp)
    simp only [List.append_nil] at hcons
    rw [hcons, ih (bareBarsAfter_tail h)]
    rfl

theorem fields_rowLine (hne : cells ≠ []) (h : ∀ cell ∈ cells, bareBars cell = 0) :
    fields (Table.rowLine cells) = cells := by
  induction cells with
  | nil => exact absurd rfl hne
  | cons cell cells ih =>
    obtain ⟨hcell, hcells⟩ := List.forall_mem_cons.mp h
    by_cases hrest : cells = []
    · subst hrest
      simpa [Table.rowLine] using fields_of_bareBars hcell
    · rw [rowLine_cons cell hrest, fields_append_separator hcell, ih hrest hcells]

/-! ### Rows -/

namespace Table

variable {table : Table}

theorem length_le_columns {row : List (List Char)} (h : row ∈ table.rows) :
    row.length ≤ table.columns :=
  le_foldl_max_of_mem h 0

theorem exists_length_eq_columns (h : table.rows ≠ []) :
    ∃ row ∈ table.rows, row.length = table.columns := by
  rcases foldl_max_cases List.length table.rows 0 with hzero | ⟨row, hrow, heq⟩
  · obtain ⟨row, hrow⟩ := List.exists_mem_of_ne_nil _ h
    have := length_le_columns hrow
    refine ⟨row, hrow, ?_⟩
    rw [columns, hzero] at this ⊢
    omega
  · exact ⟨row, hrow, heq.symm⟩

theorem foldl_addRow (rows : List (List (List Char))) : rows.foldl addRow {} = ofRows rows := by
  induction rows using List.reverseRecOn with
  | nil => rfl
  | append_singleton rows row ih => rw [List.foldl_concat, ih, ofRows_concat]

/-- A row that can be written in a table with some columns: it has that many cells, and none of them
has a bare bar or a line feed. -/
structure Writable (columns : Nat) (row : List (List Char)) : Prop where
  length_eq : row.length = columns
  bareBars : ∀ cell ∈ row, bareBars cell = 0
  oneLine : ∀ cell ∈ row, '\n' ∉ cell

theorem writable_ruler (columns : Nat) : Writable columns (ruler columns) where
  length_eq := List.length_replicate
  bareBars cell hcell := by
    rw [List.eq_of_mem_replicate hcell]
    decide
  oneLine cell hcell := by
    rw [List.eq_of_mem_replicate hcell]
    decide

/-- A row of a table as it is written: its cells on one line each, and empty cells to the right. -/
def written (columns : Nat) (row : List (List Char)) : List (List Char) :=
  row.map normalizeCell ++ List.replicate (columns - row.length) []

theorem writable_written {columns : Nat} {row : List (List Char)} (h : row.length ≤ columns) :
    Writable columns (written columns row) where
  length_eq := by
    rw [written, List.length_append, List.length_map, List.length_replicate]
    omega
  bareBars cell hcell := by
    rcases List.mem_append.mp hcell with hcell | hcell
    · obtain ⟨t, -, rfl⟩ := List.mem_map.mp hcell
      exact bareBars_normalizeCell t
    · rw [List.eq_of_mem_replicate hcell]
      rfl
  oneLine cell hcell := by
    rcases List.mem_append.mp hcell with hcell | hcell
    · obtain ⟨t, -, rfl⟩ := List.mem_map.mp hcell
      exact feed_not_mem_normalizeCell t
    · rw [List.eq_of_mem_replicate hcell]
      exact List.not_mem_nil

variable {columns : Nat} {row : List (List Char)} {rows : List (List (List Char))}

theorem Writable.feed_not_mem (h : Writable columns row) : '\n' ∉ rowLine row :=
  not_mem_intercalate (by decide) h.oneLine

theorem lines_rows (hne : rows ≠ []) (h : ∀ row ∈ rows, Writable columns row) :
    lines (unlines (rows.map rowLine)) = rows.map rowLine := by
  apply lines_unlines (by simpa using hne)
  intro line hline
  obtain ⟨row, hrow, rfl⟩ := List.mem_map.mp hline
  exact (h row hrow).feed_not_mem

/-- The lines of a table can be told apart, and so can the cells on each of them. -/
theorem fields_rows (hpos : 0 < columns) (h : ∀ row ∈ rows, Writable columns row) :
    (rows.map rowLine).map fields = rows ∧
      ∀ line ∈ rows.map rowLine, (fields line).length = columns ∧
        (∀ field ∈ fields line, Markdown.bareBars field = 0) ∧
        Markdown.bareBars line = columns - 1 := by
  have hfields : ∀ row ∈ rows, fields (rowLine row) = row := by
    intro row hrow
    apply fields_rowLine _ (h row hrow).bareBars
    rintro rfl
    have := (h [] hrow).length_eq
    simp at this
    omega
  constructor
  · rw [List.map_map]
    calc rows.map (fields ∘ rowLine) = rows.map id := List.map_congr_left hfields
      _ = rows := List.map_id rows
  · intro line hline
    obtain ⟨row, hrow, rfl⟩ := List.mem_map.mp hline
    have hrow' := h row hrow
    rw [hfields row hrow, bareBars_rowLine hrow'.bareBars]
    exact ⟨hrow'.length_eq, hrow'.bareBars, by rw [hrow'.length_eq]⟩

/-- The rows with at least one cell. -/
def kept (rows : List (List (List Char))) : List (List (List Char)) := rows.filter (!·.isEmpty)

theorem rows_foldl_addRow (rows : List (List (List Char))) :
    (rows.foldl addRow {}).rows = (kept rows).map (·.map normalizeCell) := by
  rw [foldl_addRow]
  rfl

theorem length_pos_of_mem_kept {row : List (List Char)} (h : row ∈ kept rows) : 0 < row.length := by
  have hne := (List.mem_filter.mp h).2
  exact List.length_pos_iff.mpr (by simpa using hne)

theorem fill_normalized (columns : Nat) (row : List (List Char)) :
    fill columns (row.map normalizeCell) = written columns row := by
  rw [fill, written, List.length_map]

/-- The rows that are written for a table: the first one, a ruler, and the others. -/
def grid (columns : Nat) (header : List (List Char)) (body : List (List (List Char))) :
    List (List (List Char)) :=
  written columns header :: ruler columns :: body.map (written columns)

theorem writable_grid {header : List (List Char)} {body : List (List (List Char))}
    (h : ∀ row ∈ header :: body, row.length ≤ columns) :
    ∀ row ∈ grid columns header body, Writable columns row := by
  obtain ⟨hheader, hbody⟩ := List.forall_mem_cons.mp h
  intro row hrow
  rcases List.mem_cons.mp hrow with rfl | hrow
  · exact writable_written hheader
  · rcases List.mem_cons.mp hrow with rfl | hrow
    · exact writable_ruler columns
    · obtain ⟨source, hsource, rfl⟩ := List.mem_map.mp hrow
      exact writable_written (hbody source hsource)

theorem render_eq_grid {table : Table} {header : List (List Char)}
    {body : List (List (List Char))}
    (h : table.rows = (header :: body).map (·.map normalizeCell)) :
    table.render = unlines ((grid table.columns header body).map rowLine) := by
  simp only [render, h, List.map_cons, List.map_map, Function.comp_def, fill_normalized, grid]

theorem render_eq_nil_iff (table : Table) : table.render = [] ↔ table.rows = [] := by
  cases h : table.rows with
  | nil => simp [render, h]
  | cons header body =>
    simp only [render, h, List.map_cons, reduceCtorEq, iff_false]
    rw [unlines_cons _ (by simp)]
    simp

/-- A table has as many columns as its longest row has cells, and it is empty exactly when no row
has a cell. Otherwise its text can be read back: its lines are the first row, a ruler and the other
rows, and the separators on each of them, which have its only bare bars, set its cells apart. -/
theorem fields_lines_render (rows : List (List (List Char))) :
    let table := rows.foldl addRow {}
    (∀ row ∈ kept rows, row.length ≤ table.columns) ∧
    (kept rows ≠ [] → ∃ row ∈ kept rows, row.length = table.columns) ∧
    (table.render = [] ↔ kept rows = []) ∧
    ∀ header body, kept rows = header :: body →
      (lines table.render).length = (kept rows).length + 1 ∧
      (lines table.render).map fields = written table.columns header ::
        List.replicate table.columns ['-', '-', '-'] :: body.map (written table.columns) ∧
      ∀ line ∈ lines table.render, (fields line).length = table.columns ∧
        (∀ field ∈ fields line, Markdown.bareBars field = 0) ∧
        Markdown.bareBars line = table.columns - 1 := by
  intro table
  have hrows := rows_foldl_addRow rows
  have hle : ∀ row ∈ kept rows, row.length ≤ table.columns := by
    intro row hrow
    have hmem : row.map normalizeCell ∈ table.rows := hrows ▸ List.mem_map_of_mem hrow
    simpa only [List.length_map] using length_le_columns hmem
  refine ⟨hle, ?_, ?_, ?_⟩
  · intro hne
    have hrows' : table.rows ≠ [] := by simpa [table, hrows] using hne
    obtain ⟨row, hrow, hlength⟩ := exists_length_eq_columns hrows'
    obtain ⟨source, hsource, rfl⟩ := List.mem_map.mp (hrows ▸ hrow)
    exact ⟨source, hsource, by rw [← hlength, List.length_map]⟩
  · rw [render_eq_nil_iff, hrows, List.map_eq_nil_iff]
  · intro header body hkept
    have hheader : header ∈ kept rows := hkept ▸ List.mem_cons_self
    have hpos : 0 < table.columns :=
      Nat.lt_of_lt_of_le (length_pos_of_mem_kept hheader) (hle header hheader)
    have hgrid := writable_grid (hkept ▸ hle)
    have hlines : lines table.render = (grid table.columns header body).map rowLine := by
      rw [render_eq_grid (hkept ▸ hrows), lines_rows (by simp [grid]) hgrid]
    obtain ⟨hfields, hline⟩ := fields_rows hpos hgrid
    rw [hlines]
    exact ⟨by simp [hkept, grid], hfields, hline⟩

/-- Rows of different lengths, with bars, a line feed and a backslash where the cells meet. -/
def raggedRows : List (List (List Char)) :=
  [[], ["a | b".toList, " c\n| d ".toList], ["\\".toList]]

theorem fields_lines_render_raggedRows :
    kept raggedRows = ["a | b".toList, " c\n| d ".toList] :: [["\\".toList]] ∧
      let table := raggedRows.foldl addRow {}
      table.columns = 2 ∧ (∃ row ∈ kept raggedRows, row.length = 2) ∧
      (lines table.render).length = 3 ∧
      (lines table.render).map fields = [["a \\| b".toList, "c \\| d".toList],
        ["---".toList, "---".toList], ["\\".toList, []]] ∧
      ∀ line ∈ lines table.render, (fields line).length = 2 ∧
        (∀ field ∈ fields line, Markdown.bareBars field = 0) ∧ Markdown.bareBars line = 1 := by
  have hkept : kept raggedRows = ["a | b".toList, " c\n| d ".toList] :: [["\\".toList]] := by
    decide
  have hcolumns : (raggedRows.foldl addRow {}).columns = 2 := by decide
  obtain ⟨-, hlongest, -, hread⟩ := fields_lines_render raggedRows
  obtain ⟨hlength, hfields, hline⟩ := hread _ _ hkept
  rw [hcolumns] at hlongest hfields hline
  refine ⟨hkept, hcolumns, hlongest (by simp [hkept]), ?_, ?_, hline⟩
  · rw [hlength, hkept]
    rfl
  · rw [hfields]
    decide

end Table

end RichDoc.Markdown
