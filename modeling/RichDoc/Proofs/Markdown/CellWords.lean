import RichDoc.Markdown.Table
import RichDoc.Proofs.Text.Words

/-! The words of a table cell. A cell that is fitted on one line has no blanks at its ends, and once
the backslashes before its bars are taken out it has the words of its content. Lines are cut at line
feeds alone, so a carriage return between words stays where it is. -/

namespace RichDoc.Markdown

open Text

/-- The text without the backslash before each bar. -/
def unescapeBars : List Char → List Char
  | [] => []
  | '\\' :: '|' :: t => '|' :: unescapeBars t
  | c :: t => c :: unescapeBars t

variable {t : List Char}

/-! ### Escaped bars -/

theorem escapeBars_cons (c : Char) (t : List Char) :
    escapeBars (c :: t) = (if c = '|' then ['\\', '|'] else [c]) ++ escapeBars t := by
  simp [escapeBars]

theorem head?_escapeBars (t : List Char) :
    (escapeBars t).head? = t.head?.map fun c => if c = '|' then '\\' else c := by
  cases t with
  | nil => rfl
  | cons c t =>
    rw [escapeBars_cons]
    split <;> simp [*]

theorem getLast?_escapeBars (t : List Char) : (escapeBars t).getLast? = t.getLast? := by
  rcases List.eq_nil_or_concat t with rfl | ⟨t, c, rfl⟩
  · rfl
  · by_cases hc : c = '|' <;> simp [escapeBars, hc]

theorem mem_escapeBars {c : Char} (h : c ≠ '\\') : c ∈ escapeBars t ↔ c ∈ t := by
  induction t with
  | nil => rfl
  | cons d t ih =>
    rw [escapeBars_cons, List.mem_append, ih, List.mem_cons]
    split <;> simp [*]

theorem unescapeBars_cons {c : Char} (h : t.head? ≠ some '|') :
    unescapeBars (c :: t) = c :: unescapeBars t := by
  apply unescapeBars.eq_3
  rintro u - rfl
  exact h rfl

/-- No text with escaped bars starts with a bar, so only the backslashes that were put in are taken
out. -/
theorem unescapeBars_escapeBars (t : List Char) : unescapeBars (escapeBars t) = t := by
  induction t with
  | nil => rfl
  | cons c t ih =>
    rw [escapeBars_cons]
    split
    · next hc =>
      subst hc
      exact congrArg ('|' :: ·) ih
    · have hhead : (escapeBars t).head? ≠ some '|' := by
        rw [head?_escapeBars]
        intro h
        obtain ⟨d, -, hd⟩ := Option.map_eq_some_iff.mp h
        split at hd
        · cases hd
        · contradiction
      rw [List.singleton_append, unescapeBars_cons hhead, ih]

/-! ### The lines of a cell -/

theorem any_head?_normalizeCell (t : List Char) :
    (normalizeCell t).head?.any isBlank = false := by
  have h : (joinPresent [' '] ((lines t).map trim)).head?.any isBlank = false :=
    any_head?_joinPresent _ (by simp [any_head?_trim])
  rw [normalizeCell, head?_escapeBars, Option.any_map]
  cases hhead : (joinPresent [' '] ((lines t).map trim)).head? with
  | none => rfl
  | some c =>
    rw [hhead] at h
    by_cases hc : c = '|'
    · subst hc
      rfl
    · simpa [hc] using h

theorem any_getLast?_normalizeCell (t : List Char) :
    (normalizeCell t).getLast?.any isBlank = false := by
  rw [normalizeCell, getLast?_escapeBars]
  exact any_getLast?_joinPresent _ (by simp [any_getLast?_trim])

/-- A blank in a cell, other than a space, stands between words of a line of its content. -/
theorem mem_normalizeCell {c : Char} (hc : isBlank c = true) (hspace : c ≠ ' ') :
    c ∈ normalizeCell t ↔ ∃ line ∈ lines t, ∃ s u, line = s ++ c :: u ∧
      s.all isBlank = false ∧ u.all isBlank = false := by
  have hslash : c ≠ '\\' := by
    rintro rfl
    cases hc
  rw [normalizeCell, mem_escapeBars hslash, joinPresent, mem_intercalate (by simpa using hspace)]
  simp only [List.mem_filter, List.mem_map]
  constructor
  · rintro ⟨-, ⟨⟨line, hline, rfl⟩, -⟩, hmem⟩
    exact ⟨line, hline, (mem_trim_of_isBlank hc).mp hmem⟩
  · rintro ⟨line, hline, h⟩
    have hmem := (mem_trim_of_isBlank hc).mpr h
    have hpresent : trim line ≠ [] := List.ne_nil_of_mem hmem
    exact ⟨trim line, ⟨⟨line, hline, rfl⟩, by simpa using hpresent⟩, hmem⟩

theorem feed_not_mem_normalizeCell (t : List Char) : '\n' ∉ normalizeCell t := by
  intro hmem
  obtain ⟨line, hline, s, u, rfl, -⟩ := (mem_normalizeCell (by decide) (by decide)).mp hmem
  exact feed_not_mem_of_mem_lines hline (by simp)

theorem words_normalizeCell (t : List Char) : words (unescapeBars (normalizeCell t)) = words t := by
  rw [normalizeCell, unescapeBars_escapeBars, words_joinPresent (by decide) (by decide),
    List.flatMap_map]
  simp only [words_trim]
  exact flatMap_words_lines t

/-- A cell has the words of its content and no blanks at its ends. It has no line feed, and it has a
carriage return exactly when one stands between words of a line of its content. -/
theorem normalizeCell_oneLine (t : List Char) :
    '\n' ∉ normalizeCell t ∧
    ('\r' ∈ normalizeCell t ↔ ∃ line ∈ lines t, ∃ s u, line = s ++ '\r' :: u ∧
      s.all isBlank = false ∧ u.all isBlank = false) ∧
    (normalizeCell t).head?.any isBlank = false ∧ (normalizeCell t).getLast?.any isBlank = false ∧
    words (unescapeBars (normalizeCell t)) = words t :=
  ⟨feed_not_mem_normalizeCell t, mem_normalizeCell (by decide) (by decide),
    any_head?_normalizeCell t, any_getLast?_normalizeCell t, words_normalizeCell t⟩

/-- A lone carriage return ends a line of Markdown, and it is left in the cell. -/
theorem return_mem_normalizeCell : '\r' ∈ normalizeCell "a\rb".toList := by decide

end RichDoc.Markdown
