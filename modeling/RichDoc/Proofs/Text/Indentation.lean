import RichDoc.Proofs.Text.Lines
import Mathlib.Data.List.Infix

/-! Indentation. The lines of an indented text are those of the text, each behind the indentation
unless it is empty. So a text can be indented in several steps or in one, its parts can be indented
one after the other, and the indentation can be taken away again. -/

namespace RichDoc.Text

variable {a b s t line : List Char}

/-- The text with the length of an indentation taken away from the start of every line. -/
def outdent (indentation t : List Char) : List Char := mapLines (·.drop indentation.length) t

/-! ### One line -/

@[simp] theorem indentLine_eq_nil_iff : indentLine b line = [] ↔ line = [] := by
  cases line <;> simp [indentLine]

theorem indentLine_indentLine (a b line : List Char) :
    indentLine b (indentLine a line) = indentLine (b ++ a) line := by
  cases line with
  | nil => rfl
  | cons c line => simp [indentLine]

theorem indentLine_cases (line : List Char) :
    indentLine b line = [] ∨ b <+: indentLine b line := by
  cases line with
  | nil => exact .inl rfl
  | cons c line => exact .inr (List.prefix_append b (c :: line))

theorem feed_not_mem_indentLine (hb : '\n' ∉ b) (h : '\n' ∉ line) : '\n' ∉ indentLine b line := by
  cases line with
  | nil => exact h
  | cons c line => simpa [indentLine, hb] using h

theorem drop_indentLine (b line : List Char) : (indentLine b line).drop b.length = line := by
  cases line <;> simp [indentLine]

/-! ### All lines of a text -/

theorem lines_mapLines {f : List Char → List Char} (h : ∀ line ∈ lines t, '\n' ∉ f line) :
    lines (mapLines f t) = (lines t).map f := by
  refine lines_unlines (by simpa using lines_ne_nil t) ?_
  simpa using h

theorem mapLines_append_feed (f : List Char → List Char) (s t : List Char) :
    mapLines f (s ++ '\n' :: t) = mapLines f s ++ '\n' :: mapLines f t := by
  rw [mapLines, lines_append_feed, List.map_append, unlines_append]
  · rfl
  · simpa using lines_ne_nil s
  · simpa using lines_ne_nil t

theorem lines_indent (hb : '\n' ∉ b) (t : List Char) :
    lines (indent b t) = (lines t).map (indentLine b) :=
  lines_mapLines fun _ hline => feed_not_mem_indentLine hb (feed_not_mem_of_mem_lines hline)

/-- The outer indentation may have line feeds in it, the inner one may not: its lines would be
indented on their own. -/
theorem indent_indent (ha : '\n' ∉ a) (b t : List Char) :
    indent b (indent a t) = indent (b ++ a) t := by
  rw [indent, mapLines, lines_indent ha, List.map_map, indent, mapLines]
  congr 2
  funext line
  exact indentLine_indentLine a b line

theorem outdent_indent (hb : '\n' ∉ b) (t : List Char) : outdent b (indent b t) = t := by
  have hline : (fun line : List Char => line.drop b.length) ∘ indentLine b = id :=
    funext (drop_indentLine b)
  rw [outdent, mapLines, lines_indent hb, List.map_map, hline, List.map_id, unlines_lines]

/-- Indentation can be done in steps, and part by part. An indentation without line feeds changes
neither the number of the lines nor which of them are empty, it stands before all others, and
without it the text is the same again; so two texts are never indented into one. -/
theorem indent_composes_and_cancels (b : List Char) :
    (∀ a t, '\n' ∉ a → indent b (indent a t) = indent (b ++ a) t) ∧
    (∀ s t, indent b (s ++ '\n' :: t) = indent b s ++ '\n' :: indent b t) ∧
    ('\n' ∉ b →
      (∀ t, (lines (indent b t)).length = (lines t).length ∧
        (∀ i : Nat, (lines (indent b t))[i]? = some [] ↔ (lines t)[i]? = some []) ∧
        (∀ line ∈ lines (indent b t), line = [] ∨ b <+: line) ∧
        outdent b (indent b t) = t) ∧
      Function.Injective (indent b)) := by
  refine ⟨fun a t ha => indent_indent ha b t, mapLines_append_feed (indentLine b), ?_⟩
  intro hb
  refine ⟨fun t => ⟨?_, ?_, ?_, outdent_indent hb t⟩, ?_⟩
  · rw [lines_indent hb, List.length_map]
  · intro i
    rw [lines_indent hb, List.getElem?_map]
    simp [Option.map_eq_some_iff]
  · intro line hline
    rw [lines_indent hb] at hline
    obtain ⟨line, -, rfl⟩ := List.mem_map.mp hline
    exact indentLine_cases line
  · exact Function.LeftInverse.injective (outdent_indent hb)

/-- A text with an empty line and with a line feed at its end, indented as in an item and then
quoted. -/
theorem indent_composes_and_cancels_quotedItem :
    '\n' ∉ "  ".toList ∧ '\n' ∉ "> ".toList ∧
    indent "> ".toList (indent "  ".toList "a\n\n b\n".toList) = ">   a\n\n>    b\n".toList ∧
    outdent "> ".toList (indent "> ".toList "a\n\n b\n".toList) = "a\n\n b\n".toList := by
  have hinner : '\n' ∉ "  ".toList := by decide
  have houter : '\n' ∉ "> ".toList := by decide
  obtain ⟨hsteps, -, hback⟩ := indent_composes_and_cancels "> ".toList
  exact ⟨hinner, houter, (hsteps _ _ hinner).trans (by decide), ((hback houter).1 _).2.2.2⟩

end RichDoc.Text
