import RichDoc.Markdown.Item
import RichDoc.Proofs.Text.Indentation

/-! List items read back. The marker of an item stands before its first line, and every other line
is empty or indented. So marker and indentation can be taken away again, and what is left are the
texts of the parts, each below the one before. -/

namespace RichDoc.Markdown

open Text

/-- The line without the indentation of an item; an empty line has none. -/
def outdentLine? (line : List Char) : Option (List Char) :=
  if line.isEmpty then some [] else itemIndent.isPrefixOf? line

/-- The text of an item without its marker and without the indentation below. -/
def readItem? (marker t : List Char) : Option (List Char) := do
  let unmarked ← marker.isPrefixOf? t
  match lines unmarked with
  | [] => none
  | head :: later => return unlines (head :: (← later.mapM outdentLine?))

/-- What the parts of an item say: the texts that are not empty, each below the one before. A list
that stands first begins on the line below the marker. -/
def said (parts : List Part) : List Char :=
  let present := parts.filter (!·.text.isEmpty)
  (if present.head?.any Part.nested then ['\n'] else []) ++ unlines (present.map Part.text)

variable {marker head : List Char} {later : List (List Char)} {parts : List Part}

/-! ### Lines -/

theorem outdentLine?_indentLine (line : List Char) :
    outdentLine? (indentLine itemIndent line) = some line := by
  cases line with
  | nil => rfl
  | cons c line => exact List.isPrefixOf?_eq_some_iff_append_eq.mpr rfl

theorem feed_not_mem_itemIndent : '\n' ∉ itemIndent := by decide

/-- The lines of a marked text that is indented below its first line. -/
theorem lines_marked (hmarker : '\n' ∉ marker) (h : ∀ line ∈ head :: later, '\n' ∉ line) :
    lines (marker ++ unlines (head :: later.map (indentLine itemIndent))) =
      (marker ++ head) :: later.map (indentLine itemIndent) := by
  obtain ⟨hhead, hlater⟩ := List.forall_mem_cons.mp h
  rw [← unlines_marked, lines_unlines (List.cons_ne_nil _ _)]
  intro line hline
  rcases List.mem_cons.mp hline with rfl | hline
  · simp [hmarker, hhead]
  · obtain ⟨line, hmem, rfl⟩ := List.mem_map.mp hline
    exact feed_not_mem_indentLine feed_not_mem_itemIndent (hlater line hmem)

/-! ### Items -/

theorem composeItem_eq_nil (h : ∀ p ∈ parts, p.text = []) : composeItem marker parts = [] := by
  have hnone : parts.filter (!·.text.isEmpty) = [] :=
    List.filter_eq_nil_iff.mpr fun p hp => by simp [h p hp]
  rw [composeItem, hnone]

section

variable {first : Part} {rest : List Part}

theorem lines_said (h : parts.filter (!·.text.isEmpty) = first :: rest) :
    lines (said parts) =
      (if first.nested then [[]] else []) ++ (first :: rest).flatMap fun p => lines p.text := by
  have htexts := lines_unlines_map Part.text (List.cons_ne_nil first rest)
  rw [said, h]
  cases hnested : first.nested with
  | false => simpa [hnested] using htexts
  | true =>
    simp only [List.head?_cons, Option.any_some, hnested, if_true]
    rw [← htexts]
    exact lines_append_feed [] _

/-- The lines of an item without its marker are those of what it says, indented below the first. -/
theorem itemLines_eq (h : parts.filter (!·.text.isEmpty) = first :: rest)
    (hsaid : lines (said parts) = head :: later) :
    firstLines first ++ rest.flatMap (belowLines ·.text) =
      head :: later.map (indentLine itemIndent) := by
  have hbelow : (rest.flatMap fun p => lines p.text).map (indentLine itemIndent) =
      rest.flatMap (belowLines ·.text) := List.map_flatMap
  rw [lines_said h, List.flatMap_cons] at hsaid
  cases hnested : first.nested with
  | true =>
    simp only [hnested, if_true, List.singleton_append, List.cons.injEq] at hsaid
    obtain ⟨rfl, rfl⟩ := hsaid
    rw [List.map_append, hbelow, firstLines, if_pos hnested]
    rfl
  | false =>
    obtain ⟨line, lines', hlines⟩ := List.exists_cons_of_ne_nil (lines_ne_nil first.text)
    simp only [hnested, hlines, List.nil_append, List.cons_append, List.cons.injEq,
      Bool.false_eq_true, if_false] at hsaid
    obtain ⟨rfl, rfl⟩ := hsaid
    rw [List.map_append, hbelow, firstLines, if_neg (by simp [hnested]), hlines]
    rfl

end

/-- An item is its marker before what its parts say, with every line but the first indented. -/
theorem composeItem_eq (hpresent : ∃ p ∈ parts, p.text ≠ [])
    (hsaid : lines (said parts) = head :: later) :
    composeItem marker parts = marker ++ unlines (head :: later.map (indentLine itemIndent)) := by
  have hne : parts.filter (!·.text.isEmpty) ≠ [] := by
    obtain ⟨p, hp, htext⟩ := hpresent
    exact List.ne_nil_of_mem (List.mem_filter.mpr ⟨hp, by simpa using htext⟩)
  obtain ⟨first, rest, h⟩ := List.exists_cons_of_ne_nil hne
  rw [composeItem, h]
  show marker ++ unlines (firstLines first ++ _) = _
  rw [itemLines_eq h hsaid]

theorem said_ne_nil (hpresent : ∃ p ∈ parts, p.text ≠ []) : said parts ≠ [] := by
  obtain ⟨p, hp, htext⟩ := hpresent
  apply List.append_ne_nil_of_right_ne_nil
  apply unlines_ne_nil
  · exact List.ne_nil_of_mem (List.mem_map_of_mem (List.mem_filter.mpr ⟨hp, by simpa using htext⟩))
  · intro t ht
    obtain ⟨q, hq, rfl⟩ := List.mem_map.mp ht
    simpa using (List.mem_filter.mp hq).2

theorem lines_composeItem (hmarker : '\n' ∉ marker) (hpresent : ∃ p ∈ parts, p.text ≠ [])
    (hsaid : lines (said parts) = head :: later) :
    lines (composeItem marker parts) =
      (marker ++ head) :: later.map (indentLine itemIndent) := by
  rw [composeItem_eq hpresent hsaid]
  apply lines_marked hmarker
  rw [← hsaid]
  exact fun line => feed_not_mem_of_mem_lines

theorem readItem?_composeItem (marker : List Char) (hpresent : ∃ p ∈ parts, p.text ≠ []) :
    readItem? marker (composeItem marker parts) = some (said parts) := by
  obtain ⟨head, later, hsaid⟩ := List.exists_cons_of_ne_nil (lines_ne_nil (said parts))
  have hlines : lines ([] ++ unlines (head :: later.map (indentLine itemIndent))) =
      ([] ++ head) :: later.map (indentLine itemIndent) :=
    lines_marked List.not_mem_nil fun line hline => feed_not_mem_of_mem_lines (hsaid ▸ hline)
  have hlater : (later.map (indentLine itemIndent)).mapM outdentLine? = some later := by
    have hline : outdentLine? ∘ indentLine itemIndent = fun line => pure line :=
      funext outdentLine?_indentLine
    rw [List.mapM_map, hline, List.mapM_pure, List.map_id']
    rfl
  have hmarked := List.isPrefixOf?_eq_some_iff_append_eq.mpr
    (rfl : marker ++ unlines (head :: later.map (indentLine itemIndent)) = _)
  rw [composeItem_eq hpresent hsaid, readItem?, hmarked]
  rw [List.nil_append, List.nil_append] at hlines
  simp only [Option.bind_eq_bind, Option.bind_some, hlines, hlater]
  rw [← hsaid, unlines_lines]
  rfl

/-- An item is empty exactly when all its parts are. Otherwise it starts with its marker, every line
after the first is empty or indented, and without marker and indentation it is the texts of its
parts, each below the one before; a list that stands first begins on the line below the marker. -/
theorem composeItem_readBack (hmarker : '\n' ∉ marker) (parts : List Part) :
    (composeItem marker parts = [] ↔ ∀ p ∈ parts, p.text = []) ∧
    ((∃ p ∈ parts, p.text ≠ []) →
      marker <+: composeItem marker parts ∧
      (∀ line ∈ (lines (composeItem marker parts)).tail, line = [] ∨ itemIndent <+: line) ∧
      readItem? marker (composeItem marker parts) = some (said parts)) := by
  refine ⟨⟨?_, composeItem_eq_nil⟩, ?_⟩
  · intro hempty
    by_contra hsome
    have hpresent : ∃ p ∈ parts, p.text ≠ [] := by simpa using hsome
    obtain ⟨head, later, hsaid⟩ := List.exists_cons_of_ne_nil (lines_ne_nil (said parts))
    have hnil : marker = [] := (List.append_eq_nil_iff.mp
      ((composeItem_eq hpresent hsaid).symm.trans hempty)).1
    have hread := readItem?_composeItem marker hpresent
    rw [hempty, hnil] at hread
    exact said_ne_nil hpresent (Option.some.inj hread).symm
  · intro hpresent
    obtain ⟨head, later, hsaid⟩ := List.exists_cons_of_ne_nil (lines_ne_nil (said parts))
    refine ⟨?_, ?_, readItem?_composeItem marker hpresent⟩
    · rw [composeItem_eq hpresent hsaid]
      exact List.prefix_append marker _
    · rw [lines_composeItem hmarker hpresent hsaid, List.tail_cons]
      intro line hline
      obtain ⟨line, -, rfl⟩ := List.mem_map.mp hline
      exact indentLine_cases line

/-- A part without text, then a list that stands first, and a text with an empty line, with blanks
at the start of a line and with a line feed at its end. -/
def listFirst : List Part :=
  [⟨[], false⟩, ⟨"- x\n  - y".toList, true⟩, ⟨"a\n\n  b\n".toList, false⟩]

theorem composeItem_readBack_listFirst :
    '\n' ∉ "- [x] ".toList ∧ (∃ p ∈ listFirst, p.text ≠ []) ∧
    composeItem "- [x] ".toList listFirst =
      "- [x] \n  - x\n    - y\n  a\n\n    b\n".toList ∧
    readItem? "- [x] ".toList (composeItem "- [x] ".toList listFirst) =
      some "\n- x\n  - y\na\n\n  b\n".toList := by
  have hmarker : '\n' ∉ "- [x] ".toList := by decide
  have hpresent : ∃ p ∈ listFirst, p.text ≠ [] := by decide
  exact ⟨hmarker, hpresent, by decide,
    ((composeItem_readBack hmarker listFirst).2 hpresent).2.2.trans (by decide)⟩

end RichDoc.Markdown
