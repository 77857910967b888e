import RichDoc.Proofs.Markdown.Outline
import RichDoc.Proofs.Document.Layout

/-! Reading an outline back from its text. A line tells its level, its number and its label, and an
item has below it the deeper lines that follow its own. -/

namespace RichDoc

open Markdown Text

def Label.ofChars? (t : List Char) : Option Label :=
  if h : t ≠ [] ∧ '\n' ∉ t then
    some ⟨String.ofList t, by simpa using h.1, by simpa using h.2⟩
  else none

/-- The line that a text is when it starts with its marker. -/
def Row.ofMarked? (level : Nat) (t : List Char) : Option Row :=
  match bullet.isPrefixOf? t with
  | some label => (Label.ofChars? label).map (⟨level, none, ·⟩)
  | none => do
    let number := Nat.ofDigitChars 10 (t.takeWhile Char.isDigit) 0
    let label ← ['.', ' '].isPrefixOf? (t.dropWhile Char.isDigit)
    (Label.ofChars? label).map (⟨level, some number, ·⟩)

/-- The line that a text is. The indentation ends where the marker starts, so a label may start with
blanks, digits or a bullet itself. -/
def Row.ofLine? (line : List Char) : Option Row :=
  Row.ofMarked? ((line.takeWhile (· = ' ')).length / 2) (line.dropWhile (· = ' '))

/-- The list of some items, if there are any. It is ordered when its first line has a number. -/
def Outline.ofItems? (rows : List Row) : List Item → Option Outline
  | [] => none
  | first :: rest => some (.list (rows.head?.any (·.number.isSome)) first rest)

/-- The item with a label, and with a list below it if there is one. -/
def Item.ofLabel (label : Label) : Option Outline → Item
  | none => .leaf label
  | some below => .branch label below

/-- The items that some lines are. -/
def Item.ofRows : List Row → List Item
  | [] => []
  | r :: rows =>
    let below := rows.takeWhile (r.level < ·.level)
    let after := rows.dropWhile (r.level < ·.level)
    .ofLabel r.label (Outline.ofItems? below (Item.ofRows below)) :: Item.ofRows after
termination_by rows => rows.length
decreasing_by
  · have := (List.takeWhile_sublist (l := rows) (r.level < ·.level)).length_le
    simp only [List.length_cons]; omega
  · have := (List.dropWhile_sublist (l := rows) (r.level < ·.level)).length_le
    simp only [List.length_cons]; omega

/-- The outline that a text is. -/
def Outline.ofText? (text : String) : Option Outline := do
  let rows ← (lines text.toList).mapM Row.ofLine?
  Outline.ofItems? rows (Item.ofRows rows)

/-! ### Lines -/

section Stop

variable {α : Type} {p : α → Bool} {xs ys : List α}

theorem takeWhile_append_stop (hxs : ∀ x ∈ xs, p x) (hys : ∀ y ∈ ys.head?, p y = false) :
    (xs ++ ys).takeWhile p = xs := by
  rw [List.takeWhile_append_of_pos hxs]
  cases ys with
  | nil => simp
  | cons y ys => simp [hys y rfl]

theorem dropWhile_append_stop (hxs : ∀ x ∈ xs, p x) (hys : ∀ y ∈ ys.head?, p y = false) :
    (xs ++ ys).dropWhile p = ys := by
  rw [List.dropWhile_append_of_pos hxs]
  cases ys with
  | nil => rfl
  | cons y ys => simp [hys y rfl]

end Stop

theorem Label.ofChars?_toList (label : Label) : Label.ofChars? label.text.toList = some label := by
  simp [ofChars?, label.ne_nil, label.oneLine]

namespace Row

/-- A number starts with a digit. -/
theorem exists_toDigits (n : Nat) : ∃ d ds, Nat.toDigits 10 n = d :: ds ∧ d.isDigit := by
  obtain ⟨d, ds, h⟩ := List.exists_cons_of_ne_nil (Nat.toDigits_ne_nil (n := n) (b := 10))
  exact ⟨d, ds, h, Nat.isDigit_of_mem_toDigits (by decide) (by decide) (h ▸ List.mem_cons_self)⟩

theorem ofMarked?_bullet (level : Nat) (label : Label) :
    ofMarked? level (bullet ++ label.text.toList) = some ⟨level, none, label⟩ := by
  have hmarker : bullet.isPrefixOf? (bullet ++ label.text.toList) = some label.text.toList := rfl
  simp only [ofMarked?, hmarker, label.ofChars?_toList, Option.map_some]

theorem ofMarked?_number (level n : Nat) (label : Label) :
    ofMarked? level (numberMarker n ++ label.text.toList) = some ⟨level, some n, label⟩ := by
  have hdigits : ∀ c ∈ Nat.toDigits 10 n, c.isDigit := fun c hc =>
    Nat.isDigit_of_mem_toDigits (by decide) (by decide) hc
  have hdot : ∀ c ∈ (['.', ' '] ++ label.text.toList).head?, c.isDigit = false := by
    simp
  have hmarker : bullet.isPrefixOf? (numberMarker n ++ label.text.toList) = none := by
    obtain ⟨d, ds, h, hd⟩ := exists_toDigits n
    have hne : '-' ≠ d := ne_of_isDigit hd (by decide)
    simp [numberMarker, h, bullet, List.isPrefixOf?, hne]
  have hlabel : ['.', ' '].isPrefixOf? (['.', ' '] ++ label.text.toList) = some label.text.toList :=
    rfl
  rw [ofMarked?, hmarker, numberMarker, List.append_assoc]
  simp only [takeWhile_append_stop hdigits hdot, dropWhile_append_stop hdigits hdot, hlabel]
  rw [Option.bind_eq_bind, Option.bind_some, label.ofChars?_toList,
    Nat.ofDigitChars_toDigits (by decide) (by decide)]
  rfl

theorem ofLine?_line (r : Row) : ofLine? r.line = some r := by
  obtain ⟨level, number, label⟩ := r
  have hindent : ∀ c ∈ List.replicate (2 * level) ' ', decide (c = ' ') := by simp
  have hmarked : ∀ c ∈ (marker number ++ label.text.toList).head?, decide (c = ' ') = false := by
    cases number with
    | none => simp [marker]
    | some n =>
      obtain ⟨d, ds, h, hd⟩ := exists_toDigits n
      have hne : ' ' ≠ d := ne_of_isDigit hd (by decide)
      simp [marker_some, numberMarker, h, hne.symm]
  rw [ofLine?, line, takeWhile_append_stop hindent hmarked, dropWhile_append_stop hindent hmarked,
    List.length_replicate, Nat.mul_div_cancel_left level (by decide)]
  cases number with
  | none => exact ofMarked?_bullet level label
  | some n =>
    rw [marker_some]
    exact ofMarked?_number level n label

end Row

/-! ### Items -/

theorem Item.ofRows_nil : Item.ofRows [] = [] := by rw [Item.ofRows]

theorem Item.ofRows_cons {r : Row} {below after : List Row}
    (hbelow : ∀ b ∈ below, r.level < b.level) (hafter : ∀ a ∈ after.head?, a.level ≤ r.level) :
    Item.ofRows (r :: (below ++ after)) =
      .ofLabel r.label (Outline.ofItems? below (Item.ofRows below)) :: Item.ofRows after := by
  have hbelow' : ∀ b ∈ below, decide (r.level < b.level) := by simpa using hbelow
  have hafter' : ∀ a ∈ after.head?, decide (r.level < a.level) = false := by simpa using hafter
  rw [Item.ofRows, takeWhile_append_stop hbelow' hafter', dropWhile_append_stop hbelow' hafter']

theorem Outline.le_level (level : Nat) (outline : Outline) :
    ∀ r ∈ outline.rows level, level ≤ r.level := by
  induction level with
  | zero => exact fun _ _ => Nat.zero_le _
  | succ level ih =>
    rw [outline.rows_succ]
    intro r hr
    obtain ⟨s, hs, rfl⟩ := List.mem_map.mp hr
    exact Nat.succ_le_succ (ih s hs)

theorem Item.head?_rows (level : Nat) (number : Option Nat) (item : Item) :
    ∃ label, (item.rows level number).head? = some ⟨level, number, label⟩ := by
  cases item with
  | leaf label | branch label _ => exact ⟨label, rfl⟩

theorem Item.level_head?_rowsFrom (level : Nat) (ordered : Bool) (position : Nat)
    (items : List Item) :
    ∀ r ∈ (Item.rowsFrom level ordered position items).head?, r.level ≤ level := by
  intro r hr
  cases items with
  | nil => simp [Item.rowsFrom] at hr
  | cons item items =>
    obtain ⟨label, h⟩ := Item.head?_rows level (if ordered then some position else none) item
    rw [Item.rowsFrom, List.head?_append, h] at hr
    obtain rfl := Option.some.inj hr
    exact Nat.le_refl level

mutual

-- The lines below an item are all deeper than its own, and the line after them is not, so a reader
-- that cuts by the level finds the same items again.

theorem Outline.ofItems?_rows (level : Nat) : ∀ outline : Outline,
    Outline.ofItems? (outline.rows level) (Item.ofRows (outline.rows level)) = some outline
  | .list ordered first rest => by
    let number : Option Nat := if ordered then some 1 else none
    have hitems : Item.ofRows ((Outline.list ordered first rest).rows level) = first :: rest := by
      rw [Outline.rows, Item.ofRows_rows level _ first (Item.level_head?_rowsFrom level _ _ rest),
        Item.ofRows_rowsFrom level _ _ rest]
    have hhead : ((Outline.list ordered first rest).rows level).head?.any (·.number.isSome) =
        ordered := by
      obtain ⟨label, h⟩ := Item.head?_rows level number first
      rw [Outline.rows, List.head?_append, h]
      cases ordered <;> rfl
    rw [hitems, Outline.ofItems?, hhead]

theorem Item.ofRows_rows (level : Nat) (number : Option Nat) : ∀ (item : Item) {after : List Row},
    (∀ r ∈ after.head?, r.level ≤ level) →
      Item.ofRows (item.rows level number ++ after) = item :: Item.ofRows after
  | .leaf label, after, h => by
    have := Item.ofRows_cons (r := ⟨level, number, label⟩) (List.forall_mem_nil _) h
    rw [Item.ofRows_nil] at this
    exact this
  | .branch label below, after, h => by
    have hbelow := Outline.ofItems?_rows (level + 1) below
    have := Item.ofRows_cons (r := ⟨level, number, label⟩) (below.le_level (level + 1)) h
    rw [hbelow] at this
    exact this

theorem Item.ofRows_rowsFrom (level : Nat) (ordered : Bool) (position : Nat) :
    ∀ items : List Item, Item.ofRows (Item.rowsFrom level ordered position items) = items
  | [] => Item.ofRows_nil
  | item :: items => by
    rw [Item.rowsFrom, Item.ofRows_rows level _ item (Item.level_head?_rowsFrom level _ _ items),
      Item.ofRows_rowsFrom level ordered (position + 1) items]

end

/-! ### Texts -/

theorem Outline.lines_text (outline : Outline) :
    lines outline.text.toList = (outline.rows 0).map Row.line := by
  rw [Outline.text, String.toList_ofList, lines_rows (outline.rows_ne_nil 0)]

theorem Outline.ofText?_text (outline : Outline) : Outline.ofText? outline.text = some outline := by
  have hread : Row.ofLine? ∘ Row.line = fun r => pure r := funext Row.ofLine?_line
  have hrows : (lines outline.text.toList).mapM Row.ofLine? = some (outline.rows 0) := by
    rw [outline.lines_text, List.mapM_map, hread, List.mapM_pure, List.map_id']
    rfl
  rw [Outline.ofText?, hrows]
  exact outline.ofItems?_rows 0

theorem Outline.toMarkdown_eq {d : Document} (hd : d.WellFormed) {outline : Outline}
    (h : d.trees = [outline.tree]) (o : Options) : d.toMarkdown o = .ok outline.text := by
  have hne : outline.tree.text o ≠ [] := by
    rw [outline.text_tree]
    exact outline.unlines_rows_ne_nil
  have hroot : Tree.textAll o [outline.tree] = outline.tree.text o := by
    show joinPresent blankLine [outline.tree.text o] = _
    simp [joinPresent, hne]
  rw [Markdown.toMarkdown_eq o hd, h, hroot, outline.text_tree]
  rfl

namespace Document

/-- A document that is an outline, in whatever order its nodes were added, becomes the text of the
outline, with one line for each item. There is such a document for every outline, and the outline
can be read back from its text. -/
theorem toMarkdown_outline (outline : Outline) :
    (∃ steps, (pushAll {} steps).trees = [outline.tree]) ∧
    (∀ d : Document, d.Obtained → d.trees = [outline.tree] →
      ∀ o, d.toMarkdown o = .ok outline.text) ∧
    lines outline.text.toList = (outline.rows 0).map Row.line ∧
    Outline.ofText? outline.text = some outline ∧
    ∀ other : Outline, other ≠ outline → other.text ≠ outline.text := by
  refine ⟨⟨_, trees_pushAll_stepsAll none [outline.tree]⟩, fun d hd h o => ?_, outline.lines_text,
    outline.ofText?_text, fun other hne htext => hne ?_⟩
  · exact Outline.toMarkdown_eq hd.built.wellFormed h o
  · have hother := other.ofText?_text
    rw [htext, outline.ofText?_text] at hother
    exact (Option.some.inj hother).symm

/-- A numbered list whose first item has bullets below it. The labels of the bullets start with
markers and blanks of their own. -/
def numberedWithBullets : Outline :=
  .list true
    (.branch ⟨"one", by decide, by decide⟩
      (.list false (.leaf ⟨"- x", by decide, by decide⟩) [.leaf ⟨"  2. y", by decide, by decide⟩]))
    [.leaf ⟨"two", by decide, by decide⟩]

theorem toMarkdown_outline_numberedWithBullets :
    numberedWithBullets.text = "1. one\n  - - x\n  -   2. y\n2. two" ∧
    (pushAll {} (Tree.stepsAll none 0 [numberedWithBullets.tree])).toMarkdown {} =
      .ok numberedWithBullets.text := by
  have hd : (pushAll {} (Tree.stepsAll none 0 [numberedWithBullets.tree])).Obtained :=
    .inl ⟨none, _, rfl⟩
  refine ⟨by decide, ?_⟩
  exact (toMarkdown_outline numberedWithBullets).2.1 _ hd (trees_pushAll_stepsAll none _) {}

end Document

end RichDoc
