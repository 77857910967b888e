import RichDoc.Proofs.Markdown.Walk
import RichDoc.Proofs.Text.Lines

/-! Outlines: bullet and ordered lists, nested to any depth, in which an item is a line of text with
at most one list below it. An outline becomes one line for each item, in pre-order, indented by two
spaces for each level and marked as a bullet or by its number. -/

namespace RichDoc

open Markdown Text

/-- What an item says: a line that is not empty. -/
structure Label where
  text : String
  ne_nil : text.toList ≠ []
  oneLine : '\n' ∉ text.toList
  deriving DecidableEq

mutual

/-- A list, ordered or not, with at least one item. -/
inductive Outline where
  | list (ordered : Bool) (first : Item) (rest : List Item)

/-- An item: a label alone, or a label with a list below it. -/
inductive Item where
  | leaf (label : Label)
  | branch (label : Label) (below : Outline)

end

/-- A line of an outline; the items of an ordered list have a number. -/
structure Row where
  level : Nat
  number : Option Nat
  label : Label
  deriving DecidableEq

namespace Row

def marker : Option Nat → List Char
  | none => ['-', ' ']
  | some n => (toString n).toList ++ ['.', ' ']

def line (r : Row) : List Char :=
  List.replicate (2 * r.level) ' ' ++ (marker r.number ++ r.label.text.toList)

def deeper (r : Row) : Row := { r with level := r.level + 1 }

end Row

def Label.tree (label : Label) : Tree := .node .paragraph [.node (.text label.text []) []]

mutual

/-- The list as a tree of nodes. -/
def Outline.tree : Outline → Tree
  | .list ordered first rest =>
    .node (if ordered then .orderedList else .bulletList) (first.tree :: Item.trees rest)

def Item.tree : Item → Tree
  | .leaf label => .node .listItem [label.tree]
  | .branch label below => .node .listItem [label.tree, below.tree]

def Item.trees : List Item → List Tree
  | [] => []
  | item :: items => item.tree :: Item.trees items

end

mutual

/-- The lines of a list at a level, in pre-order. -/
def Outline.rows (level : Nat) : Outline → List Row
  | .list ordered first rest =>
    first.rows level (if ordered then some 1 else none) ++ Item.rowsFrom level ordered 2 rest

def Item.rows (level : Nat) (number : Option Nat) : Item → List Row
  | .leaf label => [⟨level, number, label⟩]
  | .branch label below => ⟨level, number, label⟩ :: below.rows (level + 1)

/-- The lines of items that are numbered from a position on, or not numbered. -/
def Item.rowsFrom (level : Nat) (ordered : Bool) (position : Nat) : List Item → List Row
  | [] => []
  | item :: items =>
    item.rows level (if ordered then some position else none) ++
      Item.rowsFrom level ordered (position + 1) items

end

/-- The text of an outline: its lines. -/
def Outline.text (outline : Outline) : String :=
  String.ofList (unlines ((outline.rows 0).map Row.line))

/-! ### Lines and levels -/

theorem ne_of_isDigit {c d : Char} (hd : d.isDigit) (hc : c.isDigit = false) : c ≠ d := by
  rintro rfl
  simp [hd] at hc

namespace Row

theorem marker_some (n : Nat) : marker (some n) = numberMarker n := by
  simp [marker, numberMarker, toString, Nat.repr]

theorem line_ne_nil (r : Row) : r.line ≠ [] := by
  simp [line, r.label.ne_nil]

theorem feed_not_mem_marker (number : Option Nat) : '\n' ∉ marker number := by
  cases number with
  | none => decide
  | some n =>
    intro h
    rw [marker_some] at h
    rcases List.mem_append.mp h with h | h
    · have hdigit := Nat.isDigit_of_mem_toDigits (by decide) (by decide) h
      exact ne_of_isDigit hdigit (by decide) rfl
    · exact absurd h (by decide)

theorem feed_not_mem_line (r : Row) : '\n' ∉ r.line := by
  simp [line, feed_not_mem_marker r.number, r.label.oneLine]

theorem line_deeper (r : Row) : r.deeper.line = itemIndent ++ r.line := by
  have : List.replicate (2 * (r.level + 1)) ' ' = itemIndent ++ List.replicate (2 * r.level) ' ' :=
    rfl
  simp only [line, deeper, this, List.append_assoc]

end Row

mutual

theorem Outline.rows_ne_nil (level : Nat) : ∀ outline : Outline, outline.rows level ≠ []
  | .list ordered first rest => by
    rw [Outline.rows]
    exact List.append_ne_nil_of_left_ne_nil (Item.rows_ne_nil level _ first) _

theorem Item.rows_ne_nil (level : Nat) (number : Option Nat) :
    ∀ item : Item, item.rows level number ≠ []
  | .leaf _ | .branch _ _ => List.cons_ne_nil _ _

end

mutual

theorem Outline.rows_succ (level : Nat) :
    ∀ outline : Outline, outline.rows (level + 1) = (outline.rows level).map Row.deeper
  | .list ordered first rest => by
    rw [Outline.rows, Outline.rows, Item.rows_succ, Item.rowsFrom_succ, List.map_append]

theorem Item.rows_succ (level : Nat) (number : Option Nat) :
    ∀ item : Item, item.rows (level + 1) number = (item.rows level number).map Row.deeper
  | .leaf label => rfl
  | .branch label below => by
    rw [Item.rows, Item.rows, List.map_cons, Outline.rows_succ (level + 1) below]
    rfl

theorem Item.rowsFrom_succ (level : Nat) (ordered : Bool) (position : Nat) :
    ∀ items : List Item, Item.rowsFrom (level + 1) ordered position items =
      (Item.rowsFrom level ordered position items).map Row.deeper
  | [] => rfl
  | item :: items => by
    rw [Item.rowsFrom, Item.rowsFrom, Item.rows_succ, Item.rowsFrom_succ, List.map_append]

end

theorem Item.rowsFrom_eq (level : Nat) (ordered : Bool) (position : Nat) (items : List Item) :
    Item.rowsFrom level ordered position items =
      (items.zipIdx position).flatMap fun (item, i) =>
        item.rows level (if ordered then some i else none) := by
  induction items generalizing position with
  | nil => rfl
  | cons item items ih => rw [Item.rowsFrom, ih, List.zipIdx_cons, List.flatMap_cons]

theorem lines_rows {rows : List Row} (h : rows ≠ []) :
    lines (unlines (rows.map Row.line)) = rows.map Row.line :=
  lines_unlines (by simpa using h) (by simpa using fun r _ => r.feed_not_mem_line)

theorem Outline.unlines_rows_ne_nil (outline : Outline) :
    unlines ((outline.rows 0).map Row.line) ≠ [] :=
  unlines_ne_nil (by simpa using outline.rows_ne_nil 0) (by simp [Row.line_ne_nil])

/-! ### What the nodes of an outline become -/

theorem Kind.isInline_of_isList {kind : Kind} (h : kind.isList) : kind.isInline = false := by
  cases kind <;> simp_all [Kind.isList, Kind.isInline]

namespace Markdown

theorem joinInline_singleton {p : Piece} (h : p.text ≠ []) : joinInline [p] = p.text := by
  simp [joinInline, h, joinAfter_cons, seam]

/-- The children of an item that are not inline are a part each. -/
theorem parts_blocks {ps : List Piece} (h : ∀ p ∈ ps, p.isInline = false) :
    parts ps = ps.map fun p => ⟨p.text, p.kind.isList⟩ := by
  induction ps with
  | nil => simp
  | cons p ps ih =>
    have hp : p.isInline = false := h p (by simp)
    rw [parts, hp, ih fun q hq => h q (by simp [hq])]
    rfl

theorem composeItem_line {marker line : List Char} (hne : line ≠ []) (hline : '\n' ∉ line)
    {below : List Part} (hbelow : ∀ p ∈ below, p.text ≠ []) :
    composeItem marker (⟨line, false⟩ :: below) =
      marker ++ unlines (line :: below.flatMap (belowLines ·.text)) := by
  have hpresent : (⟨line, false⟩ :: below : List Part).filter (!·.text.isEmpty) =
      ⟨line, false⟩ :: below := List.filter_eq_self.mpr (by simpa [hne] using hbelow)
  simp [composeItem, hpresent, firstLines, lines_of_not_mem hline]

/-- The lines of a list below an item are those of the list one level down. -/
theorem belowLines_unlines {rows : List Row} (h : rows ≠ []) :
    belowLines (unlines (rows.map Row.line)) = (rows.map Row.deeper).map Row.line := by
  rw [belowLines, lines_rows h, List.map_map, List.map_map]
  refine List.map_congr_left fun r _ => ?_
  simp [indentLine, r.line_ne_nil, r.line_deeper]

end Markdown

variable {o : Options}

theorem Label.text_tree (label : Label) : label.tree.text o = label.text.toList := by
  have htext : (Tree.node (.text label.text []) []).text o = label.text.toList := by
    rw [Tree.text_node, textOf, marked_nil]
  have hne : (Tree.node (.text label.text []) []).text o ≠ [] := by
    rw [htext]
    exact label.ne_nil
  rw [Label.tree, Tree.text_node]
  exact (joinInline_singleton (p := ⟨.text label.text [], _⟩) hne).trans htext

/-- The lines of an item without its marker. -/
def Item.body : Item → List (List Char)
  | .leaf label => [label.text.toList]
  | .branch label below => label.text.toList :: (below.rows 1).map Row.line

theorem Item.unlines_rows (number : Option Nat) (item : Item) :
    unlines ((item.rows 0 number).map Row.line) = Row.marker number ++ unlines item.body := by
  cases item with
  | leaf label => exact unlines_marked (Row.marker number) label.text.toList []
  | branch label below =>
    exact unlines_marked (Row.marker number) label.text.toList ((below.rows 1).map Row.line)

theorem Label.text_item (label : Label) {below : List Tree}
    (h : ∀ t ∈ below, t.kind.isList ∧ t.text o ≠ []) :
    (Tree.node .listItem (label.tree :: below)).text o =
      bullet ++ unlines (label.text.toList :: below.flatMap fun t => belowLines (t.text o)) := by
  let piece (t : Tree) : Piece := ⟨t.kind, t.text o⟩
  have hblocks : ∀ p ∈ (label.tree :: below).map piece, p.isInline = false := by
    intro p hp
    obtain ⟨t, ht, rfl⟩ := List.mem_map.mp hp
    rcases List.mem_cons.mp ht with rfl | ht
    · rfl
    · exact Kind.isInline_of_isList (h t ht).1
  have hbelow : ∀ p ∈ below.map fun t => (⟨t.text o, t.kind.isList⟩ : Part), p.text ≠ [] := by
    intro p hp
    obtain ⟨t, ht, rfl⟩ := List.mem_map.mp hp
    exact (h t ht).2
  have hparts : parts ((label.tree :: below).map piece) =
      ⟨label.text.toList, false⟩ :: below.map fun t => ⟨t.text o, t.kind.isList⟩ := by
    rw [parts_blocks hblocks, List.map_cons, List.map_cons, List.map_map, ← label.text_tree]
    rfl
  rw [Tree.text_node, textOf, List.map_map]
  show composeItem bullet (parts ((label.tree :: below).map piece)) = _
  rw [hparts, composeItem_line label.ne_nil label.oneLine hbelow, List.flatMap_map]

theorem Outline.isList_kind (outline : Outline) : outline.tree.kind.isList := by
  obtain ⟨ordered, first, rest⟩ := outline
  cases ordered <;> rfl

theorem Tree.text_bulletList (ts : List Tree) :
    (node .bulletList ts).text o = joinItems (ts.map (text o)) := by
  rw [text_node, textOf, List.map_map, List.map_map]
  rfl

theorem Tree.text_orderedList (ts : List Tree) :
    (node .orderedList ts).text o = unlines (numberItems (ts.map (text o))) := by
  rw [text_node, textOf, List.map_map, List.map_map]
  rfl

theorem present_bodies (items : List Item) :
    (items.map fun item => bullet ++ unlines item.body).filter (!·.isEmpty) =
      items.map fun item => bullet ++ unlines item.body :=
  List.filter_eq_self.mpr (by simp [bullet])

theorem unlines_rowsFrom (ordered : Bool) (position : Nat) (items : List Item) :
    unlines ((Item.rowsFrom 0 ordered position items).map Row.line) =
      unlines ((items.zipIdx position).map fun (item, i) =>
        Row.marker (if ordered then some i else none) ++ unlines item.body) := by
  have hblock : ∀ x : Item × Nat,
      (x.1.rows 0 (if ordered then some x.2 else none)).map Row.line ≠ [] := fun x => by
    simpa using Item.rows_ne_nil 0 _ x.1
  rw [Item.rowsFrom_eq, List.map_flatMap, ← unlines_flatMap hblock]
  simp only [Item.unlines_rows]

theorem joinItems_bodies (items : List Item) :
    joinItems (items.map fun item => bullet ++ unlines item.body) =
      unlines ((Item.rowsFrom 0 false 1 items).map Row.line) := by
  have hbody : (items.zipIdx 1).map (fun x => bullet ++ unlines x.1.body) =
      items.map fun item => bullet ++ unlines item.body := by
    conv_rhs => rw [← List.zipIdx_map_fst 1 items, List.map_map]
    rfl
  rw [unlines_rowsFrom, joinItems, joinPresent, present_bodies, ← hbody]
  rfl

theorem numberItems_bodies (items : List Item) :
    unlines (numberItems (items.map fun item => bullet ++ unlines item.body)) =
      unlines ((Item.rowsFrom 0 true 1 items).map Row.line) := by
  rw [unlines_rowsFrom, numberItems, present_bodies, List.zipIdx_map, List.zipIdx_succ,
    List.map_map, List.map_map]
  simp [Row.marker_some, Function.comp_def]

mutual

-- A list is always composed at level 0, and what is below an item is indented afterwards, so the
-- induction is on the lines at level 0; `Outline.rows_succ` takes them one level down.

/-- A list becomes its lines. -/
theorem Outline.text_tree :
    ∀ outline : Outline, outline.tree.text o = unlines ((outline.rows 0).map Row.line)
  | .list ordered first rest => by
    have hitems : (first.tree :: Item.trees rest).map (Tree.text o) =
        (first :: rest).map fun item => bullet ++ unlines item.body := by
      rw [List.map_cons, List.map_cons, first.text_tree, Item.text_trees rest]
    cases ordered with
    | false =>
      show (Tree.node .bulletList (first.tree :: Item.trees rest)).text o = _
      rw [Tree.text_bulletList, hitems]
      exact joinItems_bodies (first :: rest)
    | true =>
      show (Tree.node .orderedList (first.tree :: Item.trees rest)).text o = _
      rw [Tree.text_orderedList, hitems]
      exact numberItems_bodies (first :: rest)

theorem Item.text_tree : ∀ item : Item, item.tree.text o = bullet ++ unlines item.body
  | .leaf label => label.text_item (by simp)
  | .branch label below => by
    have hbelow := Outline.text_tree below
    have hne : below.tree.text o ≠ [] := by
      rw [hbelow]
      exact below.unlines_rows_ne_nil
    rw [Item.tree, label.text_item (by simp [below.isList_kind, hne]), List.flatMap_singleton,
      hbelow, belowLines_unlines (below.rows_ne_nil 0), ← below.rows_succ]
    rfl

theorem Item.text_trees : ∀ items : List Item,
    (Item.trees items).map (Tree.text o) = items.map fun item => bullet ++ unlines item.body
  | [] => rfl
  | item :: items => by
    rw [Item.trees, List.map_cons, List.map_cons, item.text_tree, Item.text_trees items]

end

end RichDoc
