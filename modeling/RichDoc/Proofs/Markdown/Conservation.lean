import RichDoc.Proofs.Markdown.Letters
import RichDoc.Proofs.Markdown.Walk

/-! Conservation of content. Some nodes contribute text of their own, and the others only show what
their children became. The letters of a rendered document are those that the reached nodes
contribute, in pre-order. -/

namespace RichDoc

open Markdown

/-- Whether a node shows a child. Leaves, code blocks and media groups show none, a table shows its
rows, and a row its cells. -/
def Kind.shows (kind child : Kind) : Bool :=
  match kind with
  | .codeBlock _ | .mediaGroup => false
  | .table => child = .tableRow
  | .tableRow => child.isCell
  | kind => !kind.isLeaf

/-- Whether a node adds no letters to what its children became: it is neither a panel with a label
nor a task that is done. -/
def Kind.isPlain : Kind → Bool
  | .panel panelType => (panelType.bind panelLabel).isNone
  | .taskItem done => !done
  | _ => true

namespace Markdown

/-- What a node contributes itself, given its children: the title of an expand, and all of its text
when it shows no children. -/
def ownOf (o : Options) (kind : Kind) (children : List Child) : List Char :=
  match kind with
  | .expand title => (title.getD "").toList
  | .codeBlock _ | .mediaGroup => textOf o kind children
  | kind => if kind.isLeaf then textOf o kind children else []

variable {C : Char → Bool}

/-- The letters of a node: its own, and then those of the children that it shows. -/
theorem Letters.filter_textOf (hC : Letters C) (o : Options) {kind : Kind} (hkind : kind.isPlain)
    {children : List Child}
    (hrows : ∀ c ∈ children, c.kind = .tableRow →
      c.fragment.cells.flatMap (·.filter C) = c.fragment.asText.filter C) :
    (textOf o kind children).filter C =
      (ownOf o kind children).filter C ++
        (children.filter (kind.shows ·.kind)).flatMap (·.fragment.asText.filter C) := by
  have hpieces : (children.map Child.piece).flatMap (·.text.filter C) =
      children.flatMap (·.fragment.asText.filter C) := by
    simp [List.flatMap_map, Child.piece]
  have htexts : ((children.map Child.piece).map Piece.text).flatMap (·.filter C) =
      children.flatMap (·.fragment.asText.filter C) := by
    simp [List.flatMap_map, Child.piece]
  have hblocks := (hC.filter_joinBlocks (children.map Child.piece)).trans hpieces
  have hinline := (hC.filter_joinInline (children.map Child.piece)).trans hpieces
  have hitem : ∀ {marker : List Char}, marker.all isMarkup = true →
      (composeItem marker (parts (children.map Child.piece))).filter C =
        children.flatMap (·.fragment.asText.filter C) := fun hmarker => by
    rw [hC.filter_composeItem (hC.filter_eq_nil hmarker), hC.flatMap_parts, hpieces]
  -- A kind that shows no child contributes its whole text; the others have a rule each.
  match kind, hkind with
  | .codeBlock _, _ | .mediaGroup, _ | .rule, _ | .hardBreak, _ | .media _, _ | .text _ _, _
  | .mention _ _, _ | .inlineCard _, _ | .blockCard _, _ | .emoji _ _ _, _ | .date _, _
  | .status _, _ => simp [ownOf, Kind.shows, Kind.isLeaf]
  | .paragraph, _ => simpa [ownOf, Kind.shows, Kind.isLeaf, textOf] using hinline
  | .heading level, _ =>
    simpa [ownOf, Kind.shows, Kind.isLeaf, textOf, hC.filter_heading] using hinline
  | .bulletList, _ | .taskList, _ | .decisionList, _ =>
    simpa [ownOf, Kind.shows, Kind.isLeaf, textOf, hC.filter_joinItems] using htexts
  | .orderedList, _ =>
    simpa [ownOf, Kind.shows, Kind.isLeaf, textOf, hC.filter_unlines, hC.flatMap_numberItems]
      using htexts
  | .listItem, _ =>
    simpa [ownOf, Kind.shows, Kind.isLeaf, textOf] using hitem (by decide)
  | .taskItem false, _ =>
    simpa [ownOf, Kind.shows, Kind.isLeaf, textOf] using hitem (by decide)
  | .decisionItem, _ =>
    simpa [ownOf, Kind.shows, Kind.isLeaf, textOf] using hitem (by decide)
  | .blockquote, _ =>
    simpa [ownOf, Kind.shows, Kind.isLeaf, textOf, hC.filter_quote] using hblocks
  | .panel panelType, h =>
    have hnone : panelType.bind panelLabel = none := by simpa [Kind.isPlain] using h
    simpa [ownOf, Kind.shows, Kind.isLeaf, textOf, panel, hnone, hC.filter_quote] using hblocks
  | .expand title, _ =>
    simpa [ownOf, Kind.shows, Kind.isLeaf, textOf, hC.filter_expand] using hblocks
  | .tableCell _, _ | .unknown _, _ =>
    simpa [ownOf, Kind.shows, Kind.isLeaf, textOf] using hblocks
  | .tableRow, _ =>
    simp [ownOf, Kind.shows, Kind.isLeaf, textOf, hC.filter_rowLine, rowCells, List.flatMap_map]
  | .table, _ =>
    have hcells : (children.filter (·.kind = .tableRow)).flatMap
        (fun c => c.fragment.cells.flatMap (·.filter C)) =
          (children.filter (·.kind = .tableRow)).flatMap (·.fragment.asText.filter C) :=
      List.flatMap_congr fun c hc => by
        obtain ⟨hmem, hrow⟩ := List.mem_filter.mp hc
        exact hrows c hmem (by simpa using hrow)
    simp only [textOf, tableOf, hC.filter_render_ofRows, List.flatMap_map]
    exact hcells

end Markdown

namespace Tree

/-- The nodes of a tree that are reached from its top, in pre-order, each with what is below it. -/
def reached : Tree → List Tree
  | node kind ts =>
    node kind ts :: ts.flatMap fun t => if kind.shows t.kind then t.reached else []

def own (o : Options) : Tree → List Char
  | node kind ts => ownOf o kind (ts.map (child o))

theorem reached_node (kind : Kind) (ts : List Tree) :
    (node kind ts).reached = node kind ts :: (ts.filter (kind.shows ·.kind)).flatMap reached := by
  rw [reached]
  congr 1
  induction ts with
  | nil => rfl
  | cons t ts ih => by_cases h : kind.shows t.kind <;> simp [h, ih]

variable {C : Char → Bool}

/-- The letters of a row are those of its cells, whether or not it stands in a table. -/
theorem filter_cells (hC : Letters C) (o : Options) {t : Tree} (h : t.kind = .tableRow) :
    (t.fragment o).cells.flatMap (·.filter C) = (t.fragment o).asText.filter C := by
  obtain ⟨kind, ts⟩ := t
  obtain rfl : kind = .tableRow := h
  rw [fragment_node, fragmentOf, if_pos rfl]
  exact (hC.filter_rowLine _).symm

theorem filter_text (hC : Letters C) (o : Options) {t : Tree}
    (hplain : ∀ kind ∈ t.kinds, kind.isPlain) :
    (t.text o).filter C = (t.reached.flatMap (own o)).filter C := by
  induction t with
  | node kind ts ih =>
    rw [kinds] at hplain
    have hbelow : ∀ t ∈ ts.filter (kind.shows ·.kind),
        (t.text o).filter C = (t.reached.flatMap (own o)).filter C := fun t ht => by
      have hmem := (List.mem_filter.mp ht).1
      exact ih t hmem fun k hk => hplain k (by simpa using .inr ⟨t, hmem, hk⟩)
    -- A table reads its rows cell by cell, before anything joins the cells.
    have hrows : ∀ c ∈ ts.map (child o), c.kind = .tableRow →
        c.fragment.cells.flatMap (·.filter C) = c.fragment.asText.filter C := fun c hc hrow => by
      obtain ⟨t, -, rfl⟩ := List.mem_map.mp hc
      exact filter_cells hC o hrow
    rw [text_node, hC.filter_textOf o (hplain kind (by simp)) hrows, reached_node,
      List.flatMap_cons, List.filter_append, List.flatMap_assoc, List.filter_flatMap]
    congr 1
    rw [List.filter_map, List.flatMap_map]
    exact List.flatMap_congr hbelow

end Tree

namespace Document

/-- The reached nodes of a document, in pre-order, each with what is below it. -/
def reached (d : Document) : List Tree := d.trees.flatMap Tree.reached

/-- When no node adds letters of its own, the letters of the document's Markdown are those that its
reached nodes contribute, in pre-order. -/
theorem toMarkdown_letters {d : Document} (h : d.Obtained)
    (hplain : ∀ n ∈ d.nodes, n.kind.isPlain) {C : Char → Bool} (hC : Letters C) (o : Options) :
    ∃ s, d.toMarkdown o = .ok s ∧
      s.toList.filter C = d.reached.flatMap fun t => (t.own o).filter C := by
  have hd := h.built.wellFormed
  refine ⟨_, toMarkdown_eq o hd, ?_⟩
  have hroot : ∀ r ∈ d.roots.toList, ((d.treeAt r).text o).filter C =
      ((d.treeAt r).reached.flatMap (Tree.own o)).filter C := fun r hr =>
    Tree.filter_text hC o fun kind hkind => by
      obtain ⟨n, hn, rfl⟩ := mem_kinds_treeAt (hd.root_lt_size (Array.mem_def.mpr hr)) hkind
      exact hplain n hn
  rw [String.toList_ofList, Tree.textAll, joinRoots,
    Letters.filter_joinPresent (hC.filter_eq_nil (by decide)), reached, trees]
  simp only [List.flatMap_map, List.flatMap_assoc, List.filter_flatMap] at hroot ⊢
  exact List.flatMap_congr hroot

/-- A list in an expand, and a table that has a text beside its row. -/
def listAndTable : Document :=
  pushAll {} [(none, .expand (some "Title")), (some 0, .bulletList), (some 1, .listItem),
    (some 2, .text "one" []), (none, .table), (some 4, .tableRow), (some 5, .tableCell false),
    (some 6, .text "two" []), (some 4, .text "lost" [])]

theorem toMarkdown_letters_listAndTable :
    listAndTable.Obtained ∧ (∀ n ∈ listAndTable.nodes, n.kind.isPlain) ∧ Letters Char.isAlpha ∧
      listAndTable.toMarkdown {} = .ok "**Title**\n\n- one\n\ntwo\n---" ∧
      (listAndTable.reached.flatMap fun t => (t.own {}).filter Char.isAlpha) =
        "Titleonetwo".toList := by
  have hd : listAndTable.Obtained := .inl ⟨none, _, rfl⟩
  have hplain : ∀ n ∈ listAndTable.nodes, n.kind.isPlain := by decide
  have htext : listAndTable.toMarkdown {} = .ok "**Title**\n\n- one\n\ntwo\n---" := by
    decide +kernel
  obtain ⟨s, hs, h⟩ := toMarkdown_letters hd hplain letters_isAlpha {}
  rw [htext] at hs
  injection hs with hs
  subst hs
  exact ⟨hd, hplain, letters_isAlpha, htext, h.symm.trans (by decide)⟩

end Document

end RichDoc
