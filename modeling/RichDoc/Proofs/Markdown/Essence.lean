import RichDoc.Proofs.Markdown.Walk

/-! What can be seen of a tree in its text. Two trees with the same essence become the same: marks
that are not recognized, the header flag of a cell, the name of an unknown kind, and all that is
below a leaf have no part in it. -/

namespace RichDoc

open Markdown

def Mark.isOther : Mark → Bool
  | other _ => true
  | _ => false

theorem Style.add_of_isOther {m : Mark} (h : m.isOther) (s : Style) : s.add m = s := by
  cases m <;> first | rfl | cases h

theorem Style.ofMarks_filter (marks : List Mark) :
    ofMarks (marks.filter (!·.isOther)) = ofMarks marks := by
  rw [ofMarks, ofMarks, List.foldl_filter]
  congr 1
  funext s m
  by_cases h : m.isOther
  · simp [h, add_of_isOther h]
  · simp [h]

namespace Kind

/-- A kind without what has no part in a rendering. -/
def essence : Kind → Kind
  | text t marks => text t (marks.filter (!·.isOther))
  | tableCell _ => tableCell false
  | unknown _ => unknown ""
  | kind => kind

variable (kind : Kind)

@[simp] theorem isInline_essence : kind.essence.isInline = kind.isInline := by
  cases kind <;> rfl

@[simp] theorem isList_essence : kind.essence.isList = kind.isList := by
  cases kind <;> rfl

@[simp] theorem isLeaf_essence : kind.essence.isLeaf = kind.isLeaf := by
  cases kind <;> rfl

@[simp] theorem isCell_essence : kind.essence.isCell = kind.isCell := by
  cases kind <;> rfl

@[simp] theorem rawText?_essence : kind.essence.rawText? = kind.rawText? := by
  cases kind <;> rfl

@[simp] theorem essence_eq_tableRow : kind.essence = tableRow ↔ kind = tableRow := by
  cases kind <;> simp [essence]

end Kind

namespace Markdown

def Piece.essence (p : Piece) : Piece := { p with kind := p.kind.essence }

def Child.essence (c : Child) : Child := { c with kind := c.kind.essence }

@[simp] theorem Piece.text_essence (p : Piece) : p.essence.text = p.text := rfl

@[simp] theorem Piece.isInline_essence (p : Piece) : p.essence.isInline = p.isInline :=
  Kind.isInline_essence p.kind

@[simp] theorem Piece.raw?_essence (p : Piece) : p.essence.raw? = p.raw? := by
  rw [raw?, raw?, essence, Kind.rawText?_essence]

theorem joinAfter_essence (before : Option (List Char)) (ps : List Piece) :
    joinAfter before (ps.map Piece.essence) = joinAfter before ps := by
  induction ps generalizing before with
  | nil => rfl
  | cons p ps ih =>
    rw [List.map_cons, joinAfter_cons, joinAfter_cons, ih]
    simp

theorem joinInline_essence (ps : List Piece) :
    joinInline (ps.map Piece.essence) = joinInline ps := by
  rw [joinInline, List.filter_map, joinAfter_essence]
  rfl

theorem texts_essence (ps : List Piece) :
    (ps.map Piece.essence).map Piece.text = ps.map Piece.text := by
  simp

theorem joinBlocks_essence (ps : List Piece) :
    joinBlocks (ps.map Piece.essence) = joinBlocks ps := by
  rw [joinBlocks, joinBlocks, joinInline_essence, texts_essence, List.all_map]
  simp [Function.comp_def]

theorem parts_essence (ps : List Piece) : parts (ps.map Piece.essence) = parts ps := by
  have hinline : Piece.isInline ∘ Piece.essence = Piece.isInline := by
    funext p
    exact p.isInline_essence
  fun_induction parts ps with
  | case1 => rw [List.map_nil, parts_nil]
  | case2 p ps hp ih =>
    have hp' : p.essence.isInline = true := by rw [p.isInline_essence, hp]
    rw [List.map_cons, parts, if_pos hp', List.takeWhile_map, List.dropWhile_map, hinline, ih,
      ← List.map_cons, joinInline_essence]
  | case3 p ps hp ih =>
    have hp' : ¬p.essence.isInline = true := by rwa [p.isInline_essence]
    rw [List.map_cons, parts, if_neg hp', ih, p.text_essence]
    congr 2
    exact p.kind.isList_essence

theorem codeOf_essence (ps : List Piece) : codeOf (ps.map Piece.essence) = codeOf ps := by
  rw [codeOf, codeOf, List.flatMap_map]
  apply List.flatMap_congr
  rintro ⟨kind, text⟩ -
  cases kind <;> rfl

theorem mediaGroup_essence (ps : List Piece) :
    mediaGroup (ps.map Piece.essence) = mediaGroup ps := by
  rw [mediaGroup, mediaGroup, List.filterMap_map]
  congr 1
  apply List.filterMap_congr
  rintro ⟨kind, text⟩ -
  cases kind <;> rfl

theorem pieces_essence (children : List Child) :
    (children.map Child.essence).map Child.piece =
      (children.map Child.piece).map Piece.essence := by
  rw [List.map_map, List.map_map]
  rfl

theorem rowCells_essence (children : List Child) :
    rowCells (children.map Child.essence) = rowCells children := by
  rw [rowCells, rowCells, List.filter_map, List.map_map]
  congr 1
  apply List.filter_congr
  intro c _
  exact c.kind.isCell_essence

theorem tableOf_essence (children : List Child) :
    tableOf (children.map Child.essence) = tableOf children := by
  rw [tableOf, tableOf, List.filter_map, List.map_map]
  congr 2
  apply List.filter_congr
  intro c _
  simp [Child.essence]

/-- No rule looks at more of a node or of its children than their essence. -/
theorem textOf_essence (o : Options) (kind : Kind) (children : List Child) :
    textOf o kind.essence (children.map Child.essence) = textOf o kind children := by
  cases kind with
  | text t marks => simp only [Kind.essence, textOf, marked, Style.ofMarks_filter]
  | _ =>
    simp only [Kind.essence, textOf, pieces_essence, joinInline_essence, joinBlocks_essence,
      texts_essence, parts_essence, codeOf_essence, mediaGroup_essence, rowCells_essence,
      tableOf_essence]

theorem fragmentOf_essence (o : Options) (kind : Kind) (children : List Child) :
    fragmentOf o kind.essence (children.map Child.essence) = fragmentOf o kind children := by
  simp only [fragmentOf, Kind.essence_eq_tableRow, textOf_essence, rowCells_essence]

theorem fragmentOf_leaf {o : Options} {kind : Kind} (h : kind.isLeaf) (children : List Child) :
    fragmentOf o kind children = fragmentOf o kind [] := by
  have hrow : kind ≠ .tableRow := by
    rintro rfl
    cases h
  rw [fragmentOf, fragmentOf, if_neg hrow, if_neg hrow, textOf_leaf h]

end Markdown

namespace Tree

/-- A tree without what has no part in a rendering. -/
def essence : Tree → Tree
  | node kind ts => node kind.essence (if kind.isLeaf then [] else ts.map fun t => t.essence)

theorem essence_node (kind : Kind) (ts : List Tree) :
    (node kind ts).essence = node kind.essence (if kind.isLeaf then [] else ts.map essence) := by
  rw [essence]

theorem kind_essence (t : Tree) : t.essence.kind = t.kind.essence := by
  cases t
  rw [essence_node]
  rfl

theorem fragment_essence (o : Options) (t : Tree) : t.essence.fragment o = t.fragment o := by
  induction t with
  | node kind ts ih =>
    rw [essence_node, fragment_node, fragment_node]
    by_cases hleaf : kind.isLeaf
    · rw [if_pos hleaf, fragmentOf_leaf hleaf]
      exact fragmentOf_essence o kind []
    · have hchildren : (ts.map essence).map (child o) = (ts.map (child o)).map Child.essence := by
        rw [List.map_map, List.map_map]
        apply List.map_congr_left
        intro t ht
        simp only [Function.comp_apply, child, kind_essence, ih t ht]
        rfl
      rw [if_neg hleaf, hchildren, fragmentOf_essence]

/-- Trees with the same essences have the same text. -/
theorem textAll_congr {ts us : List Tree} (h : ts.map essence = us.map essence) (o : Options) :
    textAll o ts = textAll o us := by
  have hessence : ∀ ts : List Tree, ts.map (fragment o) = (ts.map essence).map (fragment o) := by
    intro ts
    rw [List.map_map]
    apply List.map_congr_left
    intro t _
    exact (fragment_essence o t).symm
  rw [textAll, textAll, hessence, hessence us, h]

end Tree

end RichDoc
