import RichDoc.Kind
import RichDoc.Markdown.Item

/-! Pieces: the children of a node with the text that each of them became. Inline pieces run on,
blocks stand a blank line apart, and the children of a list item are grouped into its parts. -/

namespace RichDoc.Markdown

open Text

/-- A child and the text that it became. -/
structure Piece where
  kind : Kind
  text : List Char
  deriving DecidableEq

namespace Piece

/-- The literal text of a run of text, before it was decorated. -/
def raw? (p : Piece) : Option (List Char) := p.kind.rawText?.map String.toList

/-- Whether the piece is inline. -/
def isInline (p : Piece) : Bool := p.kind.isInline

end Piece

/-- Two runs of text in a row are set apart by a space, unless one of them has a blank where they
meet. -/
def seam (before after : Option (List Char)) : List Char :=
  match before, after with
  | some a, some b => if a.getLast?.any isBlank || b.head?.any isBlank then [] else [' ']
  | _, _ => []

/-- Inline pieces in a row, after a piece with the given literal text. -/
def joinAfter (before : Option (List Char)) (ps : List Piece) : List Char :=
  ((before :: ps.map Piece.raw?).zip ps).flatMap fun (b, p) => seam b p.raw? ++ p.text

/-- Inline pieces in a row; those without text are passed over. -/
def joinInline (ps : List Piece) : List Char := joinAfter none (ps.filter (!·.text.isEmpty))

/-- Blocks stand a blank line apart; where all pieces are inline, they run on. -/
def joinBlocks (ps : List Piece) : List Char :=
  if ps.all Piece.isInline then joinInline ps else joinPresent blankLine (ps.map Piece.text)

/-- The parts of a list item: each run of inline pieces is one part, and so is each other piece. -/
def parts : List Piece → List Part
  | [] => []
  | p :: ps =>
    if p.isInline then
      ⟨joinInline (p :: ps.takeWhile Piece.isInline), false⟩ :: parts (ps.dropWhile Piece.isInline)
    else ⟨p.text, p.kind.isList⟩ :: parts ps
termination_by ps => ps.length
decreasing_by
  · have := (List.dropWhile_sublist (l := ps) Piece.isInline).length_le
    simp only [List.length_cons]; omega
  · simp

@[simp] theorem joinAfter_nil (before : Option (List Char)) : joinAfter before [] = [] := rfl

theorem joinAfter_cons (before : Option (List Char)) (p : Piece) (ps : List Piece) :
    joinAfter before (p :: ps) = seam before p.raw? ++ p.text ++ joinAfter p.raw? ps := by
  simp [joinAfter]

@[simp] theorem joinInline_nil : joinInline [] = [] := rfl

@[simp] theorem joinBlocks_nil : joinBlocks [] = [] := rfl

@[simp] theorem parts_nil : parts [] = [] := by simp [parts]

end RichDoc.Markdown
