import RichDoc.Text.Lines

/-! List items. An item is a marker and the lines of its parts; every line after the marker is
indented, so that it belongs to the item. Numbered items take a number in place of their marker. -/

namespace RichDoc.Markdown

open Text

/-- A part of a list item: its own content, or a list nested in it. -/
structure Part where
  text : List Char
  nested : Bool
  deriving DecidableEq

/-- The indentation of what belongs to an item. -/
def itemIndent : List Char := [' ', ' ']

def bullet : List Char := ['-', ' ']

/-- The lines of a text, each indented under its item. -/
def belowLines (t : List Char) : List (List Char) := (lines t).map (indentLine itemIndent)

/-- The lines of the first part. The marker stands before the first of them; a nested list starts
on the line below. -/
def firstLines (p : Part) : List (List Char) :=
  if p.nested then [] :: belowLines p.text
  else
    match lines p.text with
    | [] => []
    | head :: rest => head :: rest.map (indentLine itemIndent)

/-- A list item with a marker. Empty parts are left out, and an item without parts is empty. -/
def composeItem (marker : List Char) (parts : List Part) : List Char :=
  match parts.filter (!·.text.isEmpty) with
  | [] => []
  | first :: rest => marker ++ unlines (firstLines first ++ rest.flatMap (belowLines ·.text))

def joinItems (items : List (List Char)) : List Char := joinPresent ['\n'] items

/-- The item without the marker of a bullet list. -/
def dropBullet (item : List Char) : List Char := (bullet.isPrefixOf? item).getD item

def numberMarker (n : Nat) : List Char := Nat.toDigits 10 n ++ ['.', ' ']

/-- The items that are not empty, numbered from 1. -/
def numberItems (items : List (List Char)) : List (List Char) :=
  (items.filter (!·.isEmpty)).zipIdx.map fun (item, i) => numberMarker (i + 1) ++ dropBullet item

@[simp] theorem composeItem_nil (marker : List Char) : composeItem marker [] = [] := rfl

@[simp] theorem dropBullet_append (t : List Char) : dropBullet (bullet ++ t) = t := rfl

end RichDoc.Markdown
