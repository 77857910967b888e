/-! Lines of a text. A text is cut at every line feed, so it always has at least one line, and the
lines joined by line feeds give the text back. -/

namespace RichDoc.Text

def lines (t : List Char) : List (List Char) := t.splitOn '\n'

def unlines (ls : List (List Char)) : List Char := ['\n'].intercalate ls

/-- The text with every line changed by `f`. -/
def mapLines (f : List Char → List Char) (t : List Char) : List Char := unlines ((lines t).map f)

/-- What stands between two paragraphs: the end of a line, and an empty line. -/
def blankLine : List Char := ['\n', '\n']

/-- The entries that are not empty, with `separator` between each two. -/
def joinPresent (separator : List Char) (entries : List (List Char)) : List Char :=
  separator.intercalate (entries.filter (!·.isEmpty))

/-- A line with an indentation before it; an empty line stays empty. -/
def indentLine (indentation line : List Char) : List Char :=
  if line.isEmpty then [] else indentation ++ line

/-- The text with an indentation before every line that is not empty. -/
def indent (indentation t : List Char) : List Char := mapLines (indentLine indentation) t

@[simp] theorem lines_nil : lines [] = [[]] := rfl

@[simp] theorem unlines_singleton (l : List Char) : unlines [l] = l := by simp [unlines]

@[simp] theorem mapLines_nil (f : List Char → List Char) : mapLines f [] = f [] := by
  simp [mapLines]

@[simp] theorem joinPresent_nil (s : List Char) : joinPresent s [] = [] := by
  simp [joinPresent]

end RichDoc.Text
