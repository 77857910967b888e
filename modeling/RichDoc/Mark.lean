import RichDoc.Text.Character

/-! Marks decorate a run of text. A style is what a list of marks amounts to: which decorations are
on and which link is followed. The order of the marks matters only between links. -/

namespace RichDoc

/-- A decoration of a run of text. -/
inductive Mark where
  | strong
  | em
  | code
  | strike
  | underline
  | superscript
  | subscript
  | link (href : Option String)
  | other (name : String)
  deriving DecidableEq

def Mark.name : Mark → String
  | strong => "strong"
  | em => "em"
  | code => "code"
  | strike => "strike"
  | underline => "underline"
  | superscript => "superscript"
  | subscript => "subscript"
  | link _ => "link"
  | other name => name

/-- The decorations of a run of text. -/
structure Style where
  bold : Bool := false
  italic : Bool := false
  code : Bool := false
  strikethrough : Bool := false
  underline : Bool := false
  superscript : Bool := false
  subscript : Bool := false
  link : Option String := none
  deriving DecidableEq, Inhabited

/-- A link can be followed when its target holds more than blanks. -/
def usableHref (href : String) : Bool := href.toList.any (!Text.isBlank ·)

/-- The style with one more mark; a link without a usable target changes nothing. -/
def Style.add (s : Style) : Mark → Style
  | .strong => { s with bold := true }
  | .em => { s with italic := true }
  | .code => { s with code := true }
  | .strike => { s with strikethrough := true }
  | .underline => { s with underline := true }
  | .superscript => { s with superscript := true }
  | .subscript => { s with subscript := true }
  | .link none => s
  | .link (some href) => if usableHref href then { s with link := some href } else s
  | .other _ => s

/-- The style of a list of marks; of several usable links the last one counts. -/
def Style.ofMarks (marks : List Mark) : Style := marks.foldl Style.add {}

@[simp] theorem Style.ofMarks_nil : Style.ofMarks [] = {} := rfl

theorem Style.ofMarks_concat (marks : List Mark) (m : Mark) :
    Style.ofMarks (marks ++ [m]) = (Style.ofMarks marks).add m := by
  simp [Style.ofMarks]

end RichDoc
