import RichDoc.Markdown.Piece
import RichDoc.Markdown.Span
import RichDoc.Markdown.Table
import RichDoc.Url.Address

/-! What a node becomes, given what its children became. A row of a table keeps its cells apart for
the table around it; every other kind becomes a text. -/

namespace RichDoc.Markdown

open Text

/-- Choices in the writing of Markdown. -/
structure Options where
  attachmentScheme : String := "attachment:"
  maxHeading : Nat := 6
  collectStats : Bool := false
  deriving DecidableEq, Inhabited

/-- The options with a deepest heading level, brought into the range 1 to 6. -/
def Options.withMaxHeading (o : Options) (level : Nat) : Options :=
  { o with maxHeading := max 1 (min level 6) }

inductive Fragment where
  | text (t : List Char)
  | row (cells : List (List Char))
  deriving DecidableEq, Inhabited

namespace Fragment

/-- A fragment as text; outside a table the cells of a row stand on one line. -/
def asText : Fragment → List Char
  | text t => t
  | row cells => Table.rowLine cells

def cells : Fragment → List (List Char)
  | text _ => []
  | row cells => cells

end Fragment

/-- A child and what it became. -/
structure Child where
  kind : Kind
  fragment : Fragment
  deriving DecidableEq

/-- A child and its text. -/
def Child.piece (c : Child) : Piece := ⟨c.kind, c.fragment.asText⟩

/-- A heading stands on one line. It is never deeper than the options allow. -/
def heading (o : Options) (level : Nat) (content : List Char) : List Char :=
  List.replicate (max (min level o.maxHeading) 1) '#' ++ [' '] ++
    content.map fun c => if c = '\n' then ' ' else c

/-- A block quotation; the empty one is empty. -/
def quote (body : List Char) : List Char :=
  if body.isEmpty then [] else mapLines (['>', ' '] ++ ·) body

/-- The label of a panel whose type has one. -/
def panelLabel (panelType : String) : Option (List Char) :=
  match panelType with
  | "info" => some "Info".toList
  | "note" => some "Note".toList
  | "warning" => some "Warning".toList
  | "error" => some "Error".toList
  | "success" => some "Success".toList
  | _ => none

/-- A panel is a quotation that starts with its label; a panel without a body is empty. -/
def panel (panelType : Option String) (body : List Char) : List Char :=
  match panelType.bind panelLabel with
  | some label =>
    if body.isEmpty then [] else quote (enclose ['*', '*'] (label ++ [':']) ++ [' '] ++ body)
  | none => quote body

/-- A collapsible section: its title in bold above its body. -/
def expand (title : Option String) (body : List Char) : List Char :=
  let above := match title with
    | some t => enclose ['*', '*'] t.toList
    | none => []
  joinPresent blankLine [above, body]

/-- The code in a code block: the literal text of its runs, and its line breaks. -/
def codeOf (ps : List Piece) : List Char :=
  ps.flatMap fun p =>
    match p.kind with
    | .text t _ => t.toList
    | .hardBreak => ['\n']
    | _ => []

/-- A link with a label. -/
def link (label target : List Char) : List Char :=
  ['['] ++ label ++ [']', '('] ++ target ++ [')']

/-- The name of an attachment that has no other. -/
def attachmentName (id : List Char) : List Char := "Attachment: ".toList ++ id

/-- A media item: a picture for an attachment, a link for media held elsewhere. -/
def media (o : Options) (m : Media) : List Char :=
  match m.mediaType with
  | .file =>
    match m.attachmentId with
    | some id =>
      let alt := match m.alt with
        | some alt => alt.toList
        | none => attachmentName id.toList
      ['!'] ++ link alt (o.attachmentScheme.toList ++ id.toList)
    | none => []
  | .external | .link =>
    match m.url with
    | some url => if url.isEmpty then [] else link "External Media".toList url.toList
    | none => []
  | .other _ | .unspecified => []

/-- The mention of one item of a media group. -/
def groupEntry : Kind → Option (List Char)
  | .media m =>
    match m.mediaType with
    | .file => m.attachmentId.map fun id => ['['] ++ attachmentName id.toList ++ [']']
    | .link => some "[External Link]".toList
    | .external | .other _ | .unspecified => none
  | _ => none

/-- A media group lists its items by name. -/
def mediaGroup (ps : List Piece) : List Char :=
  unlines (ps.filterMap (groupEntry ·.kind))

/-- A mention is a name after an at sign; a name that starts with one brings it along. -/
def mention (name : Option String) : List Char :=
  let shown := (name.getD "unknown").toList
  ['@'] ++ ((['@'].isPrefixOf? shown).getD shown)

/-- A card is a link labelled with the last part of its path. -/
def card (url : Option String) : List Char :=
  match url with
  | some url =>
    link ((Url.lastSegment? url.toList).getD "Link".toList) url.toList
  | none => "[Link]".toList

/-- The cells of a row are its children of that kind; other children are passed over. -/
def rowCells (children : List Child) : List (List Char) :=
  (children.filter (·.kind.isCell)).map (·.fragment.asText)

/-- The rows of a table are its children of that kind; other children are passed over. -/
def tableOf (children : List Child) : Table :=
  Table.ofRows ((children.filter (·.kind = .tableRow)).map (·.fragment.cells))

/-- The text of a node, given what its children became. -/
def textOf (o : Options) (kind : Kind) (children : List Child) : List Char :=
  let ps := children.map Child.piece
  match kind with
  | .paragraph => joinInline ps
  | .heading level => heading o level (joinInline ps)
  | .bulletList | .taskList | .decisionList => joinItems (ps.map Piece.text)
  | .orderedList => unlines (numberItems (ps.map Piece.text))
  | .listItem => composeItem bullet (parts ps)
  | .taskItem done => composeItem (if done then "- [x] " else "- [ ] ").toList (parts ps)
  | .decisionItem => composeItem "- ✓ ".toList (parts ps)
  | .codeBlock language => fenced (language.getD "").toList (codeOf ps)
  | .blockquote => quote (joinBlocks ps)
  | .rule => "---".toList
  | .hardBreak => ['\n']
  | .panel panelType => panel panelType (joinBlocks ps)
  | .expand title => expand title (joinBlocks ps)
  | .mediaGroup => mediaGroup ps
  | .media m => media o m
  | .table => (tableOf children).render
  | .tableRow => Table.rowLine (rowCells children)
  | .text t marks => marked marks t.toList
  | .mention id text => mention (text <|> id)
  | .inlineCard url | .blockCard url => card url
  | .emoji shortName id text => ((shortName <|> id <|> text).getD "🙂").toList
  | .date timestamp => (timestamp.getD "").toList
  | .status text => (text.map fun t => ['['] ++ t.toList ++ [']']).getD []
  | .tableCell _ | .unknown _ => joinBlocks ps

/-- What a node becomes, given what its children became. -/
def fragmentOf (o : Options) (kind : Kind) (children : List Child) : Fragment :=
  if kind = .tableRow then .row (rowCells children) else .text (textOf o kind children)

@[simp] theorem asText_fragmentOf (o : Options) (kind : Kind) (children : List Child) :
    (fragmentOf o kind children).asText = textOf o kind children := by
  unfold fragmentOf
  split
  · next h => subst h; rfl
  · rfl

end RichDoc.Markdown
