import RichDoc.Mark

/-! The kinds of node in a document, with the attributes that each kind carries. A kind that is not
recognized keeps its name, so that its children can still be shown. -/

namespace RichDoc

/-- Where a media item is stored. -/
inductive MediaType where
  | file
  | link
  | external
  | other (name : String)
  | unspecified
  deriving DecidableEq, Inhabited

def MediaType.ofName (name : String) : MediaType :=
  match name with
  | "file" => file
  | "link" => link
  | "external" => external
  | "" => unspecified
  | _ => other name

/-- An attachment or a picture held elsewhere. -/
structure Media where
  id : Option String := none
  mediaType : MediaType := .unspecified
  url : Option String := none
  alt : Option String := none
  deriving DecidableEq, Inhabited

namespace Media

def file (id : String) : Media := { id := some id, mediaType := .file }

def external (url : String) : Media := { url := some url, mediaType := .external }

def withAlt (m : Media) (alt : String) : Media := { m with alt := some alt }

/-- The identifier of the attachment; an empty one counts as absent. -/
def attachmentId (m : Media) : Option String := m.id.filter (!·.isEmpty)

end Media

/-- What a node is. -/
inductive Kind where
  | paragraph
  | heading (level : Nat)
  | bulletList
  | orderedList
  | listItem
  | codeBlock (language : Option String)
  | blockquote
  | rule
  | hardBreak
  | panel (panelType : Option String)
  | expand (title : Option String)
  | taskList
  | taskItem (done : Bool)
  | decisionList
  | decisionItem
  | mediaGroup
  | media (item : Media)
  | table
  | tableRow
  | tableCell (header : Bool)
  | text (text : String) (marks : List Mark)
  | mention (id text : Option String)
  | inlineCard (url : Option String)
  | blockCard (url : Option String)
  | emoji (shortName id text : Option String)
  | date (timestamp : Option String)
  | status (text : Option String)
  | unknown (name : String)
  deriving DecidableEq, Inhabited

namespace Kind

/-- A heading whose level is brought into the range 1 to 6. -/
def headingOf (level : Int) : Kind := heading (max 1 (min level 6)).toNat

def name : Kind → String
  | paragraph => "paragraph"
  | heading _ => "heading"
  | bulletList => "bulletList"
  | orderedList => "orderedList"
  | listItem => "listItem"
  | codeBlock _ => "codeBlock"
  | blockquote => "blockquote"
  | rule => "rule"
  | hardBreak => "hardBreak"
  | panel _ => "panel"
  | expand _ => "expand"
  | taskList => "taskList"
  | taskItem _ => "taskItem"
  | decisionList => "decisionList"
  | decisionItem => "decisionItem"
  | mediaGroup => "mediaGroup"
  | media _ => "media"
  | table => "table"
  | tableRow => "tableRow"
  | tableCell true => "tableHeader"
  | tableCell false => "tableCell"
  | text .. => "text"
  | mention .. => "mention"
  | inlineCard _ => "inlineCard"
  | blockCard _ => "blockCard"
  | emoji .. => "emoji"
  | date _ => "date"
  | status _ => "status"
  | unknown name => name

/-- Lists are nested in their item; anything else is a part of its content. -/
def isList : Kind → Bool
  | bulletList | orderedList | taskList | decisionList => true
  | _ => false

/-- Inline kinds run on within a paragraph. -/
def isInline : Kind → Bool
  | text .. | hardBreak | mention .. | inlineCard _ | emoji .. | date _ | status _ => true
  | _ => false

/-- Leaf kinds are shown by their attributes alone. -/
def isLeaf : Kind → Bool
  | text .. | rule | hardBreak | media _ | mention .. | inlineCard _ | blockCard _ | emoji ..
  | date _ | status _ => true
  | _ => false

/-- The cells of a row are its children of this kind. -/
def isCell : Kind → Bool
  | tableCell _ => true
  | _ => false

/-- The literal text of a run of text. -/
def rawText? : Kind → Option String
  | text t _ => some t
  | _ => none

theorem headingOf_level {level : Int} : ∃ n, headingOf level = heading n ∧ 1 ≤ n ∧ n ≤ 6 :=
  ⟨_, rfl, by omega, by omega⟩

end Kind

end RichDoc
