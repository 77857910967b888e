import RichDoc.Json.Value
import RichDoc.Kind

/-! Reading the kind of a node from its JSON object. The type names the kind, and the attributes
fill it in; what is missing or of another type counts as absent. -/

namespace RichDoc

open Json

/-- A text attribute. A number is printed from its value, so `1e3` becomes `1000.0`, and a boolean
as `true` or `false`; the empty string counts as absent. -/
def attrText (attrs : Members) (key : String) : Option String :=
  match attrs.get? key with
  | some (.string s) => if s.isEmpty then none else some s
  | some (.number n) => some (String.ofList n.text)
  | some (.bool b) => some (if b then "true" else "false")
  | _ => none

/-- A whole-number attribute; a fraction is cut off. -/
def attrInteger (attrs : Members) (key : String) : Option Int :=
  ((attrs.get? key).bind Value.number?).map Number.truncate

/-- The name in the member `type` of an object; it is empty when there is none. -/
def typeName (ms : Members) : String := ((ms.get? "type").bind Value.string?).getD ""

/-- The attributes of an object; there are none unless they are an object too. -/
def attributes (ms : Members) : Members := ((ms.get? "attrs").bind Value.members?).getD []

def Mark.ofMembers (ms : Members) : Mark :=
  let attrs := attributes ms
  match typeName ms with
  | "strong" | "bold" => strong
  | "em" | "italic" => em
  | "code" => code
  | "strike" | "strikethrough" => strike
  | "underline" => underline
  | "superscript" | "sup" => superscript
  | "subscript" | "sub" => subscript
  | "subsup" =>
    match attrText attrs "type" with
    | some "sup" => superscript
    | some "sub" => subscript
    | _ => other "subsup"
  | "link" => link (attrText attrs "href")
  | name => other name

/-- The marks in the member `marks` of an object; entries that are not objects are passed over. -/
def marksOf (ms : Members) : List Mark :=
  let entries := ((ms.get? "marks").bind Value.items?).getD []
  (entries.filterMap Value.members?).map Mark.ofMembers

/-- Whether a text is the word `done` in any mixture of cases. -/
def saysDone (s : String) : Bool := s.toList.map Char.toLower == "done".toList

def Kind.ofMembers (ms : Members) : Kind :=
  let text (key : String) := attrText (attributes ms) key
  match typeName ms with
  | "paragraph" => paragraph
  | "heading" => headingOf ((attrInteger (attributes ms) "level").getD 1)
  | "bulletList" => bulletList
  | "orderedList" => orderedList
  | "listItem" => listItem
  | "codeBlock" => codeBlock (text "language")
  | "blockquote" => blockquote
  | "rule" => rule
  | "hardBreak" => hardBreak
  | "panel" => panel (text "panelType")
  | "expand" | "nestedExpand" => expand (text "title")
  | "taskList" => taskList
  | "taskItem" => taskItem ((text "state").any saysDone)
  | "decisionList" => decisionList
  | "decisionItem" => decisionItem
  | "mediaGroup" => mediaGroup
  | "media" =>
    media
      { id := text "id"
        mediaType := MediaType.ofName ((text "type").getD "")
        url := text "url"
        alt := text "alt" }
  | "table" => table
  | "tableRow" => tableRow
  | "tableCell" => tableCell false
  | "tableHeader" => tableCell true
  | "text" => Kind.text (((ms.get? "text").bind Value.string?).getD "") (marksOf ms)
  | "mention" => mention (text "id") (text "text" <|> text "displayName")
  | "inlineCard" => inlineCard (text "url")
  | "blockCard" | "embedCard" => blockCard (text "url")
  | "emoji" => emoji (text "shortName") (text "id") (text "text")
  | "date" => date (text "timestamp")
  | "status" => status (text "text")
  | name => unknown name

end RichDoc
