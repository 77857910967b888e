import RichDoc.Converter
import RichDoc.Survey

/-! The boundary to callers that pass texts as bytes which end at the first zero byte. A text that
holds a zero character cannot be passed, and the empty text goes out in its place. -/

namespace RichDoc.Boundary

/-- The answer to a call: data, or the message for an error. -/
inductive Answer where
  | data (text : String)
  | error (message : String)
  deriving DecidableEq

/-- The bytes before the first zero byte. -/
def beforeZero (bytes : List UInt8) : List UInt8 := bytes.takeWhile (· != 0)

/-- A text as it can be passed out. -/
def passable (s : String) : String := if s.toList.contains '\x00' then "" else s

/-- Reads the text that a caller passes; a caller may also pass nothing. -/
def read (input : Option (List UInt8)) : Except String String :=
  match input with
  | none => .error "Input cannot be null"
  | some bytes =>
    match String.fromUTF8? ⟨(beforeZero bytes).toArray⟩ with
    | none => .error "Invalid UTF-8 input"
    | some s => .ok s

/-- Answers a call with what a function makes of the caller's text. -/
def answer (input : Option (List UInt8)) (f : String → Except String String) : Answer :=
  match (read input).bind f with
  | .ok s => .data (passable s)
  | .error message => .error (passable message)

def toMarkdown (input : Option (List UInt8)) : Answer :=
  answer input fun s => .ok (({} : Converter).convertText s).content

/-- Converts a document or a text to Markdown; a document with malformed parts fails as a whole. -/
def toMarkdownStrict (input : Option (List UInt8)) : Answer :=
  answer input fun s => .ok ((({} : Converter).strict).convertText s).content

/-- Surveys a document; the data is JSON. -/
def inspect (input : Option (List UInt8)) : Answer :=
  answer input fun s =>
    match Survey.ofText s with
    | .ok survey => .ok survey.toValue.pretty
    | .error e => .error e.message

def version : String := "0.1.0"

end RichDoc.Boundary
