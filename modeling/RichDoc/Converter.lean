import RichDoc.Document.Build
import RichDoc.Markdown.Render
import RichDoc.Stats

/-! Converting any input to Markdown. A conversion always has an output: plain text comes back as it
was, and a failure puts a fixed sentence in place of the content. -/

namespace RichDoc

open Json

/-- The output in place of a document that cannot be converted. -/
def failureText : String := "[Content unavailable due to conversion error]"

/-- What a text holds. -/
inductive Input where
  | empty
  | document (v : Value)
  | tooDeep
  | plain

/-- Any JSON text holds a document, and any other text is plain. -/
def Input.ofText (s : String) : Input :=
  if s.isEmpty then empty
  else
    match Json.parse s with
    | .ok v => document v
    | .error fault => if fault.cause = .nestedTooDeeply then tooDeep else plain

/-- The Markdown of an input, with its statistics. -/
structure Rendering where
  content : String := ""
  stats : Stats := {}
  deriving DecidableEq, Inhabited

namespace Rendering

def ofContent (content : String) : Rendering := { content }

def failed : Rendering := ofContent failureText

def byteLength (r : Rendering) : Nat := r.content.utf8ByteSize

end Rendering

namespace Document

def toMarkdown (o : Markdown.Options) (d : Document) : Except Markdown.Unavailable String :=
  (Markdown.render o d).map fun (t, _) => String.ofList t

/-- The document as Markdown, with its statistics. -/
def toMarkdownWithStats (o : Markdown.Options) (d : Document) :
    Except Markdown.Unavailable Rendering :=
  (Markdown.render { o with collectStats := true } d).map fun (t, stats) =>
    ⟨String.ofList t, (stats.countText t).countSkipped d.skipped⟩

end Document

/-- A converter is its options. It is lenient unless it is made strict. -/
structure Converter where
  build : BuildOptions := { mode := .lenient }
  markdown : Markdown.Options := {}
  deriving DecidableEq, Inhabited

namespace Converter

/-- The converter that stops at malformed parts. -/
def strict (c : Converter) : Converter := { c with build.mode := .strict }

def withMaxDepth (c : Converter) (depth : Nat) : Converter := { c with build.maxDepth := depth }

/-- The converter with a scheme before the identifiers of attachments. -/
def withAttachmentScheme (c : Converter) (scheme : String) : Converter :=
  { c with markdown.attachmentScheme := scheme }

def withMaxHeading (c : Converter) (level : Nat) : Converter :=
  { c with markdown := c.markdown.withMaxHeading level }

/-- The converter that keeps statistics, or does not. -/
def withStats (c : Converter) (collect : Bool) : Converter :=
  { c with markdown.collectStats := collect }

/-- Renders a document, with statistics when the converter keeps them. -/
def render (c : Converter) (d : Document) : Except Markdown.Unavailable Rendering :=
  if c.markdown.collectStats then d.toMarkdownWithStats c.markdown
  else (d.toMarkdown c.markdown).map Rendering.ofContent

/-- Converts a JSON tree. A tree without content is empty. -/
def convertTree (c : Converter) (v : Value) : Rendering :=
  match Document.ofValue? c.build v with
  | .ok none => {}
  | .ok (some d) =>
    match c.render d with
    | .ok r => r
    | .error _ => .failed
  | .error _ => .failed

def convertText (c : Converter) (s : String) : Rendering :=
  match Input.ofText s with
  | .empty => {}
  | .plain => .ofContent s
  | .tooDeep => .failed
  | .document v => c.convertTree v

/-- Converts a JSON value. Booleans and numbers are printed, and a string is converted as text. -/
def convert (c : Converter) (v : Value) : Rendering :=
  match v with
  | .null => {}
  | .bool b => .ofContent (if b then "true" else "false")
  | .number n => .ofContent (String.ofList n.text)
  | .string s => c.convertText s
  | .array _ | .object _ => c.convertTree v

end Converter

end RichDoc
