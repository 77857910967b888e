import RichDoc.Boundary
import RichDoc.Command.Arguments

/-! What the program replies to a command line. Reading the input and carrying out the reply are left
to the program around it. -/

namespace RichDoc.Command

/-- Where the input comes from. -/
inductive Source where
  | standardInput
  | file (path : String)
  deriving DecidableEq

/-- A path names a file, except that `-` names the standard input. -/
def Source.ofPath (path : Option String) : Source :=
  match path with
  | none => standardInput
  | some path => if path = "-" then standardInput else file path

/-- The input that a request needs. -/
def Request.source? : Request → Option Source
  | convert c => some (.ofPath c.input)
  | convertPlainly input | inspect input => some (.ofPath input)
  | about | version => none

/-- A reply: a file to be written first, then what is printed, and the exit status. -/
structure Reply where
  file : Option (String × String) := none
  output : String := ""
  errors : String := ""
  status : Nat := 0
  deriving DecidableEq, Inhabited

namespace Reply

/-- The reply to an error. -/
def failed (message : String) : Reply := { errors := "Error: " ++ message ++ "\n", status := 1 }

/-- The reply to a command line without meaning. -/
def usage : Reply := { status := 2 }

/-- The reply when its file could not be written. -/
def afterWriting (r : Reply) (result : Except String Unit) : Reply :=
  match result with
  | .ok () => r
  | .error message => failed message

end Reply

/-- The name of the program. -/
def programName : String := "adfmd"

/-- The name and version of the program. -/
def versionLine : String := programName ++ " " ++ Boundary.version

/-- Lines of output. -/
def linesOf (ls : List String) : String := String.join (ls.map (· ++ "\n"))

/-- The statistics as JSON text. -/
def statsText (s : Stats) : String :=
  (Json.Value.object (s.fields.map fun (name, n) => (name, Survey.count n.toNat))).pretty

/-- A line across the page. -/
def pageRule : String := String.ofList (List.replicate 40 '─')

/-- A labelled number. -/
def entry (label : String) (n : Nat) : String := label ++ ": " ++ toString n

/-- A survey as it is printed. -/
def surveyLines (s : Survey) : List String :=
  ["Document Information", pageRule] ++
    (s.version.map (entry "Version")).toList ++
    [entry "Nodes" s.nodes, entry "Top-level" s.roots, entry "Max depth" s.maxDepth,
      entry "Skipped" s.skipped, "", "Node Kinds", pageRule] ++
    s.kinds.map fun (name, n) => entry (if name.isEmpty then "(untyped)" else name) n

def aboutLines : List String :=
  [versionLine, "Structured document to Markdown converter", "",
    "Repository: https://github.com/iyulab/adfmd", "License: MIT"]

/-- The converter that a conversion asks for. The environment may name an attachment scheme. -/
def Conversion.converter (c : Conversion) (environment : Option String) : Converter :=
  let base : Converter := {}
  let base := match c.maxDepth with
    | some depth => base.withMaxDepth depth
    | none => base
  let base := match c.attachmentScheme <|> environment with
    | some scheme => base.withAttachmentScheme scheme
    | none => base
  if c.strict then base.strict else base

/-- Replies with a converted text. Statistics go to the error output. -/
def replyConverted (converter : Converter) (output : Option String) (stats : Bool) (text : String) :
    Reply :=
  let r := (converter.withStats true).convertText text
  let errors := if stats then statsText r.stats ++ "\n" else ""
  match output with
  | some path => { file := some (path, r.content), output := "Saved to " ++ path ++ "\n", errors }
  | none => { output := r.content ++ "\n", errors }

def replyInspected (text : String) : Reply :=
  match Survey.ofText text with
  | .ok s => { output := linesOf (surveyLines s) }
  | .error e => .failed e.message

/-- The reply to a request, given the text of its input. -/
def Request.reply (environment : Option String) (text : String) : Request → Reply
  | convert c => replyConverted (c.converter environment) c.output c.stats text
  | convertPlainly _ => replyConverted {} none false text
  | inspect _ => replyInspected text
  | about => { output := linesOf aboutLines }
  | version => { output := linesOf [versionLine] }

def textOf (input : Except String ByteArray) : Except String String :=
  match input with
  | .error message => .error message
  | .ok bytes =>
    match String.fromUTF8? bytes with
    | some text => .ok text
    | none => .error notUtf8Message

/-- The reply to a request, given its input or the error in reading it. -/
def Request.replyTo (environment : Option String) (input : Except String ByteArray) (r : Request) :
    Reply :=
  match textOf input with
  | .ok text => r.reply environment text
  | .error message => .failed message

end RichDoc.Command
