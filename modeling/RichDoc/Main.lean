import RichDoc.Command.Reply

/-! The command line program: it reads the input of a request and carries out the reply. -/

namespace RichDoc.Command

def errorMessage (e : IO.Error) : String :=
  match e with
  | .noFileOrDirectory _ code _ => "No such file or directory (os error " ++ toString code ++ ")"
  | .permissionDenied _ code _ => "Permission denied (os error " ++ toString code ++ ")"
  | .inappropriateType _ code _ => "Is a directory (os error " ++ toString code ++ ")"
  | e => toString e

/-- Runs an action and keeps the message of its error. -/
def attempt {α : Type} (action : IO α) : IO (Except String α) := do
  try
    return .ok (← action)
  catch e =>
    return .error (errorMessage e)

def readStandardInput : IO ByteArray := do
  (← IO.getStdin).readBinToEnd

def readSource (source : Option Source) : IO (Except String ByteArray) :=
  match source with
  | none => return .ok .empty
  | some .standardInput => attempt readStandardInput
  | some (.file path) => attempt (IO.FS.readBinFile path)

def carryOut (reply : Reply) : IO UInt32 := do
  let reply ← match reply.file with
    | none => pure reply
    | some (path, content) => reply.afterWriting <$> attempt (IO.FS.writeFile path content)
  (← IO.getStdout).putStr reply.output
  (← IO.getStderr).putStr reply.errors
  return UInt32.ofNat reply.status

def run (words : List String) : IO UInt32 := do
  match request? words with
  | none => carryOut .usage
  | some request => do
    let environment ← IO.getEnv "ADFMD_ATTACHMENT_SCHEME"
    let input ← readSource request.source?
    carryOut (request.replyTo environment input)

end RichDoc.Command

def main (words : List String) : IO UInt32 := RichDoc.Command.run words
