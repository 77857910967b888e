import RichDoc.Json.Value
import RichDoc.Text.Character

/-! Writing JSON text: on one line without spaces, or spread over lines that are indented by two
spaces for each level. -/

namespace RichDoc.Json

/-- A character as it is written in a string. Control characters are escaped, and so are the quote
and the backslash. -/
def escapeChar (c : Char) : List Char :=
  match c with
  | '"' => ['\\', '"']
  | '\\' => ['\\', '\\']
  | '\x08' => ['\\', 'b']
  | '\x0c' => ['\\', 'f']
  | '\n' => ['\\', 'n']
  | '\r' => ['\\', 'r']
  | '\t' => ['\\', 't']
  | _ =>
    if c < ' ' then
      ['\\', 'u', '0', '0', Text.hexDigit (c.toNat / 16), Text.hexDigit (c.toNat % 16)]
    else [c]

def quoted (s : String) : List Char := ['"'] ++ s.toList.flatMap escapeChar ++ ['"']

/-- Where a value is written: on one line, or at a level of a text of several lines. -/
inductive Layout where
  | line
  | level (n : Nat)
  deriving DecidableEq

namespace Layout

/-- The layout inside one more bracket. -/
def inner : Layout → Layout
  | line => line
  | level n => level (n + 1)

def lineBreak : Layout → List Char
  | line => []
  | level n => '\n' :: List.replicate (2 * n) ' '

def colon : Layout → List Char
  | line => [':']
  | level _ => [':', ' ']

/-- Entries between brackets, set apart by commas. -/
def bracket (l : Layout) (opening closing : Char) (entries : List (List Char)) : List Char :=
  if entries.isEmpty then [opening, closing]
  else
    [opening] ++ [','].intercalate (entries.map (l.inner.lineBreak ++ ·)) ++ l.lineBreak ++ [closing]

end Layout

mutual

def Value.write (l : Layout) : Value → List Char
  | .null => "null".toList
  | .bool b => (if b then "true" else "false").toList
  | .number n => n.text
  | .string s => quoted s
  | .array items => l.bracket '[' ']' (writeItems l.inner items)
  | .object members => l.bracket '\x7b' '\x7d' (writeMembers l.inner members)

def writeItems (l : Layout) : List Value → List (List Char)
  | [] => []
  | v :: rest => v.write l :: writeItems l rest

def writeMembers (l : Layout) : List (String × Value) → List (List Char)
  | [] => []
  | (key, v) :: rest => (quoted key ++ l.colon ++ v.write l) :: writeMembers l rest

end

/-- The text of a value on one line. -/
def Value.compact (v : Value) : String := String.ofList (v.write .line)

/-- The text of a value spread over lines. -/
def Value.pretty (v : Value) : String := String.ofList (v.write (.level 0))

end RichDoc.Json
