/-! Faults in JSON text: what is wrong, and where. A place is a line and a column, both counted in
bytes of the text before it. -/

namespace RichDoc.Json

/-- What is wrong with a text. -/
inductive Cause where
  | endInValue
  | endInString
  | endInList
  | endInObject
  | expectedValue
  | expectedIdent
  | expectedColon
  | expectedListEnd
  | expectedObjectEnd
  | invalidNumber
  | numberOutOfRange
  | controlCharacter
  | invalidEscape
  | loneSurrogate
  | missingSurrogate
  | trailingComma
  | trailingCharacters
  | keyNotString
  | nestedTooDeeply
  deriving DecidableEq

def Cause.words : Cause → String
  | endInValue => "EOF while parsing a value"
  | endInString => "EOF while parsing a string"
  | endInList => "EOF while parsing a list"
  | endInObject => "EOF while parsing an object"
  | expectedValue => "expected value"
  | expectedIdent => "expected ident"
  | expectedColon => "expected `:`"
  | expectedListEnd => "expected `,` or `]`"
  | expectedObjectEnd => "expected `,` or `\x7d`"
  | invalidNumber => "invalid number"
  | numberOutOfRange => "number out of range"
  | controlCharacter => "control character (\\u0000-\\u001F) found while parsing a string"
  | invalidEscape => "invalid escape"
  | loneSurrogate => "lone leading surrogate in hex escape"
  | missingSurrogate => "unexpected end of hex escape"
  | trailingComma => "trailing comma"
  | trailingCharacters => "trailing characters"
  | keyNotString => "key must be a string"
  | nestedTooDeeply => "recursion limit exceeded"

/-- A place in a text. Lines are counted from 1, and the column is the number of bytes read on the
line. -/
structure Place where
  line : Nat
  column : Nat
  deriving DecidableEq

/-- The place after one more character, of which at most `room` bytes count. -/
def Place.next (p : Place) (c : Char) (room : Nat) : Place :=
  if c = '\n' then ⟨p.line + 1, 0⟩ else { p with column := p.column + min c.utf8Size room }

/-- The place after a number of bytes of a text. -/
def Place.after (p : Place) : Nat → List Char → Place
  | 0, _ | _, [] => p
  | room + 1, c :: rest => Place.after (p.next c (room + 1)) (room + 1 - c.utf8Size) rest

structure Fault where
  cause : Cause
  place : Place
  deriving DecidableEq

def Fault.message (f : Fault) : String :=
  f.cause.words ++ " at line " ++ toString f.place.line ++ " column " ++ toString f.place.column

/-- A fault as the reader meets it: the text that was left, and how many bytes of it count as
read. -/
structure Failure where
  cause : Cause
  left : List Char
  ahead : Nat

def byteLength (t : List Char) : Nat := t.foldl (fun n c => n + c.utf8Size) 0

def Failure.fault (f : Failure) (t : List Char) : Fault :=
  ⟨f.cause, Place.after ⟨1, 0⟩ (byteLength t - byteLength f.left + f.ahead) t⟩

end RichDoc.Json
