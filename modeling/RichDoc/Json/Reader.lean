import RichDoc.Json.Fault
import RichDoc.Json.Value
import RichDoc.Text.Character

/-! Reading JSON text. Every reader takes the text that is left and gives back what it read with the
text after it. The recursion is bounded by the length of the text, since each value takes at least
one character. -/

namespace RichDoc.Json

/-- A result with the text after it, or the failure that stopped the reading. -/
abbrev Read (α : Type) := Except Failure (α × List Char)

/-- A failure at the next character, which counts as read; at the end there is none. -/
def failAt {α : Type} (cause : Cause) (t : List Char) : Except Failure α := .error ⟨cause, t, 1⟩

def failBefore {α : Type} (cause : Cause) (t : List Char) : Except Failure α :=
  .error ⟨cause, t, 0⟩

/-- A failure at the next character, or another at the end of the text. -/
def failOr {α : Type} (atEnd cause : Cause) : List Char → Except Failure α
  | [] => failBefore atEnd []
  | t => failAt cause t

/-- The characters that may stand between the parts of a value. -/
def isSpace (c : Char) : Bool := c == ' ' || c == '\n' || c == '\t' || c == '\r'

def skipSpaces (t : List Char) : List Char := t.dropWhile isSpace

/-- Reads the rest of a word such as `null`. -/
def readWord {α : Type} (result : α) : List Char → List Char → Read α
  | [], t => .ok (result, t)
  | c :: word, t =>
    match t with
    | d :: rest => if c = d then readWord result word rest else failAt .expectedIdent t
    | [] => failBefore .endInValue []

/-! ### Strings -/

/-- Reads four hexadecimal digits. With fewer than four bytes left the string has no end. -/
def readHex (t : List Char) : Read Nat :=
  match (t.take 4).mapM Text.hexValue? with
  | some [a, b, c, d] => .ok (((a * 16 + b) * 16 + c) * 16 + d, t.drop 4)
  | _ =>
    if byteLength (t.take 4) < 4 then failBefore .endInString []
    else .error ⟨.invalidEscape, t, 4⟩

/-- A unit of UTF-16 that stands first in a pair. -/
def isHighSurrogate (n : Nat) : Bool := 0xD800 ≤ n && n ≤ 0xDBFF

/-- A unit of UTF-16 that stands second in a pair. -/
def isLowSurrogate (n : Nat) : Bool := 0xDC00 ≤ n && n ≤ 0xDFFF

/-- Reads what follows `\u`: one unit, or a pair of units for a character that needs two. -/
def readUnicode (t : List Char) : Read Char :=
  match readHex t with
  | .error e => .error e
  | .ok (first, rest) =>
    if isLowSurrogate first then failBefore .loneSurrogate rest
    else if !isHighSurrogate first then .ok (Char.ofNat first, rest)
    else
      match rest with
      | '\\' :: 'u' :: digits =>
        match readHex digits with
        | .error e => .error e
        | .ok (second, rest) =>
          if isLowSurrogate second then
            .ok (Char.ofNat (0x10000 + (first - 0xD800) * 0x400 + (second - 0xDC00)), rest)
          else failBefore .loneSurrogate rest
      | '\\' :: other => failOr .endInString .missingSurrogate other
      | other => failOr .endInString .missingSurrogate other

def readEscape : List Char → Read Char
  | '"' :: rest => .ok ('"', rest)
  | '\\' :: rest => .ok ('\\', rest)
  | '/' :: rest => .ok ('/', rest)
  | 'b' :: rest => .ok ('\x08', rest)
  | 'f' :: rest => .ok ('\x0c', rest)
  | 'n' :: rest => .ok ('\n', rest)
  | 'r' :: rest => .ok ('\r', rest)
  | 't' :: rest => .ok ('\t', rest)
  | 'u' :: rest => readUnicode rest
  | t => failOr .endInString .invalidEscape t

/-- Reads a string up to its closing quote, after the characters in `read`, which holds the last one
first. -/
def readChars : Nat → List Char → List Char → Read String
  | 0, _, _ => failBefore .endInString []
  | fuel + 1, read, t =>
    match t with
    | [] => failBefore .endInString []
    | '"' :: rest => .ok (String.ofList read.reverse, rest)
    | '\\' :: escape =>
      match readEscape escape with
      | .ok (c, rest) => readChars fuel (c :: read) rest
      | .error e => .error e
    | c :: rest => if c < ' ' then failAt .controlCharacter t else readChars fuel (c :: read) rest

/-! ### Numbers -/

/-- A significand that stays below `2^64`, and the number of digits that it holds. -/
structure Significand where
  value : Nat
  digits : Nat

/-- Takes the leading digits into a significand for as long as it stays below `2^64`. -/
def takeDigits (s : Significand) : List Char → Significand × List Char
  | [] => (s, [])
  | c :: rest =>
    let value := s.value * 10 + (c.toNat - '0'.toNat)
    if c.isDigit ∧ value < Nat.pow 2 64 then takeDigits ⟨value, s.digits + 1⟩ rest
    else (s, c :: rest)

/-- Takes the digits of an exponent for as long as it stays below `2^31`; without a result when it
does not, and then the digit that was too many is taken too. -/
def takeExponent (e : Nat) : List Char → Option Nat × List Char
  | [] => (some e, [])
  | c :: rest =>
    let value := e * 10 + (c.toNat - '0'.toNat)
    if !c.isDigit then (some e, c :: rest)
    else if value < Nat.pow 2 31 then takeExponent value rest
    else (none, rest)

/-- The number with a significand and a decimal exponent; it is out of range when too large. -/
def readDecimal (negative : Bool) (significand : Nat) (e : Int) (rest : List Char) : Read Number :=
  match Number.ofDecimal? negative significand e with
  | some n => .ok (n, rest)
  | none => failBefore .numberOutOfRange rest

def readExponent (negative : Bool) (significand : Nat) (e : Int) (t : List Char) : Read Number :=
  let (below, t) := match t with
    | '+' :: rest => (false, rest)
    | '-' :: rest => (true, rest)
    | _ => (false, t)
  if t.head?.any Char.isDigit then
    match takeExponent 0 t with
    | (some shift, rest) =>
      readDecimal negative significand (if below then e - shift else e + shift) rest
    | (none, rest) =>
      if significand ≠ 0 ∧ !below then failBefore .numberOutOfRange rest
      else readDecimal negative 0 0 (rest.dropWhile Char.isDigit)
  else failOr .endInValue .invalidNumber t

def readScale (negative : Bool) (significand : Nat) (e : Int) (t : List Char) : Read Number :=
  match t with
  | 'e' :: rest | 'E' :: rest => readExponent negative significand e rest
  | rest => readDecimal negative significand e rest

/-- Reads the fraction after its point. Digits that the significand cannot hold are passed over. -/
def readFraction (negative : Bool) (whole : Nat) (e : Int) (t : List Char) : Read Number :=
  if t.head?.any Char.isDigit then
    let (s, rest) := takeDigits ⟨whole, 0⟩ t
    readScale negative s.value (e - s.digits) (rest.dropWhile Char.isDigit)
  else failOr .endInValue .invalidNumber t

/-- Reads a number after its sign. Digits of the whole part that the significand cannot hold count
as powers of ten. -/
def readNumber (negative : Bool) (t : List Char) : Read Number :=
  match t with
  | '0' :: d :: rest =>
    if d.isDigit then failAt .invalidNumber (d :: rest) else afterWhole 0 0 (d :: rest)
  | c :: _ =>
    if c.isDigit then
      let (s, rest) := takeDigits ⟨0, 0⟩ t
      afterWhole s.value (rest.takeWhile Char.isDigit).length (rest.dropWhile Char.isDigit)
    else failAt .invalidNumber t
  | [] => failBefore .endInValue []
where
  afterWhole (whole dropped : Nat) (t : List Char) : Read Number :=
    match t with
    | '.' :: rest => readFraction negative whole dropped rest
    | 'e' :: rest | 'E' :: rest => readExponent negative whole dropped rest
    | rest =>
      if dropped = 0 then .ok (Number.ofInteger negative whole, rest)
      else readDecimal negative whole dropped rest

/-! ### Values -/

/-- How many levels of brackets may still be opened; without a number there is no limit. -/
abbrev Room := Option Nat

/-- The levels that are left inside one more bracket. -/
def Room.enter? : Room → Option Room
  | none => some none
  | some 0 => none
  | some (n + 1) => some (some n)

mutual

def readValue : Nat → Room → List Char → Read Value
  | 0, _, _ => failBefore .endInValue []
  | fuel + 1, room, t =>
    match skipSpaces t with
    | [] => failBefore .endInValue []
    | 'n' :: rest => readWord .null ['u', 'l', 'l'] rest
    | 't' :: rest => readWord (.bool true) ['r', 'u', 'e'] rest
    | 'f' :: rest => readWord (.bool false) ['a', 'l', 's', 'e'] rest
    | '"' :: rest => (readChars fuel [] rest).map fun (s, rest) => (.string s, rest)
    | '-' :: rest => (readNumber true rest).map fun (n, rest) => (.number n, rest)
    | '[' :: rest =>
      match room.enter? with
      | none => failAt .nestedTooDeeply ('[' :: rest)
      | some room =>
        match skipSpaces rest with
        | [] => failBefore .endInList []
        | ']' :: rest => .ok (.array [], rest)
        | rest =>
          match readValue fuel room rest with
          | .ok (v, rest) => readItems fuel room [v] rest
          | .error e => .error e
    | '\x7b' :: rest =>
      match room.enter? with
      | none => failAt .nestedTooDeeply ('\x7b' :: rest)
      | some room =>
        match skipSpaces rest with
        | [] => failBefore .endInObject []
        | '\x7d' :: rest => .ok (.object [], rest)
        | rest => readMember fuel room [] rest
    | c :: rest =>
      if c.isDigit then (readNumber false (c :: rest)).map fun (n, rest) => (.number n, rest)
      else failAt .expectedValue (c :: rest)

/-- Reads the rest of a list after the items in `read`, which holds the last one first. -/
def readItems : Nat → Room → List Value → List Char → Read Value
  | 0, _, _, _ => failBefore .endInList []
  | fuel + 1, room, read, t =>
    match skipSpaces t with
    | [] => failBefore .endInList []
    | ']' :: rest => .ok (.array read.reverse, rest)
    | ',' :: rest =>
      match skipSpaces rest with
      | [] => failBefore .endInValue []
      | ']' :: rest => failAt .trailingComma (']' :: rest)
      | rest =>
        match readValue fuel room rest with
        | .ok (v, rest) => readItems fuel room (v :: read) rest
        | .error e => .error e
    | rest => failAt .expectedListEnd rest

/-- Reads a member of an object, and then the rest of the object after the members in `read`. -/
def readMember : Nat → Room → Members → List Char → Read Value
  | 0, _, _, _ => failBefore .endInObject []
  | fuel + 1, room, read, t =>
    match t with
    | '"' :: rest =>
      match readChars fuel [] rest with
      | .ok (key, rest) =>
        match skipSpaces rest with
        | [] => failBefore .endInObject []
        | ':' :: rest =>
          match readValue fuel room rest with
          | .ok (v, rest) => readMembers fuel room (read.insert key v) rest
          | .error e => .error e
        | rest => failAt .expectedColon rest
      | .error e => .error e
    | rest => failAt .keyNotString rest

/-- Reads the rest of an object after the members in `read`. -/
def readMembers : Nat → Room → Members → List Char → Read Value
  | 0, _, _, _ => failBefore .endInObject []
  | fuel + 1, room, read, t =>
    match skipSpaces t with
    | [] => failBefore .endInObject []
    | '\x7d' :: rest => .ok (.object read, rest)
    | ',' :: rest =>
      match skipSpaces rest with
      | [] => failBefore .endInValue []
      | '\x7d' :: rest => failAt .trailingComma ('\x7d' :: rest)
      | rest => readMember fuel room read rest
    | rest => failAt .expectedObjectEnd rest

end

/-- Reads a text that is one value and nothing else. -/
def readAll (room : Room) (t : List Char) : Except Failure Value :=
  match readValue (t.length + 1) room t with
  | .ok (v, rest) =>
    match skipSpaces rest with
    | [] => .ok v
    | rest => failAt .trailingCharacters rest
  | .error e => .error e

/-- The number of levels of brackets that a text may have. -/
def levelLimit : Nat := 127

/-- The value that a text of limited nesting writes. -/
def parse (s : String) : Except Fault Value :=
  (readAll (some levelLimit) s.toList).mapError (·.fault s.toList)

/-- The value that a text of any nesting writes. -/
def parseUnlimited (s : String) : Except Fault Value :=
  (readAll none s.toList).mapError (·.fault s.toList)

end RichDoc.Json
