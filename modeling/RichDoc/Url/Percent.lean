import RichDoc.Text.Character

/-! Percent encoding. A byte is written as a percent sign and two hexadecimal digits; a character
outside ASCII is written byte by byte in its UTF-8 form. -/

namespace RichDoc.Url

open Text

/-- A byte as a percent sign and two digits in upper case. -/
def encodeByte (b : UInt8) : List Char :=
  ['%', (hexDigit (b.toNat / 16)).toUpper, (hexDigit (b.toNat % 16)).toUpper]

def utf8 (t : List Char) : List UInt8 := (String.ofList t).toUTF8.toList

/-- The text with the bytes of every character in `reserved` percent-encoded. -/
def encode (reserved : Char → Bool) (t : List Char) : List Char :=
  t.flatMap fun c => if reserved c then (utf8 [c]).flatMap encodeByte else [c]

/-- The bytes that a text stands for. A percent sign without two digits after it stands for
itself. -/
def decode : List Char → List UInt8
  | [] => []
  | '%' :: a :: b :: rest =>
    match hexValue? a, hexValue? b with
    | some high, some low => UInt8.ofNat (16 * high + low) :: decode rest
    | _, _ => '%'.toNat.toUInt8 :: decode (a :: b :: rest)
  | c :: rest => utf8 [c] ++ decode rest

/-- The text that a percent-encoded text stands for, when its bytes are UTF-8. -/
def decode? (t : List Char) : Option (List Char) :=
  (String.fromUTF8? ⟨(decode t).toArray⟩).map String.toList

/-- The characters that a path may not hold as they are. -/
def reservedInPath (c : Char) : Bool :=
  c ≤ ' ' || '\x7f' ≤ c || c ∈ ['"', '#', '<', '>', '?', '\x60', '\x7b', '\x7d']

end RichDoc.Url
