import RichDoc.Url.Percent

/-! Hosts of a URL: which texts are a domain name, an IPv4 address, an IPv6 address in brackets, or
the opaque host of a scheme without rules of its own. -/

namespace RichDoc.Url

open Text

/-- The value of a digit in a radix of at most 16. -/
def digitIn? (radix : Nat) (c : Char) : Option Nat := (hexValue? c).filter (· < radix)

/-- The number that a text writes in a radix; the empty text is 0. -/
def numeral? (radix : Nat) (t : List Char) : Option Nat :=
  t.foldlM (fun n c => (digitIn? radix c).map (radix * n + ·)) 0

/-- A part of an IPv4 address: decimal, octal after `0`, or hexadecimal after `0x`. -/
def ipv4Part? : List Char → Option Nat
  | [] => none
  | '0' :: 'x' :: digits | '0' :: 'X' :: digits => numeral? 16 digits
  | '0' :: c :: digits => numeral? 8 (c :: digits)
  | digits => numeral? 10 digits

/-- The labels of a domain; a single dot at the end adds none. -/
def labels (t : List Char) : List (List Char) :=
  let all := t.splitOn '.'
  if 1 < all.length ∧ all.getLast? = some [] then all.dropLast else all

/-- A domain whose last label is a number has to be an IPv4 address. -/
def endsInNumber (t : List Char) : Bool :=
  match (labels t).getLast? with
  | none | some [] => false
  | some last => last.all Char.isDigit || (ipv4Part? last).isSome

/-- An IPv4 address has up to four parts; the last one fills the bytes that remain. -/
def isIpv4 (t : List Char) : Bool :=
  match (labels t).mapM ipv4Part? with
  | none => false
  | some parts =>
    parts.length ≤ 4 && parts.dropLast.all (· < 256) &&
      (parts.getLast?.getD 0) < Nat.pow 256 (5 - parts.length)

def isOctet (t : List Char) : Bool :=
  (t == ['0'] || t.head? != some '0') && !t.isEmpty &&
    match numeral? 10 t with
    | some n => n < 256
    | none => false

/-- Four decimal bytes, as they may end an IPv6 address. -/
def isDottedQuad (t : List Char) : Bool :=
  let octets := t.splitOn '.'
  octets.length == 4 && octets.all isOctet

def isPiece (t : List Char) : Bool :=
  !t.isEmpty && t.length ≤ 4 && (numeral? 16 t).isSome

/-- The number of 16-bit pieces in a list of fields; a dotted quad fills two and comes last. -/
def pieceCount? : List (List Char) → Option Nat
  | [] => some 0
  | [last] => if isPiece last then some 1 else if isDottedQuad last then some 2 else none
  | field :: rest => if isPiece field then (pieceCount? rest).map (· + 1) else none

/-- The texts before and after the first two colons in a row. -/
def splitGap : List Char → Option (List Char × List Char)
  | ':' :: ':' :: rest => some ([], rest)
  | c :: rest => (splitGap rest).map fun (before, after) => (c :: before, after)
  | [] => none

/-- The fields of one side of a gap; an empty side has none. -/
def fields (t : List Char) : List (List Char) := if t.isEmpty then [] else t.splitOn ':'

/-- An IPv6 address has eight pieces, or fewer and one gap. -/
def isIpv6 (t : List Char) : Bool :=
  match splitGap t with
  | none => pieceCount? (t.splitOn ':') == some 8
  | some (before, after) =>
    (fields before).all isPiece &&
      match pieceCount? (fields after) with
      | some n => (fields before).length + n ≤ 7
      | none => false

/-- A host in brackets, without them; the inner value is absent when the last bracket is. -/
def bracketed? : List Char → Option (Option (List Char))
  | '[' :: rest => some (if rest.getLast? = some ']' then some rest.dropLast else none)
  | _ => none

/-- The characters that no host holds. -/
def forbiddenInHost (c : Char) : Bool :=
  c ∈ ['\x00', '\t', '\n', '\r', ' ', '#', '/', ':', '<', '>', '?', '@', '[', '\\', ']', '^', '|']

/-- The characters that no domain holds. -/
def forbiddenInDomain (c : Char) : Bool :=
  forbiddenInHost c || c < ' ' || c == '%' || c == '\x7f'

/-- A domain, after percent decoding; letters outside ASCII are allowed. -/
def isDomain (t : List Char) : Bool :=
  match decode? t with
  | none => false
  | some domain =>
    !domain.isEmpty && !domain.any forbiddenInDomain && (!endsInNumber domain || isIpv4 domain)

/-- A host of a scheme that is known: an IPv6 address in brackets or a domain. -/
def isHost (t : List Char) : Bool :=
  match bracketed? t with
  | some inner => inner.any isIpv6
  | none => isDomain t

/-- A host of any other scheme: it may be empty and is not decoded. -/
def isOpaqueHost (t : List Char) : Bool :=
  match bracketed? t with
  | some inner => inner.any isIpv6
  | none => !t.any forbiddenInHost

end RichDoc.Url
