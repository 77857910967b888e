import RichDoc.Url.Host
import RichDoc.Url.Path

/-! Absolute URLs, read for the path they name. A URL that cannot be read and a URL whose path is
opaque both have no segments. -/

namespace RichDoc.Url

/-- The text without control characters and blanks at its ends. -/
def unpadded (t : List Char) : List Char :=
  ((t.dropWhile (· ≤ ' ')).reverse.dropWhile (· ≤ ' ')).reverse

/-- The scheme in lower case, and the text after its colon. -/
def scheme? (t : List Char) : Option (List Char × List Char) :=
  let isSchemeChar (c : Char) := c.isAlphanum || c == '+' || c == '-' || c == '.'
  match t with
  | [] => none
  | first :: _ =>
    match t.dropWhile isSchemeChar with
    | ':' :: rest =>
      if first.isAlpha then some ((t.takeWhile isSchemeChar).map Char.toLower, rest) else none
    | _ => none

/-- The text before the last `@`, when there is one, and the text after it. -/
def splitUserinfo (t : List Char) : Option (List Char) × List Char :=
  let parts := t.splitOn '@'
  let host := parts.getLast?.getD []
  if parts.length ≤ 1 then (none, host) else (some (['@'].intercalate parts.dropLast), host)

/-- The host, up to the first colon outside brackets. -/
def hostName : Bool → List Char → List Char
  | _, [] => []
  | inside, c :: rest =>
    if c = ':' ∧ !inside then []
    else c :: hostName (c = '[' || (inside && c != ']')) rest

/-- What follows the number after a host, when there is no number or one of at most 65535, and
nothing else stands beside it. -/
def afterNumber? (t : List Char) : Option (List Char) :=
  match t with
  | ':' :: digits =>
    let rest := digits.dropWhile Char.isDigit
    let number := (numeral? 10 (digits.takeWhile Char.isDigit)).getD 0
    if number ≤ 65535 ∧ (rest = [] ∨ rest.head? = some '\\') then some rest else none
  | rest => some rest

/-- The text of the path after an authority, when the authority can be read. A user needs a host,
and so does a number. -/
def afterAuthority? (f : Family) (t : List Char) : Option (List Char) :=
  let ends (c : Char) := f.isSlash c || endsPath c
  let authority := t.takeWhile (!ends ·)
  let path := t.dropWhile (!ends ·)
  let (user, address) := splitUserinfo authority
  let host := hostName false address
  let number := address.drop host.length
  if host.isEmpty then
    let named := match user with
      | none => false
      | some [] => !path.isEmpty
      | some user => user != [':']
    if f = .generic ∧ !named ∧ number.isEmpty then some path else none
  else if if f = .generic then isOpaqueHost host else isHost host then
    (afterNumber? number).map (· ++ path)
  else none

/-- A path starts after its first slash. -/
def dropSlash (f : Family) : List Char → List Char
  | [] => []
  | c :: rest => if f.isSlash c then rest else c :: rest

def isLocalHost (host : List Char) : Bool :=
  (decode? host).any (·.map Char.toLower == "localhost".toList)

/-- The text of the path after the two slashes of a file URL. A drive letter is no host. On this
machine the path keeps its first slash, so it starts with an empty segment. -/
def afterFileHost? (t : List Char) : Option (List Char) :=
  let ends (c : Char) := Family.file.isSlash c || endsPath c
  let host := t.takeWhile (!ends ·)
  let path := t.dropWhile (!ends ·)
  if isDriveLetter host then some t
  else if host.isEmpty || isLocalHost host then some path
  else if isHost host then some (dropSlash .file path)
  else none

/-- The text of the path of a URL, after its first slash. Only in the generic family a path can be
opaque, and then there is none. -/
def pathText? (f : Family) (t : List Char) : Option (List Char) :=
  match f with
  | .web => (afterAuthority? f (t.dropWhile f.isSlash)).map (dropSlash f)
  | .file =>
    match t with
    | a :: b :: rest =>
      if f.isSlash a && f.isSlash b then afterFileHost? rest
      else some (dropSlash f t)
    | _ => some (dropSlash f t)
  | .generic =>
    match t with
    | '/' :: '/' :: rest => (afterAuthority? f rest).map (dropSlash f)
    | '/' :: rest => some rest
    | _ => none

/-- The segments of the path of a URL, last one first. The gaps in the text count only in its path,
which is the end of the text. -/
def segments? (t : List Char) : Option (List (List Char)) := do
  let whole := solid (unpadded t)
  let (scheme, rest) ← scheme? whole
  let f := Family.ofScheme scheme
  let path ← pathText? f rest
  return resolve f (dropSolid (whole.length - path.length) (unpadded t))

/-- The last segment of a URL's path that is not empty. -/
def lastSegment? (t : List Char) : Option (List Char) :=
  (segments? t).bind (·.find? (!·.isEmpty))

end RichDoc.Url
