import RichDoc.Url.Percent

/-! Paths of a URL. A path is the list of its segments, kept here with the last one first; a dot
segment stays where it is, a double-dot segment goes up, and a drive letter is never left. Tabs and
line endings are gaps in the text of a path: they are passed over, but one right behind the drive
letter that starts the path of a file ends the segment. -/

namespace RichDoc.Url

/-- The three families of scheme that differ in their slashes, hosts and paths. -/
inductive Family where
  | file
  | web
  | generic
  deriving DecidableEq

def Family.ofScheme (scheme : List Char) : Family :=
  if scheme = "file".toList then file
  else if scheme ∈ ["http", "https", "ws", "wss", "ftp"].map String.toList then web
  else generic

/-- Outside the generic family a backslash counts as a slash. -/
def Family.isSlash (f : Family) (c : Char) : Bool :=
  c == '/' || (c == '\\' && f != generic)

/-- A query or a fragment ends the path. -/
def endsPath (c : Char) : Bool := c == '?' || c == '#'

/-- A segment that stands for the segment it is in. -/
def isDot (s : List Char) : Bool :=
  s.map Char.toLower ∈ [['.'], ['%', '2', 'e']]

/-- A segment that stands for the one above. -/
def isDoubleDot (s : List Char) : Bool :=
  s.map Char.toLower ∈
    [['.', '.'], ['.', '%', '2', 'e'], ['%', '2', 'e', '.'], ['%', '2', 'e', '%', '2', 'e']]

/-- Tabs and line endings, which are no part of a URL. -/
def isGap (c : Char) : Bool := c == '\t' || c == '\n' || c == '\r'

def solid (t : List Char) : List Char := t.filter (!isGap ·)

/-- The text after its first `n` characters that are no gaps. -/
def dropSolid : Nat → List Char → List Char
  | 0, t => t
  | _, [] => []
  | n + 1, c :: rest => if isGap c then dropSolid (n + 1) rest else dropSolid n rest

/-- A letter followed by a colon or a bar. -/
def isDriveLetter : List Char → Bool
  | [letter, mark] => letter.isAlpha && (mark == ':' || mark == '|')
  | _ => false

/-- A drive letter, alone or with a backslash behind it. -/
def startsWithDrive (s : List Char) : Bool :=
  isDriveLetter (s.take 2) && (s.drop 2).head?.all (· == '\\')

/-- The drive letter as it is written in a path. -/
def normalizeDrive (s : List Char) : List Char := if isDriveLetter s then s.take 1 ++ [':'] else s

/-- The drive letter that starts a text, and what follows it after a gap. -/
def splitDrive? (t : List Char) : Option (List Char × List Char) :=
  match solid t with
  | letter :: ':' :: rest =>
    if letter.isAlpha && !rest.isEmpty && (dropSolid 2 t).head?.any isGap then
      some ([letter, ':'], rest)
    else none
  | _ => none

/-- The path without its last segment; a drive letter is never left. -/
def shorten : List (List Char) → List (List Char)
  | [] => []
  | last :: above => if startsWithDrive last then last :: above else above

/-- A segment as it is written in a path. The drive letter that starts the path of a file has a
colon. -/
def written (f : Family) (path : List (List Char)) (segment : List Char) : List Char :=
  encode reservedInPath (if f = .file ∧ path = [] then normalizeDrive segment else segment)

/-- The path after one more segment that a slash ends, given with its gaps. What a gap sets apart
from the drive letter before it is a segment of its own, even when it consists of dots. -/
def enter (f : Family) (path : List (List Char)) (t : List Char) : List (List Char) :=
  match if f = .file ∧ path = [] then splitDrive? t else none with
  | some (drive, rest) => [encode reservedInPath rest, drive]
  | none =>
    if isDoubleDot (solid t) then shorten path
    else if isDot (solid t) then path
    else written f path (solid t) :: path

/-- The path after the segment that ends it; a dot segment there leaves an empty one. -/
def finish (f : Family) (path : List (List Char)) (t : List Char) : List (List Char) :=
  if isDoubleDot (solid t) || isDot (solid t) then [] :: enter f path t else enter f path t

/-- The segments of the path that a text writes, last one first. -/
def resolve (f : Family) (t : List Char) : List (List Char) :=
  let stretches := (t.takeWhile (!endsPath ·)).splitOnP f.isSlash
  finish f (stretches.dropLast.foldl (enter f) []) (stretches.getLast?.getD [])

end RichDoc.Url
