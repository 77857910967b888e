import RichDoc.Document
import RichDoc.Text.Character

/-! Statistics of a rendering: nodes by kind, parts that were left out, and the words and characters
of the text. The counters are words of 32 bits and wrap. -/

namespace RichDoc

structure Stats where
  nodes : UInt32 := 0
  paragraphs : UInt32 := 0
  headings : UInt32 := 0
  listItems : UInt32 := 0
  tables : UInt32 := 0
  codeBlocks : UInt32 := 0
  media : UInt32 := 0
  unknown : UInt32 := 0
  skipped : UInt32 := 0
  words : UInt32 := 0
  chars : UInt32 := 0
  deriving DecidableEq, Inhabited

namespace Stats

def record (s : Stats) (kind : Kind) : Stats :=
  let s := { s with nodes := s.nodes + 1 }
  match kind with
  | .paragraph => { s with paragraphs := s.paragraphs + 1 }
  | .heading _ => { s with headings := s.headings + 1 }
  | .listItem | .taskItem _ | .decisionItem => { s with listItems := s.listItems + 1 }
  | .table => { s with tables := s.tables + 1 }
  | .codeBlock _ => { s with codeBlocks := s.codeBlocks + 1 }
  | .media _ => { s with media := s.media + 1 }
  | .unknown _ => { s with unknown := s.unknown + 1 }
  | _ => s

/-- The statistics with the words and characters of one more text. Blanks are not counted. -/
def countText (s : Stats) (t : List Char) : Stats :=
  { s with
    words := s.words + UInt32.ofNat (Text.words t).length
    chars := s.chars + UInt32.ofNat (Text.ink t).length }

def countSkipped (s : Stats) (n : Nat) : Stats := { s with skipped := s.skipped + UInt32.ofNat n }

def merge (a b : Stats) : Stats where
  nodes := a.nodes + b.nodes
  paragraphs := a.paragraphs + b.paragraphs
  headings := a.headings + b.headings
  listItems := a.listItems + b.listItems
  tables := a.tables + b.tables
  codeBlocks := a.codeBlocks + b.codeBlocks
  media := a.media + b.media
  unknown := a.unknown + b.unknown
  skipped := a.skipped + b.skipped
  words := a.words + b.words
  chars := a.chars + b.chars

/-- The counters with the names under which they are reported, in order. -/
def fields (s : Stats) : List (String × UInt32) :=
  [("node_count", s.nodes), ("paragraph_count", s.paragraphs), ("heading_count", s.headings),
    ("list_item_count", s.listItems), ("table_count", s.tables),
    ("code_block_count", s.codeBlocks), ("media_count", s.media),
    ("unknown_node_count", s.unknown), ("skipped_node_count", s.skipped),
    ("word_count", s.words), ("char_count", s.chars)]

theorem merge_comm (a b : Stats) : a.merge b = b.merge a := by
  simp [merge, UInt32.add_comm]

@[simp] theorem merge_zero (a : Stats) : a.merge {} = a := by
  simp [merge]

end Stats

end RichDoc
