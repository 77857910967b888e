import RichDoc.Mark
import RichDoc.Text.Backtick

/-! Decorated runs of text, and code. The decorations are applied in a fixed order, so that a link
always stands outermost and a code span holds at most bold and italic text. The delimiters of a code
span, and the fences of a code block, are longer than any run of backticks between them, so nothing
in the code can close it. -/

namespace RichDoc.Markdown

open Text

/-- The text between two copies of a delimiter. -/
def enclose (delimiter t : List Char) : List Char := delimiter ++ t ++ delimiter

/-- The text between two copies of a delimiter when the decoration is on. -/
def decorate (on : Bool) (delimiter t : List Char) : List Char :=
  if on then enclose delimiter t else t

/-- A code span. Its delimiters are longer than any run of backticks in the text, and a text that
holds a backtick is set off by a space on either side. -/
def codeSpan (t : List Char) : List Char :=
  if longestRun t = 0 then enclose (ticks 1) t
  else enclose (ticks (longestRun t + 1)) ([' '] ++ t ++ [' '])

def linked (target : Option String) (t : List Char) : List Char :=
  match target with
  | some href => ['['] ++ t ++ [']', '('] ++ href.toList ++ [')']
  | none => t

def unlinked (s : Style) (t : List Char) : List Char :=
  let emphasized := decorate s.italic ['*'] (decorate s.bold ['*', '*'] t)
  let inner := if s.code then codeSpan emphasized else emphasized
  let struck := decorate s.underline ['_'] (decorate s.strikethrough ['~', '~'] inner)
  decorate s.subscript ['~'] (decorate s.superscript ['^'] struck)

/-- The text in a style. The empty text stays empty in every style. -/
def styled (s : Style) (t : List Char) : List Char :=
  if t.isEmpty then [] else linked s.link (unlinked s t)

def marked (marks : List Mark) (t : List Char) : List Char := styled (Style.ofMarks marks) t

@[simp] theorem decorate_false (delimiter t : List Char) : decorate false delimiter t = t := rfl

@[simp] theorem unlinked_default (t : List Char) : unlinked {} t = t := rfl

@[simp] theorem styled_nil (s : Style) : styled s [] = [] := rfl

@[simp] theorem marked_nil (t : List Char) : marked [] t = t := by
  cases t <;> simp [marked, styled, linked]

/-! ### Fenced code -/

/-- The length of a fence around a code: at least three backticks. -/
def fenceLength (code : List Char) : Nat := max (longestRun code) 2 + 1

def fenced (language code : List Char) : List Char :=
  let fence := ticks (fenceLength code)
  fence ++ language ++ ['\n'] ++ code ++ ['\n'] ++ fence

theorem longestRun_lt_fenceLength (code : List Char) : longestRun code < fenceLength code := by
  unfold fenceLength; omega

theorem three_le_fenceLength (code : List Char) : 3 ≤ fenceLength code := by
  unfold fenceLength; omega

end RichDoc.Markdown
