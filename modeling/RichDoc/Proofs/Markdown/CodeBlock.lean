import RichDoc.Proofs.Markdown.Walk
import RichDoc.Proofs.Text.Lines
import RichDoc.Proofs.Text.Runs
import RichDoc.Proofs.Text.Words

/-! Code blocks. No line of the code can close the fence around it, so a reader that knows the
opening line finds the code again, whatever it is made of. -/

namespace RichDoc

open Markdown Text

/-- The code that a node adds to the block around it: its literal text, or a line break. -/
def Kind.code : Kind → List Char
  | .text t _ => t.toList
  | .hardBreak => ['\n']
  | _ => []

/-- The code of the block at a place, read off the kinds of its children. -/
def Document.codeAt (d : Document) (place : Nat) : List Char :=
  (d.children place).toList.flatMap fun c => ((d.kind? c).map Kind.code).getD []

namespace Markdown

variable {n : Nat} {code language : List Char}

/-- A line closes a fence when it has backticks, at least as many as the fence, and otherwise only
blanks on either side of them. -/
def closes (n : Nat) (line : List Char) : Bool :=
  (trim line).all (· = backtick) && n ≤ (trim line).length

/-- Reads the code between a fence of a length with a language and the first line that closes it. -/
def readFenced? (n : Nat) (language t : List Char) : Option (List Char) := do
  let below ← (ticks n ++ language ++ ['\n']).isPrefixOf? t
  let ls := lines below
  if ls.any (closes n) then some (unlines (ls.takeWhile (!closes n ·))) else none

/-- A text that is a code between two fences of a length, so that the code can be read back. -/
structure Fenced (n : Nat) (language code t : List Char) : Prop where
  three_le : 3 ≤ n
  text_eq : t = ticks n ++ language ++ ['\n'] ++ code ++ ['\n'] ++ ticks n
  not_infix : ∀ line ∈ lines code, ¬ticks n <:+: line
  readFenced? : readFenced? n language t = some code

theorem ticks_infix_of_closes {line : List Char} (h : closes n line) : ticks n <:+: line := by
  obtain ⟨hall, hlength⟩ := Bool.and_eq_true_iff.mp h
  have htrim : trim line = ticks (trim line).length := by
    rw [ticks, List.eq_replicate_iff]
    exact ⟨rfl, by simpa using hall⟩
  have hle : n ≤ (trim line).length := of_decide_eq_true hlength
  have hprefix : ticks n <+: trim line := by
    rw [htrim, ticks, ticks, List.prefix_replicate_iff, List.length_replicate]
    exact ⟨hle, rfl⟩
  exact hprefix.isInfix.trans (trim_isInfix line)

theorem closes_ticks (n : Nat) : closes n (ticks n) := by
  have hblank : isBlank backtick = false := by decide
  have hdrop : (ticks n).dropWhile isBlank = ticks n := by
    simp [ticks, hblank]
  have htrim : trim (ticks n) = ticks n := by
    rw [trim, hdrop, show (ticks n).reverse = ticks n from List.reverse_replicate, hdrop]
    exact List.reverse_replicate
  rw [closes, htrim, length_ticks]
  simp [ticks]

theorem not_infix_of_longestRun_lt (h : longestRun code < n) :
    ∀ line ∈ lines code, ¬ticks n <:+: line := by
  intro line hline hrun
  have := ticks_infix_iff.mp (hrun.trans (infix_of_mem_lines hline))
  omega

theorem readFenced?_of_not_infix (language : List Char)
    (h : ∀ line ∈ lines code, ¬ticks n <:+: line) :
    readFenced? n language (ticks n ++ language ++ ['\n'] ++ code ++ ['\n'] ++ ticks n) =
      some code := by
  have hopen : ∀ line ∈ lines code, (!closes n line) = true := by
    intro line hline
    rw [Bool.not_eq_true', Bool.eq_false_iff]
    exact fun hcloses => h line hline (ticks_infix_of_closes hcloses)
  have hlines : lines (code ++ ['\n'] ++ ticks n) = lines code ++ [ticks n] := by
    have hfeed : '\n' ∉ ticks n := by
      intro hmem
      exact absurd (List.eq_of_mem_replicate hmem) (by decide)
    rw [List.append_assoc, List.singleton_append, lines_append_feed, lines_of_not_mem hfeed]
  have hany : (lines code ++ [ticks n]).any (closes n) = true := by
    simp [closes_ticks n]
  have htake : (lines code ++ [ticks n]).takeWhile (!closes n ·) = lines code := by
    rw [List.takeWhile_append_of_pos hopen]
    simp [closes_ticks n]
  have hbelow : (ticks n ++ language ++ ['\n']).isPrefixOf?
      (ticks n ++ language ++ ['\n'] ++ (code ++ ['\n'] ++ ticks n)) =
        some (code ++ ['\n'] ++ ticks n) :=
    List.isPrefixOf?_eq_some_iff_append_eq.mpr rfl
  rw [List.append_assoc _ code, List.append_assoc _ (code ++ _), readFenced?, hbelow]
  simp only [Option.bind_eq_bind, Option.bind_some, hlines, hany, htake, if_true, unlines_lines]

theorem fenced_fenced (language code : List Char) :
    Fenced (fenceLength code) language code (fenced language code) := by
  have h := not_infix_of_longestRun_lt (longestRun_lt_fenceLength code)
  exact ⟨three_le_fenceLength code, rfl, h, readFenced?_of_not_infix language h⟩

variable {d : Document}

theorem codeOf_children (o : Options) (hd : d.WellFormed) (place : Nat) :
    codeOf (((d.children place).toList.map (childAt o d)).map Child.piece) = d.codeAt place := by
  rw [codeOf, List.map_map, List.flatMap_map, Document.codeAt]
  apply List.flatMap_congr
  intro c hc
  have hkind := kind?_childAt (o := o) hd (hd.child_lt_size (Array.mem_def.mpr hc))
  rw [hkind]
  rfl

/-- When the turn of a code block has come, its slot holds its code between two fences: the literal
texts and the line breaks among its children, in order. The fences have at least three backticks and
no line of the code has as many in a row, so the code can be read back. -/
theorem visitFrom_codeBlock (o : Options) (h : d.Obtained) {place : Nat} {language : Option String}
    (hkind : d.kind? place = some (.codeBlock language)) :
    ∃ n pass t, visitFrom o d place = .ok pass ∧ pass.slots[place]? = some (some (.text t)) ∧
      Fenced n (language.getD "").toList (d.codeAt place) t := by
  have hd := h.built.wellFormed
  obtain ⟨node, hn, hnode⟩ := Option.map_eq_some_iff.mp hkind
  have hplace : place < d.size := (Array.getElem?_eq_some_iff.mp hn).1
  obtain ⟨pass, hpass, hreached⟩ := exists_visitFrom o hd (Nat.le_of_lt hplace)
  have hfree : ∀ p, place ≤ p → place ∉ d.children p := by
    intro p hp hmem
    have := hd.lt_child hmem
    omega
  have hfragment : fragmentAt o d place =
      .text (fenced (language.getD "").toList (d.codeAt place)) := by
    rw [fragmentAt_eq hd hn, hnode, fragmentOf, if_neg (by simp), textOf,
      ← Document.children_of_node? hn, codeOf_children o hd place]
  refine ⟨fenceLength (d.codeAt place), pass, _, hpass, ?_, fenced_fenced _ _⟩
  rw [hreached.filled place (Nat.le_refl place) hplace hfree, hfragment]

/-- A code whose first line is a fence that neither of two texts holds alone, and whose last line is
empty. -/
def splitFence : Document :=
  Document.pushAll {} [(none, .codeBlock (some "md")), (some 0, .text "\x60\x60" []),
    (some 0, .text "\x60\x60" [.strong]), (some 0, .hardBreak)]

theorem visitFrom_codeBlock_splitFence :
    splitFence.Obtained ∧ splitFence.kind? 0 = some (.codeBlock (some "md")) ∧
      splitFence.codeAt 0 = "\x60\x60\x60\x60\n".toList ∧
      ∃ n pass t, visitFrom {} splitFence 0 = .ok pass ∧
        pass.slots[0]? = some (some (.text t)) ∧
        Fenced n "md".toList (splitFence.codeAt 0) t := by
  have hd : splitFence.Obtained := .inl ⟨none, _, rfl⟩
  have hkind : splitFence.kind? 0 = some (.codeBlock (some "md")) := by decide
  exact ⟨hd, hkind, by decide, visitFrom_codeBlock {} hd hkind⟩

end Markdown

end RichDoc
