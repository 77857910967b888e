import RichDoc.Markdown.Span
import RichDoc.Proofs.Text.Runs

/-! Code spans. The delimiters of a span are longer than every run of backticks in its text and
never touch one, so they are the only runs of their length in the decorated text. -/

namespace RichDoc.Markdown

open Text

variable {s : Style} {t : List Char}

/-- The delimiter of a decoration that is on. -/
def delimiterIf (on : Bool) (delimiter : List Char) : List Char := if on then delimiter else []

theorem decorate_eq (on : Bool) (delimiter t : List Char) :
    decorate on delimiter t = delimiterIf on delimiter ++ t ++ delimiterIf on delimiter := by
  cases on <;> simp [decorate, delimiterIf, enclose]

/-- The asterisks on either side of a text in bold, italic, or both. -/
def stars (s : Style) : List Char :=
  List.replicate ((if s.bold then 2 else 0) + (if s.italic then 1 else 0)) '*'

def emphasized (s : Style) (t : List Char) : List Char := stars s ++ t ++ stars s

theorem decorate_italic_bold (s : Style) (t : List Char) :
    decorate s.italic ['*'] (decorate s.bold ['*', '*'] t) = emphasized s t := by
  cases hb : s.bold <;> cases hi : s.italic <;>
    simp [decorate, enclose, emphasized, stars, hb, hi, List.replicate_succ]

/-- The delimiters before a code span: those of the decorations that are applied after it. -/
def outside (s : Style) : List Char :=
  delimiterIf s.subscript ['~'] ++ delimiterIf s.superscript ['^'] ++
    delimiterIf s.underline ['_'] ++ delimiterIf s.strikethrough ['~', '~']

theorem unlinked_code (hcode : s.code = true) (t : List Char) :
    unlinked s t = outside s ++ (codeSpan (emphasized s t) ++ (outside s).reverse) := by
  have hreverse : ∀ on delimiter, delimiter.reverse = delimiter →
      (delimiterIf on delimiter).reverse = delimiterIf on delimiter := by
    intro on delimiter h
    cases on
    · rfl
    · exact h
  simp only [unlinked, hcode, if_true]
  rw [decorate_italic_bold]
  simp only [decorate_eq, outside, List.reverse_append, List.append_assoc]
  simp [hreverse]

theorem backtick_not_mem_outside (s : Style) : backtick ∉ outside s := by
  have h : ∀ on delimiter, delimiter.contains backtick = false →
      backtick ∉ delimiterIf on delimiter := by
    intro on delimiter h
    cases on
    · exact List.not_mem_nil
    · simpa [delimiterIf] using h
  simp only [outside, List.mem_append, not_or]
  exact ⟨⟨⟨h _ _ rfl, h _ _ rfl⟩, h _ _ rfl⟩, h _ _ rfl⟩

/-- What stands between the delimiters of a code span. -/
def padded (t : List Char) : List Char :=
  let padding : List Char := if backtick ∈ t then [' '] else []
  padding ++ t ++ padding

theorem codeSpan_eq (t : List Char) :
    codeSpan t = ticks (longestRun t + 1) ++ (padded t ++ ticks (longestRun t + 1)) := by
  unfold codeSpan padded
  split
  · next h => simp [longestRun_eq_zero_iff.mp h, h, enclose]
  · next h => simp [show backtick ∈ t from not_not.mp (longestRun_eq_zero_iff.not.mp h), enclose]

theorem padded_ne_nil (h : t ≠ []) : padded t ≠ [] := by
  simp [padded, h]

theorem head?_padded_ne (t : List Char) : (padded t).head? ≠ some backtick := by
  unfold padded
  split
  · show some ' ' ≠ some backtick
    decide
  · next h => simpa using fun hhead => h (List.mem_of_head? hhead)

theorem getLast?_padded_ne (t : List Char) : (padded t).getLast? ≠ some backtick := by
  unfold padded
  split
  · rw [List.getLast?_concat]
    decide
  · next h => simpa using fun hlast => h (List.mem_of_getLast? hlast)

/-- The padding hides no run of the text and adds none. -/
theorem exists_runsFrom_padded (place : Nat) (t : List Char) :
    ∃ start, runsFrom place (padded t) = runsFrom start t := by
  unfold padded
  split
  · have hspace : ' ' ≠ backtick := by decide
    refine ⟨place + 1, ?_⟩
    show runsFrom place (' ' :: (t ++ [' '])) = _
    rw [runsFrom_cons_of_ne place _ hspace, runsFrom_append_cons _ t [] hspace, runsFrom_nil,
      List.append_nil]
  · exact ⟨place, by simp⟩

/-- Of the runs of a code span with other characters around it, only the delimiters are longer than
the longest run of its text. -/
theorem filter_runs_codeSpan {before after : List Char} (hbefore : backtick ∉ before)
    (hafter : backtick ∉ after) (hne : t ≠ []) :
    (runs (before ++ (codeSpan t ++ after))).filter (longestRun t + 1 ≤ ·.length) =
      [⟨before.length, longestRun t + 1⟩,
        ⟨before.length + (longestRun t + 1) + (padded t).length, longestRun t + 1⟩] := by
  have hlast : before.getLast? ≠ some backtick := fun h => hbefore (List.mem_of_getLast? h)
  have hinside : (padded t ++ (ticks (longestRun t + 1) ++ after)).head? ≠ some backtick := by
    rw [List.head?_append_of_ne_nil _ (padded_ne_nil hne)]
    exact head?_padded_ne t
  have hfirst : after.head? ≠ some backtick := fun h => hafter (List.mem_of_head? h)
  obtain ⟨start, hpadded⟩ :=
    exists_runsFrom_padded (0 + before.length + (longestRun t + 1)) t
  have hshort : (runsFrom start t).filter (longestRun t + 1 ≤ ·.length) = [] := by
    rw [List.filter_eq_nil_iff]
    intro r hr
    have := length_le_longestRun hr
    simp only [decide_eq_true_eq]
    omega
  have hlong : ∀ place, [(⟨place, longestRun t + 1⟩ : TickRun)].filter
      (longestRun t + 1 ≤ ·.length) = [⟨place, longestRun t + 1⟩] := by
    intro place
    exact List.filter_cons_of_pos (decide_eq_true (Nat.le_refl _))
  -- None of the four seams has a backtick on both sides, so the runs can be listed piece by piece.
  rw [codeSpan_eq, List.append_assoc, List.append_assoc, runs, runsFrom_append 0 (.inl hlast),
    runsFrom_append _ (.inr hinside), runsFrom_append _ (.inl (getLast?_padded_ne t)),
    runsFrom_append _ (.inr hfirst), runsFrom_eq_nil 0 hbefore, runsFrom_eq_nil _ hafter,
    runsFrom_ticks, runsFrom_ticks, length_ticks, hpadded]
  simp only [List.filter_append, List.filter_nil, hshort, hlong]
  rw [Nat.zero_add, List.nil_append, List.nil_append, List.append_nil, List.singleton_append]

/-- A text in a style with code and without a link stands between two runs of backticks of one
length, and no other run in what is written is as long as these. Between them is the text with its
asterisks, set off by a space on either side if it holds a backtick. -/
theorem styled_code_runs (s : Style) (t : List Char) (hne : t ≠ []) (hcode : s.code = true)
    (hlink : s.link = none) :
    ∃ n before after, 1 ≤ n ∧
      styled s t = before ++ (ticks n ++ (padded (emphasized s t) ++ (ticks n ++ after))) ∧
      ∀ r : TickRun, r.IsMaximal (styled s t) ∧ n ≤ r.length ↔
        r = ⟨before.length, n⟩ ∨
        r = ⟨before.length + n + (padded (emphasized s t)).length, n⟩ := by
  have hshown : emphasized s t ≠ [] := by
    simp [emphasized, hne]
  have hstyled : styled s t =
      outside s ++ (codeSpan (emphasized s t) ++ (outside s).reverse) := by
    rw [styled, if_neg (by simpa using hne), hlink, linked, unlinked_code hcode]
  refine ⟨longestRun (emphasized s t) + 1, outside s, (outside s).reverse, by omega, ?_, ?_⟩
  · rw [hstyled, codeSpan_eq, List.append_assoc, List.append_assoc]
  · intro r
    have hafter : backtick ∉ (outside s).reverse := by
      simpa using backtick_not_mem_outside s
    have hruns := filter_runs_codeSpan (backtick_not_mem_outside s) hafter hshown
    rw [← mem_runs_iff, hstyled, ← List.mem_pair, ← hruns, List.mem_filter, decide_eq_true_iff]

/-- A text that is nothing but backticks, in bold code that is struck through. -/
theorem styled_code_runs_backticks :
    let s : Style := { bold := true, code := true, strikethrough := true }
    ticks 2 ≠ [] ∧ s.code = true ∧ s.link = none ∧
      styled s (ticks 2) = "~~\x60\x60\x60 **\x60\x60** \x60\x60\x60~~".toList ∧
      ∃ n before after, 1 ≤ n ∧
        styled s (ticks 2) =
          before ++ (ticks n ++ (padded (emphasized s (ticks 2)) ++ (ticks n ++ after))) ∧
        ∀ r : TickRun, r.IsMaximal (styled s (ticks 2)) ∧ n ≤ r.length ↔
          r = ⟨before.length, n⟩ ∨
          r = ⟨before.length + n + (padded (emphasized s (ticks 2))).length, n⟩ :=
  ⟨by decide, rfl, rfl, by decide, styled_code_runs _ _ (by decide) rfl rfl⟩

end RichDoc.Markdown
