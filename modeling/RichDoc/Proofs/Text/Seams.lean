import RichDoc.Proofs.Text.Runs
import Mathlib.Data.List.DropRight
import Mathlib.Order.Basic

/-! Runs of backticks in a text that is joined from two. A run lies in one of the two texts, or it
crosses the seam, and then it is made of backticks that end the first text and of backticks that
start the second. So the longest run of a join is known from its parts. -/

namespace RichDoc.Text

variable {n : Nat} {s t : List Char}

/-- The number of backticks that start a text. -/
def firstRun (t : List Char) : Nat := (t.takeWhile (· = backtick)).length

/-- The number of backticks that end a text. -/
def lastRun (t : List Char) : Nat := (t.rtakeWhile (· = backtick)).length

theorem ticks_prefix_iff : ticks n <+: t ↔ n ≤ firstRun t := by
  induction t generalizing n with
  | nil => cases n <;> simp [firstRun, ticks_succ]
  | cons c t ih =>
    cases n with
    | zero => simp
    | succ n =>
      rw [ticks_succ, List.cons_prefix_cons, ih, firstRun, firstRun, List.takeWhile_cons]
      by_cases hc : c = backtick
      · simp [hc]
      · simp [hc, Ne.symm hc]

/-- At the end of a text the scan is in the run that ends the text. -/
theorem current_scan (t : List Char) : (scan t).current = lastRun t := by
  induction t using List.reverseRecOn with
  | nil => rfl
  | append_singleton t c ih =>
    rw [scan_concat, RunScan.step, lastRun, List.rtakeWhile_concat]
    by_cases hc : c = backtick
    · simp [hc, ih, lastRun]
    · simp [hc]

/-- So many backticks stand across a seam, some before it and the others after it. -/
theorem ticks_seam_iff :
    (∃ u v, ticks n = u ++ v ∧ u <:+ s ∧ v <+: t) ↔ n ≤ lastRun s + firstRun t := by
  rw [← current_scan]
  constructor
  · rintro ⟨u, v, hcut, hu, hv⟩
    obtain ⟨hlength, hticks, hticks'⟩ := List.replicate_eq_append_iff.mp hcut
    rw [hticks] at hu
    rw [hticks'] at hv
    have hlast : u.length ≤ (scan s).current := ticks_suffix_iff.mp hu
    have hfirst : v.length ≤ firstRun t := ticks_prefix_iff.mp hv
    omega
  · intro h
    obtain ⟨i, j, rfl, hi, hj⟩ : ∃ i j, n = i + j ∧ i ≤ (scan s).current ∧ j ≤ firstRun t :=
      ⟨min n (scan s).current, n - (scan s).current, by omega, by omega, by omega⟩
    exact ⟨ticks i, ticks j, List.replicate_add i j backtick, ticks_suffix_iff.mpr hi,
      ticks_prefix_iff.mpr hj⟩

theorem longestRun_append (s t : List Char) :
    longestRun (s ++ t) = max (max (longestRun s) (longestRun t)) (lastRun s + firstRun t) := by
  refine eq_of_forall_le_iff fun n => ?_
  rw [Std.le_max, Std.le_max, or_assoc, ← ticks_infix_iff, ← ticks_infix_iff, ← ticks_infix_iff,
    ← ticks_seam_iff]
  exact List.infix_append_iff

/-- As many backticks stand in a row in a text as its longest run has, and no more. In a join the
longest run is that of one of the two texts, or the one across the seam. -/
theorem le_longestRun_iff_and_append :
    (∀ (n : Nat) (s : List Char), ticks n <:+: s ↔ n ≤ longestRun s) ∧
    ∀ s t : List Char,
      longestRun (s ++ t) = max (max (longestRun s) (longestRun t)) (lastRun s + firstRun t) :=
  ⟨fun _ _ => ticks_infix_iff, longestRun_append⟩

end RichDoc.Text
