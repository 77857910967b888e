import RichDoc.Text.Backtick
import Mathlib.Data.List.Induction
import Mathlib.Data.List.Infix

/-! Runs of backticks. The scan of a text knows the run that ends the text and the longest run in
it, and the maximal runs of a text are told by the places where they start. -/

namespace RichDoc.Text

variable {n : Nat} {s t : List Char}

@[simp] theorem ticks_zero : ticks 0 = [] := rfl

theorem ticks_succ (n : Nat) : ticks (n + 1) = backtick :: ticks n := rfl

theorem ticks_concat (n : Nat) : ticks n ++ [backtick] = ticks (n + 1) :=
  List.replicate_append_replicate (m := 1)

/-! ### The longest run -/

/-- The state of the scan at the end of a text. -/
def scan (t : List Char) : RunScan := t.foldl RunScan.step ⟨0, 0⟩

theorem scan_concat (t : List Char) (c : Char) : scan (t ++ [c]) = (scan t).step c := by
  simp [scan]

theorem ticks_suffix_concat_iff {c : Char} :
    ticks (n + 1) <:+ t ++ [c] ↔ c = backtick ∧ ticks n <:+ t := by
  rw [← ticks_concat, List.suffix_concat_iff]
  constructor
  · rintro (h | ⟨u, h, hu⟩)
    · simp at h
    · obtain ⟨rfl, hc⟩ := List.append_inj' h rfl
      exact ⟨(List.cons.inj hc).1.symm, hu⟩
  · rintro ⟨rfl, h⟩
    exact .inr ⟨_, rfl, h⟩

theorem ticks_suffix_iff : ticks n <:+ t ↔ n ≤ (scan t).current := by
  induction t using List.reverseRecOn generalizing n with
  | nil => cases n <;> simp [scan, ticks_succ]
  | append_singleton t c ih =>
    cases n with
    | zero => simp
    | succ n =>
      rw [ticks_suffix_concat_iff, scan_concat, RunScan.step, ih]
      split
      · next h => simp [h]
      · next h => simp [h]

theorem current_le_longest (t : List Char) : (scan t).current ≤ (scan t).longest := by
  induction t using List.reverseRecOn with
  | nil => exact Nat.le_refl 0
  | append_singleton t c ih =>
    rw [scan_concat, RunScan.step]
    split
    · exact Nat.le_max_right _ _
    · exact Nat.zero_le _

/-- So many backticks stand in a row somewhere in a text as its longest run has, and no more. -/
theorem ticks_infix_iff : ticks n <:+: t ↔ n ≤ longestRun t := by
  show ticks n <:+: t ↔ n ≤ (scan t).longest
  induction t using List.reverseRecOn with
  | nil => cases n <;> simp [scan, ticks_succ]
  | append_singleton t c ih =>
    rw [List.infix_concat_iff, ih, ticks_suffix_iff, scan_concat, RunScan.step]
    have := current_le_longest t
    split
    · rw [Std.le_max, or_comm]
    · simp only [Nat.le_zero]
      omega

theorem longestRun_eq_zero_iff : longestRun t = 0 ↔ backtick ∉ t := by
  have hone : ticks 1 <:+: t ↔ 1 ≤ longestRun t := ticks_infix_iff
  rw [show ticks 1 = [backtick] from rfl, List.singleton_infix_iff] at hone
  rw [hone]
  omega

/-! ### Maximal runs -/

/-- A run of backticks: the place where it starts, and its length. -/
structure TickRun where
  start : Nat
  length : Nat
  deriving DecidableEq

/-- The run stands in the text, and no backtick stands right before or right after it. -/
def TickRun.IsMaximal (r : TickRun) (t : List Char) : Prop :=
  ∃ before after, t = before ++ (ticks r.length ++ after) ∧ r.start = before.length ∧
    0 < r.length ∧ before.getLast? ≠ some backtick ∧ after.head? ≠ some backtick

/-- The maximal runs of a text whose first character stands at a place. -/
def runsFrom (place : Nat) (t : List Char) : List TickRun :=
  match t with
  | [] => []
  | c :: t =>
    if c = backtick then
      let more := (t.takeWhile (· = backtick)).length
      ⟨place, more + 1⟩ :: runsFrom (place + (more + 1)) (t.dropWhile (· = backtick))
    else runsFrom (place + 1) t
termination_by t.length
decreasing_by
  · have := (List.dropWhile_sublist (l := t) (· = backtick)).length_le
    simp only [List.length_cons]; omega
  · simp

def runs (t : List Char) : List TickRun := runsFrom 0 t

variable {place : Nat} {c : Char}

@[simp] theorem runsFrom_nil (place : Nat) : runsFrom place [] = [] := by rw [runsFrom]

theorem runsFrom_cons_of_ne (place : Nat) (t : List Char) (h : c ≠ backtick) :
    runsFrom place (c :: t) = runsFrom (place + 1) t := by
  rw [runsFrom, if_neg h]

theorem runsFrom_cons_backtick (place : Nat) (t : List Char) :
    runsFrom place (backtick :: t) =
      ⟨place, (t.takeWhile (· = backtick)).length + 1⟩ ::
        runsFrom (place + ((t.takeWhile (· = backtick)).length + 1))
          (t.dropWhile (· = backtick)) := by
  rw [runsFrom, if_pos rfl]

theorem runsFrom_ticks (place n : Nat) : runsFrom place (ticks (n + 1)) = [⟨place, n + 1⟩] := by
  have hmore : (ticks n).takeWhile (· = backtick) = ticks n := by simp [ticks]
  have hrest : (ticks n).dropWhile (· = backtick) = [] := by simp [ticks]
  rw [ticks_succ, runsFrom_cons_backtick, hmore, hrest, runsFrom_nil, length_ticks]

theorem takeWhile_append_cons (s t : List Char) (h : c ≠ backtick) :
    (s ++ c :: t).takeWhile (· = backtick) = s.takeWhile (· = backtick) := by
  induction s with
  | nil => simp [h]
  | cons d s ih => simp [List.takeWhile_cons, ih]

theorem dropWhile_append_cons (s t : List Char) (h : c ≠ backtick) :
    (s ++ c :: t).dropWhile (· = backtick) = s.dropWhile (· = backtick) ++ c :: t := by
  induction s with
  | nil => simp [h]
  | cons d s ih => by_cases hd : d = backtick <;> simp [hd, ih]

/-- A character that is no backtick parts the runs on its two sides. -/
theorem runsFrom_append_cons (place : Nat) (s t : List Char) (h : c ≠ backtick) :
    runsFrom place (s ++ c :: t) = runsFrom place s ++ runsFrom (place + s.length + 1) t := by
  fun_induction runsFrom place s with
  | case1 place => exact runsFrom_cons_of_ne place t h
  | case2 place s more ih =>
    have hlength : more + (s.dropWhile (· = backtick)).length = s.length := by
      rw [← List.length_append, List.takeWhile_append_dropWhile]
    rw [List.cons_append, runsFrom_cons_backtick, takeWhile_append_cons s t h,
      dropWhile_append_cons s t h, ih, List.length_cons, ← hlength]
    simp only [List.cons_append]
    congr 3
    omega
  | case3 place d s hd ih =>
    rw [List.cons_append, runsFrom_cons_of_ne place _ hd, ih, List.length_cons]
    congr 2
    omega

/-- A text that starts or ends beside a join with another character than a backtick shares no run
with what it is joined to. -/
theorem runsFrom_append (place : Nat)
    (h : s.getLast? ≠ some backtick ∨ t.head? ≠ some backtick) :
    runsFrom place (s ++ t) = runsFrom place s ++ runsFrom (place + s.length) t := by
  rcases h with h | h
  · rcases List.eq_nil_or_concat s with rfl | ⟨s, c, rfl⟩
    · simp
    · have hc : c ≠ backtick := by simpa using h
      rw [List.concat_eq_append, List.append_assoc, List.singleton_append,
        runsFrom_append_cons place s t hc, runsFrom_append_cons place s [] hc]
      simp [Nat.add_assoc]
  · cases t with
    | nil => simp
    | cons c t =>
      have hc : c ≠ backtick := by simpa using h
      rw [runsFrom_append_cons place s t hc, runsFrom_cons_of_ne _ t hc]

theorem runsFrom_eq_nil (place : Nat) (h : backtick ∉ t) : runsFrom place t = [] := by
  induction t generalizing place with
  | nil => exact runsFrom_nil place
  | cons c t ih =>
    obtain ⟨hc, ht⟩ := not_or.mp (List.mem_cons.not.mp h)
    rw [runsFrom_cons_of_ne place t (Ne.symm hc), ih _ ht]

theorem takeWhile_eq_ticks (t : List Char) :
    t.takeWhile (· = backtick) = ticks (t.takeWhile (· = backtick)).length := by
  rw [ticks, List.eq_replicate_iff]
  refine ⟨rfl, fun c hc => ?_⟩
  simpa using List.all_eq_true.mp List.all_takeWhile c hc

theorem head?_dropWhile_ne (t : List Char) :
    (t.dropWhile (· = backtick)).head? ≠ some backtick := by
  intro h
  have hnot := List.head?_dropWhile_not (· = backtick) t
  rw [h] at hnot
  simp at hnot

theorem exists_of_mem_runsFrom {r : TickRun} (h : r ∈ runsFrom place t) :
    ∃ before after, t = before ++ (ticks r.length ++ after) ∧ r.start = place + before.length ∧
      0 < r.length ∧ before.getLast? ≠ some backtick ∧ after.head? ≠ some backtick := by
  fun_induction runsFrom place t with
  | case1 => simp at h
  | case2 place t more ih =>
    have hcut : t = ticks more ++ t.dropWhile (· = backtick) := by
      conv_lhs => rw [← List.takeWhile_append_dropWhile (p := (· = backtick)) (l := t)]
      rw [takeWhile_eq_ticks]
    rcases List.mem_cons.mp h with rfl | h
    · refine ⟨[], t.dropWhile (· = backtick), ?_, rfl, Nat.succ_pos more, by simp, ?_⟩
      · rw [List.nil_append, ticks_succ, List.cons_append, ← hcut]
      · exact head?_dropWhile_ne t
    · obtain ⟨before, after, heq, hstart, hpos, hbefore, hafter⟩ := ih h
      -- What is left does not start with a backtick, so the run found in it is not its start.
      have hne : before ≠ [] := by
        rintro rfl
        obtain ⟨n, hn⟩ := Nat.exists_eq_add_one.mpr hpos
        have hhead := head?_dropWhile_ne t
        rw [heq, hn] at hhead
        simp [ticks_succ] at hhead
      refine ⟨ticks (more + 1) ++ before, after, ?_, ?_, hpos, ?_, hafter⟩
      · rw [List.append_assoc, ← heq, ticks_succ, List.cons_append, ← hcut]
      · rw [hstart, List.length_append, length_ticks, Nat.add_assoc]
      · rwa [List.getLast?_append_of_ne_nil _ hne]
  | case3 place c t hc ih =>
    obtain ⟨before, after, rfl, hstart, hpos, hbefore, hafter⟩ := ih h
    refine ⟨c :: before, after, rfl, ?_, hpos, ?_, hafter⟩
    · rw [hstart, List.length_cons]
      omega
    · cases before with
      | nil => simpa using hc
      | cons d before => simpa using hbefore

theorem mem_runs_iff {r : TickRun} : r ∈ runs t ↔ r.IsMaximal t := by
  constructor
  · intro h
    obtain ⟨before, after, h⟩ := exists_of_mem_runsFrom h
    rw [Nat.zero_add] at h
    exact ⟨before, after, h⟩
  · rintro ⟨before, after, rfl, hstart, hpos, hbefore, hafter⟩
    obtain ⟨n, hn⟩ := Nat.exists_eq_add_one.mpr hpos
    rw [runs, runsFrom_append 0 (.inl hbefore), runsFrom_append _ (.inr hafter), hn, runsFrom_ticks]
    obtain ⟨start, length⟩ := r
    simp_all

theorem length_le_longestRun {r : TickRun} (h : r ∈ runsFrom place t) :
    r.length ≤ longestRun t := by
  obtain ⟨before, after, rfl, -⟩ := exists_of_mem_runsFrom h
  exact ticks_infix_iff.mp (List.infix_append' _ _ _)

end RichDoc.Text
