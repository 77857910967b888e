import RichDoc.Text.Lines

/-! Lines that are joined. They can be told apart again when no line has a line feed in it, and
blocks of lines can be joined in any grouping. -/

namespace RichDoc.Text

variable {ls ms : List (List Char)}

theorem lines_unlines (hne : ls ≠ []) (h : ∀ l ∈ ls, '\n' ∉ l) : lines (unlines ls) = ls :=
  List.splitOn_intercalate '\n' h hne

theorem lines_of_not_mem {l : List Char} (h : '\n' ∉ l) : lines l = [l] := by
  have hone : ∀ m ∈ [l], '\n' ∉ m := by simpa using h
  rw [← unlines_singleton l, lines_unlines (by simp) hone, unlines_singleton]

theorem unlines_lines (t : List Char) : unlines (lines t) = t := List.intercalate_splitOn '\n'

theorem lines_append_feed (s t : List Char) : lines (s ++ '\n' :: t) = lines s ++ lines t :=
  List.splitOn_append_cons_self s t

theorem feed_not_mem_of_mem_lines {l t : List Char} (h : l ∈ lines t) : '\n' ∉ l := by
  rw [lines] at h
  induction t generalizing l with
  | nil => simp_all
  | cons c t ih =>
    obtain ⟨first, rest, hcut⟩ := List.exists_cons_of_ne_nil (List.splitOn_ne_nil '\n' t)
    rw [List.splitOn_cons_eq_if_modifyHead, hcut] at h
    rw [hcut] at ih
    split at h
    · rcases List.mem_cons.mp h with rfl | h
      · exact List.not_mem_nil
      · exact ih h
    · next hc =>
      rcases List.mem_cons.mp h with rfl | h
      · have hne : '\n' ≠ c := by
          rintro rfl
          exact hc (beq_self_eq_true _)
        exact List.not_mem_cons_of_ne_of_not_mem hne (ih List.mem_cons_self)
      · exact ih (List.mem_cons_of_mem _ h)

theorem unlines_cons (l : List Char) (hne : ls ≠ []) :
    unlines (l :: ls) = l ++ '\n' :: unlines ls := by
  rw [unlines, List.intercalate_cons_of_ne_nil hne, List.append_assoc]
  rfl

theorem infix_unlines {l : List Char} (h : l ∈ ls) : l <:+: unlines ls := by
  induction ls with
  | nil => simp at h
  | cons m ls ih =>
    by_cases hrest : ls = []
    · subst hrest
      obtain rfl := List.mem_singleton.mp h
      exact (unlines_singleton l).symm ▸ List.infix_rfl
    · rw [unlines_cons m hrest]
      rcases List.mem_cons.mp h with rfl | h
      · exact (List.prefix_append l _).isInfix
      · exact List.infix_append_of_infix_right (List.infix_cons (ih h))

theorem infix_of_mem_lines {l t : List Char} (h : l ∈ lines t) : l <:+: t := by
  have hjoin := infix_unlines h
  rwa [unlines_lines] at hjoin

theorem mem_intercalate {c : Char} {sep : List Char} (hsep : c ∉ sep) :
    c ∈ sep.intercalate ls ↔ ∃ l ∈ ls, c ∈ l := by
  induction ls with
  | nil => simp
  | cons l ls ih =>
    by_cases hrest : ls = []
    · subst hrest
      simp
    · rw [List.intercalate_cons_of_ne_nil hrest, List.mem_append, List.mem_append, ih]
      simp [hsep]

theorem not_mem_intercalate {c : Char} {sep : List Char} (hsep : c ∉ sep)
    (h : ∀ l ∈ ls, c ∉ l) : c ∉ sep.intercalate ls := by
  intro hmem
  obtain ⟨l, hl, hc⟩ := (mem_intercalate hsep).mp hmem
  exact h l hl hc

theorem unlines_marked (marker l : List Char) (ls : List (List Char)) :
    unlines ((marker ++ l) :: ls) = marker ++ unlines (l :: ls) := by
  by_cases hne : ls = []
  · subst hne
    simp
  · rw [unlines_cons _ hne, unlines_cons _ hne, List.append_assoc]

theorem unlines_ne_nil (hne : ls ≠ []) (h : ∀ l ∈ ls, l ≠ []) : unlines ls ≠ [] := by
  obtain ⟨l, ls, rfl⟩ := List.exists_cons_of_ne_nil hne
  have hl : l ≠ [] := h l (by simp)
  by_cases hrest : ls = []
  · subst hrest
    simpa using hl
  · simp [unlines_cons l hrest]

theorem unlines_append (hls : ls ≠ []) (hms : ms ≠ []) :
    unlines (ls ++ ms) = unlines ls ++ '\n' :: unlines ms := by
  induction ls with
  | nil => exact absurd rfl hls
  | cons l ls ih =>
    by_cases hrest : ls = []
    · subst hrest
      rw [List.singleton_append, unlines_cons l hms, unlines_singleton]
    · have hboth : ls ++ ms ≠ [] := List.append_ne_nil_of_left_ne_nil hrest ms
      rw [List.cons_append, unlines_cons l hboth, ih hrest, unlines_cons l hrest]
      simp

/-- Blocks of lines one under the other. -/
theorem unlines_flatMap {α : Type} {f : α → List (List Char)} (h : ∀ x, f x ≠ []) (xs : List α) :
    unlines (xs.map fun x => unlines (f x)) = unlines (xs.flatMap f) := by
  induction xs with
  | nil => rfl
  | cons x xs ih =>
    by_cases hrest : xs = []
    · subst hrest
      simp
    · have hbelow : xs.flatMap f ≠ [] := by
        obtain ⟨y, ys, rfl⟩ := List.exists_cons_of_ne_nil hrest
        simp [h]
      rw [List.map_cons, unlines_cons _ (by simpa using hrest), ih, List.flatMap_cons,
        unlines_append (h x) hbelow]

theorem lines_ne_nil (t : List Char) : lines t ≠ [] := List.splitOn_ne_nil '\n' t

/-- Texts one under the other have the lines of the first, then those of the second, and so on. -/
theorem lines_unlines_map {α : Type} (f : α → List Char) {xs : List α} (hne : xs ≠ []) :
    lines (unlines (xs.map f)) = xs.flatMap fun x => lines (f x) := by
  have hblocks := unlines_flatMap (f := fun x => lines (f x)) (fun x => lines_ne_nil (f x)) xs
  simp only [unlines_lines] at hblocks
  rw [hblocks, lines_unlines]
  · obtain ⟨x, xs, rfl⟩ := List.exists_cons_of_ne_nil hne
    exact List.append_ne_nil_of_left_ne_nil (lines_ne_nil (f x)) _
  · intro l hl
    obtain ⟨x, -, hl⟩ := List.mem_flatMap.mp hl
    exact feed_not_mem_of_mem_lines hl

end RichDoc.Text
