import RichDoc.Text.Character
import RichDoc.Proofs.Text.Lines

/-! Words of texts that are joined. A blank parts the words around it, so a join with a blank at its
seam has the words of the first text and then those of the second. What is left of a text that is
trimmed stands in it as it was, and has its words. -/

namespace RichDoc.Text

variable {s t sep : List Char}

/-! ### Trimmed texts -/

/-- What a text loses when it is trimmed is blank. -/
theorem exists_blanks_trim (t : List Char) :
    ∃ before after, before ++ trim t ++ after = t ∧ before.all isBlank ∧ after.all isBlank := by
  have hback : trim t ++ ((t.dropWhile isBlank).reverse.takeWhile isBlank).reverse =
      t.dropWhile isBlank := by
    rw [trim, ← List.reverse_append, List.takeWhile_append_dropWhile, List.reverse_reverse]
  refine ⟨t.takeWhile isBlank, ((t.dropWhile isBlank).reverse.takeWhile isBlank).reverse, ?_,
    List.all_takeWhile, ?_⟩
  · rw [List.append_assoc, hback, List.takeWhile_append_dropWhile]
  · rw [List.all_reverse]
    exact List.all_takeWhile

theorem trim_isInfix (t : List Char) : trim t <:+: t := by
  obtain ⟨before, after, h, -⟩ := exists_blanks_trim t
  exact ⟨before, after, h⟩

theorem any_head?_dropWhile (t : List Char) : (t.dropWhile isBlank).head?.any isBlank = false := by
  have h := List.head?_dropWhile_not isBlank t
  cases hhead : (t.dropWhile isBlank).head? with
  | none => rfl
  | some c => simpa [hhead] using h

theorem any_head?_trim (t : List Char) : (trim t).head?.any isBlank = false := by
  have h := any_head?_dropWhile t
  have hprefix : trim t <+: t.dropWhile isBlank := by
    rw [trim, ← List.reverse_suffix, List.reverse_reverse]
    exact List.dropWhile_suffix _
  cases htrim : trim t with
  | nil => rfl
  | cons c u =>
    obtain ⟨v, hv⟩ := htrim ▸ hprefix
    simpa [← hv] using h

theorem any_getLast?_trim (t : List Char) : (trim t).getLast?.any isBlank = false := by
  rw [trim, List.getLast?_reverse]
  exact any_head?_dropWhile _

theorem trim_eq_nil_iff : trim t = [] ↔ t.all isBlank = true := by
  constructor
  · intro h
    obtain ⟨before, after, ht, hbefore, hafter⟩ := exists_blanks_trim t
    rw [← ht, h, List.append_nil, List.all_append, hbefore, hafter]
    rfl
  · intro h
    cases htrim : trim t with
    | nil => rfl
    | cons c u =>
      have hhead := any_head?_trim t
      have hmem : c ∈ t := (trim_isInfix t).subset (htrim ▸ List.mem_cons_self)
      rw [htrim] at hhead
      exact absurd (List.all_eq_true.mp h c hmem) (Bool.eq_false_iff.mp hhead)

theorem dropWhile_ne_nil (h : t.all isBlank = false) : t.dropWhile isBlank ≠ [] := by
  intro hnil
  have hall := List.all_takeWhile (p := isBlank) (l := t)
  have hsplit := List.takeWhile_append_dropWhile (p := isBlank) (l := t)
  rw [hnil, List.append_nil] at hsplit
  rw [hsplit, h] at hall
  cases hall

/-- A blank stays in a trimmed text when it has other characters on both sides. -/
theorem mem_trim_of_isBlank {c : Char} (hc : isBlank c = true) :
    c ∈ trim t ↔ ∃ s u, t = s ++ c :: u ∧ s.all isBlank = false ∧ u.all isBlank = false := by
  constructor
  · intro h
    obtain ⟨p, q, htrim⟩ := List.append_of_mem h
    obtain ⟨before, after, ht, -⟩ := exists_blanks_trim t
    have hhead := any_head?_trim t
    have hlast := any_getLast?_trim t
    rw [htrim] at ht hhead hlast
    refine ⟨before ++ p, q ++ after, by simp [← ht], ?_, ?_⟩
    · cases p with
      | nil => simp [hc] at hhead
      | cons d p =>
        have hd : isBlank d = false := by simpa using hhead
        simp [hd]
    · rcases List.eq_nil_or_concat q with rfl | ⟨q, d, rfl⟩
      · simp [hc] at hlast
      · have hd : isBlank d = false := by
          rwa [List.concat_eq_append, ← List.cons_append, ← List.append_assoc,
            List.getLast?_concat] at hlast
        simp [hd]
  · rintro ⟨s, u, rfl, hs, hu⟩
    have hfront := dropWhile_ne_nil hs
    have hback := dropWhile_ne_nil ((List.all_reverse (l := u)).trans hu)
    simp [trim, List.dropWhile_append, hfront, hback]

/-! ### Words -/

theorem words_append_blank {c : Char} (hc : isBlank c = true) (s t : List Char) :
    words (s ++ c :: t) = words s ++ words t := by
  rw [words, List.splitOnP_append_cons s t hc, List.filter_append]
  rfl

theorem words_blanks_append (h : sep.all isBlank) (t : List Char) :
    words (sep ++ t) = words t := by
  induction sep with
  | nil => rfl
  | cons c sep ih =>
    obtain ⟨hc, hsep⟩ := Bool.and_eq_true_iff.mp h
    exact (words_append_blank hc [] (sep ++ t)).trans (ih hsep)

/-- Blanks between two texts part their words. -/
theorem words_append_blanks_append (hne : sep ≠ []) (h : sep.all isBlank) (s t : List Char) :
    words (s ++ (sep ++ t)) = words s ++ words t := by
  cases sep with
  | nil => exact absurd rfl hne
  | cons c sep =>
    obtain ⟨hc, hsep⟩ := Bool.and_eq_true_iff.mp h
    rw [List.cons_append, words_append_blank hc, words_blanks_append hsep]

theorem words_append_blanks (h : sep.all isBlank) (s : List Char) :
    words (s ++ sep) = words s := by
  by_cases hne : sep = []
  · rw [hne, List.append_nil]
  · have hsep := words_append_blanks_append hne h s []
    rwa [List.append_nil, words_nil, List.append_nil] at hsep

theorem words_trim (t : List Char) : words (trim t) = words t := by
  obtain ⟨before, after, ht, hbefore, hafter⟩ := exists_blanks_trim t
  calc words (trim t) = words (before ++ trim t ++ after) := by
        rw [words_append_blanks hafter, words_blanks_append hbefore]
    _ = words t := by rw [ht]

/-- No word runs over a seam with a blank at it. -/
theorem words_append (h : s.getLast?.any isBlank ∨ t.head?.any isBlank) :
    words (s ++ t) = words s ++ words t := by
  rcases h with h | h
  · obtain ⟨c, hlast, hc⟩ := (Option.any_eq_true _ _).mp h
    obtain ⟨s, rfl⟩ := List.getLast?_eq_some_iff.mp hlast
    rw [List.append_assoc, List.singleton_append, words_append_blank hc, words_append_blank hc,
      words_nil, List.append_nil]
  · obtain ⟨c, hhead, hc⟩ := (Option.any_eq_true _ _).mp h
    obtain ⟨t, rfl⟩ := List.head?_eq_some_iff.mp hhead
    have hsep : [c].all isBlank = true := by simpa using hc
    rw [words_append_blank hc, ← words_blanks_append hsep t]
    rfl

theorem words_eq_singleton (hne : t ≠ []) (h : ∀ c ∈ t, isBlank c = false) : words t = [t] := by
  rw [words, List.splitOnP_eq_singleton h]
  simp [hne]

/-- Other blanks in place of blanks leave the words as they are. -/
theorem words_map {f : Char → Char} (hblank : ∀ c, isBlank (f c) = isBlank c)
    (hink : ∀ c, isBlank c = false → f c = c) (t : List Char) : words (t.map f) = words t := by
  have hsplit : (t.map f).splitOnP isBlank = t.splitOnP isBlank := by
    induction t with
    | nil => rfl
    | cons c t ih =>
      rw [List.map_cons, List.splitOnP_cons_eq_if_modifyHead,
        List.splitOnP_cons_eq_if_modifyHead, hblank, ih]
      split
      · rfl
      · next hc => rw [hink c (Bool.eq_false_iff.mpr hc)]
  rw [words, words, hsplit]

/-! ### Texts joined by blanks -/

/-- Leaving out entries with nothing in them changes nothing that is made of the others. -/
theorem flatMap_present {α β γ : Type} {g : α → List β} {f : α → List γ}
    (h : ∀ x, g x = [] → f x = []) (xs : List α) :
    (xs.filter fun x => !(g x).isEmpty).flatMap f = xs.flatMap f := by
  induction xs with
  | nil => rfl
  | cons x xs ih => by_cases hx : g x = [] <;> simp [hx, h, ih]

theorem words_intercalate (hne : sep ≠ []) (h : sep.all isBlank) (ls : List (List Char)) :
    words (sep.intercalate ls) = ls.flatMap words := by
  induction ls with
  | nil => rfl
  | cons l ls ih =>
    by_cases hrest : ls = []
    · subst hrest
      simp
    · rw [List.intercalate_cons_of_ne_nil hrest, List.append_assoc,
        words_append_blanks_append hne h, ih, List.flatMap_cons]

theorem words_joinPresent (hne : sep ≠ []) (h : sep.all isBlank) (ls : List (List Char)) :
    words (joinPresent sep ls) = ls.flatMap words := by
  rw [joinPresent, words_intercalate hne h]
  exact flatMap_present (g := id) (by simp) ls

/-- The words of a text are those of its lines. -/
theorem flatMap_words_lines (t : List Char) : (lines t).flatMap words = words t := by
  have hne : ['\n'] ≠ [] := by decide
  rw [← words_intercalate hne (by decide)]
  exact congrArg words (unlines_lines t)

theorem joinPresent_pair (sep x y : List Char) :
    joinPresent sep [x, y] =
      if x.isEmpty then y else if y.isEmpty then x else x ++ (sep ++ y) := by
  cases x <;> cases y <;> simp [joinPresent]

theorem joinPresent_pair_assoc (sep x y z : List Char) :
    joinPresent sep [joinPresent sep [x, y], z] = joinPresent sep [x, joinPresent sep [y, z]] := by
  cases x <;> cases y <;> cases z <;> simp [joinPresent_pair]

theorem intercalate_cons_present (sep x : List Char) {present : List (List Char)}
    (h : ∀ y ∈ present, y ≠ []) :
    sep.intercalate (x :: present) =
      if (sep.intercalate present).isEmpty then x else x ++ (sep ++ sep.intercalate present) := by
  cases present with
  | nil => simp
  | cons y ys => cases ys <;> simp [h y (by simp)]

theorem joinPresent_cons (sep x : List Char) (xs : List (List Char)) :
    joinPresent sep (x :: xs) = joinPresent sep [x, joinPresent sep xs] := by
  rw [joinPresent_pair]
  cases x with
  | nil => rfl
  | cons c x =>
    exact intercalate_cons_present sep (c :: x) fun y hy => by
      simpa using (List.mem_filter.mp hy).2

theorem any_head?_joinPresent (sep : List Char) {ls : List (List Char)}
    (h : ∀ l ∈ ls, l.head?.any isBlank = false) :
    (joinPresent sep ls).head?.any isBlank = false := by
  induction ls with
  | nil => simp
  | cons l ls ih =>
    obtain ⟨hl, hls⟩ := List.forall_mem_cons.mp h
    rw [joinPresent_cons, joinPresent_pair]
    cases l with
    | nil => exact ih hls
    | cons c l =>
      split
      · exact ih hls
      · split <;> exact hl

theorem any_getLast?_joinPresent (sep : List Char) {ls : List (List Char)}
    (h : ∀ l ∈ ls, l.getLast?.any isBlank = false) :
    (joinPresent sep ls).getLast?.any isBlank = false := by
  induction ls with
  | nil => simp
  | cons l ls ih =>
    obtain ⟨hl, hls⟩ := List.forall_mem_cons.mp h
    rw [joinPresent_cons, joinPresent_pair]
    split
    · exact ih hls
    · split
      · exact hl
      · next hne =>
        have hne : joinPresent sep ls ≠ [] := by simpa using hne
        have hbelow := ih hls
        rw [List.getLast?_eq_some_getLast hne] at hbelow
        rw [← List.append_assoc, List.getLast?_append, List.getLast?_eq_some_getLast hne]
        exact hbelow

/-- A join of two lists of texts joins what each of them is joined to. -/
theorem joinPresent_append (sep : List Char) (xs ys : List (List Char)) :
    joinPresent sep (xs ++ ys) = joinPresent sep [joinPresent sep xs, joinPresent sep ys] := by
  induction xs with
  | nil => simp [joinPresent_pair]
  | cons x xs ih =>
    calc joinPresent sep (x :: (xs ++ ys))
        = joinPresent sep [x, joinPresent sep [joinPresent sep xs, joinPresent sep ys]] := by
          rw [joinPresent_cons, ih]
      _ = joinPresent sep [joinPresent sep (x :: xs), joinPresent sep ys] := by
          rw [← joinPresent_pair_assoc, ← joinPresent_cons sep x xs]

theorem words_joinPresent_pair (s t : List Char) :
    words (joinPresent blankLine [s, t]) = words s ++ words t := by
  have hne : blankLine ≠ [] := by decide
  simpa using words_joinPresent hne (by decide) [s, t]

theorem ink_joinPresent_pair (s t : List Char) :
    ink (joinPresent blankLine [s, t]) = ink s ++ ink t := by
  rw [joinPresent_pair]
  split
  · next h => simp [List.isEmpty_iff.mp h, ink]
  · split
    · next h => simp [List.isEmpty_iff.mp h, ink]
    · rw [ink_append, ink_append]
      rfl

end RichDoc.Text
