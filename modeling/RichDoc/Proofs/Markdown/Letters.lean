import RichDoc.Markdown.Fragment
import RichDoc.Proofs.Text.Words
import Mathlib.Data.List.Basic

/-! Letters through the rules of Markdown. A rule may trim, cut into lines, indent, escape, number
and join the texts that it is given, but what it adds and takes away is blank, a digit or markup. A
class of other characters goes through each rule in order, with nothing lost and nothing repeated.
-/

namespace RichDoc.Markdown

open Text

/-- The characters that a rule may add or take away. -/
def isMarkup (c : Char) : Bool :=
  isBlank c || c.isDigit || "#*-.>[]|\\✓".toList.contains c

/-- A class of characters without any that a rule may add or take away. -/
def Letters (C : Char → Bool) : Prop := ∀ c, C c = true → isMarkup c = false

variable {C : Char → Bool}

theorem letters_isAlpha : Letters Char.isAlpha := by
  have hall : ∀ n < 128, (Char.ofNat n).isAlpha = true → isMarkup (Char.ofNat n) = false := by
    decide
  intro c hc
  have hlt : c.toNat < 128 := by
    rcases Bool.or_eq_true_iff.mp (hc : (c.isUpper || c.isLower) = true) with h | h
    · have hle : c.val ≤ 'Z'.val := (of_decide_eq_true h).2
      exact Nat.lt_of_le_of_lt hle (by decide)
    · have hle : c.val ≤ 'z'.val := of_decide_eq_true (Bool.and_eq_true_iff.mp h).2
      exact Nat.lt_of_le_of_lt hle (by decide)
  have := hall c.toNat hlt
  rw [Char.ofNat_toNat] at this
  exact this hc

namespace Letters

theorem eq_false (hC : Letters C) {c : Char} (h : isMarkup c = true) : C c = false := by
  cases hc : C c with
  | false => rfl
  | true => simp [hC c hc] at h

theorem filter_eq_nil (hC : Letters C) {t : List Char} (h : t.all isMarkup = true) :
    t.filter C = [] := by
  rw [List.filter_eq_nil_iff]
  intro c hc
  simp [hC.eq_false (List.all_eq_true.mp h c hc)]

/-! ### Lines -/

theorem filter_intercalate {sep : List Char} (hsep : sep.filter C = []) (ls : List (List Char)) :
    (sep.intercalate ls).filter C = ls.flatMap (·.filter C) := by
  induction ls with
  | nil => rfl
  | cons l ls ih =>
    cases ls with
    | nil => simp
    | cons l' ls => rw [List.intercalate_cons_cons, List.filter_append, ih]; simp [hsep]

theorem filter_joinPresent {sep : List Char} (hsep : sep.filter C = []) (ls : List (List Char)) :
    (joinPresent sep ls).filter C = ls.flatMap (·.filter C) := by
  rw [joinPresent, filter_intercalate hsep]
  exact flatMap_present (by simp) ls

theorem filter_unlines (hC : Letters C) (ls : List (List Char)) :
    (unlines ls).filter C = ls.flatMap (·.filter C) :=
  filter_intercalate (hC.filter_eq_nil (by decide)) ls

theorem flatMap_lines (hC : Letters C) (t : List Char) :
    (lines t).flatMap (·.filter C) = t.filter C := by
  have := filter_unlines hC (lines t)
  rwa [unlines, lines, List.intercalate_splitOn, eq_comm] at this

theorem filter_mapLines (hC : Letters C) {f : List Char → List Char}
    (hf : ∀ l, (f l).filter C = l.filter C) (t : List Char) :
    (mapLines f t).filter C = t.filter C := by
  rw [mapLines, hC.filter_unlines, List.flatMap_map, ← hC.flatMap_lines t]
  simp only [hf]

theorem filter_blanks (hC : Letters C) {t : List Char} (h : t.all isBlank = true) :
    t.filter C = [] := by
  apply hC.filter_eq_nil
  rw [List.all_eq_true] at h ⊢
  intro c hc
  simp [isMarkup, h c hc]

theorem filter_trim (hC : Letters C) (t : List Char) : (trim t).filter C = t.filter C := by
  obtain ⟨before, after, ht, hbefore, hafter⟩ := exists_blanks_trim t
  calc (trim t).filter C = (before ++ trim t ++ after).filter C := by
        rw [List.filter_append, List.filter_append, hC.filter_blanks hbefore,
          hC.filter_blanks hafter, List.nil_append, List.append_nil]
    _ = t.filter C := by rw [ht]

/-! ### List items -/

theorem filter_indentLine (hC : Letters C) (l : List Char) :
    (indentLine itemIndent l).filter C = l.filter C := by
  cases l with
  | nil => rfl
  | cons c l =>
    rw [indentLine, if_neg (by simp), List.filter_append, hC.filter_eq_nil (by decide),
      List.nil_append]

theorem flatMap_belowLines (hC : Letters C) (t : List Char) :
    (belowLines t).flatMap (·.filter C) = t.filter C := by
  rw [belowLines, List.flatMap_map, ← hC.flatMap_lines t]
  simp only [hC.filter_indentLine]

theorem flatMap_firstLines (hC : Letters C) (p : Part) :
    (firstLines p).flatMap (·.filter C) = p.text.filter C := by
  unfold firstLines
  split
  · rw [List.flatMap_cons, hC.flatMap_belowLines]
    rfl
  · rw [← hC.flatMap_lines p.text]
    cases lines p.text with
    | nil => rfl
    | cons head rest => simp [List.flatMap_map, hC.filter_indentLine]

theorem filter_composeItem (hC : Letters C) {marker : List Char} (hmarker : marker.filter C = [])
    (parts : List Part) :
    (composeItem marker parts).filter C = parts.flatMap (·.text.filter C) := by
  have hpresent : parts.flatMap (·.text.filter C) =
      (parts.filter (!·.text.isEmpty)).flatMap (·.text.filter C) :=
    (flatMap_present (g := Part.text) (by simp +contextual) parts).symm
  rw [hpresent, composeItem]
  cases parts.filter (!·.text.isEmpty) with
  | nil => rfl
  | cons first rest =>
    simp only [List.filter_append, hmarker, hC.filter_unlines, List.flatMap_append,
      List.flatMap_assoc, hC.flatMap_belowLines, hC.flatMap_firstLines]
    simp

theorem filter_joinItems (hC : Letters C) (items : List (List Char)) :
    (joinItems items).filter C = items.flatMap (·.filter C) :=
  filter_joinPresent (hC.filter_eq_nil (by decide)) items

theorem filter_dropBullet (hC : Letters C) (item : List Char) :
    (dropBullet item).filter C = item.filter C := by
  unfold dropBullet
  cases h : bullet.isPrefixOf? item with
  | none => rfl
  | some rest =>
    rw [← List.append_eq_of_isPrefixOf?_eq_some h, List.filter_append,
      hC.filter_eq_nil (by decide : bullet.all isMarkup = true)]
    rfl

theorem filter_numberMarker (hC : Letters C) (n : Nat) : (numberMarker n).filter C = [] := by
  apply hC.filter_eq_nil
  rw [numberMarker, List.all_append, Bool.and_eq_true]
  refine ⟨List.all_eq_true.mpr fun c hc => ?_, by decide⟩
  simp [isMarkup, Nat.isDigit_of_mem_toDigits (by decide) (by decide) hc]

theorem flatMap_numberItems (hC : Letters C) (items : List (List Char)) :
    (numberItems items).flatMap (·.filter C) = items.flatMap (·.filter C) := by
  have hpresent : items.flatMap (·.filter C) =
      (items.filter (!·.isEmpty)).flatMap (·.filter C) := (flatMap_present (by simp) items).symm
  rw [hpresent, numberItems]
  generalize items.filter (!·.isEmpty) = present
  suffices ∀ k, ((present.zipIdx k).map fun x =>
      numberMarker (x.2 + 1) ++ dropBullet x.1).flatMap (·.filter C) =
        present.flatMap (·.filter C) from this 0
  induction present with
  | nil => exact fun _ => rfl
  | cons item present ih =>
    intro k
    simp [List.zipIdx_cons, ih, hC.filter_numberMarker, hC.filter_dropBullet]

/-! ### Pieces -/

theorem filter_seam (hC : Letters C) (before after : Option (List Char)) :
    (seam before after).filter C = [] := by
  apply hC.filter_eq_nil
  unfold seam
  split
  · split <;> decide
  · rfl

theorem filter_joinAfter (hC : Letters C) (before : Option (List Char)) (ps : List Piece) :
    (joinAfter before ps).filter C = ps.flatMap (·.text.filter C) := by
  induction ps generalizing before with
  | nil => rfl
  | cons p ps ih => simp [joinAfter_cons, ih, hC.filter_seam]

theorem filter_joinInline (hC : Letters C) (ps : List Piece) :
    (joinInline ps).filter C = ps.flatMap (·.text.filter C) := by
  rw [joinInline, hC.filter_joinAfter]
  exact flatMap_present (g := Piece.text) (by simp +contextual) ps

theorem filter_joinBlocks (hC : Letters C) (ps : List Piece) :
    (joinBlocks ps).filter C = ps.flatMap (·.text.filter C) := by
  unfold joinBlocks
  split
  · exact hC.filter_joinInline ps
  · rw [filter_joinPresent (hC.filter_eq_nil (by decide)), List.flatMap_map]

theorem flatMap_parts (hC : Letters C) (ps : List Piece) :
    (parts ps).flatMap (·.text.filter C) = ps.flatMap (·.text.filter C) := by
  fun_induction parts ps with
  | case1 => rfl
  | case2 p ps _ ih =>
    rw [List.flatMap_cons, ih, hC.filter_joinInline, List.flatMap_cons, List.flatMap_cons,
      List.append_assoc, ← List.flatMap_append, List.takeWhile_append_dropWhile]
  | case3 p ps _ ih => rw [List.flatMap_cons, ih, List.flatMap_cons]

theorem filter_heading (hC : Letters C) (o : Options) (level : Nat) (content : List Char) :
    (heading o level content).filter C = content.filter C := by
  have hmarker : ∀ n, (List.replicate n '#').filter C = [] := fun n =>
    hC.filter_eq_nil (by simp [List.all_replicate, isMarkup])
  have hblank : (content.map fun c => if c = '\n' then ' ' else c).filter C = content.filter C := by
    induction content with
    | nil => rfl
    | cons c content ih =>
      by_cases hc : c = '\n'
      · subst hc
        have hspace : C ' ' = false := hC.eq_false (by decide)
        have hfeed : C '\n' = false := hC.eq_false (by decide)
        simp [hspace, hfeed, ih]
      · simp [hc, List.filter_cons, ih]
  rw [heading, List.filter_append, List.filter_append, hmarker, hblank,
    hC.filter_eq_nil (by decide : [' '].all isMarkup = true)]
  rfl

theorem filter_quote (hC : Letters C) (body : List Char) :
    (quote body).filter C = body.filter C := by
  unfold quote
  split
  · next h => rw [List.isEmpty_iff.mp h]
  · refine hC.filter_mapLines (fun l => ?_) body
    rw [List.filter_append, hC.filter_eq_nil (by decide), List.nil_append]

theorem filter_expand (hC : Letters C) (title : Option String) (body : List Char) :
    (expand title body).filter C = (title.getD "").toList.filter C ++ body.filter C := by
  have hstar : C '*' = false := hC.eq_false (by decide)
  unfold expand
  rw [filter_joinPresent (hC.filter_eq_nil (by decide))]
  cases title <;> simp [enclose, hstar]

/-! ### Tables -/

theorem filter_escapeBars (hC : Letters C) (t : List Char) :
    (escapeBars t).filter C = t.filter C := by
  induction t with
  | nil => rfl
  | cons c t ih =>
    have hcons : escapeBars (c :: t) =
        (if c = '|' then ['\\', '|'] else [c]) ++ escapeBars t := by
      simp [escapeBars]
    rw [hcons, List.filter_append, ih]
    split
    · next h =>
      have hbar : C '|' = false := hC.eq_false (by decide)
      have hslash : C '\\' = false := hC.eq_false (by decide)
      simp [h, hbar, hslash]
    · cases hc : C c <;> simp [hc]

theorem filter_normalizeCell (hC : Letters C) (t : List Char) :
    (normalizeCell t).filter C = t.filter C := by
  rw [normalizeCell, hC.filter_escapeBars, filter_joinPresent (hC.filter_eq_nil (by decide)),
    List.flatMap_map, ← hC.flatMap_lines t]
  simp only [hC.filter_trim]

theorem filter_rowLine (hC : Letters C) (cells : List (List Char)) :
    (Table.rowLine cells).filter C = cells.flatMap (·.filter C) :=
  filter_intercalate (hC.filter_eq_nil (by decide)) cells

theorem filter_render (hC : Letters C) (t : Table) :
    t.render.filter C = t.rows.flatMap fun row => row.flatMap (·.filter C) := by
  have hfill : ∀ row,
      (Table.fill t.columns row).flatMap (·.filter C) = row.flatMap (·.filter C) := by
    intro row
    rw [Table.fill, List.flatMap_append]
    simp
  have hruler : (Table.ruler t.columns).flatMap (·.filter C) = [] := by
    have hdashes : ['-', '-', '-'].filter C = [] := hC.filter_eq_nil (by decide)
    rw [List.flatMap_eq_nil_iff]
    intro cell hcell
    rw [List.eq_of_mem_replicate hcell, hdashes]
  have hrows : t.rows.flatMap (fun row => row.flatMap (·.filter C)) =
      (t.rows.map (Table.fill t.columns)).flatMap fun row => row.flatMap (·.filter C) := by
    simp only [List.flatMap_map, hfill]
  rw [hrows, Table.render]
  cases t.rows.map (Table.fill t.columns) with
  | nil => rfl
  | cons header body =>
    simp only [hC.filter_unlines, List.flatMap_map, List.flatMap_cons, hC.filter_rowLine, hruler]
    rfl

theorem filter_render_ofRows (hC : Letters C) (rows : List (List (List Char))) :
    (Table.ofRows rows).render.filter C = rows.flatMap fun row => row.flatMap (·.filter C) := by
  simp only [hC.filter_render, Table.ofRows, List.flatMap_map, hC.filter_normalizeCell]
  exact flatMap_present (by simp) rows

end Letters

end RichDoc.Markdown
