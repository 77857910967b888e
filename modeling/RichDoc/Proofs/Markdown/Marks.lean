import RichDoc.Markdown.Span
import RichDoc.Proofs.Text.Words
import Mathlib.Data.List.Induction
import Mathlib.Data.List.Perm.Basic

/-! Lists of marks as sets. A run of text shows which decorations are among its marks, and the last
link that can be followed. The order of the marks and their number have no part in it, and neither
do marks that are not recognized. A link stands outside of all other delimiters. -/

namespace RichDoc

open Markdown Text

namespace Mark

/-- Links and marks that are not recognized are no decorations. -/
def isDecoration : Mark → Bool
  | link _ | other _ => false
  | _ => true

def isLink : Mark → Bool
  | link _ => true
  | _ => false

/-- The target of a link, unless nothing is left of it when it is trimmed. -/
def target? : Mark → Option String
  | link href => href.filter fun target => !(trim target.toList).isEmpty
  | _ => none

def targets (marks : List Mark) : List String := marks.filterMap target?

def lastTarget? (marks : List Mark) : Option String := (targets marks).getLast?

/-- Two lists of marks with the same decorations and the same last target, or both without one. -/
structure Agree (marks marks' : List Mark) : Prop where
  decorations : ∀ m : Mark, m.isDecoration → (m ∈ marks ↔ m ∈ marks')
  target : lastTarget? marks = lastTarget? marks'

variable {marks marks' before after : List Mark} {m : Mark}

theorem target?_link (href : String) :
    (link (some href)).target? = if usableHref href then some href else none := by
  have husable : usableHref href = !(trim href.toList).isEmpty := by
    rw [usableHref, Bool.eq_iff_iff]
    simp [trim_eq_nil_iff]
  rw [target?, Option.filter_some, husable]

theorem isLink_of_target? {href : String} (h : m.target? = some href) : m.isLink = true := by
  cases m <;> first | rfl | cases h

theorem isLink_eq_false (h : m.isDecoration) : m.isLink = false := by
  cases m <;> first | rfl | cases h

theorem targets_append (marks marks' : List Mark) :
    targets (marks ++ marks') = targets marks ++ targets marks' := List.filterMap_append

theorem targets_cons (m : Mark) (marks : List Mark) :
    targets (m :: marks) = m.target?.toList ++ targets marks := by
  cases h : m.target? <;> simp [targets, h]

theorem lastTarget?_concat (marks : List Mark) (m : Mark) :
    lastTarget? (marks ++ [m]) = m.target?.or (lastTarget? marks) := by
  rw [lastTarget?, targets_append, targets_cons, lastTarget?, List.getLast?_append]
  cases m.target? <;> simp [targets]

/-! ### Lists that agree -/

/-- One more mark makes no difference when it is no new decoration and, if it has a target, stands
before a link with that target. -/
theorem agree_insert (hdecoration : m.isDecoration → m ∈ before ++ after)
    (htarget : m.target? ≠ none → m ∈ after) : Agree (before ++ m :: after) (before ++ after) where
  decorations n hn := by
    have hmem : n ∈ before ++ m :: after ↔ n = m ∨ n ∈ before ++ after := by
      simp only [List.mem_append, List.mem_cons]
      exact or_left_comm
    rw [hmem, or_iff_right_of_imp]
    rintro rfl
    exact hdecoration hn
  target := by
    rw [lastTarget?, lastTarget?, targets_append, targets_append, targets_cons]
    cases hm : m.target? with
    | none => rfl
    | some href =>
      have hmem : m ∈ after := htarget (by simp [hm])
      have hlater : targets after ≠ [] :=
        List.ne_nil_of_mem (List.mem_filterMap.mpr ⟨m, hmem, hm⟩)
      rw [← List.append_assoc, List.getLast?_append_of_ne_nil _ hlater,
        List.getLast?_append_of_ne_nil _ hlater]

/-- The order of marks can only matter between links with different targets. -/
theorem agree_of_perm (h : marks.Perm marks')
    (hone : ∀ href ∈ targets marks, ∀ href' ∈ targets marks, href = href') :
    Agree marks marks' where
  decorations m _ := h.mem_iff
  target := by
    have htargets : (targets marks).Perm (targets marks') := h.filterMap target?
    have hany : ∀ l : List String, l.Pairwise fun _ _ => True :=
      fun _ => List.pairwise_of_forall fun _ _ => trivial
    have heq : targets marks = targets marks' :=
      htargets.eq_of_pairwise
        (fun href href' hmem hmem' _ _ => hone href hmem href' (htargets.mem_iff.mpr hmem'))
        (hany _) (hany _)
    rw [lastTarget?, lastTarget?, heq]

end Mark

open Mark

/-- A style is what its marks are as a set, but for the link. -/
theorem Style.ofMarks_eq (marks : List Mark) : ofMarks marks =
    { bold := decide (.strong ∈ marks)
      italic := decide (.em ∈ marks)
      code := decide (.code ∈ marks)
      strikethrough := decide (.strike ∈ marks)
      underline := decide (.underline ∈ marks)
      superscript := decide (.superscript ∈ marks)
      subscript := decide (.subscript ∈ marks)
      link := lastTarget? marks } := by
  induction marks using List.reverseRecOn with
  | nil => rfl
  | append_singleton marks m ih =>
    rw [ofMarks_concat, ih, lastTarget?_concat]
    cases m with
    | link href =>
      cases href with
      | none => simp [add, target?]
      | some href => by_cases h : usableHref href <;> simp [add, target?_link, h]
    | _ => simp [add, target?]

theorem Style.ofMarks_congr {marks marks' : List Mark} (h : Agree marks marks') :
    ofMarks marks = ofMarks marks' := by
  rw [ofMarks_eq, ofMarks_eq, h.target]
  simp only [h.decorations .strong rfl, h.decorations .em rfl, h.decorations .code rfl,
    h.decorations .strike rfl, h.decorations .underline rfl, h.decorations .superscript rfl,
    h.decorations .subscript rfl]

/-- Without its links a list of marks has the same style, but for the link. -/
theorem Style.ofMarks_filter_isLink (marks : List Mark) :
    ofMarks (marks.filter (!·.isLink)) = { ofMarks marks with link := none } := by
  have htargets : targets (marks.filter (!·.isLink)) = [] := by
    rw [targets, List.filterMap_eq_nil_iff]
    intro m hm
    cases htarget : m.target? with
    | none => rfl
    | some href =>
      have hlink := (List.mem_filter.mp hm).2
      simp [isLink_of_target? htarget] at hlink
  have hmem : ∀ m : Mark, m.isDecoration → (m ∈ marks.filter (!·.isLink) ↔ m ∈ marks) := by
    intro m hm
    simp [List.mem_filter, isLink_eq_false hm]
  rw [ofMarks_eq, ofMarks_eq, lastTarget?, htargets]
  simp only [hmem .strong rfl, hmem .em rfl, hmem .code rfl, hmem .strike rfl, hmem .underline rfl,
    hmem .superscript rfl, hmem .subscript rfl]
  rfl

namespace Markdown

variable {marks marks' : List Mark} {t : List Char}

theorem marked_congr (h : Agree marks marks') (t : List Char) :
    marked marks t = marked marks' t := by
  rw [marked, marked, Style.ofMarks_congr h]

/-- A link stands around what the other marks make of a text. -/
theorem marked_of_lastTarget? {href : String} (h : lastTarget? marks = some href) (ht : t ≠ []) :
    marked marks t =
      ['['] ++ marked (marks.filter (!·.isLink)) t ++ [']', '('] ++ href.toList ++ [')'] := by
  have hlink : (Style.ofMarks marks).link = some href := by rw [Style.ofMarks_eq, h]
  have hshown : t.isEmpty = false := by simpa using ht
  have hinside : unlinked { Style.ofMarks marks with link := none } t =
      unlinked (Style.ofMarks marks) t := rfl
  rw [marked, marked, Style.ofMarks_filter_isLink, styled, styled, hshown, hlink, ← hinside]
  rfl

/-- What marks make of a text depends on their decorations and the last target, and on nothing else:
a second copy of a mark makes no difference, with a link's copy before it; neither does a mark that
is not recognized or a link without a target, or any order of the marks when there are no two
targets. The last target stands around what the marks other than links make of the text, and the
empty text stays empty. -/
theorem marked_of_agree (marks : List Mark) (t : List Char) :
    (∀ marks', Agree marks marks' → marked marks' t = marked marks t) ∧
    (∀ before m after, marks = before ++ after →
      m ∈ after ∨ (m ∈ before ∧ m.target? = none) ∨ (m.isDecoration = false ∧ m.target? = none) →
      marked (before ++ m :: after) t = marked marks t) ∧
    (∀ marks', marks.Perm marks' →
      (∀ href ∈ targets marks, ∀ href' ∈ targets marks, href = href') →
      marked marks' t = marked marks t) ∧
    (t ≠ [] → targets marks ≠ [] → ∃ href, lastTarget? marks = some href ∧
      marked marks t =
        ['['] ++ marked (marks.filter (!·.isLink)) t ++ [']', '('] ++ href.toList ++ [')']) ∧
    marked marks [] = [] := by
  refine ⟨fun marks' h => (marked_congr h t).symm, ?_, ?_, ?_, rfl⟩
  · rintro before m after rfl h
    apply marked_congr
    rcases h with h | ⟨h, htarget⟩ | ⟨hdecoration, htarget⟩
    · exact agree_insert (fun _ => List.mem_append_right before h) fun _ => h
    · exact agree_insert (fun _ => List.mem_append_left after h) (absurd htarget)
    · exact agree_insert (fun h => absurd h (Bool.eq_false_iff.mp hdecoration)) (absurd htarget)
  · intro marks' h hone
    exact (marked_congr (agree_of_perm h hone) t).symm
  · intro ht htargets
    have hlast : lastTarget? marks = some ((targets marks).getLast htargets) :=
      List.getLast?_eq_some_getLast htargets
    exact ⟨_, hlast, marked_of_lastTarget? hlast ht⟩

/-- Bold code in a link, with a mark that is not recognized and a link whose target is blank. -/
def boldCodeLink : List Mark := [.strong, .link (some "u"), .other "x", .link (some " "), .code]

theorem marked_of_agree_boldCodeLink :
    let marks' : List Mark := [.code, .link (some "v"), .strong, .link (some "u"), .strong]
    Agree boldCodeLink marks' ∧ marked marks' ['t'] = marked boldCodeLink ['t'] ∧
    (.link (some "u") ∈ boldCodeLink ∧
      marked (.link (some "u") :: boldCodeLink) ['t'] = marked boldCodeLink ['t']) ∧
    boldCodeLink.Perm boldCodeLink.reverse ∧
    (∀ href ∈ targets boldCodeLink, ∀ href' ∈ targets boldCodeLink, href = href') ∧
    marked boldCodeLink.reverse ['t'] = marked boldCodeLink ['t'] ∧
    ['t'] ≠ [] ∧ targets boldCodeLink ≠ [] ∧
    marked boldCodeLink ['t'] = "[\x60**t**\x60](u)".toList ∧
    ∃ href, lastTarget? boldCodeLink = some href ∧
      marked boldCodeLink ['t'] =
        ['['] ++ marked (boldCodeLink.filter (!·.isLink)) ['t'] ++ [']', '('] ++ href.toList ++
          [')'] := by
  intro marks'
  have hagree : Agree boldCodeLink marks' := by
    refine ⟨fun m hm => ?_, by decide⟩
    cases m <;> first | decide | cases hm
  have hcopy : .link (some "u") ∈ boldCodeLink := by decide
  have hperm : boldCodeLink.Perm boldCodeLink.reverse := (List.reverse_perm boldCodeLink).symm
  have hone : ∀ href ∈ targets boldCodeLink, ∀ href' ∈ targets boldCodeLink, href = href' := by
    decide
  have htargets : targets boldCodeLink ≠ [] := by decide
  obtain ⟨hlists, hinsert, horder, hlink, -⟩ := marked_of_agree boldCodeLink ['t']
  exact ⟨hagree, hlists marks' hagree, ⟨hcopy, hinsert [] _ _ rfl (.inl hcopy)⟩, hperm, hone,
    horder _ hperm hone, by decide, htargets, by decide, hlink (by decide) htargets⟩

end Markdown

end RichDoc
