import RichDoc.Proofs.Markdown.Walk
import RichDoc.Proofs.Text.Words

/-! Words of runs of text that are joined. Where neither of two runs has a blank at the seam, a space
is put between them, so no word of one runs on into the other. Thus a paragraph of runs without
marks has the words of the first run, then those of the second, and so on, and a heading has them
after its number signs. -/

namespace RichDoc.Markdown

open Text

/-- The words of a text and those of the run that comes after it are kept apart. -/
theorem words_append_seam (a : List Char) {b : List Char} (hb : b ≠ []) (t : List Char) :
    words (a ++ (seam (some a) (some b) ++ (b ++ t))) = words a ++ words (b ++ t) := by
  simp only [seam]
  split
  · next hblank =>
    rw [List.nil_append]
    apply words_append
    rcases Bool.or_eq_true_iff.mp hblank with hlast | hhead
    · exact .inl hlast
    · right
      rwa [List.head?_append_of_ne_nil _ hb]
  · exact words_append_blanks_append (by decide) (by decide) a (b ++ t)

/-- The runs after a run have their own words. -/
theorem words_append_joinAfter (a : List Char) {ps : List Piece}
    (h : ∀ p ∈ ps, p.raw? = some p.text ∧ p.text ≠ []) :
    words (a ++ joinAfter (some a) ps) = words a ++ ps.flatMap (words ·.text) := by
  -- Each run is the one before for the rest, so what stands before the rest may be any run.
  induction ps generalizing a with
  | nil => simp
  | cons p ps ih =>
    obtain ⟨⟨hraw, hne⟩, hps⟩ := List.forall_mem_cons.mp h
    rw [joinAfter_cons, hraw, List.append_assoc, words_append_seam a hne, ih p.text hps,
      List.flatMap_cons]

theorem words_joinInline {ps : List Piece} (h : ∀ p ∈ ps, p.raw? = some p.text) :
    words (joinInline ps) = ps.flatMap (words ·.text) := by
  have hpresent : ps.flatMap (words ·.text) =
      (ps.filter (!·.text.isEmpty)).flatMap (words ·.text) :=
    (flatMap_present (g := Piece.text) (by simp +contextual) ps).symm
  have hplain : ∀ p ∈ ps.filter (!·.text.isEmpty), p.raw? = some p.text ∧ p.text ≠ [] := by
    intro p hp
    obtain ⟨hmem, hne⟩ := List.mem_filter.mp hp
    exact ⟨h p hmem, by simpa using hne⟩
  rw [joinInline, hpresent]
  cases hps : ps.filter (!·.text.isEmpty) with
  | nil => rfl
  | cons p rest =>
    rw [hps] at hplain
    obtain ⟨⟨hraw, -⟩, hrest⟩ := List.forall_mem_cons.mp hplain
    rw [joinAfter_cons, hraw, List.flatMap_cons]
    exact words_append_joinAfter p.text hrest

theorem ink_seam (before after : Option (List Char)) : ink (seam before after) = [] := by
  unfold seam
  split
  · split <;> rfl
  · rfl

theorem ink_joinAfter (before : Option (List Char)) (ps : List Piece) :
    ink (joinAfter before ps) = ps.flatMap (ink ·.text) := by
  induction ps generalizing before with
  | nil => rfl
  | cons p ps ih => simp [joinAfter_cons, ink_seam, ih]

theorem ink_joinInline (ps : List Piece) : ink (joinInline ps) = ps.flatMap (ink ·.text) := by
  rw [joinInline, ink_joinAfter]
  exact flatMap_present (g := Piece.text) (by simp +contextual [ink]) ps

/-- A heading has one word of number signs, and the words of its content. -/
theorem words_heading (o : Options) (level : Nat) (content : List Char) :
    words (heading o level content) =
      List.replicate (max (min level o.maxHeading) 1) '#' :: words content := by
  have hsigns : words (List.replicate (max (min level o.maxHeading) 1) '#') =
      [List.replicate (max (min level o.maxHeading) 1) '#'] := by
    apply words_eq_singleton
    · simp only [ne_eq, List.replicate_eq_nil_iff]
      omega
    · intro c hc
      rw [List.eq_of_mem_replicate hc]
      decide
  have hspaces : words (content.map fun c => if c = '\n' then ' ' else c) = words content := by
    apply words_map
    · intro c
      split
      · next hc =>
        subst hc
        decide
      · rfl
    · intro c hc
      rw [if_neg]
      rintro rfl
      exact absurd hc (by decide)
  rw [heading, List.append_assoc, words_append_blanks_append (by decide) (by decide), hsigns,
    hspaces]
  rfl

theorem feed_not_mem_heading (o : Options) (level : Nat) (content : List Char) :
    '\n' ∉ heading o level content := by
  have hspaces : '\n' ∉ content.map fun c => if c = '\n' then ' ' else c := by
    intro hmem
    obtain ⟨c, -, hc⟩ := List.mem_map.mp hmem
    split at hc
    · exact absurd hc (by decide)
    · contradiction
  simp [heading, hspaces]

/-! ### Runs in a document -/

/-- A run of text without marks, as it is given to the rule of its parent. -/
def plain (run : String) : Piece := ⟨.text run [], run.toList⟩

theorem piece_of_text (o : Options) {t : Tree} {run : String} (h : t.kind = .text run []) :
    (t.child o).piece = plain run := by
  obtain ⟨kind, ts⟩ := t
  obtain rfl : kind = .text run [] := h
  rw [Child.piece, Tree.child, Tree.fragment_node, asText_fragmentOf, textOf, marked_nil]
  rfl

variable {d : Document} {place : Nat} {runs : List String}

theorem pieces_of_runs (o : Options) (hd : d.WellFormed)
    (hruns : (d.children place).toList.map d.kind? = runs.map fun run => some (.text run [])) :
    (((d.children place).toList.map d.treeAt).map (Tree.child o)).map Child.piece =
      runs.map plain := by
  -- The kind of a run tells its piece.
  let pieceOf (kind : Option Kind) : Piece := plain ((kind.bind Kind.rawText?).getD "")
  have hpiece : ∀ c ∈ (d.children place).toList,
      ((d.treeAt c).child o).piece = pieceOf (d.kind? c) := by
    intro c hc
    have hkind : d.kind? c ∈ runs.map fun run => some (Kind.text run []) :=
      hruns ▸ List.mem_map_of_mem hc
    obtain ⟨run, -, hrun⟩ := List.mem_map.mp hkind
    rw [← hrun]
    apply piece_of_text
    have hchild := kind?_childAt (o := o) hd (hd.child_lt_size (Array.mem_def.mpr hc))
    exact (Option.some.inj (hrun.trans hchild)).symm
  calc (((d.children place).toList.map d.treeAt).map (Tree.child o)).map Child.piece
      = (d.children place).toList.map fun c => pieceOf (d.kind? c) := by
        rw [List.map_map, List.map_map]
        exact List.map_congr_left hpiece
    _ = ((d.children place).toList.map d.kind?).map pieceOf := by
        rw [List.map_map]
        rfl
    _ = runs.map plain := by
        rw [hruns, List.map_map]
        rfl

theorem words_joinInline_plain (runs : List String) :
    words (joinInline (runs.map plain)) = runs.flatMap fun run => words run.toList := by
  have hplain : ∀ p ∈ runs.map plain, p.raw? = some p.text := by
    intro p hp
    obtain ⟨run, -, rfl⟩ := List.mem_map.mp hp
    rfl
  rw [words_joinInline hplain, List.flatMap_map]
  rfl

/-- A paragraph of runs of text without marks has the words of the runs and their characters that
are not blank, run by run. A heading of such runs has a word of number signs and then the words of
the runs, on one line. -/
theorem visitFrom_runs (o : Options) (h : d.Obtained)
    (hruns : (d.children place).toList.map d.kind? = runs.map fun run => some (.text run [])) :
    (d.kind? place = some .paragraph → ∃ pass t, visitFrom o d place = .ok pass ∧
      pass.slots[place]? = some (some (.text t)) ∧
      words t = (runs.flatMap fun run => words run.toList) ∧
      ink t = runs.flatMap fun run => ink run.toList) ∧
    ∀ level, d.kind? place = some (.heading level) → ∃ pass t, visitFrom o d place = .ok pass ∧
      pass.slots[place]? = some (some (.text t)) ∧
      words t = List.replicate (max (min level o.maxHeading) 1) '#' ::
        (runs.flatMap fun run => words run.toList) ∧
      '\n' ∉ t := by
  have hd := h.built.wellFormed
  have hpieces := pieces_of_runs o hd hruns
  constructor
  · intro hkind
    obtain ⟨pass, hpass, hslot⟩ := exists_visitFrom_text o hd hkind (by decide)
    rw [Tree.text_node, textOf, hpieces] at hslot
    refine ⟨pass, _, hpass, hslot, words_joinInline_plain runs, ?_⟩
    rw [ink_joinInline, List.flatMap_map]
    rfl
  · intro level hkind
    obtain ⟨pass, hpass, hslot⟩ := exists_visitFrom_text o hd hkind (by simp)
    rw [Tree.text_node, textOf, hpieces] at hslot
    refine ⟨pass, _, hpass, hslot, ?_, feed_not_mem_heading _ _ _⟩
    rw [words_heading, words_joinInline_plain]

/-- Runs that meet without a blank, with an empty run between them, and at a blank other than a
space. -/
def meetingRuns : List String := ["a b", "", "c", "\u00a0\nd", "e "]

/-- A paragraph and a heading of these runs. -/
def paragraphAndHeading : Document :=
  Document.pushAll {} ([(none, .paragraph), (none, .heading 2)] ++
    meetingRuns.map (fun run => (some 0, .text run [])) ++
    meetingRuns.map fun run => (some 1, .text run []))

theorem visitFrom_runs_meetingRuns :
    let d := paragraphAndHeading
    let runs : List (Option Kind) := meetingRuns.map fun run => some (.text run [])
    d.Obtained ∧ (d.children 0).toList.map d.kind? = runs ∧
    (d.children 1).toList.map d.kind? = runs ∧
    d.kind? 0 = some .paragraph ∧ d.kind? 1 = some (.heading 2) ∧
    (∃ pass t, visitFrom {} d 0 = .ok pass ∧ pass.slots[0]? = some (some (.text t)) ∧
      t = "a b c\u00a0\nd e ".toList ∧
      words t = (meetingRuns.flatMap fun run => words run.toList) ∧
      ink t = meetingRuns.flatMap fun run => ink run.toList) ∧
    ∃ pass t, visitFrom {} d 1 = .ok pass ∧ pass.slots[1]? = some (some (.text t)) ∧
      words t = ['#', '#'] :: (meetingRuns.flatMap fun run => words run.toList) ∧ '\n' ∉ t := by
  intro d runs
  have hd : d.Obtained := .inl ⟨none, _, rfl⟩
  have hruns : (d.children 0).toList.map d.kind? = runs := by decide +kernel
  have hruns' : (d.children 1).toList.map d.kind? = runs := by decide +kernel
  have hkind : d.kind? 0 = some .paragraph := by decide +kernel
  have hkind' : d.kind? 1 = some (.heading 2) := by decide +kernel
  have htext : (visitFrom {} d 0).map (·.slots[0]?) =
      .ok (some (some (.text "a b c\u00a0\nd e ".toList))) := by decide +kernel
  obtain ⟨pass, t, hpass, hslot, hread⟩ := (visitFrom_runs {} hd hruns).1 hkind
  rw [hpass, Except.map, hslot] at htext
  have ht : t = _ := Fragment.text.inj (Option.some.inj (Option.some.inj (Except.ok.inj htext)))
  exact ⟨hd, hruns, hruns', hkind, hkind', ⟨pass, t, hpass, hslot, ht, hread⟩,
    (visitFrom_runs {} hd hruns').2 2 hkind'⟩

end RichDoc.Markdown
