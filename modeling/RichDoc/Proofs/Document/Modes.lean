import RichDoc.Proofs.Document.Growth

/-! The two modes of a build side by side. Up to the first violation they take the same steps; there
the strict build stops, and the lenient build counts a part that it leaves out. -/

namespace RichDoc.Builder

variable (max : Nat) (b : Builder) (p : Pending)

@[simp] theorem skipped_add (o : Origin) (kind : Kind) :
    (b.add o kind).document.skipped = b.document.skipped := by
  simp [add]

/-- At a violation the strict build stops, and the lenient one leaves a part out. -/
theorem step_rejected {max : Nat} {b b1 : Builder} {p : Pending} {v : Violation}
    (h : ∀ mode, b.step { mode, maxDepth := max } p = (b1.reject mode v).map (·, []))
    (hskipped : b1.document.skipped = b.document.skipped) :
    ∃ v b', b.step { mode := .strict, maxDepth := max } p = .error v ∧
      b.step { mode := .lenient, maxDepth := max } p = .ok (b', []) ∧
      b'.document.skipped = b.document.skipped + 1 := by
  refine ⟨v, { b1 with document := b1.document.skip }, ?_, ?_, ?_⟩
  · rw [h]
    rfl
  · rw [h]
    rfl
  · rw [← hskipped]
    rfl

theorem step_modes :
    (∃ b' more, b.step { mode := .strict, maxDepth := max } p = .ok (b', more) ∧
      b.step { mode := .lenient, maxDepth := max } p = .ok (b', more) ∧
      b'.document.skipped = b.document.skipped) ∨
    ∃ v b', b.step { mode := .strict, maxDepth := max } p = .error v ∧
      b.step { mode := .lenient, maxDepth := max } p = .ok (b', []) ∧
      b'.document.skipped = b.document.skipped + 1 := by
  obtain ⟨v, o⟩ := p
  by_cases hdeep : max < b.document.depthUnder o.parent
  · exact .inr (step_rejected (v := .tooDeep (b.document.depthUnder o.parent) max)
      (fun _ => step_tooDeep hdeep) rfl)
  cases hv : v.members? with
  | none => exact .inr (step_rejected (fun _ => step_not_object hdeep hv) rfl)
  | some ms =>
    obtain rfl := eq_object_of_members? hv
    cases hitems : entriesBelow ms with
    | ok items =>
      left
      exact ⟨_, _, step_object hdeep hitems, step_object hdeep hitems, skipped_add b o _⟩
    | error found =>
      exact .inr (step_rejected (fun _ => step_malformed hdeep hitems) (skipped_add b o _))

/-- A lenient build never stops, and what it has left out stays left out. -/
theorem run_lenient (stack : List Pending) :
    ∃ b', run { mode := .lenient, maxDepth := max } b stack = .ok b' ∧
      b.document.skipped ≤ b'.document.skipped := by
  fun_induction run { mode := .lenient, maxDepth := max } b stack with
  | case1 b => exact ⟨b, rfl, Nat.le_refl _⟩
  | case2 b p rest v hstep =>
    rcases step_modes max b p with ⟨b', more, -, h, -⟩ | ⟨-, b', -, h, -⟩
    · rw [h] at hstep
      cases hstep
    · rw [h] at hstep
      cases hstep
  | case3 b p rest b1 more hstep _ ih =>
    obtain ⟨b', hrun, hle⟩ := ih
    refine ⟨b', hrun, Nat.le_trans ?_ hle⟩
    rcases step_modes max b p with ⟨b2, more2, -, h, hskipped⟩ | ⟨-, b2, -, h, hskipped⟩
    · rw [h] at hstep
      cases hstep
      omega
    · rw [h] at hstep
      cases hstep
      omega

/-- The modes build the same, and leave nothing out, or the strict build stops and the lenient one
leaves something out. -/
theorem run_modes (stack : List Pending) :
    (∃ b', run { mode := .strict, maxDepth := max } b stack = .ok b' ∧
      run { mode := .lenient, maxDepth := max } b stack = .ok b' ∧
      b'.document.skipped = b.document.skipped) ∨
    ∃ v b', run { mode := .strict, maxDepth := max } b stack = .error v ∧
      run { mode := .lenient, maxDepth := max } b stack = .ok b' ∧
      b.document.skipped < b'.document.skipped := by
  -- The runs are in step as long as the strict one goes on.
  fun_induction run { mode := .strict, maxDepth := max } b stack with
  | case1 b => exact .inl ⟨b, rfl, run_nil _ b, rfl⟩
  | case2 b p rest v hstep =>
    rcases step_modes max b p with ⟨b1, more, h, -, -⟩ | ⟨v', b1, h, hlenient, hskipped⟩
    · rw [h] at hstep
      cases hstep
    · obtain ⟨b', hrun, hle⟩ := run_lenient max b1 ([] ++ rest)
      refine .inr ⟨v, b', rfl, ?_, by omega⟩
      rw [run_cons, hlenient]
      exact hrun
  | case3 b p rest b1 more hstep _ ih =>
    rcases step_modes max b p with ⟨b2, more2, h, hlenient, hskipped⟩ | ⟨v, b2, h, -, -⟩
    · rw [h] at hstep
      cases hstep
      have hcons : run { mode := .lenient, maxDepth := max } b (p :: rest) =
          run { mode := .lenient, maxDepth := max } b1 (more ++ rest) := by
        rw [run_cons, hlenient]
        rfl
      rw [hcons, ← hskipped]
      exact ih
    · rw [h] at hstep
      cases hstep

end RichDoc.Builder

namespace RichDoc.Document

open Json

variable (max : Nat) (v : Value)

/-- A strict build fails exactly where the lenient build leaves something out; elsewhere the two
give the same. -/
theorem ofValue?_modes :
    ∃ found, ofValue? { mode := .lenient, maxDepth := max } v = .ok found ∧
      (ofValue? { mode := .strict, maxDepth := max } v = .ok found ∧
          (∀ d, found = some d → d.skipped = 0) ∨
        ∃ e d, ofValue? { mode := .strict, maxDepth := max } v = .error e ∧
          found = some d ∧ 0 < d.skipped) := by
  cases hitems : contentOf v with
  | none =>
    refine ⟨none, ofValue?_of_no_content hitems, .inl ⟨ofValue?_of_no_content hitems, ?_⟩⟩
    intro d hd
    cases hd
  | some items =>
    simp only [ofValue?_of_content hitems]
    rcases Builder.run_modes max { document := { version := versionOf v } } (pendingOf none items)
      with ⟨b, hstrict, hlenient, hskipped⟩ | ⟨e, b, hstrict, hlenient, hskipped⟩
    · refine ⟨some b.document, by rw [hlenient]; rfl, .inl ⟨by rw [hstrict]; rfl, ?_⟩⟩
      intro d hd
      cases hd
      exact hskipped
    · exact ⟨some b.document, by rw [hlenient]; rfl,
        .inr ⟨e, b.document, by rw [hstrict]; rfl, rfl, hskipped⟩⟩

theorem ofValue?_strict_of_nothing_skipped {found : Option Document}
    (h : ofValue? { mode := .lenient, maxDepth := max } v = .ok found)
    (hskipped : ∀ d, found = some d → d.skipped = 0) :
    ofValue? { mode := .strict, maxDepth := max } v = .ok found := by
  obtain ⟨found', hlenient, hmodes⟩ := ofValue?_modes max v
  rw [h] at hlenient
  cases hlenient
  rcases hmodes with ⟨hstrict, -⟩ | ⟨e, d, -, hd, hpos⟩
  · exact hstrict
  · rw [hskipped d hd] at hpos
    exact absurd hpos (by decide)

/-- In either mode, a document that is built has the trees into which the entries grow. -/
theorem eq_ofEntries {options : BuildOptions} {v : Value} {d : Document}
    (h : ofValue? options v = .ok (some d)) :
    ∃ items, contentOf v = some items ∧ d = ofEntries options.maxDepth (versionOf v) items := by
  cases hitems : contentOf v with
  | none =>
    rw [ofValue?_of_no_content hitems] at h
    cases h
  | some items =>
    refine ⟨items, rfl, ?_⟩
    have hlenient : ofValue? { mode := .lenient, maxDepth := options.maxDepth } v =
        .ok (some (ofEntries options.maxDepth (versionOf v) items)) := ofValue?_lenient rfl hitems
    obtain ⟨mode, max⟩ := options
    cases mode with
    | lenient =>
      rw [h] at hlenient
      exact Option.some.inj (Except.ok.inj hlenient)
    | strict =>
      obtain ⟨found, hfound, ⟨hstrict, -⟩ | ⟨e, -, hstrict, -⟩⟩ := ofValue?_modes max v
      · rw [h] at hstrict
        rw [← Except.ok.inj hstrict, hlenient] at hfound
        exact (Option.some.inj (Except.ok.inj hfound)).symm
      · rw [h] at hstrict
        cases hstrict

end RichDoc.Document
