import RichDoc.Converter
import RichDoc.Proofs.Document.Pruning

/-! Strict and lenient conversion of the same value. A strict conversion fails as a whole when a
lenient one leaves a part out, and otherwise there is no difference. -/

namespace RichDoc.Converter

open Json

variable {c c' : Converter} {v : Value}

theorem convert_of_shape (h : v.shape = .array ∨ v.shape = .object) :
    c.convert v = c.convertTree v := by
  cases v with
  | array | object => rfl
  | _ => simp [Value.shape] at h

theorem convertTree_of_error {e : Violation} (h : Document.ofValue? c.build v = .error e) :
    c.convertTree v = .failed := by
  rw [convertTree, h]

/-- What becomes of a value depends on how it is built only through its document. -/
theorem convertTree_congr (hmarkdown : c.markdown = c'.markdown)
    (h : Document.ofValue? c.build v = Document.ofValue? c'.build v) :
    c.convertTree v = c'.convertTree v := by
  simp only [convertTree, h, render, hmarkdown]

/-- A lenient build never fails, and a strict one fails exactly when the lenient one leaves a part
out. Otherwise they give the same, and nothing is deleted from the value. The lenient document is
always the strict document of what is left of the value. The conversion of an array or an object
follows: a strict one fails or is the lenient one. -/
theorem convert_modes (max : Nat) (v : Value) :
    ∃ found : Option Document,
      Document.ofValue? { mode := .lenient, maxDepth := max } v = .ok found ∧
      ((∃ e, Document.ofValue? { mode := .strict, maxDepth := max } v = .error e) ↔
        ∃ d, found = some d ∧ 0 < d.skipped) ∧
      ((¬∃ d, found = some d ∧ 0 < d.skipped) →
        Document.ofValue? { mode := .strict, maxDepth := max } v = .ok found ∧
          pruned max v = v) ∧
      Document.ofValue? { mode := .strict, maxDepth := max } (pruned max v) =
        .ok (found.map fun d => { d with skipped := 0 }) ∧
      ∀ markdown, v.shape = .array ∨ v.shape = .object →
        let strict : Converter := { build := { mode := .strict, maxDepth := max }, markdown }
        let lenient : Converter := { build := { mode := .lenient, maxDepth := max }, markdown }
        ((∃ d, found = some d ∧ 0 < d.skipped) → strict.convert v = .ofContent failureText) ∧
        ((¬∃ d, found = some d ∧ 0 < d.skipped) → strict.convert v = lenient.convert v) := by
  obtain ⟨found, hlenient, hmodes⟩ := Document.ofValue?_modes max v
  have hpruned : Document.ofValue? { mode := .strict, maxDepth := max } (pruned max v) =
      .ok (found.map fun d => { d with skipped := 0 }) := by
    rw [Document.ofValue?_strict_pruned]
    cases hitems : Document.contentOf v with
    | none =>
      rw [Document.ofValue?_of_no_content hitems] at hlenient
      cases hlenient
      rfl
    | some items =>
      rw [Document.ofValue?_lenient rfl hitems] at hlenient
      cases hlenient
      rfl
  refine ⟨found, hlenient, ?_⟩
  rcases hmodes with ⟨hstrict, hnone⟩ | ⟨e, d, hstrict, rfl, hpos⟩
  · have hleft : ¬∃ d, found = some d ∧ 0 < d.skipped := by
      rintro ⟨d, hd, hpos⟩
      have := hnone d hd
      omega
    have hself := Document.pruned_eq_self hlenient hnone
    refine ⟨⟨?_, fun h => absurd h hleft⟩, fun _ => ⟨hstrict, hself⟩, hpruned, ?_⟩
    · rintro ⟨e, he⟩
      rw [hstrict] at he
      cases he
    · intro markdown hshape
      refine ⟨fun h => absurd h hleft, fun _ => ?_⟩
      rw [convert_of_shape hshape, convert_of_shape hshape]
      exact convertTree_congr rfl (hstrict.trans hlenient.symm)
  · have hleft : ∃ d', some d = some d' ∧ 0 < d'.skipped := ⟨d, rfl, hpos⟩
    refine ⟨⟨fun _ => hleft, fun _ => ⟨e, hstrict⟩⟩, fun h => absurd hleft h, hpruned, ?_⟩
    intro markdown hshape
    refine ⟨fun _ => ?_, fun h => absurd hleft h⟩
    rw [convert_of_shape hshape]
    exact convertTree_of_error hstrict

/-- An entry that is no object, a content that is no array, and an entry below the deepest level. -/
def threeOffences : Value :=
  .object [("content", .array [.object [("type", .string "rule")], .null,
    .object [("type", .string "paragraph"), ("content", .string "oops")],
    .object [("type", .string "blockquote"),
      ("content", .array [.object [("type", .string "rule")]])]])]

theorem convert_modes_threeOffences :
    threeOffences.shape = .object ∧
    (∃ d, Document.ofValue? { mode := .lenient, maxDepth := 0 } threeOffences = .ok (some d) ∧
      d.skipped = 3 ∧ d.size = 3) ∧
    ({ build := { mode := .strict, maxDepth := 0 } } : Converter).convert threeOffences =
      .ofContent failureText ∧
    ({ build := { mode := .lenient, maxDepth := 0 } } : Converter).convert threeOffences =
      .ofContent "---" := by
  obtain ⟨found, hlenient, -, -, -, hconvert⟩ := convert_modes 0 threeOffences
  have hshape : threeOffences.shape = .object := rfl
  have hskipped : found.map Document.skipped = some 3 ∧ found.map Document.size = some 3 := by
    have h : (Document.ofValue? { mode := .lenient, maxDepth := 0 } threeOffences).map
        (fun found => (found.map Document.skipped, found.map Document.size)) =
          .ok (some 3, some 3) := by
      decide +kernel
    rw [hlenient] at h
    simpa [Except.map] using h
  cases found with
  | none => cases hskipped.1
  | some d =>
    have h3 : d.skipped = 3 := Option.some.inj hskipped.1
    have hsize : d.size = 3 := Option.some.inj hskipped.2
    refine ⟨hshape, ⟨d, hlenient, h3, hsize⟩, ?_, by decide +kernel⟩
    exact (hconvert {} (.inr hshape)).1 ⟨d, rfl, by omega⟩

end RichDoc.Converter
