import RichDoc.Proofs.Converter.Routes
import RichDoc.Proofs.Json.Nesting

/-! Texts that are no JSON. They come back as they are, except those that open too many brackets
before anything else is wrong with them. These fail like a JSON text of that nesting. -/

namespace RichDoc.Converter

open Json Grammar

variable {c : Converter} {s : String}

theorem convertText_of_exceeds (h : Exceeds levelLimit s.toList) : c.convertText s = .failed := by
  have hs : s ≠ "" := by
    rintro rfl
    have hbrackets : levelLimit < 0 := h.lt_countP
    omega
  obtain ⟨fault, hfault, hcause⟩ := (parse_nestedTooDeeply_iff s).mpr h
  rw [convertText, Input.ofText_of_fault hs hfault, if_pos hcause]

theorem convertText_of_not_exceeds (hs : s ≠ "") (h : ¬IsText s.toList)
    (hlevels : ¬Exceeds levelLimit s.toList) : c.convertText s = .ofContent s := by
  cases hparse : Json.parse s with
  | ok v =>
    rw [Json.parse] at hparse
    obtain ⟨w, hread⟩ : ∃ w, readAll (some levelLimit) s.toList = .ok w := by
      cases hread : readAll (some levelLimit) s.toList with
      | ok w => exact ⟨w, rfl⟩
      | error e =>
        rw [hread] at hparse
        cases hparse
    exact absurd (isText_of_readAll hread) h
  | error fault =>
    have hcause : fault.cause ≠ .nestedTooDeeply := by
      intro hcause
      exact hlevels ((parse_nestedTooDeeply_iff s).mp ⟨fault, hparse, hcause⟩)
    rw [convertText, Input.ofText_of_fault hs hparse, if_neg hcause]

/-- A text that is no JSON comes back as it is, in every mode and with all options, unless it opens
more brackets than the reader allows before anything else is wrong with it. Then, and only then, the
conversion fails. A text with few brackets comes back in any case. -/
theorem convertText_of_not_isText (c : Converter) (s : String) (hs : s ≠ "")
    (h : ¬IsText s.toList) :
    (¬Exceeds levelLimit s.toList → c.convertText s = .ofContent s) ∧
    (Exceeds levelLimit s.toList → c.convertText s = .ofContent failureText) ∧
    (s.toList.countP isOpening ≤ levelLimit → c.convertText s = .ofContent s) := by
  refine ⟨convertText_of_not_exceeds hs h, convertText_of_exceeds, ?_⟩
  intro hfew
  apply convertText_of_not_exceeds hs h
  intro hdeep
  have hmore := hdeep.lt_countP
  omega

/-- A text that opens lists and closes none. -/
def openLists (n : Nat) : String := String.ofList (List.replicate n '[')

theorem toList_openLists (n : Nat) : (openLists n).toList = List.replicate n '[' := by
  simp [openLists]

theorem openLists_ne_empty (n : Nat) : openLists (n + 1) ≠ "" := by
  intro h
  have hlist := congrArg String.toList h
  rw [toList_openLists] at hlist
  cases hlist

theorem not_isText_openLists (n : Nat) : ¬IsText (openLists n).toList := by
  rw [toList_openLists]
  exact not_isText_replicate n

theorem convertText_of_not_isText_openLists :
    openLists 127 ≠ "" ∧ ¬IsText (openLists 127).toList ∧
      ({} : Converter).convertText (openLists 127) = .ofContent (openLists 127) ∧
    openLists 128 ≠ "" ∧ ¬IsText (openLists 128).toList ∧
      ({} : Converter).strict.convertText (openLists 128) = .ofContent failureText := by
  have hfew := (convertText_of_not_isText {} (openLists 127) (openLists_ne_empty 126)
    (not_isText_openLists 127)).2.2
  have hdeep := (convertText_of_not_isText ({} : Converter).strict (openLists 128)
    (openLists_ne_empty 127) (not_isText_openLists 128)).2.1
  rw [toList_openLists] at hfew hdeep
  have hcount : (List.replicate 127 '[').countP isOpening ≤ levelLimit := by
    rw [List.countP_replicate]
    decide
  exact ⟨openLists_ne_empty 126, not_isText_openLists 127, hfew hcount,
    openLists_ne_empty 127, not_isText_openLists 128, hdeep (exceeds_replicate levelLimit)⟩

/-- One bracket beyond the limit is enough for a text that is no JSON not to come back. -/
theorem convertText_openLists_ne :
    openLists 128 ≠ "" ∧ ¬IsText (openLists 128).toList ∧
      (({} : Converter).convertText (openLists 128)).content ≠ openLists 128 := by
  refine ⟨openLists_ne_empty 127, not_isText_openLists 128, ?_⟩
  have hdeep : Exceeds levelLimit (openLists 128).toList := by
    rw [toList_openLists]
    exact exceeds_replicate levelLimit
  rw [convertText_of_exceeds hdeep]
  intro h
  have hlist := congrArg String.toList h
  rw [toList_openLists] at hlist
  exact absurd hlist (by decide)

end RichDoc.Converter
