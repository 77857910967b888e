import RichDoc.Json.Printer
import RichDoc.Proofs.Converter.Strictness

/-! The ways into a conversion. A text, a string value with that text and the value that the text
writes lead to the same output, except that a scalar is shown only when it is given as a value. -/

namespace RichDoc

open Json

/-- The limit of nesting is told from other faults by the start of the message. -/
theorem Json.Fault.message_starts_iff (fault : Fault) :
    "recursion limit exceeded".toList <+: fault.message.toList ↔ fault.cause = .nestedTooDeeply := by
  obtain ⟨cause, place⟩ := fault
  simp only [Fault.message, String.toList_append, List.append_assoc]
  constructor
  · rintro ⟨rest, h⟩
    have hfirst : ∃ t, "recursion limit exceeded".toList = 'r' :: t := ⟨_, rfl⟩
    obtain ⟨t, ht⟩ := hfirst
    rw [ht, List.cons_append] at h
    cases cause <;> first | rfl | cases (List.cons.inj h).1
  · rintro rfl
    exact List.prefix_append _ _

/-- Arrays and objects; any other value is a scalar. -/
def Json.Value.IsTree (v : Value) : Prop := v.shape = .array ∨ v.shape = .object

theorem Json.parse_empty : ∃ fault, Json.parse "" = .error fault := ⟨_, rfl⟩

namespace Input

theorem ofText_of_fault {s : String} {fault : Fault} (hs : s ≠ "")
    (h : Json.parse s = .error fault) :
    ofText s = if fault.cause = .nestedTooDeeply then tooDeep else plain := by
  rw [ofText, if_neg (by simpa using hs), h]

theorem ofText_eq_document_iff {s : String} {v : Value} :
    ofText s = document v ↔ Json.parse s = .ok v := by
  by_cases hs : s = ""
  · subst hs
    obtain ⟨fault, h⟩ := Json.parse_empty
    rw [h]
    constructor
    · intro h
      cases h
    · intro h
      cases h
  · cases h : Json.parse s with
    | ok w =>
      rw [ofText, if_neg (by simpa using hs), h]
      simp
    | error fault =>
      rw [ofText_of_fault hs h]
      constructor
      · intro h
        split at h <;> cases h
      · intro h
        cases h

end Input

/-- Reading the document of a text fails as a text exactly when the text holds no value. -/
theorem Document.exists_fault_iff {options : BuildOptions} {s : String} :
    (∃ fault, ofText? options s = .error (.json fault)) ↔ ¬∃ v, Json.parse s = .ok v := by
  cases h : Json.parse s with
  | error fault => simp [ofText?, h]
  | ok v =>
    rw [ofText?, h]
    cases hv : ofValue? options v <;> simp [hv, Except.mapError]

namespace Converter

variable {c : Converter} {s : String} {v : Value}

theorem convertText_document (h : Json.parse s = .ok v) : c.convertText s = c.convertTree v := by
  rw [convertText, Input.ofText_eq_document_iff.mpr h]

theorem convertTree_scalar (h : ¬v.IsTree) : c.convertTree v = {} := by
  have hnone : Document.contentOf v = none := by
    cases v with
    | object => exact absurd (.inr rfl) h
    | _ => rfl
  rw [convertTree, Document.ofValue?_of_no_content hnone]

/-- A string is converted as the text that it holds. A text that writes an array or an object is
converted as that value, and one that writes a scalar is empty, although booleans and numbers that
are given as values are printed. A text nested beyond the limit fails, and any other text comes back
as it is. The document of a text is that of its value. -/
theorem convert_routes (c : Converter) (s : String) :
    c.convert (.string s) = c.convertText s ∧
    (s = "" → c.convertText s = ⟨"", {}⟩) ∧
    (∀ v, Json.parse s = .ok v →
      (v.IsTree → c.convertText s = c.convert v) ∧
      (¬v.IsTree → c.convertText s = ⟨"", {}⟩ ∧
        (v = .null → c.convert v = ⟨"", {}⟩) ∧
        (v.shape = .boolean ∨ v.shape = .number → c.convert v = ⟨v.compact, {}⟩) ∧
        ∀ t, v = .string t → c.convert v = c.convertText t)) ∧
    (∀ fault, Json.parse s = .error fault → s ≠ "" →
      ("recursion limit exceeded".toList <+: fault.message.toList →
        c.convertText s = ⟨failureText, {}⟩) ∧
      (¬"recursion limit exceeded".toList <+: fault.message.toList →
        c.convertText s = ⟨s, {}⟩)) ∧
    ∀ options,
      ((∃ fault, Document.ofText? options s = .error (.json fault)) ↔
        ¬∃ v, Input.ofText s = .document v) ∧
      ∀ v, Input.ofText s = .document v →
        Document.ofText? options s = (Document.ofValue? options v).mapError .violation := by
  refine ⟨rfl, ?_, ?_, ?_, ?_⟩
  · rintro rfl
    rfl
  · intro v hv
    rw [convertText_document hv]
    constructor
    · intro htree
      exact (convert_of_shape htree).symm
    · intro hscalar
      refine ⟨convertTree_scalar hscalar, ?_, ?_, ?_⟩
      · rintro rfl
        rfl
      · rintro (hshape | hshape)
        · cases v with
          | bool b => cases b <;> rfl
          | _ => cases hshape
        · cases v with
          | number n => rfl
          | _ => cases hshape
      · rintro t rfl
        rfl
  · intro fault hfault hs
    rw [fault.message_starts_iff, convertText, Input.ofText_of_fault hs hfault]
    constructor
    · intro hlimit
      rw [if_pos hlimit]
      rfl
    · intro hother
      rw [if_neg hother]
      rfl
  · intro options
    simp only [Input.ofText_eq_document_iff]
    refine ⟨Document.exists_fault_iff, ?_⟩
    intro v hv
    rw [Document.ofText?, hv]

def ruleText : String := "\x7b\"content\":[\x7b\"type\":\"rule\"\x7d]\x7d"

/-- A text that is no JSON, one that writes an object, and one that writes a scalar. -/
theorem convert_routes_threeTexts :
    (∃ fault, Json.parse "[x" = .error fault ∧ "[x" ≠ "" ∧
      ({} : Converter).convertText "[x" = ⟨"[x", {}⟩) ∧
    (∃ v, Json.parse ruleText = .ok v ∧ v.IsTree ∧
      ({} : Converter).convertText ruleText = ({} : Converter).convert v ∧
      (({} : Converter).convert v).content = "---") ∧
    ∃ v, Json.parse "true" = .ok v ∧ ¬v.IsTree ∧ ({} : Converter).convertText "true" = ⟨"", {}⟩ ∧
      ({} : Converter).convert v = ⟨"true", {}⟩ := by
  have hplain : Json.parse "[x" = .error ⟨.expectedValue, ⟨1, 2⟩⟩ := by rfl
  have hrule : (Json.parse ruleText).toOption.any fun v =>
      v.shape == .object && (({} : Converter).convert v).content == "---" := by decide +kernel
  have hscalar : Json.parse "true" = .ok (.bool true) := by rfl
  refine ⟨⟨_, hplain, by decide, ?_⟩, ?_, _, hscalar, ?_⟩
  · obtain ⟨-, hback⟩ := (convert_routes {} "[x").2.2.2.1 _ hplain (by decide)
    apply hback
    rw [Fault.message_starts_iff]
    decide
  · cases hv : Json.parse ruleText with
    | error fault =>
      rw [hv] at hrule
      cases hrule
    | ok v =>
      simp only [hv, Except.toOption, Option.any_some, Bool.and_eq_true, beq_iff_eq] at hrule
      obtain ⟨hshape, hcontent⟩ := hrule
      have htree : v.IsTree := .inr hshape
      exact ⟨v, rfl, htree, ((convert_routes {} ruleText).2.2.1 v hv).1 htree, hcontent⟩
  · have hno : ¬(Value.bool true).IsTree := by
      rintro (h | h) <;> cases h
    obtain ⟨htext, -, hprinted, -⟩ := ((convert_routes {} "true").2.2.1 _ hscalar).2 hno
    exact ⟨hno, htext, hprinted (.inl rfl)⟩

/-- Null is shown as nothing, and so is a string that writes a scalar itself. -/
theorem convert_scalar_not_printed :
    (∃ v, Json.parse "null" = .ok v ∧ ¬v.IsTree ∧
      (({} : Converter).convert v).content ≠ v.compact) ∧
    ∃ v, Json.parse "\"true\"" = .ok v ∧ ¬v.IsTree ∧
      (({} : Converter).convert v).content ≠ v.compact ∧
      (({} : Converter).convert v).content = "" := by
  have hnull : Json.parse "null" = .ok .null := by rfl
  have hstring : Json.parse "\"true\"" = .ok (.string "true") := by rfl
  refine ⟨⟨_, hnull, ?_, by decide⟩, _, hstring, ?_, by decide +kernel, by decide +kernel⟩
  · rintro (h | h) <;> cases h
  · rintro (h | h) <;> cases h

end Converter

end RichDoc
