import RichDoc.Boundary
import RichDoc.Proofs.Document.Forest
import RichDoc.Proofs.Json.Written
import RichDoc.Proofs.Converter.Routes

/-! Texts across the boundary. A text without zero characters is passed in and out as it is, and a
rendering that holds one is passed out as the empty text. -/

namespace RichDoc.Boundary

open Json

/-! ### Bytes -/

/-- The bytes that encode a text. -/
def bytesOf (s : String) : List UInt8 := s.toUTF8.data.toList

/-- A text as it is passed: its bytes and a zero byte, with whatever lies beyond it. -/
def passed (s : String) (beyond : List UInt8) : List UInt8 := bytesOf s ++ 0 :: beyond

theorem bytesOf_eq (s : String) : bytesOf s = s.toList.flatMap String.utf8EncodeChar := by
  rw [bytesOf, String.toUTF8_eq_toByteArray, ← String.utf8Encode_toList, List.utf8Encode,
    List.toList_data_toByteArray]

theorem zero_ne_ofNat {n : Nat} (h : n % 256 ≠ 0) : (0 : UInt8) ≠ UInt8.ofNat n := by
  intro heq
  have := congrArg UInt8.toNat heq
  rw [UInt8.toNat_ofNat'] at this
  exact h this.symm

/-- Only the zero character has a zero byte: the bytes of longer encodings are at least 128. -/
theorem eq_zero_of_zero_mem_utf8EncodeChar {c : Char} (h : 0 ∈ String.utf8EncodeChar c) :
    c = '\x00' := by
  revert h
  fun_cases String.utf8EncodeChar c with
  | case1 v hv =>
    intro h
    by_contra hne
    have hpos : v ≠ 0 := fun hzero => hne (Char.toNat_inj.mp hzero)
    exact zero_ne_ofNat (by omega) (List.mem_singleton.mp h)
  | case2 v | case3 v | case4 v =>
    intro h
    simp (disch := omega) only [List.mem_cons, zero_ne_ofNat, List.not_mem_nil, or_self] at h

theorem zero_not_mem_bytesOf {s : String} (h : '\x00' ∉ s.toList) : 0 ∉ bytesOf s := by
  rw [bytesOf_eq]
  intro hmem
  obtain ⟨c, hc, hzero⟩ := List.mem_flatMap.mp hmem
  exact h (eq_zero_of_zero_mem_utf8EncodeChar hzero ▸ hc)

theorem fromUTF8?_bytesOf (s : String) : String.fromUTF8? ⟨(bytesOf s).toArray⟩ = some s := by
  have hbytes : (⟨(bytesOf s).toArray⟩ : ByteArray) = s.toByteArray := rfl
  rw [hbytes, String.fromUTF8?, dif_pos s.isValidUTF8]
  rfl

theorem beforeZero_passed {s : String} (h : '\x00' ∉ s.toList) (beyond : List UInt8) :
    beforeZero (passed s beyond) = bytesOf s := by
  have hne : ∀ b ∈ bytesOf s, (b != 0) = true := by
    intro b hb
    rw [bne_iff_ne]
    rintro rfl
    exact zero_not_mem_bytesOf h hb
  rw [beforeZero, passed, List.takeWhile_append_of_pos hne]
  simp

theorem read_passed {s : String} (h : '\x00' ∉ s.toList) (beyond : List UInt8) :
    read (some (passed s beyond)) = .ok s := by
  rw [read, beforeZero_passed h, fromUTF8?_bytesOf]

/-! ### Calls -/

theorem passable_eq (s : String) : passable s = if '\x00' ∈ s.toList then "" else s := by
  simp [passable]

theorem zero_not_mem_passable (s : String) : '\x00' ∉ (passable s).toList := by
  rw [passable_eq]
  split
  · exact List.not_mem_nil
  · assumption

theorem answer_passed {s : String} (h : '\x00' ∉ s.toList) (beyond : List UInt8)
    (f : String → Except String String) :
    answer (some (passed s beyond)) f =
      match f s with
      | .ok data => .data (passable data)
      | .error message => .error (passable message) := by
  rw [answer, read_passed h]
  rfl

/-- Data that a call passes out is read back as it is. -/
theorem read_data {input : Option (List UInt8)} {f : String → Except String String} {data : String}
    (h : answer input f = .data data) (beyond : List UInt8) :
    read (some (passed data beyond)) = .ok data := by
  rw [answer] at h
  split at h
  · cases h
    exact read_passed (zero_not_mem_passable _) beyond
  · cases h

theorem inspect_passed {s : String} (h : '\x00' ∉ s.toList) (beyond : List UInt8) :
    inspect (some (passed s beyond)) =
      match Survey.ofText s with
      | .ok survey => .data survey.toValue.pretty
      | .error e => .error (passable e.message) := by
  rw [inspect, answer_passed h]
  cases Survey.ofText s with
  | ok survey =>
    show Answer.data (passable survey.toValue.pretty) = _
    rw [passable_eq, if_neg survey.toValue.zero_not_mem_pretty]
  | error e => rfl

theorem exists_survey_iff {s : String} :
    (∃ survey, Survey.ofText s = .ok survey) ↔
      ∃ d, Document.ofText? { mode := .lenient } s = .ok d := by
  rw [Survey.ofText]
  cases Document.ofText? { mode := .lenient } s <;> simp [Except.map]

theorem sum_kinds {s : String} {survey : Survey} (h : Survey.ofText s = .ok survey) :
    (survey.kinds.map Prod.snd).sum = survey.nodes := by
  rw [Survey.ofText] at h
  cases hd : Document.ofText? { mode := .lenient } s with
  | error e =>
    rw [hd] at h
    cases h
  | ok d =>
    rw [hd] at h
    cases h
    exact Document.sum_kindCounts _

/-- Both conversions succeed on every text that can be passed in. What they pass out reads back as
the rendering, or as the empty text where the rendering holds a zero character. A survey succeeds
when the lenient document can be read, and its kinds add up to its nodes. -/
theorem calls_readBack {s : String} (h : '\x00' ∉ s.toList) (beyond : List UInt8) :
    (∀ call c, (call, c) ∈
        [(toMarkdown, ({} : Converter)), (toMarkdownStrict, ({} : Converter).strict)] →
      ∃ data, call (some (passed s beyond)) = .data data ∧
        (∀ beyond, read (some (passed data beyond)) = .ok data) ∧
        data = if '\x00' ∈ (c.convertText s).content.toList then ""
          else (c.convertText s).content) ∧
    ((∃ data, inspect (some (passed s beyond)) = .data data) ↔
      ∃ d, Document.ofText? { mode := .lenient } s = .ok d) ∧
    ∀ data, inspect (some (passed s beyond)) = .data data →
      (∀ beyond, read (some (passed data beyond)) = .ok data) ∧
      ∃ survey, Survey.ofText s = .ok survey ∧ data = survey.toValue.pretty ∧
        survey.toValue.get? "kinds" =
          some (.object (survey.kinds.map fun (name, n) => (name, Survey.count n))) ∧
        survey.toValue.get? "node_count" =
          some (Survey.count (survey.kinds.map Prod.snd).sum) := by
  have hconvert : ∀ c : Converter,
      answer (some (passed s beyond)) (fun s => .ok (c.convertText s).content) =
        .data (passable (c.convertText s).content) := fun c => answer_passed h beyond _
  refine ⟨?_, ?_, ?_⟩
  · intro call c hcall
    refine ⟨passable (c.convertText s).content, ?_, ?_, passable_eq _⟩
    · rcases List.mem_pair.mp hcall with heq | heq
      · cases heq
        exact hconvert {}
      · cases heq
        exact hconvert _
    · exact read_data (hconvert c)
  · rw [← exists_survey_iff, inspect_passed h]
    cases Survey.ofText s <;> simp
  · intro data hdata
    refine ⟨read_data hdata, ?_⟩
    rw [inspect_passed h] at hdata
    cases hsurvey : Survey.ofText s with
    | error e =>
      rw [hsurvey] at hdata
      cases hdata
    | ok survey =>
      rw [hsurvey] at hdata
      cases hdata
      refine ⟨survey, rfl, rfl, rfl, ?_⟩
      rw [sum_kinds hsurvey]
      rfl

/-- A conversion whose data is a rendering, and a survey of the same text. -/
theorem calls_readBack_rule :
    '\x00' ∉ Converter.ruleText.toList ∧
      toMarkdown (some (passed Converter.ruleText [7, 0])) = .data "---" ∧
      (∀ beyond, read (some (passed "---" beyond)) = .ok "---") ∧
      ∃ data, ∃ survey : Survey, inspect (some (passed Converter.ruleText [7, 0])) = .data data ∧
        data = survey.toValue.pretty ∧ survey.kinds = [("rule", 1)] ∧
        survey.toValue.get? "node_count" = some (Survey.count 1) := by
  have hzero : '\x00' ∉ Converter.ruleText.toList := by decide
  have hcontent : (({} : Converter).convertText Converter.ruleText).content = "---" := by
    decide +kernel
  have hkinds : (Survey.ofText Converter.ruleText).toOption.any fun survey =>
      survey.kinds = [("rule", 1)] := by
    decide +kernel
  obtain ⟨hcalls, hiff, hsurveys⟩ := calls_readBack hzero [7, 0]
  obtain ⟨data, hdata, hread, heq⟩ := hcalls toMarkdown {} (by simp)
  rw [hcontent, if_neg (by decide)] at heq
  subst heq
  refine ⟨hzero, hdata, hread, ?_⟩
  cases hsurvey : Survey.ofText Converter.ruleText with
  | error e =>
    rw [hsurvey] at hkinds
    cases hkinds
  | ok survey =>
    obtain ⟨data, hdata⟩ := hiff.mpr (exists_survey_iff.mp ⟨survey, hsurvey⟩)
    obtain ⟨-, survey', hsurvey', hpretty, -, hcount⟩ := hsurveys data hdata
    cases hsurvey.symm.trans hsurvey'
    have hrule : survey.kinds = [("rule", 1)] := by
      rw [hsurvey] at hkinds
      simpa [Except.toOption] using hkinds
    refine ⟨data, survey, hdata, hpretty, hrule, ?_⟩
    rw [hcount, hrule]
    rfl

/-- The text writes a zero character with an escape, so it can be passed in, and its rendering
cannot be passed out. -/
def escapedZeroText : String :=
  "\x7b\"content\":[\x7b\"type\":\"text\",\"text\":\"a\\u0000b\"\x7d]\x7d"

theorem toMarkdown_escapedZero :
    '\x00' ∉ escapedZeroText.toList ∧
      (({} : Converter).convertText escapedZeroText).content = "a\x00b" ∧
      toMarkdown (some (passed escapedZeroText [])) = .data "" ∧
      ¬∀ s, '\x00' ∉ s.toList → ∃ data, toMarkdown (some (passed s [])) = .data data ∧
        read (some (passed data [])) = .ok (({} : Converter).convertText s).content := by
  have hzero : '\x00' ∉ escapedZeroText.toList := by decide
  have hcontent : (({} : Converter).convertText escapedZeroText).content = "a\x00b" := by
    decide +kernel
  have hdata : toMarkdown (some (passed escapedZeroText [])) = .data "" := by
    rw [toMarkdown, answer_passed hzero]
    show Answer.data (passable (({} : Converter).convertText escapedZeroText).content) = _
    rw [hcontent]
    rfl
  refine ⟨hzero, hcontent, hdata, ?_⟩
  intro hall
  obtain ⟨data, hcall, hread⟩ := hall escapedZeroText hzero
  rw [hdata] at hcall
  cases hcall
  rw [hcontent] at hread
  revert hread
  decide +kernel

end RichDoc.Boundary
