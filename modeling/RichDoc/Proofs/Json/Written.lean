import RichDoc.Json.Printer
import RichDoc.Proofs.Text.Lines

/-! Zero characters in written JSON. Those in strings and keys are escaped, and nothing else writes
one, so the text of a value never holds any. -/

namespace RichDoc

namespace Decimal

theorem zero_not_mem_toDigits (n : Nat) : '\x00' ∉ Nat.toDigits 10 n := by
  intro h
  exact absurd (Nat.isDigit_of_mem_toDigits (by decide) (by decide) h) (by decide)

theorem zero_not_mem_zeros (n : Nat) : '\x00' ∉ zeros n := by
  intro h
  exact absurd (List.eq_of_mem_replicate h) (by decide)

theorem zero_not_mem_write (l : Layout) (n : Numeral) : '\x00' ∉ l.write n := by
  have hdigits := zero_not_mem_toDigits n.digits
  simp only [Layout.write]
  generalize Nat.toDigits 10 n.digits = digits at hdigits ⊢
  split
  · have hsign : ∀ p : Prop, [Decidable p] → '\x00' ∉ ['e', if p then '-' else '+'] := by
      intro p _
      split <;> decide
    simp only [List.mem_append, not_or]
    refine ⟨⟨?_, hsign _⟩, zero_not_mem_toDigits _⟩
    split
    · split <;> simp_all
    · exact List.not_mem_nil
  · split
    · simp [zero_not_mem_zeros, hdigits]
    · split
      · simp [zero_not_mem_zeros, hdigits]
      · have htake : ∀ k, '\x00' ∉ digits.take k := fun k h => hdigits (List.mem_of_mem_take h)
        have hdrop : ∀ k, '\x00' ∉ digits.drop k := fun k h => hdigits (List.mem_of_mem_drop h)
        simp [htake, hdrop]

theorem zero_not_mem_writeBits (l : Layout) (bits : UInt64) : '\x00' ∉ l.writeBits bits := by
  simp only [Layout.writeBits, List.mem_append, not_or]
  constructor
  · split <;> decide
  · split
    · decide
    · exact zero_not_mem_write l _

end Decimal

namespace Json

theorem Number.zero_not_mem_text (n : Number) : '\x00' ∉ n.text := by
  cases n with
  | integer n =>
    rw [Number.text, List.mem_append, not_or]
    constructor
    · split <;> decide
    · exact Decimal.zero_not_mem_toDigits _
  | real x => exact Decimal.zero_not_mem_writeBits _ _

theorem zero_not_mem_escapeChar (c : Char) : '\x00' ∉ escapeChar c := by
  have hlow : ∀ n < 32,
      '\x00' ∉ ['\\', 'u', '0', '0', Text.hexDigit (n / 16), Text.hexDigit (n % 16)] := by
    decide
  unfold escapeChar
  split
  all_goals try decide
  split
  · next h => exact hlow c.toNat h
  · next h =>
    rw [List.mem_singleton]
    rintro rfl
    exact h (by decide)

theorem zero_not_mem_quoted (s : String) : '\x00' ∉ quoted s := by
  simp only [quoted, List.mem_append, not_or, List.mem_flatMap, not_exists, not_and]
  exact ⟨⟨by decide, fun c _ => zero_not_mem_escapeChar c⟩, by decide⟩

namespace Layout

theorem zero_not_mem_lineBreak (l : Layout) : '\x00' ∉ l.lineBreak := by
  cases l with
  | line => exact List.not_mem_nil
  | level n => simp [lineBreak, List.mem_replicate]

theorem zero_not_mem_bracket (l : Layout) {opening closing : Char} {entries : List (List Char)}
    (hopening : '\x00' ≠ opening) (hclosing : '\x00' ≠ closing)
    (h : ∀ entry ∈ entries, '\x00' ∉ entry) : '\x00' ∉ l.bracket opening closing entries := by
  unfold bracket
  split
  · simp [hopening, hclosing]
  · have hentries : ∀ line ∈ entries.map (l.inner.lineBreak ++ ·), '\x00' ∉ line := by
      intro line hline
      obtain ⟨entry, hentry, rfl⟩ := List.mem_map.mp hline
      rw [List.mem_append, not_or]
      exact ⟨zero_not_mem_lineBreak l.inner, h entry hentry⟩
    have hjoined : '\x00' ∉ [','].intercalate (entries.map (l.inner.lineBreak ++ ·)) :=
      Text.not_mem_intercalate (by decide) hentries
    simp only [List.mem_append, not_or, List.mem_singleton]
    exact ⟨⟨⟨hopening, hjoined⟩, zero_not_mem_lineBreak l⟩, hclosing⟩

end Layout

mutual

theorem Value.zero_not_mem_write (l : Layout) : ∀ v : Value, '\x00' ∉ v.write l
  | .null => by simp [Value.write]
  | .bool b => by cases b <;> simp [Value.write]
  | .number n => n.zero_not_mem_text
  | .string s => zero_not_mem_quoted s
  | .array items =>
    l.zero_not_mem_bracket (by decide) (by decide) (zero_not_mem_writeItems l.inner items)
  | .object members =>
    l.zero_not_mem_bracket (by decide) (by decide) (zero_not_mem_writeMembers l.inner members)

theorem zero_not_mem_writeItems (l : Layout) :
    ∀ items : List Value, ∀ entry ∈ writeItems l items, '\x00' ∉ entry
  | [] => by simp [writeItems]
  | v :: rest =>
    List.forall_mem_cons.mpr ⟨v.zero_not_mem_write l, zero_not_mem_writeItems l rest⟩

theorem zero_not_mem_writeMembers (l : Layout) :
    ∀ members : List (String × Value), ∀ entry ∈ writeMembers l members, '\x00' ∉ entry
  | [] => by simp [writeMembers]
  | (key, v) :: rest => by
    have hcolon : '\x00' ∉ l.colon := by cases l <;> simp [Layout.colon]
    have hentry : '\x00' ∉ quoted key ++ l.colon ++ v.write l := by
      simp only [List.mem_append, not_or]
      exact ⟨⟨zero_not_mem_quoted key, hcolon⟩, v.zero_not_mem_write l⟩
    exact List.forall_mem_cons.mpr ⟨hentry, zero_not_mem_writeMembers l rest⟩

end

theorem Value.zero_not_mem_pretty (v : Value) : '\x00' ∉ v.pretty.toList := by
  rw [Value.pretty, String.toList_ofList]
  exact v.zero_not_mem_write _

end Json

end RichDoc
