import RichDoc.Proofs.Json.Soundness

/-! Readers with enough fuel agree. Whatever is read takes at least one character, so fuel beyond the
length of a text changes nothing. -/

namespace RichDoc.Json

open Grammar

theorem length_of_skipSpaces {c : Char} {t r : List Char} (h : skipSpaces t = c :: r) :
    r.length < t.length := by
  have hle := (spaces_of_skipSpaces h).suffix.length_le
  rw [List.length_cons] at hle
  omega

theorem length_skipSpaces_le (t : List Char) : (skipSpaces t).length ≤ t.length :=
  (spaces_skipSpaces t).suffix.length_le

theorem length_of_readValue {fuel : Nat} {room : Room} {t r : List Char} {v : Value}
    (h : readValue fuel room t = .ok (v, r)) : r.length < t.length := by
  obtain ⟨u, hu, hvalue⟩ := (sound fuel).value h
  exact (Shorter.right hu.suffix hvalue.shorter).2

theorem length_of_readChars {fuel : Nat} {read t r : List Char} {s : String}
    (h : readChars fuel read t = .ok (s, r)) : r.length < t.length :=
  ((follows_readChars fuel read t).of_ok h).shorter.2

theorem length_of_readEscape {t r : List Char} {c : Char} (h : readEscape t = .ok (c, r)) :
    r.length ≤ t.length :=
  Nat.le_of_lt_succ ((follows_readEscape t).of_ok h).shorter.2

/-- Readers with different fuel agree on texts that are shorter than the fuel of the first. -/
structure Agree (f g : Nat) : Prop where
  chars : ∀ {read t}, t.length < f → readChars g read t = readChars f read t
  value : ∀ {room t}, t.length < f → readValue g room t = readValue f room t
  items : ∀ {room read t}, t.length < f → readItems g room read t = readItems f room read t
  member : ∀ {room read t}, t.length < f → readMember g room read t = readMember f room read t
  members : ∀ {room read t}, t.length < f → readMembers g room read t = readMembers f room read t

namespace Agree

variable {f g : Nat} {room : Room} {t : List Char}

theorem readChars_succ (h : Agree f g) {read : List Char} (ht : t.length < f + 1) :
    readChars (g + 1) read t = readChars (f + 1) read t := by
  unfold readChars
  split
  · rfl
  · rfl
  · next escape =>
    split
    · next c rest hescape =>
      have hrest := length_of_readEscape hescape
      rw [List.length_cons] at ht
      exact h.chars (by omega)
    · rfl
  · next c rest _ _ =>
    rw [List.length_cons] at ht
    rw [h.chars (by omega)]

theorem readValue_succ (h : Agree f g) (ht : t.length < f + 1) :
    readValue (g + 1) room t = readValue (f + 1) room t := by
  rw [readValue, readValue]
  split
  case h_5 rest hskip =>
    have hrest := length_of_skipSpaces hskip
    rw [h.chars (by omega)]
  case h_7 rest hskip =>
    have hrest := length_of_skipSpaces hskip
    split
    · rfl
    · have hspaces := length_skipSpaces_le rest
      split
      · rfl
      · rfl
      · rw [h.value (by omega)]
        split
        · next v after hitem =>
          have hafter := length_of_readValue hitem
          exact h.items (by omega)
        · rfl
  case h_8 rest hskip =>
    have hrest := length_of_skipSpaces hskip
    split
    · rfl
    · have hspaces := length_skipSpaces_le rest
      split
      · rfl
      · rfl
      · exact h.member (by omega)
  all_goals rfl

theorem readItems_succ (h : Agree f g) {read : List Value} (ht : t.length < f + 1) :
    readItems (g + 1) room read t = readItems (f + 1) room read t := by
  rw [readItems, readItems]
  split
  case h_3 rest hskip =>
    have hrest := length_of_skipSpaces hskip
    have hspaces := length_skipSpaces_le rest
    split
    · rfl
    · rfl
    · rw [h.value (by omega)]
      split
      · next v after hitem =>
        have hafter := length_of_readValue hitem
        exact h.items (by omega)
      · rfl
  all_goals rfl

theorem readMember_succ (h : Agree f g) {read : Members} (ht : t.length < f + 1) :
    readMember (g + 1) room read t = readMember (f + 1) room read t := by
  unfold readMember
  split
  · next rest =>
    rw [List.length_cons] at ht
    rw [h.chars (by omega)]
    split
    · next key after hchars =>
      have hafter := length_of_readChars hchars
      split
      · rfl
      · next colon hcolon =>
        have hrest := length_of_skipSpaces hcolon
        rw [h.value (by omega)]
        split
        · next v after hvalue =>
          have hend := length_of_readValue hvalue
          exact h.members (by omega)
        · rfl
      · rfl
    · rfl
  · rfl

theorem readMembers_succ (h : Agree f g) {read : Members} (ht : t.length < f + 1) :
    readMembers (g + 1) room read t = readMembers (f + 1) room read t := by
  rw [readMembers, readMembers]
  split
  case h_3 rest hskip =>
    have hrest := length_of_skipSpaces hskip
    have hspaces := length_skipSpaces_le rest
    split
    · rfl
    · rfl
    · exact h.member (by omega)
  all_goals rfl

end Agree

theorem agree {f g : Nat} (h : f ≤ g) : Agree f g := by
  -- One step of each reader calls the others with less fuel, on shorter texts only.
  induction f generalizing g with
  | zero => constructor <;> intros <;> omega
  | succ f ih =>
    obtain ⟨g, rfl⟩ : ∃ g', g = g' + 1 := ⟨g - 1, by omega⟩
    have hless := ih (Nat.le_of_succ_le_succ h)
    exact ⟨hless.readChars_succ, hless.readValue_succ, hless.readItems_succ,
      hless.readMember_succ, hless.readMembers_succ⟩

end RichDoc.Json
