import RichDoc.Proofs.Json.Fuel

/-! Where the reader meets its limit of nesting. It does so exactly at a bracket that is opened one
level below the limit, after nothing but whole keys and values. -/

namespace RichDoc.Json

open Grammar

/-! ### Brackets below the limit -/

/-- The reader takes a value, with at most so many levels of brackets. -/
def Reads (levels : Nat) : Rule := fun t r =>
  ∃ v, readValue (t.length + 1) (some levels) t = .ok (v, r)

/-- The reader takes a key, with the colon after it. -/
def ReadsKey : Rule := fun t r => ∃ u s w, Spaces t ('"' :: u) ∧
  readChars (u.length + 1) [] u = .ok (s, w) ∧ Spaces w (':' :: r)

/-- Whole items of a list, each with the comma after it. -/
inductive ItemsBefore (levels : Nat) : Rule
  | nil {t r : List Char} : Spaces t r → ItemsBefore levels t r
  | cons {t s u w r : List Char} : Spaces t s → Reads levels s u → Spaces u (',' :: w) →
      ItemsBefore levels w r → ItemsBefore levels t r

/-- Whole members of an object, each with the comma after it, and one more key. -/
inductive MembersBefore (levels : Nat) : Rule
  | key {t r : List Char} : ReadsKey t r → MembersBefore levels t r
  | cons {t k u w r : List Char} : ReadsKey t k → Reads levels k u → Spaces u (',' :: w) →
      MembersBefore levels w r → MembersBefore levels t r

/-- A text that should start with a value opens more than so many brackets, each inside the one
before and after nothing but whole keys and values. -/
inductive Exceeds : Nat → List Char → Prop
  | bracket {c : Char} {t r : List Char} : Spaces t (c :: r) → c ∈ ['[', '\x7b'] → Exceeds 0 t
  | list {levels : Nat} {t u r : List Char} : Spaces t ('[' :: u) → ItemsBefore levels u r →
      Exceeds levels r → Exceeds (levels + 1) t
  | object {levels : Nat} {t u r : List Char} : Spaces t ('\x7b' :: u) →
      MembersBefore levels u r → Exceeds levels r → Exceeds (levels + 1) t

def Deep {α : Type} : Read α → Prop
  | .ok _ => False
  | .error e => e.cause = .nestedTooDeeply

theorem Follows.not_deep {α : Type} {rule : Rule} {t : List Char} {result : Read α}
    (h : Follows rule t result) : ¬Deep result := by
  cases result with
  | ok result =>
    intro h
    exact h
  | error e => exact h

theorem not_deep_map {α β : Type} {rule : Rule} {t : List Char} {result : Read α}
    {f : α × List Char → β × List Char} (h : Follows rule t result) : ¬Deep (result.map f) := by
  cases result with
  | ok result =>
    intro h
    exact h
  | error e => exact h

theorem MembersBefore.spaces {levels : Nat} {t u r : List Char} (h : Spaces t u)
    (hmembers : MembersBefore levels u r) : MembersBefore levels t r := by
  have key : ∀ {r}, ReadsKey u r → ReadsKey t r := by
    rintro r ⟨a, s, w, hopen, hchars, hcolon⟩
    exact ⟨a, s, w, h.trans hopen, hchars, hcolon⟩
  cases hmembers with
  | key hkey => exact .key (key hkey)
  | cons hkey hvalue hcomma hrest => exact .cons (key hkey) hvalue hcomma hrest

theorem enter?_some {levels : Nat} {room : Room} (h : Room.enter? (some levels) = some room) :
    ∃ below, levels = below + 1 ∧ room = some below := by
  cases levels with
  | zero => cases h
  | succ below => exact ⟨below, rfl, (Option.some.inj h).symm⟩

theorem reads_of_ok {fuel levels : Nat} {t r : List Char} {v : Value} (ht : t.length < fuel)
    (h : readValue fuel (some levels) t = .ok (v, r)) : Reads levels t r := by
  refine ⟨v, ?_⟩
  rw [← (agree ht).value (Nat.lt_succ_self _)]
  exact h

theorem readsKey_of_ok {fuel : Nat} {t r w : List Char} {key : String} (ht : t.length < fuel)
    (hchars : readChars fuel [] t = .ok (key, w)) (hcolon : skipSpaces w = ':' :: r) :
    ReadsKey ('"' :: t) r := by
  rw [(agree (f := t.length + 1) ht).chars (Nat.lt_succ_self _)] at hchars
  exact ⟨t, key, w, .nil _, hchars, spaces_of_skipSpaces hcolon⟩

theorem exceeds_of_no_room {levels : Nat} {c : Char} {t r : List Char} (hc : c ∈ ['[', '\x7b'])
    (hskip : skipSpaces t = c :: r) (h : Room.enter? (some levels) = none) : Exceeds levels t := by
  cases levels with
  | zero => exact .bracket (spaces_of_skipSpaces hskip) hc
  | succ => cases h

/-- Where a failure for the nesting comes from. -/
structure Exceeded (fuel : Nat) : Prop where
  value : ∀ {levels t}, t.length < fuel → Deep (readValue fuel (some levels) t) → Exceeds levels t
  items : ∀ {levels read t}, t.length < fuel → Deep (readItems fuel (some levels) read t) →
    ∃ w r, Spaces t (',' :: w) ∧ ItemsBefore levels w r ∧ Exceeds levels r
  member : ∀ {levels read t}, t.length < fuel → Deep (readMember fuel (some levels) read t) →
    ∃ r, MembersBefore levels t r ∧ Exceeds levels r
  members : ∀ {levels read t}, t.length < fuel → Deep (readMembers fuel (some levels) read t) →
    ∃ w r, Spaces t (',' :: w) ∧ MembersBefore levels w r ∧ Exceeds levels r

section

variable {fuel levels : Nat} {t : List Char}

-- The limit is a number throughout, and each bracket takes one from it, so the cases of the readers
-- with any room are turned into those of a number of levels.

theorem exceeds_of_readValue : (∀ g < fuel, Exceeded g) → t.length < fuel →
    Deep (readValue fuel (some levels) t) → Exceeds levels t := by
  generalize hroom : (some levels : Room) = room
  fun_cases readValue fuel room t with
  | case3 fuel => exact fun _ _ h => absurd h (follows_readWord _ _ _).not_deep
  | case4 fuel => exact fun _ _ h => absurd h (follows_readWord _ _ _).not_deep
  | case5 fuel => exact fun _ _ h => absurd h (follows_readWord _ _ _).not_deep
  | case6 fuel => exact fun _ _ h => absurd h (not_deep_map (follows_readChars _ _ _))
  | case7 fuel => exact fun _ _ h => absurd h (not_deep_map (follows_readNumber _ _))
  | case17 fuel => exact fun _ _ h => absurd h (not_deep_map (follows_readNumber _ _))
  | case8 fuel _ _ rest hskip henter =>
    intro _ _ _
    subst hroom
    exact exceeds_of_no_room (by decide) hskip henter
  | case13 fuel _ _ rest hskip henter =>
    intro _ _ _
    subst hroom
    exact exceeds_of_no_room (by decide) hskip henter
  | case11 fuel _ _ rest hskip room henter v after _ _ hitem =>
    intro ih ht h
    subst hroom
    obtain ⟨below, rfl, rfl⟩ := enter?_some henter
    have hrest := length_of_skipSpaces hskip
    have hspaces := length_skipSpaces_le rest
    have hafter := length_of_readValue hitem
    obtain ⟨w, r, hcomma, hitems, hexceeds⟩ :=
      (ih fuel (Nat.lt_succ_self _)).items (by omega) h
    have hfirst := reads_of_ok (by omega) hitem
    exact .list (spaces_of_skipSpaces hskip)
      (.cons (spaces_skipSpaces rest) hfirst hcomma hitems) hexceeds
  | case12 fuel _ _ rest hskip room henter e _ _ hitem =>
    intro ih ht h
    subst hroom
    obtain ⟨below, rfl, rfl⟩ := enter?_some henter
    have hrest := length_of_skipSpaces hskip
    have hspaces := length_skipSpaces_le rest
    have hexceeds := (ih fuel (Nat.lt_succ_self _)).value (by omega) (hitem ▸ h)
    exact .list (spaces_of_skipSpaces hskip) (.nil (spaces_skipSpaces rest)) hexceeds
  | case16 fuel _ _ rest hskip room henter =>
    intro ih ht h
    subst hroom
    obtain ⟨below, rfl, rfl⟩ := enter?_some henter
    have hrest := length_of_skipSpaces hskip
    have hspaces := length_skipSpaces_le rest
    obtain ⟨r, hmembers, hexceeds⟩ := (ih fuel (Nat.lt_succ_self _)).member (by omega) h
    exact .object (spaces_of_skipSpaces hskip) (hmembers.spaces (spaces_skipSpaces rest)) hexceeds
  | _ =>
    intro _ _ h
    cases h

theorem exceeds_of_readItems {read : List Value} : (∀ g < fuel, Exceeded g) → t.length < fuel →
    Deep (readItems fuel (some levels) read t) →
      ∃ w r, Spaces t (',' :: w) ∧ ItemsBefore levels w r ∧ Exceeds levels r := by
  generalize hroom : (some levels : Room) = room
  fun_cases readItems fuel room read t with
  | case6 fuel _ _ _ rest hskip v after _ _ hitem =>
    intro ih ht h
    subst hroom
    have hrest := length_of_skipSpaces hskip
    have hspaces := length_skipSpaces_le rest
    have hafter := length_of_readValue hitem
    obtain ⟨w, r, hcomma, hitems, hexceeds⟩ :=
      (ih fuel (Nat.lt_succ_self _)).items (by omega) h
    have hfirst := reads_of_ok (by omega) hitem
    exact ⟨rest, r, spaces_of_skipSpaces hskip,
      .cons (spaces_skipSpaces rest) hfirst hcomma hitems, hexceeds⟩
  | case7 fuel _ _ _ rest hskip e _ _ hitem =>
    intro ih ht h
    subst hroom
    have hrest := length_of_skipSpaces hskip
    have hspaces := length_skipSpaces_le rest
    have hexceeds := (ih fuel (Nat.lt_succ_self _)).value (by omega) (hitem ▸ h)
    exact ⟨rest, _, spaces_of_skipSpaces hskip, .nil (spaces_skipSpaces rest), hexceeds⟩
  | _ =>
    intro _ _ h
    cases h

theorem exceeds_of_readMember {read : Members} : (∀ g < fuel, Exceeded g) → t.length < fuel →
    Deep (readMember fuel (some levels) read t) →
      ∃ r, MembersBefore levels t r ∧ Exceeds levels r := by
  generalize hroom : (some levels : Room) = room
  fun_cases readMember fuel room read t with
  | case3 fuel _ _ rest key after hchars rest' hcolon v after' hvalue =>
    intro ih ht h
    subst hroom
    rw [List.length_cons] at ht
    have hafter := length_of_readChars hchars
    have hrest := length_of_skipSpaces hcolon
    have hend := length_of_readValue hvalue
    obtain ⟨w, r, hcomma, hmembers, hexceeds⟩ :=
      (ih fuel (Nat.lt_succ_self _)).members (by omega) h
    have hkey := readsKey_of_ok (by omega) hchars hcolon
    have hfirst := reads_of_ok (by omega) hvalue
    exact ⟨r, .cons hkey hfirst hcomma hmembers, hexceeds⟩
  | case4 fuel _ _ rest key after hchars rest' hcolon e hvalue =>
    intro ih ht h
    subst hroom
    rw [List.length_cons] at ht
    have hafter := length_of_readChars hchars
    have hrest := length_of_skipSpaces hcolon
    have hkey := readsKey_of_ok (by omega) hchars hcolon
    have hexceeds := (ih fuel (Nat.lt_succ_self _)).value (by omega) (hvalue ▸ h)
    exact ⟨rest', .key hkey, hexceeds⟩
  | case6 fuel _ _ rest e hchars =>
    intro _ _ h
    have hnot := (follows_readChars fuel [] rest).not_deep
    rw [hchars] at hnot
    exact absurd h hnot
  | _ =>
    intro _ _ h
    cases h

theorem exceeds_of_readMembers {read : Members} : (∀ g < fuel, Exceeded g) → t.length < fuel →
    Deep (readMembers fuel (some levels) read t) →
      ∃ w r, Spaces t (',' :: w) ∧ MembersBefore levels w r ∧ Exceeds levels r := by
  generalize hroom : (some levels : Room) = room
  fun_cases readMembers fuel room read t with
  | case6 fuel _ _ _ rest hskip =>
    intro ih ht h
    subst hroom
    have hrest := length_of_skipSpaces hskip
    have hspaces := length_skipSpaces_le rest
    obtain ⟨r, hmembers, hexceeds⟩ := (ih fuel (Nat.lt_succ_self _)).member (by omega) h
    exact ⟨rest, r, spaces_of_skipSpaces hskip, hmembers.spaces (spaces_skipSpaces rest),
      hexceeds⟩
  | _ =>
    intro _ _ h
    cases h

end

theorem exceeded (fuel : Nat) : Exceeded fuel := by
  induction fuel using Nat.strongRecOn with
  | ind fuel ih =>
    exact ⟨exceeds_of_readValue ih, exceeds_of_readItems ih, exceeds_of_readMember ih,
      exceeds_of_readMembers ih⟩

/-! ### Failures for the nesting -/

theorem skipSpaces_of_spaces {t r : List Char} (h : Spaces t r) : skipSpaces t = skipSpaces r := by
  induction h with
  | nil => rfl
  | cons hc _ ih => rw [← ih, skipSpaces, List.dropWhile_cons_of_pos hc]; rfl

theorem skipSpaces_eq_cons {c : Char} {t r : List Char} (h : Spaces t (c :: r))
    (hc : isSpace c = false) : skipSpaces t = c :: r := by
  rw [skipSpaces_of_spaces h, skipSpaces, List.dropWhile_cons_of_neg (by simp [hc])]

theorem readValue_spaces {fuel : Nat} {room : Room} {t u : List Char} (h : Spaces t u) :
    readValue fuel room t = readValue fuel room u := by
  cases fuel with
  | zero => rfl
  | succ fuel => rw [readValue, readValue, skipSpaces_of_spaces h]

def Begins (t : List Char) : Prop := ∃ c r, skipSpaces t = c :: r ∧ c ≠ ']'

theorem Begins.spaces {t u : List Char} (h : Spaces t u) (hu : Begins u) : Begins t := by
  rwa [Begins, skipSpaces_of_spaces h]

theorem Reads.begins {levels : Nat} {t r : List Char} (h : Reads levels t r) : Begins t := by
  obtain ⟨v, hv⟩ := h
  rw [readValue] at hv
  cases hskip : skipSpaces t with
  | nil => simp [hskip, failBefore] at hv
  | cons c u =>
    refine ⟨c, u, hskip, ?_⟩
    rintro rfl
    simp [hskip, failAt] at hv

theorem Exceeds.begins {levels : Nat} {t : List Char} (h : Exceeds levels t) : Begins t := by
  cases h with
  | bracket hopen hc =>
    simp only [List.mem_cons, List.not_mem_nil, or_false] at hc
    rcases hc with rfl | rfl
    · exact ⟨_, _, skipSpaces_eq_cons hopen rfl, by decide⟩
    · exact ⟨_, _, skipSpaces_eq_cons hopen rfl, by decide⟩
  | list hopen => exact ⟨_, _, skipSpaces_eq_cons hopen rfl, by decide⟩
  | object hopen => exact ⟨_, _, skipSpaces_eq_cons hopen rfl, by decide⟩

theorem ItemsBefore.begins {levels : Nat} {t r : List Char} (h : ItemsBefore levels t r)
    (hr : Exceeds levels r) : Begins t := by
  cases h with
  | nil hspaces => exact hr.begins.spaces hspaces
  | cons hspaces hvalue => exact hvalue.begins.spaces hspaces

def readNext (fuel : Nat) (room : Room) (read : List Value) (t : List Char) : Read Value :=
  match readValue fuel room t with
  | .ok (v, rest) => readItems fuel room (v :: read) rest
  | .error e => .error e

section

variable {fuel levels : Nat} {t u r : List Char}

theorem readNext_skipSpaces {room : Room} {read : List Value} :
    readNext fuel room read (skipSpaces t) = readNext fuel room read t := by
  rw [readNext, ← readValue_spaces (spaces_skipSpaces t)]
  rfl

theorem readValue_list (hopen : skipSpaces t = '[' :: u) (hu : Begins u) :
    readValue (fuel + 1) (some (levels + 1)) t = readNext fuel (some levels) [] u := by
  obtain ⟨c, r, hc, hne⟩ := hu
  rw [← readNext_skipSpaces]
  simp only [readValue, hopen, Room.enter?]
  rw [hc]
  split
  · next h => cases h
  · next h => exact absurd (List.cons.inj h).1 hne
  · rfl

theorem readItems_comma {room : Room} {read : List Value} (hcomma : skipSpaces t = ',' :: u)
    (hu : Begins u) : readItems (fuel + 1) room read t = readNext fuel room read u := by
  obtain ⟨c, r, hc, hne⟩ := hu
  rw [← readNext_skipSpaces]
  simp only [readItems, hcomma]
  rw [hc]
  split
  · next h => cases h
  · next h => exact absurd (List.cons.inj h).1 hne
  · rfl

theorem Deep.readNext {room : Room} {read : List Value} (h : Deep (readValue fuel room t)) :
    Deep (readNext fuel room read t) := by
  rw [Json.readNext]
  split
  · next hvalue => rw [hvalue] at h; exact h.elim
  · next hvalue => rw [hvalue] at h; exact h

theorem ok_of_reads (fuel : Nat) (h : Reads levels t r) (ht : t.length < fuel) :
    ∃ v, readValue fuel (some levels) t = .ok (v, r) := by
  obtain ⟨v, hv⟩ := h
  exact ⟨v, ((agree ht).value (Nat.lt_succ_self _)).trans hv⟩

theorem deep_of_itemsBefore (h : ItemsBefore levels t r) (hr : Exceeds levels r)
    (hdeep : ∀ fuel, r.length < fuel → Deep (readValue fuel (some levels) r)) :
    ∀ fuel read, t.length < fuel → Deep (readNext fuel (some levels) read t) := by
  induction h with
  | nil hspaces =>
    intro fuel read ht
    have hle := hspaces.suffix.length_le
    apply Deep.readNext
    rw [readValue_spaces hspaces]
    exact hdeep fuel (by omega)
  | cons hspaces hvalue hcomma hitems ih =>
    -- The item before the comma is whole, so it is read with this fuel too, and the next one begins.
    intro fuel read ht
    have hle := hspaces.suffix.length_le
    have hrest := length_of_skipSpaces (skipSpaces_eq_cons hcomma rfl)
    obtain ⟨v, hv⟩ := ok_of_reads fuel hvalue (Nat.lt_of_le_of_lt hle ht)
    have hafter := length_of_readValue hv
    rw [Json.readNext, readValue_spaces hspaces, hv]
    obtain ⟨fuel, rfl⟩ : ∃ f, fuel = f + 1 := ⟨fuel - 1, by omega⟩
    show Deep (readItems (fuel + 1) (some levels) (v :: read) _)
    rw [readItems_comma (skipSpaces_eq_cons hcomma rfl) (hitems.begins hr)]
    exact ih hr hdeep fuel _ (by omega)

theorem MembersBefore.quote (h : MembersBefore levels t r) :
    ∃ u, skipSpaces t = '"' :: u := by
  have quote : ∀ {r}, ReadsKey t r → ∃ u, skipSpaces t = '"' :: u := by
    rintro r ⟨u, s, w, hopen, -, -⟩
    exact ⟨u, skipSpaces_eq_cons hopen rfl⟩
  cases h with
  | key hkey => exact quote hkey
  | cons hkey => exact quote hkey

theorem readValue_object (hopen : skipSpaces t = '\x7b' :: u) {w : List Char}
    (hu : skipSpaces u = '"' :: w) :
    readValue (fuel + 1) (some (levels + 1)) t =
      readMember fuel (some levels) [] (skipSpaces u) := by
  simp only [readValue, hopen, Room.enter?, hu]
  rfl

theorem readMembers_comma {room : Room} {read : Members} (hcomma : skipSpaces t = ',' :: u)
    {w : List Char} (hu : skipSpaces u = '"' :: w) :
    readMembers (fuel + 1) room read t = readMember fuel room read (skipSpaces u) := by
  simp only [readMembers, hcomma, hu]
  rfl

def readNextMember (fuel : Nat) (room : Room) (read : Members) (key : String) (t : List Char) :
    Read Value :=
  match readValue fuel room t with
  | .ok (v, rest) => readMembers fuel room (read.insert key v) rest
  | .error e => .error e

theorem readMember_key (room : Room) (read : Members) (hkey : ReadsKey t u)
    (ht : t.length ≤ fuel) :
    u.length < t.length ∧ ∃ key, readMember (fuel + 1) room read (skipSpaces t) =
      readNextMember fuel room read key u := by
  obtain ⟨a, key, w, hopen, hchars, hcolon⟩ := hkey
  have hquote := skipSpaces_eq_cons hopen rfl
  have ha := length_of_skipSpaces hquote
  have hw := length_of_readChars hchars
  have hu := length_of_skipSpaces (skipSpaces_eq_cons hcolon rfl)
  refine ⟨by omega, key, ?_⟩
  have hchars' : readChars fuel [] a = .ok (key, w) := by
    rw [← hchars, (agree (f := a.length + 1) (by omega)).chars (Nat.lt_succ_self _)]
  have hcolon' := skipSpaces_eq_cons hcolon rfl
  rw [hquote]
  simp only [readMember, hchars', hcolon']
  rfl

theorem deep_of_membersBefore (h : MembersBefore levels t r)
    (hdeep : ∀ fuel, r.length < fuel → Deep (readValue fuel (some levels) r)) :
    ∀ fuel read, t.length < fuel → Deep (readMember fuel (some levels) read (skipSpaces t)) := by
  induction h with
  | key hkey =>
    intro fuel read ht
    obtain ⟨fuel, rfl⟩ : ∃ f, fuel = f + 1 := ⟨fuel - 1, by omega⟩
    obtain ⟨hu, key, hread⟩ := readMember_key (some levels) read hkey (Nat.le_of_lt_succ ht)
    have hvalue := hdeep fuel (by omega)
    rw [hread, readNextMember]
    split
    · next hok => rw [hok] at hvalue; exact hvalue.elim
    · next herror => rw [herror] at hvalue; exact hvalue
  | cons hkey hreads hcomma hrest ih =>
    intro fuel read ht
    obtain ⟨fuel, rfl⟩ : ∃ f, fuel = f + 1 := ⟨fuel - 1, by omega⟩
    obtain ⟨hu, key, hread⟩ := readMember_key (some levels) read hkey (Nat.le_of_lt_succ ht)
    obtain ⟨v, hv⟩ := ok_of_reads fuel hreads (by omega)
    have hafter := length_of_readValue hv
    have hw := length_of_skipSpaces (skipSpaces_eq_cons hcomma rfl)
    obtain ⟨q, hq⟩ := hrest.quote
    rw [hread, readNextMember, hv]
    obtain ⟨fuel, rfl⟩ : ∃ f, fuel = f + 1 := ⟨fuel - 1, by omega⟩
    show Deep (readMembers (fuel + 1) (some levels) (read.insert key v) _)
    rw [readMembers_comma (skipSpaces_eq_cons hcomma rfl) hq]
    exact ih hdeep fuel _ (by omega)

/-- A text that opens too many brackets is given up for its nesting. -/
theorem deep_of_exceeds (h : Exceeds levels t) :
    ∀ fuel, t.length < fuel → Deep (readValue fuel (some levels) t) := by
  induction h with
  | bracket hopen hc =>
    intro fuel ht
    obtain ⟨fuel, rfl⟩ : ∃ f, fuel = f + 1 := ⟨fuel - 1, by omega⟩
    simp only [List.mem_cons, List.not_mem_nil, or_false] at hc
    rcases hc with rfl | rfl
    · rw [readValue, skipSpaces_eq_cons hopen rfl]
      rfl
    · rw [readValue, skipSpaces_eq_cons hopen rfl]
      rfl
  | list hopen hitems hr ih =>
    intro fuel ht
    obtain ⟨fuel, rfl⟩ : ∃ f, fuel = f + 1 := ⟨fuel - 1, by omega⟩
    have hu := length_of_skipSpaces (skipSpaces_eq_cons hopen rfl)
    rw [readValue_list (skipSpaces_eq_cons hopen rfl) (hitems.begins hr)]
    exact deep_of_itemsBefore hitems hr ih fuel [] (by omega)
  | object hopen hmembers hr ih =>
    intro fuel ht
    obtain ⟨fuel, rfl⟩ : ∃ f, fuel = f + 1 := ⟨fuel - 1, by omega⟩
    have hu := length_of_skipSpaces (skipSpaces_eq_cons hopen rfl)
    obtain ⟨q, hq⟩ := hmembers.quote
    rw [readValue_object (skipSpaces_eq_cons hopen rfl) hq]
    exact deep_of_membersBefore hmembers ih fuel [] (by omega)

end

/-- A text is given up for its nesting exactly when it opens too many brackets. -/
theorem parse_nestedTooDeeply_iff (s : String) :
    (∃ fault, Json.parse s = .error fault ∧ fault.cause = .nestedTooDeeply) ↔
      Exceeds levelLimit s.toList := by
  have hlength : s.toList.length < s.toList.length + 1 := Nat.lt_succ_self _
  rw [parse, readAll]
  constructor
  · rintro ⟨fault, h, hcause⟩
    apply (exceeded _).value hlength
    split at h
    · next v rest hvalue =>
      split at h
      · cases h
      · cases h
        cases hcause
    · next e hvalue =>
      cases h
      rw [hvalue]
      exact hcause
  · intro h
    have hdeep := deep_of_exceeds h _ hlength
    split
    · next hvalue => rw [hvalue] at hdeep; exact hdeep.elim
    · next e hvalue =>
      rw [hvalue] at hdeep
      exact ⟨_, rfl, hdeep⟩

/-! ### Counting brackets -/

def isOpening (c : Char) : Bool := c == '[' || c == '\x7b'

theorem Reads.suffix {levels : Nat} {t r : List Char} (h : Reads levels t r) : r <:+ t := by
  obtain ⟨v, hv⟩ := h
  obtain ⟨u, hu, hvalue⟩ := (sound _).value hv
  exact hvalue.shorter.1.trans hu.suffix

theorem ReadsKey.suffix {t r : List Char} (h : ReadsKey t r) : r <:+ t := by
  obtain ⟨u, s, w, hopen, hchars, hcolon⟩ := h
  have hsymbols := ((follows_readChars _ _ _).of_ok hchars).shorter.1
  have hafter := (List.suffix_cons _ _).trans (hcolon.suffix.trans hsymbols)
  exact hafter.trans ((List.suffix_cons _ _).trans hopen.suffix)

theorem ItemsBefore.suffix {levels : Nat} {t r : List Char} (h : ItemsBefore levels t r) :
    r <:+ t := by
  induction h with
  | nil hspaces => exact hspaces.suffix
  | cons hspaces hvalue hcomma _ ih =>
    have hafter := (List.suffix_cons _ _).trans (hcomma.suffix.trans hvalue.suffix)
    exact ih.trans (hafter.trans hspaces.suffix)

theorem MembersBefore.suffix {levels : Nat} {t r : List Char} (h : MembersBefore levels t r) :
    r <:+ t := by
  induction h with
  | key hkey => exact hkey.suffix
  | cons hkey hvalue hcomma _ ih =>
    have hafter := (List.suffix_cons _ _).trans (hcomma.suffix.trans hvalue.suffix)
    exact ih.trans (hafter.trans hkey.suffix)

/-- A text that opens more than so many brackets inside one another has more than so many. -/
theorem Exceeds.lt_countP {levels : Nat} {t : List Char} (h : Exceeds levels t) :
    levels < t.countP isOpening := by
  have opened : ∀ {c t u}, isOpening c → Spaces t (c :: u) →
      u.countP isOpening + 1 ≤ t.countP isOpening := by
    intro c t u hc hopen
    have hle := hopen.suffix.sublist.countP_le (p := isOpening)
    rwa [List.countP_cons_of_pos hc] at hle
  induction h with
  | bracket hopen hc =>
    have hmore := opened (by revert hc; simp [isOpening]) hopen
    omega
  | list hopen hitems _ ih =>
    have hmore := opened rfl hopen
    have hle := hitems.suffix.sublist.countP_le (p := isOpening)
    omega
  | object hopen hmembers _ ih =>
    have hmore := opened rfl hopen
    have hle := hmembers.suffix.sublist.countP_le (p := isOpening)
    omega

theorem exceeds_replicate (n : Nat) : Exceeds n (List.replicate (n + 1) '[') := by
  induction n with
  | zero => exact .bracket (.nil _) (by decide)
  | succ n ih => exact .list (.nil _) (.nil (.nil _)) ih

end RichDoc.Json
