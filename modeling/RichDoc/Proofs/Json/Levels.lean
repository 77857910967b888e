import RichDoc.Proofs.Json.Nesting

/-! How deeply the brackets of a value are nested. The reader takes one from the levels that it has
left at each bracket that it opens, so no value that it reads is nested more deeply than its limit.
-/

namespace RichDoc.Json

mutual

/-- How deeply the brackets of a value are nested, arrays and objects counted together. -/
def Value.nesting : Value → Nat
  | .array items => nestingOfItems items + 1
  | .object members => nestingOfMembers members + 1
  | _ => 0

def nestingOfItems : List Value → Nat
  | [] => 0
  | v :: rest => max v.nesting (nestingOfItems rest)

def nestingOfMembers : List (String × Value) → Nat
  | [] => 0
  | (_, v) :: rest => max v.nesting (nestingOfMembers rest)

end

/-- The parts of a value, each inside so many of its brackets. -/
inductive Inside (v : Value) : Nat → Value → Prop
  | whole : Inside v 0 v
  | item {n : Nat} {items : List Value} {w : Value} :
      Inside v n (.array items) → w ∈ items → Inside v (n + 1) w
  | member {n : Nat} {ms : Members} {m : String × Value} :
      Inside v n (.object ms) → m ∈ ms → Inside v (n + 1) m.2

variable {n : Nat} {v w : Value} {items : List Value} {ms : Members}

theorem nestingOfItems_le_iff : nestingOfItems items ≤ n ↔ ∀ w ∈ items, w.nesting ≤ n := by
  induction items with
  | nil => simp [nestingOfItems]
  | cons w items ih => rw [nestingOfItems, Nat.max_le, ih, List.forall_mem_cons]

theorem nestingOfMembers_le_iff : nestingOfMembers ms ≤ n ↔ ∀ m ∈ ms, m.2.nesting ≤ n := by
  induction ms with
  | nil => simp [nestingOfMembers]
  | cons m ms ih => rw [nestingOfMembers, Nat.max_le, ih, List.forall_mem_cons]

theorem lt_nestingOfItems_iff : n < nestingOfItems items ↔ ∃ w ∈ items, n < w.nesting := by
  simp only [← Nat.not_le, nestingOfItems_le_iff, Classical.not_forall, exists_prop]

theorem lt_nestingOfMembers_iff : n < nestingOfMembers ms ↔ ∃ m ∈ ms, n < m.2.nesting := by
  simp only [← Nat.not_le, nestingOfMembers_le_iff, Classical.not_forall, exists_prop]

theorem Inside.trans {m : Nat} {x : Value} (h : Inside v n w) (h' : Inside w m x) :
    Inside v (n + m) x := by
  induction h' with
  | whole => exact h
  | item _ hmem ih => exact .item ih hmem
  | member _ hmem ih => exact .member ih hmem

/-- A part inside some of the brackets of a value has at most the others of its own. -/
theorem Inside.add_nesting_le (h : Inside v n w) : n + w.nesting ≤ v.nesting := by
  induction h with
  | whole => omega
  | @item n items w _ hmem ih =>
    have hle : w.nesting ≤ nestingOfItems items := nestingOfItems_le_iff.mp (Nat.le_refl _) w hmem
    rw [Value.nesting] at ih
    omega
  | @member n ms m _ hmem ih =>
    have hle : m.2.nesting ≤ nestingOfMembers ms :=
      nestingOfMembers_le_iff.mp (Nat.le_refl _) m hmem
    rw [Value.nesting] at ih
    omega

/-- The nesting of a value is the level of its innermost brackets. -/
theorem Value.lt_nesting_iff : n < v.nesting ↔ ∃ w, Inside v n w ∧ 0 < w.nesting := by
  constructor
  · intro h
    induction n generalizing v with
    | zero => exact ⟨v, .whole, h⟩
    | succ n ih =>
      have inner : ∀ {w}, Inside v 1 w → n < w.nesting →
          ∃ x, Inside v (n + 1) x ∧ 0 < x.nesting := by
        intro w hw hlt
        obtain ⟨x, hx, hpos⟩ := ih hlt
        exact ⟨x, Nat.add_comm 1 n ▸ hw.trans hx, hpos⟩
      cases v with
      | array items =>
        obtain ⟨w, hw, hlt⟩ := lt_nestingOfItems_iff.mp (Nat.lt_of_succ_lt_succ h)
        exact inner (.item .whole hw) hlt
      | object ms =>
        obtain ⟨m, hm, hlt⟩ := lt_nestingOfMembers_iff.mp (Nat.lt_of_succ_lt_succ h)
        exact inner (.member .whole hm) hlt
      | _ => cases h
  · rintro ⟨w, hw, hpos⟩
    have hle := hw.add_nesting_le
    omega

/-! ### The levels of a reader -/

theorem Members.mem_insert {key : String} {m : String × Value} (h : m ∈ insert key v ms) :
    m = (key, v) ∨ m ∈ ms := by
  fun_induction insert key v ms with
  | case1 => exact .inl (List.mem_singleton.mp h)
  | case2 w rest =>
    rcases List.mem_cons.mp h with rfl | h
    · exact .inl rfl
    · exact .inr (List.mem_cons_of_mem _ h)
  | case3 k w rest => exact List.mem_cons.mp h
  | case4 k w rest _ _ ih =>
    rcases List.mem_cons.mp h with rfl | h
    · exact .inr List.mem_cons_self
    · exact (ih h).imp_right (List.mem_cons_of_mem _)

/-- No value is nested more deeply than there are levels left. What is read of a list or an object
lies inside one bracket of it. -/
structure Within (fuel : Nat) : Prop where
  value : ∀ {levels t v r}, readValue fuel (some levels) t = .ok (v, r) → v.nesting ≤ levels
  items : ∀ {levels read t v r}, (∀ w ∈ read, w.nesting ≤ levels) →
    readItems fuel (some levels) read t = .ok (v, r) → v.nesting ≤ levels + 1
  member : ∀ {levels read t v r}, (∀ m ∈ read, m.2.nesting ≤ levels) →
    readMember fuel (some levels) read t = .ok (v, r) → v.nesting ≤ levels + 1
  members : ∀ {levels read t v r}, (∀ m ∈ read, m.2.nesting ≤ levels) →
    readMembers fuel (some levels) read t = .ok (v, r) → v.nesting ≤ levels + 1

section

variable {fuel levels : Nat} {t r : List Char}

theorem nesting_of_readWord {result : Value} {word : List Char}
    (h : readWord result word t = .ok (v, r)) : v = result := by
  fun_induction readWord result word t with
  | case1 => cases h; rfl
  | case2 _ _ _ ih => exact ih h
  | _ => cases h

theorem nesting_le_of_readValue : (∀ g < fuel, Within g) →
    readValue fuel (some levels) t = .ok (v, r) → v.nesting ≤ levels := by
  generalize hroom : (some levels : Room) = room
  fun_cases readValue fuel room t with
  | case3 | case4 | case5 =>
    intro _ h
    rw [nesting_of_readWord h]
    exact Nat.zero_le _
  | case6 | case7 | case17 =>
    intro _ h
    obtain ⟨_, -, hv⟩ := Except.map_eq_ok h
    cases hv
    exact Nat.zero_le _
  | case10 _ _ _ _ _ _ henter | case15 _ _ _ _ _ _ henter =>
    intro _ h
    subst hroom
    obtain ⟨below, rfl, -⟩ := enter?_some henter
    cases h
    exact Nat.succ_le_succ (Nat.zero_le _)
  | case11 fuel _ _ rest hskip room henter w after _ _ hitem =>
    intro ih h
    subst hroom
    obtain ⟨below, rfl, rfl⟩ := enter?_some henter
    have hw := (ih fuel (Nat.lt_succ_self _)).value hitem
    exact (ih fuel (Nat.lt_succ_self _)).items (by simpa using hw) h
  | case16 fuel _ _ rest hskip room henter =>
    intro ih h
    subst hroom
    obtain ⟨below, rfl, rfl⟩ := enter?_some henter
    exact (ih fuel (Nat.lt_succ_self _)).member (by simp) h
  | _ =>
    intro _ h
    cases h

theorem nesting_le_of_readItems {read : List Value} : (∀ g < fuel, Within g) →
    (∀ w ∈ read, w.nesting ≤ levels) →
      readItems fuel (some levels) read t = .ok (v, r) → v.nesting ≤ levels + 1 := by
  generalize hroom : (some levels : Room) = room
  fun_cases readItems fuel room read t with
  | case3 fuel _ _ rest hskip =>
    intro _ hread h
    cases h
    exact Nat.succ_le_succ (nestingOfItems_le_iff.mpr (by simpa using hread))
  | case6 fuel _ _ _ rest hskip w after _ _ hitem =>
    intro ih hread h
    subst hroom
    have hw := (ih fuel (Nat.lt_succ_self _)).value hitem
    exact (ih fuel (Nat.lt_succ_self _)).items (List.forall_mem_cons.mpr ⟨hw, hread⟩) h
  | _ =>
    intro _ _ h
    cases h

theorem nesting_le_of_readMember {read : Members} : (∀ g < fuel, Within g) →
    (∀ m ∈ read, m.2.nesting ≤ levels) →
      readMember fuel (some levels) read t = .ok (v, r) → v.nesting ≤ levels + 1 := by
  generalize hroom : (some levels : Room) = room
  fun_cases readMember fuel room read t with
  | case3 fuel _ _ rest key after hchars rest' hcolon w after' hvalue =>
    intro ih hread h
    subst hroom
    have hw := (ih fuel (Nat.lt_succ_self _)).value hvalue
    refine (ih fuel (Nat.lt_succ_self _)).members ?_ h
    intro m hm
    rcases Members.mem_insert hm with rfl | hm
    · exact hw
    · exact hread m hm
  | _ =>
    intro _ _ h
    cases h

theorem nesting_le_of_readMembers {read : Members} : (∀ g < fuel, Within g) →
    (∀ m ∈ read, m.2.nesting ≤ levels) →
      readMembers fuel (some levels) read t = .ok (v, r) → v.nesting ≤ levels + 1 := by
  generalize hroom : (some levels : Room) = room
  fun_cases readMembers fuel room read t with
  | case3 fuel _ _ rest hskip =>
    intro _ hread h
    cases h
    exact Nat.succ_le_succ (nestingOfMembers_le_iff.mpr hread)
  | case6 fuel _ _ _ rest hskip =>
    intro ih hread h
    subst hroom
    exact (ih fuel (Nat.lt_succ_self _)).member hread h
  | _ =>
    intro _ _ h
    cases h

end

theorem within (fuel : Nat) : Within fuel := by
  induction fuel using Nat.strongRecOn with
  | ind fuel ih =>
    exact ⟨nesting_le_of_readValue ih, nesting_le_of_readItems ih, nesting_le_of_readMember ih,
      nesting_le_of_readMembers ih⟩

theorem nesting_le_of_readAll {levels : Nat} {t : List Char} (h : readAll (some levels) t = .ok v) :
    v.nesting ≤ levels := by
  rw [readAll] at h
  split at h
  · next w rest hvalue =>
    split at h
    · cases h
      exact (within _).value hvalue
    · cases h
  · cases h

/-- The brackets of a value that was read from a text are nested no more deeply than the limit. -/
theorem nesting_le_of_parse {s : String} (h : parse s = .ok v) : v.nesting ≤ levelLimit := by
  rw [parse] at h
  cases hread : readAll (some levelLimit) s.toList with
  | error e =>
    rw [hread] at h
    cases h
  | ok w =>
    rw [hread] at h
    cases h
    exact nesting_le_of_readAll hread

end RichDoc.Json
