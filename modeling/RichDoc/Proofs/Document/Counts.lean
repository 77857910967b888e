import RichDoc.Document
import Mathlib.Algebra.GroupWithZero.Nat

/-! Counts of names. A list of counts that is sorted by name and counts only names that occur says
as much as the list of names up to order. The counts of the kinds in a document are such a list. -/

namespace RichDoc.Document

/-- How often a list of counts has a name. -/
def countIn (counts : List (String × Nat)) (name : String) : Nat := (counts.lookup name).getD 0

/-- The list counts each name of another list as often as it occurs there, and no others. -/
structure Counts (counts : List (String × Nat)) (names : List String) : Prop where
  sorted : (counts.map Prod.fst).Pairwise (· < ·)
  pos : ∀ entry ∈ counts, 0 < entry.2
  countIn_eq : ∀ name, countIn counts name = names.count name

variable {counts : List (String × Nat)} {names : List String}

theorem countIn_cons (key name : String) (n : Nat) (counts : List (String × Nat)) :
    countIn ((key, n) :: counts) name = if name = key then n else countIn counts name := by
  simp only [countIn, List.lookup_cons]
  by_cases h : name = key
  · simp [h]
  · simp [h, beq_eq_false_iff_ne.mpr h]

theorem countIn_eq_zero {name : String} (h : name ∉ counts.map Prod.fst) :
    countIn counts name = 0 := by
  induction counts with
  | nil => rfl
  | cons entry counts ih =>
    obtain ⟨key, n⟩ := entry
    rw [List.map_cons, List.mem_cons, not_or] at h
    rw [countIn_cons, if_neg h.1, ih h.2]

/-- The names that a list of counts stands for. -/
def expand (counts : List (String × Nat)) : List String :=
  counts.flatMap fun entry => List.replicate entry.2 entry.1

theorem count_expand (hsorted : (counts.map Prod.fst).Pairwise (· < ·)) (name : String) :
    (expand counts).count name = countIn counts name := by
  induction counts with
  | nil => rfl
  | cons entry counts ih =>
    obtain ⟨key, n⟩ := entry
    rw [List.map_cons, List.pairwise_cons] at hsorted
    have hcons : expand ((key, n) :: counts) = List.replicate n key ++ expand counts := rfl
    rw [hcons, List.count_append, ih hsorted.2, countIn_cons, List.count_replicate]
    by_cases h : name = key
    · subst h
      have hfresh : name ∉ counts.map Prod.fst := fun h =>
        String.lt_irrefl name (hsorted.1 name h)
      simp [countIn_eq_zero hfresh]
    · simp [h, Ne.symm h]

theorem Counts.perm (h : Counts counts names) : names.Perm (expand counts) := by
  rw [List.perm_iff_count]
  intro name
  rw [count_expand h.sorted, h.countIn_eq]

theorem sum_filter_eq_countP (q : String → Bool) (counts : List (String × Nat)) :
    ((counts.filter (q ·.1)).map Prod.snd).sum = (expand counts).countP q := by
  induction counts with
  | nil => rfl
  | cons entry counts ih =>
    have hcons : expand (entry :: counts) = List.replicate entry.2 entry.1 ++ expand counts := rfl
    rw [hcons, List.countP_append, List.countP_replicate, ← ih]
    by_cases h : q entry.1 <;> simp [h]

/-- The counts of the names with a property sum up to the number of names that have it. -/
theorem Counts.sum_filter (h : Counts counts names) (q : String → Bool) :
    ((counts.filter (q ·.1)).map Prod.snd).sum = names.countP q := by
  rw [sum_filter_eq_countP, h.perm.countP_eq]

/-! ### One more name -/

theorem mem_keys_tally {name key : String} :
    key ∈ (tally name counts).map Prod.fst ↔ key = name ∨ key ∈ counts.map Prod.fst := by
  induction counts with
  | nil => simp [tally]
  | cons entry counts ih =>
    obtain ⟨k, n⟩ := entry
    simp only [tally]
    split
    · next h => simp [h]
    · split
      · simp
      · rw [List.map_cons, List.mem_cons, ih, List.map_cons, List.mem_cons]
        exact or_left_comm

theorem sorted_tally (name : String) (h : (counts.map Prod.fst).Pairwise (· < ·)) :
    ((tally name counts).map Prod.fst).Pairwise (· < ·) := by
  induction counts with
  | nil => exact List.pairwise_singleton _ _
  | cons entry counts ih =>
    obtain ⟨key, n⟩ := entry
    have hcons := List.pairwise_cons.mp h
    simp only [tally]
    split
    · exact h
    · next hne =>
      split
      · next hlt =>
        apply List.pairwise_cons.mpr
        refine ⟨?_, h⟩
        intro k hk
        rcases List.mem_cons.mp hk with rfl | hk
        · exact hlt
        · exact String.lt_trans hlt (hcons.1 k hk)
      · next hle =>
        apply List.pairwise_cons.mpr
        refine ⟨?_, ih hcons.2⟩
        intro k hk
        rcases mem_keys_tally.mp hk with rfl | hk
        · rcases Std.le_total (a := key) (b := k) with h | h
          · exact Std.lt_of_le_of_ne h fun h => hne h.symm
          · exact absurd (Std.lt_of_le_of_ne h hne) hle
        · exact hcons.1 k hk

theorem pos_tally (name : String) (h : ∀ entry ∈ counts, 0 < entry.2) :
    ∀ entry ∈ tally name counts, 0 < entry.2 := by
  induction counts with
  | nil => simp [tally]
  | cons entry counts ih =>
    obtain ⟨key, n⟩ := entry
    have hrest := ih fun entry hmem => h entry (by simp [hmem])
    simp only [tally]
    split
    · intro entry hmem
      rcases List.mem_cons.mp hmem with rfl | hmem
      · exact Nat.succ_pos n
      · exact h entry (by simp [hmem])
    · split
      · intro entry hmem
        rcases List.mem_cons.mp hmem with rfl | hmem
        · exact Nat.one_pos
        · exact h entry hmem
      · intro entry hmem
        rcases List.mem_cons.mp hmem with rfl | hmem
        · exact h _ (by simp)
        · exact hrest entry hmem

theorem countIn_tally (name key : String) (h : (counts.map Prod.fst).Pairwise (· < ·)) :
    countIn (tally name counts) key = countIn counts key + if key = name then 1 else 0 := by
  induction counts with
  | nil =>
    rw [tally, countIn_cons]
    exact (Nat.zero_add _).symm
  | cons entry counts ih =>
    obtain ⟨k, n⟩ := entry
    have hcons := List.pairwise_cons.mp h
    simp only [tally]
    split
    · next hname =>
      subst hname
      rw [countIn_cons, countIn_cons]
      split <;> rfl
    · next hne =>
      split
      · next hlt =>
        -- The name sorts before all others, so it was not there.
        have hfresh : name ∉ ((k, n) :: counts).map Prod.fst := by
          intro hmem
          rcases List.mem_cons.mp hmem with rfl | hmem
          · exact hne rfl
          · exact String.lt_asymm hlt (hcons.1 name hmem)
        rw [countIn_cons]
        split
        · next hkey => rw [hkey, countIn_eq_zero hfresh]
        · rfl
      · rw [countIn_cons, countIn_cons, ih hcons.2]
        split
        · next hkey =>
          have : key ≠ name := by
            rintro rfl
            exact hne hkey
          rw [if_neg this, Nat.add_zero]
        · rfl

theorem counts_nil : Counts [] [] :=
  ⟨List.Pairwise.nil, by simp, fun _ => rfl⟩

theorem Counts.tally (h : Counts counts names) (name : String) :
    Counts (tally name counts) (names ++ [name]) where
  sorted := sorted_tally name h.sorted
  pos := pos_tally name h.pos
  countIn_eq := by
    intro key
    rw [countIn_tally name key h.sorted, h.countIn_eq, List.count_append, List.count_singleton]
    by_cases hkey : key = name
    · simp [hkey]
    · simp [hkey, Ne.symm hkey]

theorem Counts.foldl_tally (h : Counts counts names) (ns : List Node) :
    Counts (ns.foldl (fun counts n => Document.tally n.kind.name counts) counts)
      (names ++ ns.map (·.kind.name)) := by
  induction ns generalizing counts names with
  | nil => simpa using h
  | cons n ns ih => simpa using ih (h.tally n.kind.name)

/-- The names of the kinds of the nodes, in the order of the nodes. -/
def kindNames (d : Document) : List String := d.nodes.toList.map (·.kind.name)

theorem counts_kindCounts (d : Document) : Counts d.kindCounts d.kindNames := by
  rw [kindCounts, ← Array.foldl_toList]
  exact counts_nil.foldl_tally d.nodes.toList

end RichDoc.Document
