import Mathlib.Data.List.Basic

/-! The greatest measure of the entries of a list, as a loop over the list finds it. -/

namespace RichDoc

variable {α : Type} {f : α → Nat} {xs : List α}

theorem le_foldl_max (f : α → Nat) (xs : List α) (m : Nat) :
    m ≤ xs.foldl (fun greatest x => max greatest (f x)) m := by
  induction xs generalizing m with
  | nil => exact Nat.le_refl m
  | cons x xs ih => exact Nat.le_trans (Nat.le_max_left m (f x)) (ih _)

theorem le_foldl_max_of_mem {x : α} (h : x ∈ xs) (m : Nat) :
    f x ≤ xs.foldl (fun greatest x => max greatest (f x)) m := by
  induction xs generalizing m with
  | nil => simp at h
  | cons y xs ih =>
    rcases List.mem_cons.mp h with rfl | h
    · exact Nat.le_trans (Nat.le_max_right m (f x)) (le_foldl_max f xs _)
    · exact ih h _

theorem foldl_max_cases (f : α → Nat) (xs : List α) (m : Nat) :
    xs.foldl (fun greatest x => max greatest (f x)) m = m ∨
      ∃ x ∈ xs, xs.foldl (fun greatest x => max greatest (f x)) m = f x := by
  induction xs generalizing m with
  | nil => exact .inl rfl
  | cons x xs ih =>
    rw [List.foldl_cons]
    rcases ih (max m (f x)) with heq | ⟨y, hy, heq⟩
    · rw [heq]
      rcases Nat.le_total m (f x) with hle | hle
      · exact .inr ⟨x, by simp, by omega⟩
      · exact .inl (by omega)
    · exact .inr ⟨y, by simp [hy], heq⟩

end RichDoc
