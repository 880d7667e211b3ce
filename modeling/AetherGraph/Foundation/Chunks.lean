import Mathlib.Data.List.Basic

/-! A list cut into pieces of a bounded length. -/

namespace Foundation

variable {α : Type}

/-- At most `fuel` pieces of `k` items, the last one shorter when the rest is. -/
def chunksWith (k : Nat) : Nat → List α → List (List α)
  | 0, _ => []
  | fuel + 1, xs => if xs.isEmpty then [] else xs.take k :: chunksWith k fuel (xs.drop k)

/-- The pieces of `k` items in order. -/
def chunks (k : Nat) (xs : List α) : List (List α) := chunksWith k xs.length xs

theorem flatten_chunksWith {k : Nat} (positive : 0 < k) (fuel : Nat) (xs : List α)
    (enough : xs.length ≤ fuel) : (chunksWith k fuel xs).flatten = xs := by
  induction fuel generalizing xs with
  | zero => exact (List.eq_nil_of_length_eq_zero (Nat.le_zero.mp enough)).symm
  | succ fuel ih =>
      unfold chunksWith
      split_ifs with empty
      · exact (List.isEmpty_iff.mp empty).symm
      · have some_ : xs.length ≠ 0 := fun none_ =>
          empty (List.isEmpty_iff.mpr (List.eq_nil_of_length_eq_zero none_))
        rw [List.flatten_cons, ih _ (by rw [List.length_drop]; omega), List.take_append_drop]

theorem flatten_chunks {k : Nat} (positive : 0 < k) (xs : List α) :
    (chunks k xs).flatten = xs := flatten_chunksWith positive _ xs (Nat.le_refl _)

theorem length_le_of_mem_chunksWith {k fuel : Nat} {xs chunk : List α}
    (mem : chunk ∈ chunksWith k fuel xs) : chunk.length ≤ k := by
  induction fuel generalizing xs with
  | zero => cases mem
  | succ fuel ih =>
      unfold chunksWith at mem
      split_ifs at mem
      · cases mem
      · rcases List.mem_cons.mp mem with rfl | mem
        · exact List.length_take_le k xs
        · exact ih mem

theorem length_le_of_mem_chunks {k : Nat} {xs chunk : List α} (mem : chunk ∈ chunks k xs) :
    chunk.length ≤ k := length_le_of_mem_chunksWith mem

end Foundation
