import Mathlib.Data.List.Sort

/-! Sorting followed by removal of adjacent repeats. -/

namespace Foundation

variable {α : Type}

/-- Removes adjacent repeats. -/
def dedup [DecidableEq α] : List α → List α
  | [] => []
  | [x] => [x]
  | x :: y :: rest => if x = y then dedup (y :: rest) else x :: dedup (y :: rest)

@[simp] theorem mem_dedup [DecidableEq α] {l : List α} {x : α} : x ∈ dedup l ↔ x ∈ l := by
  induction l with
  | nil => rfl
  | cons y l ih =>
      cases l with
      | nil => rfl
      | cons z rest =>
          rw [dedup]
          split
          · rename_i same
            subst same
            rw [ih]
            simp
          · rw [List.mem_cons, ih, List.mem_cons (a := x) (b := y)]

theorem dedup_sorted [LinearOrder α] {l : List α} (sorted : l.Pairwise (· ≤ ·)) :
    (dedup l).Pairwise (· < ·) := by
  induction l with
  | nil => exact List.Pairwise.nil
  | cons y l ih =>
      obtain ⟨hy, hl⟩ := List.pairwise_cons.mp sorted
      cases l with
      | nil => exact List.pairwise_singleton _ y
      | cons z rest =>
          rw [dedup]
          split
          · exact ih hl
          · rename_i differ
            have first : y < z := lt_of_le_of_ne (hy z (List.mem_cons_self ..)) differ
            refine List.pairwise_cons.mpr ⟨fun x hx => ?_, ih hl⟩
            rcases List.mem_cons.mp (mem_dedup.mp hx) with rfl | hx
            · exact first
            · exact first.trans_le ((List.pairwise_cons.mp hl).1 x hx)

/-- `sort_unstable` and `dedup`. -/
def sortDedup [LinearOrder α] (l : List α) : List α := dedup (l.insertionSort (· ≤ ·))

@[simp] theorem mem_sortDedup [LinearOrder α] {l : List α} {x : α} :
    x ∈ sortDedup l ↔ x ∈ l := by
  rw [sortDedup, mem_dedup, (List.perm_insertionSort _ l).mem_iff]

theorem sortDedup_sorted [LinearOrder α] (l : List α) : (sortDedup l).Pairwise (· < ·) :=
  dedup_sorted (List.pairwise_insertionSort _ l)

/-- Strictly ascending lists with the same members are the same. -/
theorem eq_of_mem_iff [LinearOrder α] {l l' : List α} (sorted : l.Pairwise (· < ·))
    (sorted' : l'.Pairwise (· < ·)) (same : ∀ x, x ∈ l ↔ x ∈ l') : l = l' :=
  ((List.perm_ext_iff_of_nodup (sorted.imp ne_of_lt) (sorted'.imp ne_of_lt)).mpr same).eq_of_pairwise
    (fun _ _ _ _ lt lt' => absurd lt' (lt_asymm lt)) sorted sorted'

end Foundation
