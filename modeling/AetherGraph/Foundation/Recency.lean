import Mathlib.Data.List.DropRight
import Mathlib.Data.List.Nodup
import Mathlib.Data.List.Perm.Subperm

/-! The distinct items of a history in the order of their last appearance, and a window on the
latest of them. -/

namespace Foundation

variable {α : Type}

section Recency

variable [DecidableEq α]

/-- The item moves to the end. -/
def touch (xs : List α) (a : α) : List α := xs.filter (fun b => decide (b ≠ a)) ++ [a]

/-- The distinct items of a history, the latest last. -/
def recency (history : List α) : List α := history.foldl touch []

theorem recency_concat (history : List α) (a : α) :
    recency (history ++ [a]) = touch (recency history) a := by
  rw [recency, List.foldl_append]
  rfl

theorem mem_touch {xs : List α} {a b : α} : b ∈ touch xs a ↔ b ∈ xs ∨ b = a := by
  rw [touch, List.mem_append, List.mem_singleton, List.mem_filter, decide_eq_true_eq]
  by_cases same : b = a
  · simp [same]
  · simp [same]

theorem touch_nodup {xs : List α} (nodup : xs.Nodup) (a : α) : (touch xs a).Nodup := by
  refine List.nodup_append.mpr ⟨nodup.filter _, List.nodup_singleton a, fun b mem c mem' => ?_⟩
  rw [List.mem_singleton.mp mem']
  exact of_decide_eq_true (List.mem_filter.mp mem).2

theorem recency_nodup (history : List α) : (recency history).Nodup := by
  induction history using List.reverseRecOn with
  | nil => exact List.nodup_nil
  | append_singleton history a ih =>
      rw [recency_concat]
      exact touch_nodup ih a

theorem touch_append (xs ys : List α) (a : α) :
    touch (xs ++ ys) a = xs.filter (fun b => decide (b ≠ a)) ++ touch ys a := by
  rw [touch, touch, List.filter_append, List.append_assoc]

/-- At most one item of a list without repeats goes. -/
theorem length_le_touch {xs : List α} (nodup : xs.Nodup) (a : α) :
    xs.length ≤ (touch xs a).length := by
  have sub : xs ⊆ touch xs a := fun b mem => mem_touch.mpr (.inl mem)
  exact (List.Nodup.subperm nodup sub).length_le

end Recency

theorem rtake_append {xs ys : List α} {k : Nat} (long : k ≤ ys.length) :
    (xs ++ ys).rtake k = ys.rtake k := by
  rw [List.rtake, List.rtake, List.length_append, Nat.add_sub_assoc long,
    List.drop_length_add_append]

/-- The window on the latest items can be kept by itself. -/
theorem rtake_touch [DecidableEq α] {xs : List α} (nodup : xs.Nodup) (k : Nat) (a : α) :
    (touch (xs.rtake k) a).rtake k = (touch xs a).rtake k := by
  rcases Nat.le_total xs.length k with short | long
  · have whole : xs.rtake k = xs := by
      rw [List.rtake, Nat.sub_eq_zero_of_le short, List.drop_zero]
    rw [whole]
  · have window : (xs.rtake k).length = k := by
      rw [List.rtake, List.length_drop]
      omega
    have latest : (xs.rtake k).Nodup := nodup.sublist (List.drop_sublist _ _)
    have split : xs = xs.take (xs.length - k) ++ xs.rtake k :=
      (List.take_append_drop (xs.length - k) xs).symm
    conv_rhs => rw [split, touch_append]
    rw [rtake_append]
    have kept := length_le_touch latest a
    omega

theorem length_rtake_le (xs : List α) (k : Nat) : (xs.rtake k).length ≤ k := by
  rw [List.rtake, List.length_drop]
  omega

end Foundation
