import Mathlib.Data.List.GetD
import Mathlib.Data.List.Nodup
import Mathlib.Data.List.Perm.Basic
import Mathlib.Data.List.Range

/-! Lists that name each number below their length once, and the lists that undo them. -/

namespace Foundation.Relabeling

/-- Where each number stands in `perm`. -/
def inverse (perm : List Nat) : List Nat := (List.range perm.length).map perm.idxOf

theorem inverse_length (perm : List Nat) : (inverse perm).length = perm.length := by
  rw [inverse, List.length_map, List.length_range]

section Range

variable {perm : List Nat} {n : Nat}

theorem length_eq (h : perm.Perm (List.range n)) : perm.length = n := by
  rw [h.length_eq, List.length_range]

theorem mem_iff (h : perm.Perm (List.range n)) {v : Nat} : v ∈ perm ↔ v < n := by
  rw [h.mem_iff, List.mem_range]

theorem nodup (h : perm.Perm (List.range n)) : perm.Nodup := h.nodup_iff.mpr List.nodup_range

/-- Distinct numbers below the length are all of them. -/
theorem perm_range (nodup : perm.Nodup) (below : ∀ v ∈ perm, v < n) (length : perm.length = n) :
    perm.Perm (List.range n) := by
  refine (List.subperm_of_subset nodup fun v hv => List.mem_range.mpr (below v hv)).perm_of_length_le ?_
  rw [List.length_range, length]

theorem getD_lt (h : perm.Perm (List.range n)) {i : Nat} (hi : i < n) : perm.getD i 0 < n := by
  have inside : i < perm.length := (length_eq h).symm ▸ hi
  rw [List.getD_eq_getElem _ _ inside]
  exact (mem_iff h).mp (List.getElem_mem inside)

theorem inverse_getD (h : perm.Perm (List.range n)) {v : Nat} (hv : v < n) :
    (inverse perm).getD v 0 = perm.idxOf v := by
  have inside : v < perm.length := (length_eq h).symm ▸ hv
  rw [List.getD_eq_getElem _ _ (by rwa [inverse_length])]
  simp [inverse]

theorem idxOf_lt (h : perm.Perm (List.range n)) {v : Nat} (hv : v < n) : perm.idxOf v < n := by
  have inside := List.idxOf_lt_length_iff.mpr ((mem_iff h).mpr hv)
  rwa [length_eq h] at inside

theorem getD_idxOf (h : perm.Perm (List.range n)) {v : Nat} (hv : v < n) :
    perm.getD (perm.idxOf v) 0 = v := by
  have inside := List.idxOf_lt_length_iff.mpr ((mem_iff h).mpr hv)
  rw [List.getD_eq_getElem _ _ inside]
  exact List.getElem_idxOf inside

theorem idxOf_getD (h : perm.Perm (List.range n)) {i : Nat} (hi : i < n) :
    perm.idxOf (perm.getD i 0) = i := by
  have inside : i < perm.length := (length_eq h).symm ▸ hi
  rw [List.getD_eq_getElem _ _ inside]
  exact (nodup h).idxOf_getElem i inside

/-- What undoes a relabeling is one. -/
theorem inverse_perm (h : perm.Perm (List.range n)) : (inverse perm).Perm (List.range n) := by
  refine perm_range ?_ ?_ ((inverse_length perm).trans (length_eq h))
  · refine List.Nodup.map_on ?_ List.nodup_range
    intro u hu v hv same
    rw [List.mem_range, length_eq h] at hu hv
    rw [← getD_idxOf h hu, same, getD_idxOf h hv]
  · intro i hi
    obtain ⟨v, hv, rfl⟩ := List.mem_map.mp hi
    rw [List.mem_range, length_eq h] at hv
    exact idxOf_lt h hv

theorem inverse_idxOf (h : perm.Perm (List.range n)) {i : Nat} (hi : i < n) :
    (inverse perm).idxOf i = perm.getD i 0 := by
  have back := idxOf_getD (inverse_perm h) (getD_lt h hi)
  rwa [inverse_getD h (getD_lt h hi), idxOf_getD h hi] at back

end Range

end Foundation.Relabeling
