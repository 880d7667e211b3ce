import Mathlib.Data.List.Nodup
import Mathlib.Data.List.Range

/-! Floyd's sampling without replacement: at each upper end `i` in turn, a draw below
`i + 1` is taken unless it was taken already, and then `i` is. -/

namespace Foundation

variable {σ : Type}

/-- What a draw `j` at upper end `i` adds to `taken`. -/
def floydPick (taken : List Nat) (i j : Nat) : Nat := if j ∈ taken then i else j

/-- The picks for the upper ends in turn, after those in `taken`. -/
def floydFrom (draw : σ → Nat → Nat × σ) : σ → List Nat → List Nat → List Nat × σ
  | r, taken, [] => (taken, r)
  | r, taken, i :: ends =>
      floydFrom draw (draw r (i + 1)).2 (taken ++ [floydPick taken i (draw r (i + 1)).1]) ends

/-- `k` of the positions below `n`. -/
def floydSample (draw : σ → Nat → Nat × σ) (r : σ) (n k : Nat) : List Nat × σ :=
  floydFrom draw r [] (List.range' (n - k) (n - (n - k)))

/-- Distinct picks, all below `bound`. -/
structure Picked (taken : List Nat) (bound : Nat) : Prop where
  nodup : taken.Nodup
  lt : ∀ x ∈ taken, x < bound

theorem Picked.nil (bound : Nat) : Picked [] bound :=
  ⟨List.nodup_nil, fun _ h => absurd h List.not_mem_nil⟩

/-- A pick is new and at most its upper end. -/
theorem Picked.pick {taken : List Nat} {i j : Nat} (h : Picked taken i) (hj : j < i + 1) :
    floydPick taken i j ∉ taken ∧ floydPick taken i j < i + 1 := by
  unfold floydPick
  split
  · exact ⟨fun hi => Nat.lt_irrefl i (h.lt i hi), Nat.lt_succ_self i⟩
  · rename_i new
    exact ⟨new, hj⟩

theorem Picked.snoc {taken : List Nat} {i j : Nat} (h : Picked taken i) (hj : j < i + 1) :
    Picked (taken ++ [floydPick taken i j]) (i + 1) := by
  obtain ⟨new, lt⟩ := h.pick hj
  refine ⟨?_, fun x hx => ?_⟩
  · rw [List.nodup_append]
    refine ⟨h.nodup, List.nodup_singleton _, fun a ha b hb same => ?_⟩
    rw [List.mem_singleton.mp hb] at same
    exact new (same ▸ ha)
  · rcases List.mem_append.mp hx with hx | hx
    · exact Nat.lt_succ_of_lt (h.lt x hx)
    · rwa [List.mem_singleton.mp hx]

variable {draw : σ → Nat → Nat × σ}

theorem floydFrom_picked (bounded : ∀ r s, 0 < s → (draw r s).1 < s) (k : Nat) {r : σ}
    {taken : List Nat} {lo : Nat} (h : Picked taken lo) :
    Picked (floydFrom draw r taken (List.range' lo k)).1 (lo + k) ∧
      (floydFrom draw r taken (List.range' lo k)).1.length = taken.length + k := by
  induction k generalizing r taken lo with
  | zero => exact ⟨h, rfl⟩
  | succ k ih =>
      have next := h.snoc (bounded r (lo + 1) (Nat.succ_pos lo))
      obtain ⟨picked, length⟩ := ih (r := (draw r (lo + 1)).2) next
      rw [Nat.add_assoc, Nat.add_comm 1 k] at picked
      refine ⟨picked, length.trans ?_⟩
      rw [List.length_append, List.length_singleton, Nat.add_assoc, Nat.add_comm 1 k]

/-- `k` distinct positions below `n`. -/
theorem floydSample_picked (bounded : ∀ r s, 0 < s → (draw r s).1 < s) (r : σ) {n k : Nat}
    (hk : k ≤ n) :
    Picked (floydSample draw r n k).1 n ∧ (floydSample draw r n k).1.length = k := by
  obtain ⟨picked, length⟩ :=
    floydFrom_picked bounded (n - (n - k)) (r := r) (Picked.nil (n - k))
  rw [Nat.add_sub_cancel' (Nat.sub_le n k)] at picked
  refine ⟨picked, length.trans ?_⟩
  rw [List.length_nil, Nat.zero_add, Nat.sub_sub_self hk]

end Foundation
