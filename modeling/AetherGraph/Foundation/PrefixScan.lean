import Mathlib.Algebra.BigOperators.Fin

/-! The Hillis-Steele scan: rounds whose reach doubles, each lane adding the lane one reach
below, leave in every lane the sum of the lanes up to it. -/

namespace Foundation

variable {M : Type} [AddCommMonoid M] {n : Nat}

/-- The counter of `for (offset = 1; offset < m; offset <<= 1)` from `offset` on. -/
def doublings (m offset : Nat) : List Nat :=
  if 0 < offset ∧ offset < m then offset :: doublings m (2 * offset) else []
termination_by m - offset

/-- One round over the first `m` of `n` lanes. -/
def scanRound (m : Nat) (v : Fin n → M) (offset : Nat) : Fin n → M := fun lane =>
  if offset ≤ lane ∧ (lane : Nat) < m then
    v lane + v ⟨lane - offset, Nat.lt_of_le_of_lt (Nat.sub_le _ _) lane.isLt⟩
  else v lane

def inclusiveScan (m : Nat) (v : Fin n → M) : Fin n → M :=
  (doublings m 1).foldl (scanRound m) v

/-- The sum of the last `reach` lanes up to a lane. -/
def window (v : Fin n → M) (reach : Nat) (lane : Fin n) : M :=
  ∑ i with i ≤ lane ∧ (lane : Nat) < i + reach, v i

theorem window_one (v : Fin n → M) (lane : Fin n) : window v 1 lane = v lane := by
  have only : Finset.univ.filter (fun i : Fin n => i ≤ lane ∧ (lane : Nat) < i + 1) = {lane} := by
    ext i
    simp only [Finset.mem_filter, Finset.mem_univ, true_and, Finset.mem_singleton, Fin.le_def,
      Fin.ext_iff]
    omega
  rw [window, only, Finset.sum_singleton]

/-- Two windows meet in one of twice the reach. -/
theorem window_double (v : Fin n → M) {reach : Nat} {lane : Fin n} (h : reach ≤ lane) :
    window v reach lane +
        window v reach ⟨lane - reach, Nat.lt_of_le_of_lt (Nat.sub_le _ _) lane.isLt⟩ =
      window v (2 * reach) lane := by
  rw [window, window, window, ← Finset.sum_union]
  · congr 1
    ext i
    simp only [Finset.mem_union, Finset.mem_filter, Finset.mem_univ, true_and, Fin.le_def]
    omega
  · refine Finset.disjoint_filter.mpr fun i _ first second => ?_
    simp only [Fin.le_def] at first second
    omega

/-- A window that reaches below the first lane cannot grow. -/
theorem window_full (v : Fin n → M) {reach : Nat} {lane : Fin n} (h : (lane : Nat) < reach) :
    window v reach lane = ∑ i ∈ Finset.Iic lane, v i := by
  rw [window]
  congr 1
  ext i
  simp only [Finset.mem_filter, Finset.mem_univ, true_and, Finset.mem_Iic, Fin.le_def]
  omega

/-- Rounds from a reach on, over lanes that hold their windows of that reach. -/
theorem foldl_scanRound {m : Nat} (v₀ : Fin n → M) (offset : Nat) (pos : 0 < offset)
    (v : Fin n → M) (held : ∀ lane : Fin n, (lane : Nat) < m → v lane = window v₀ offset lane) :
    ∀ lane : Fin n, (lane : Nat) < m →
      (doublings m offset).foldl (scanRound m) v lane = ∑ i ∈ Finset.Iic lane, v₀ i := by
  fun_induction doublings m offset generalizing v with
  | case1 offset more ih =>
      refine ih (by omega) (scanRound m v offset) fun lane inside => ?_
      rw [scanRound]
      by_cases far : offset ≤ lane
      · rw [if_pos ⟨far, inside⟩, held lane inside, held _ (by dsimp only; omega),
          window_double v₀ far]
      · rw [if_neg fun h => far h.1, held lane inside, window_full v₀ (by omega),
          window_full v₀ (by omega)]
  | case2 offset done =>
      intro lane inside
      rw [List.foldl_nil, held lane inside, window_full v₀ (by omega)]

theorem inclusiveScan_eq {m : Nat} (v : Fin n → M) {lane : Fin n} (inside : (lane : Nat) < m) :
    inclusiveScan m v lane = ∑ i ∈ Finset.Iic lane, v i :=
  foldl_scanRound v 1 Nat.one_pos v (fun lane _ => (window_one v lane).symm) lane inside

/-- The scan of values given by the lane's number. -/
theorem inclusiveScan_range {m : Nat} {v : Fin n → M} (f : Nat → M) {lane : Fin n}
    (inside : (lane : Nat) < m) (each : ∀ i ≤ lane, v i = f i) :
    inclusiveScan m v lane = ∑ i ∈ Finset.range (lane + 1), f i := by
  rw [inclusiveScan_eq v inside, Nat.range_succ_eq_Iic, ← Fin.map_valEmbedding_Iic,
    Finset.sum_map]
  exact Finset.sum_congr rfl fun i hi => each i (Finset.mem_Iic.mp hi)

end Foundation
