import AetherGraph.Foundation.AlgorithmR
import AetherGraph.Philox

/-! The host's reservoir is Algorithm R with its slots drawn from Philox. It keeps distinct
positions of the row, and the slots it could have drawn keep every set of them equally often. -/

namespace AetherGraph

open Foundation Foundation.AlgorithmR

/-- The slots the loop draws for a row of `degree` neighbors. -/
def drawnSlots (degree fanout : Nat) (seed : UInt64) (layer : UInt32) (node : UInt64) : List Nat :=
  (List.range' fanout (degree - fanout)).map fun t =>
    (philoxU32 seed layer node (UInt32.ofNat t)).toNat % (t + 1)

theorem drawnSlots_drawn (degree fanout : Nat) (seed : UInt64) (layer : UInt32) (node : UInt64) :
    SlotsDrawn fanout (degree - fanout) (drawnSlots degree fanout seed layer node) := by
  refine ⟨by rw [drawnSlots, List.length_map, List.length_range'], fun i hi => ?_⟩
  simp only [drawnSlots, List.getElem_map, List.getElem_range', Nat.one_mul]
  exact Nat.le_of_lt_succ (Nat.mod_lt _ (Nat.succ_pos _))

theorem foldl_reservoirStep (fanout : Nat) (seed : UInt64) (layer : UInt32) (node : UInt64)
    (later : List UInt32) (start : Nat) (reservoir : List UInt32) :
    (later.zipIdx start).foldl (reservoirStep fanout seed layer node) reservoir =
      (later.zip ((List.range' start later.length).map fun t =>
        (philoxU32 seed layer node (UInt32.ofNat t)).toNat % (t + 1))).foldl
        (place fanout) reservoir := by
  induction later generalizing start reservoir with
  | nil => rfl
  | cons candidate later ih =>
      rw [List.zipIdx_cons, List.foldl_cons, ih, List.length_cons, List.range'_succ,
        List.map_cons, List.zip_cons_cons, List.foldl_cons]
      rfl

/-- Between the two early exits the loop is Algorithm R. -/
theorem reservoirSample_eq {neighbors : List UInt32} {fanout : Nat} (positive : 0 < fanout)
    (more : fanout < neighbors.length) (seed : UInt64) (layer : UInt32) (node : UInt64) :
    reservoirSample neighbors fanout seed layer node =
      sample fanout neighbors (drawnSlots neighbors.length fanout seed layer node) := by
  have later : neighbors.zipIdx.drop fanout = (neighbors.drop fanout).zipIdx fanout := by
    refine List.ext_getElem? fun i => ?_
    rw [List.getElem?_drop, List.getElem?_zipIdx, List.getElem?_zipIdx, List.getElem?_drop,
      Nat.zero_add]
  rw [reservoirSample, if_neg (by omega), if_neg (by omega), sample, later, foldl_reservoirStep,
    List.length_drop]
  rfl

theorem range_map_getD (xs : List UInt32) :
    (List.range xs.length).map (fun p => xs.getD p 0) = xs := by
  refine List.ext_getElem (by rw [List.length_map, List.length_range]) fun i _ within => ?_
  rw [List.getElem_map, List.getElem_range, List.getD_eq_getElem?_getD,
    List.getElem?_eq_getElem within, Option.getD_some]

/-- The sample reads the row at the positions kept. -/
theorem sample_positions (neighbors : List UInt32) (fanout : Nat) (slots : List Nat) :
    sample fanout neighbors slots =
      (sample fanout (List.range neighbors.length) slots).map fun p => neighbors.getD p 0 := by
  rw [← sample_map, range_map_getD]

theorem reservoirSample_whole {neighbors : List UInt32} {fanout : Nat}
    (all : neighbors.length ≤ fanout) (seed : UInt64) (layer : UInt32) (node : UInt64) :
    reservoirSample neighbors fanout seed layer node = neighbors := by
  by_cases none : neighbors.length = 0 ∨ fanout = 0
  · have empty : neighbors.length = 0 := by omega
    rw [reservoirSample, if_pos none, List.length_eq_zero_iff.1 empty]
  · rw [reservoirSample, if_neg none, if_pos all]

/-- The reservoir is uniform without replacement, and a row no longer than the fanout comes back
whole. -/
theorem reservoirSample_uniform (neighbors : List UInt32) (fanout : Nat) :
    (0 < fanout → fanout < neighbors.length →
      (∀ seed layer node,
        SlotsDrawn fanout (neighbors.length - fanout)
          (drawnSlots neighbors.length fanout seed layer node) ∧
        reservoirSample neighbors fanout seed layer node =
          (sample fanout (List.range neighbors.length)
            (drawnSlots neighbors.length fanout seed layer node)).map
            fun p => neighbors.getD p 0) ∧
      (∀ slots, SlotsDrawn fanout (neighbors.length - fanout) slots →
        (sample fanout (List.range neighbors.length) slots).length = fanout ∧
        (sample fanout (List.range neighbors.length) slots).Nodup ∧
        ∀ p ∈ sample fanout (List.range neighbors.length) slots, p < neighbors.length) ∧
      ∀ S ⊆ Finset.range neighbors.length, S.card = fanout →
        {slots | SlotsDrawn fanout (neighbors.length - fanout) slots ∧
          (sample fanout (List.range neighbors.length) slots).toFinset = S}.ncard =
          (neighbors.length - fanout).factorial) ∧
    (neighbors.length ≤ fanout → ∀ seed layer node,
      reservoirSample neighbors fanout seed layer node = neighbors) := by
  refine ⟨fun positive more => ?_, fun all => reservoirSample_whole all⟩
  have split : fanout + (neighbors.length - fanout) = neighbors.length := by omega
  refine ⟨fun seed layer node => ⟨drawnSlots_drawn _ _ _ _ _, ?_⟩, fun slots drawn => ?_,
    fun S inside card => ?_⟩
  · rw [reservoirSample_eq positive more, sample_positions]
  · have kept := drawn.kept
    rw [split] at kept
    refine ⟨kept.length, kept.nodup, fun p mem => ?_⟩
    have := kept.below p mem
    omega
  · have counted := ncard_kept (n := neighbors.length - fanout) (S := S)
      (by rwa [split]) card
    rwa [split] at counted

theorem reservoirSample_uniform_twoOfThree :
    {slots | SlotsDrawn 2 1 slots ∧ (sample 2 (List.range 3) slots).toFinset = {0, 2}}.ncard = 1 :=
  ((reservoirSample_uniform [30, 10, 20] 2).1 (by decide) (by decide)).2.2 {0, 2} (by decide)
    (by decide)

end AetherGraph
