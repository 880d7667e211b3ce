import Mathlib.Algebra.GroupWithZero.Nat
import Mathlib.Data.List.Basic

/-! Graphs in compressed sparse row form.  Every graph has the shape its constructors
check; sorted offsets and destinations in range are the two stronger levels of proof. -/

namespace AetherGraph

def maxNodes : Nat := 2 ^ 32 - 1

theorem one_le_maxNodes : 1 ≤ maxNodes := by decide

theorem two_le_maxNodes : 2 ≤ maxNodes := by decide

theorem three_le_maxNodes : 3 ≤ maxNodes := by decide

structure Csr (Time : Type) where
  numNodes : Nat
  numDstNodes : Nat
  offsets : List Nat
  edges : List Nat
  weights : Option (List Float32)
  timestamps : Option (List Time)
  numNodes_le : numNodes ≤ maxNodes
  numDstNodes_le : numDstNodes ≤ maxNodes
  offsets_length : offsets.length = numNodes + 1
  first_offset : offsets[0]? = some 0
  last_offset : offsets[numNodes]? = some edges.length
  weights_length : ∀ w ∈ weights, w.length = edges.length
  timestamps_length : ∀ ts ∈ timestamps, ts.length = edges.length

/-- The entries of `xs` at the positions of a half-open range. -/
def slice {α : Type} (xs : List α) (r : Nat × Nat) : List α := (xs.drop r.1).take (r.2 - r.1)

theorem slice_getElem? {α : Type} (xs : List α) (r : Nat × Nat) {i : Nat} (hi : i < r.2 - r.1) :
    (slice xs r)[i]? = xs[r.1 + i]? := by
  rw [slice, List.getElem?_take_of_lt hi, List.getElem?_drop]

theorem slice_length {α : Type} {xs : List α} {r : Nat × Nat} (h : r.2 ≤ xs.length) :
    (slice xs r).length = r.2 - r.1 := by
  rw [slice, List.length_take, List.length_drop]
  omega

namespace Csr

variable {Time : Type} (g : Csr Time)

/-- `neighbor_range_guarded`: an out-of-range node or a corrupt offset pair reads as an
empty row. -/
def neighborRange (node : Nat) : Nat × Nat :=
  if node < g.numNodes then
    let start := g.offsets.getD node 0
    let stop := g.offsets.getD (node + 1) 0
    if stop < start ∨ g.edges.length < stop then (0, 0) else (start, stop)
  else (0, 0)

def degree (node : Nat) : Nat := (g.neighborRange node).2 - (g.neighborRange node).1

def neighbors (node : Nat) : List Nat := slice g.edges (g.neighborRange node)

def neighborWeights (node : Nat) : Option (List Float32) :=
  g.weights.map fun w => slice w (g.neighborRange node)

def neighborTimestamps (node : Nat) : Option (List Time) :=
  g.timestamps.map fun ts => slice ts (g.neighborRange node)

/-- What `check_monotone` proves. -/
def Monotone : Prop := ∀ i < g.numNodes, g.offsets.getD i 0 ≤ g.offsets.getD (i + 1) 0

/-- What `check_destinations` proves. -/
def DestinationsInRange : Prop := ∀ d ∈ g.edges, d < g.numDstNodes

def Homogeneous : Prop := g.numDstNodes = g.numNodes

instance : Decidable g.Monotone := by unfold Monotone; infer_instance

instance : Decidable g.DestinationsInRange := by unfold DestinationsInRange; infer_instance

instance : Decidable g.Homogeneous := by unfold Homogeneous; infer_instance

variable {g}

theorem neighborRange_le (node : Nat) : (g.neighborRange node).2 ≤ g.edges.length := by
  unfold neighborRange
  split
  · dsimp only
    split <;> simp only [Nat.zero_le]
    omega
  · exact Nat.zero_le _

theorem neighbors_length (node : Nat) : (g.neighbors node).length = g.degree node :=
  slice_length (neighborRange_le node)

theorem neighbors_getElem? {node i : Nat} (hi : i < g.degree node) :
    (g.neighbors node)[i]? = g.edges[(g.neighborRange node).1 + i]? := slice_getElem? _ _ hi

theorem neighborRange_eq {node : Nat} (row : g.degree node ≠ 0) :
    node < g.numNodes ∧
      g.neighborRange node = (g.offsets.getD node 0, g.offsets.getD (node + 1) 0) := by
  unfold degree neighborRange at *
  split at row
  · rename_i inRange
    dsimp only at row
    split at row
    · exact absurd rfl row
    · rename_i good
      exact ⟨inRange, by rw [if_pos inRange, if_neg good]⟩
  · exact absurd rfl row

theorem Monotone.offsets_le (mono : g.Monotone) {u v : Nat} (huv : u ≤ v) (hv : v ≤ g.numNodes) :
    g.offsets.getD u 0 ≤ g.offsets.getD v 0 := by
  induction v with
  | zero =>
      obtain rfl : u = 0 := Nat.le_zero.mp huv
      exact Nat.le_refl _
  | succ v ih =>
      rcases Nat.lt_or_eq_of_le huv with below | rfl
      · exact Nat.le_trans (ih (Nat.le_of_lt_succ below) (Nat.le_of_succ_le hv)) (mono v hv)
      · exact Nat.le_refl _

/-- Sorted offsets give every edge position one row. -/
theorem Monotone.row_unique (mono : g.Monotone) {u v pos : Nat}
    (hu : (g.neighborRange u).1 ≤ pos ∧ pos < (g.neighborRange u).2)
    (hv : (g.neighborRange v).1 ≤ pos ∧ pos < (g.neighborRange v).2) : u = v := by
  have nonempty : ∀ {w : Nat}, (g.neighborRange w).1 ≤ pos ∧ pos < (g.neighborRange w).2 →
      g.degree w ≠ 0 := by
    intro w hw
    unfold degree
    omega
  obtain ⟨inU, rowU⟩ := neighborRange_eq (nonempty hu)
  obtain ⟨inV, rowV⟩ := neighborRange_eq (nonempty hv)
  rw [rowU] at hu
  rw [rowV] at hv
  rcases Nat.lt_trichotomy u v with below | same | above
  · have : g.offsets.getD (u + 1) 0 ≤ g.offsets.getD v 0 := mono.offsets_le below (Nat.le_of_lt inV)
    simp only at *
    omega
  · exact same
  · have : g.offsets.getD (v + 1) 0 ≤ g.offsets.getD u 0 := mono.offsets_le above (Nat.le_of_lt inU)
    simp only at *
    omega

end Csr

end AetherGraph
