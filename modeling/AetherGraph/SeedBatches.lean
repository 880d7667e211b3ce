import Mathlib.Data.Nat.ModEq
import Mathlib.Data.List.Nodup
import Mathlib.Data.List.Perm.Subperm
import Mathlib.Data.Nat.Find
import Mathlib.Data.Nat.Prime.Basic
import AetherGraph.Csr
import AetherGraph.Foundation.ByteFormat

/-! The training loader's order of one epoch over all nodes: batches are cut from a walk by a
coprime stride that keeps no array of the epoch's order. -/

namespace AetherGraph

open Foundation

namespace SeedBatches

/-- What an `int64` array cell holds of an exact result. -/
def int64 (x : Int) : Int := Int.bmod x (2 ^ 64)

/-- `np.arange(start, end, dtype=np.int64)`. -/
def arange (start stop : Nat) : List Int :=
  (List.range' start (stop - start)).map Nat.cast

structure SeedBatch where
  seeds : List Int
  inputId : List Int
deriving DecidableEq, Repr

/-- `none` while every stride drawn so far has been turned down. -/
def randomCoprimeStride (modulus : Nat) (strides : List Nat) : Option Nat :=
  if modulus ≤ 1 then some 1 else strides.find? fun stride => Nat.gcd stride modulus == 1

def getBatchStrided (numNodes offset stride batchSize batchIdx : Nat) : SeedBatch :=
  let start := batchIdx * batchSize
  let stop := min (start + batchSize) numNodes
  let idx := arange start stop
  let idx := idx.map fun x => int64 (x * stride)
  let idx := idx.map fun x => int64 (x + offset)
  let idx := idx.map fun x : Int => x % numNodes
  ⟨idx, idx⟩

/-- The loader's `__len__`. -/
def numBatches (numNodes batchSize : Nat) : Nat := (numNodes + batchSize - 1) / batchSize

/-- The seeds an epoch's batches hand out, one batch after another. -/
def epoch (getBatch : Nat → SeedBatch) (numNodes batchSize : Nat) : List Int :=
  (List.range (numBatches numNodes batchSize)).flatMap fun i => (getBatch i).seeds

/-- Every node is handed out exactly once, and only the last batch may be short. -/
structure VisitsOnce (getBatch : Nat → SeedBatch) (numNodes batchSize : Nat) : Prop where
  once : ∀ node < numNodes, (epoch getBatch numNodes batchSize).count (node : Int) = 1
  full : ∀ i, i + 1 < numBatches numNodes batchSize → (getBatch i).seeds.length = batchSize

theorem numBatches_mul_ge {numNodes batchSize : Nat} (positive : 0 < batchSize) :
    numNodes ≤ numBatches numNodes batchSize * batchSize := by
  have rounded := Nat.div_add_mod (numNodes + batchSize - 1) batchSize
  have small := Nat.mod_lt (numNodes + batchSize - 1) positive
  rw [numBatches, Nat.mul_comm]
  omega

theorem start_lt {numNodes batchSize i : Nat} (positive : 0 < batchSize)
    (within : i < numBatches numNodes batchSize) : i * batchSize < numNodes := by
  have rounded := Nat.div_mul_le_self (numNodes + batchSize - 1) batchSize
  have before : (i + 1) * batchSize ≤ numBatches numNodes batchSize * batchSize :=
    Nat.mul_le_mul_right _ within
  rw [numBatches] at before
  rw [Nat.succ_mul] at before
  omega

/-- Slices cut off at the list's end are the slices themselves. -/
theorem slice_min {α : Type} {numNodes : Nat} {xs : List α} (length : xs.length = numNodes)
    (start batchSize : Nat) :
    (xs.drop start).take (min (start + batchSize) numNodes - start) =
      (xs.drop start).take batchSize := by
  rcases Nat.le_total (start + batchSize) numNodes with inside | past
  · rw [Nat.min_eq_left inside, Nat.add_sub_cancel_left]
  · rw [Nat.min_eq_right past, List.take_of_length_le, List.take_of_length_le]
    · rw [List.length_drop]
      omega
    · rw [List.length_drop]
      omega

theorem flatMap_slices {α : Type} {numNodes batchSize : Nat} {xs : List α}
    (length : xs.length = numNodes) (positive : 0 < batchSize) :
    ((List.range (numBatches numNodes batchSize)).flatMap fun i =>
      (xs.drop (i * batchSize)).take (min (i * batchSize + batchSize) numNodes - i * batchSize)) =
      xs := by
  simp only [slice_min length]
  rw [flatMap_range_pieces, List.take_of_length_le]
  rw [length]
  exact numBatches_mul_ge positive

theorem length_slice {α : Type} {numNodes batchSize i : Nat} {xs : List α}
    (length : xs.length = numNodes) (positive : 0 < batchSize)
    (within : i + 1 < numBatches numNodes batchSize) :
    ((xs.drop (i * batchSize)).take
      (min (i * batchSize + batchSize) numNodes - i * batchSize)).length = batchSize := by
  have next := start_lt positive within
  rw [Nat.succ_mul] at next
  rw [slice_min length, List.length_take, List.length_drop, length]
  omega

theorem arange_eq {start stop numNodes : Nat} (within : stop ≤ numNodes) :
    arange start stop =
      (((List.range numNodes).map Nat.cast).drop start).take (stop - start) := by
  rw [arange, ← List.map_drop, ← List.map_take, List.range_eq_range', List.drop_range',
    List.take_range'_of_length_ge (Nat.sub_le_sub_right within _), Nat.mul_one, Nat.zero_add]

/-- The node the strided walk reaches at a position of the epoch. -/
def nodeAt (numNodes offset stride pos : Nat) : Int :=
  int64 (int64 (pos * stride) + offset) % numNodes

theorem getBatchStrided_seeds (numNodes offset stride batchSize i : Nat) :
    (getBatchStrided numNodes offset stride batchSize i).seeds =
      (((List.range numNodes).map (nodeAt numNodes offset stride)).drop (i * batchSize)).take
        (min (i * batchSize + batchSize) numNodes - i * batchSize) := by
  simp only [getBatchStrided, arange_eq (Nat.min_le_right _ _), List.map_take, List.map_drop,
    List.map_map]
  refine congrArg (fun xs : List Int => List.take _ (List.drop (i * batchSize) xs)) ?_
  refine List.map_congr_left fun pos _ => ?_
  rw [nodeAt, Function.comp_apply, Function.comp_apply, Function.comp_apply]

theorem strided_epoch {numNodes batchSize : Nat} (positive : 0 < batchSize) (offset stride : Nat) :
    epoch (getBatchStrided numNodes offset stride batchSize) numNodes batchSize =
      (List.range numNodes).map (nodeAt numNodes offset stride) := by
  simp only [epoch, getBatchStrided_seeds]
  exact flatMap_slices (by rw [List.length_map, List.length_range]) positive

theorem int64_of_lt {x : Int} (low : 0 ≤ x) (high : x < 2 ^ 63) : int64 x = x :=
  Int.bmod_eq_of_le (by omega) (by omega)

theorem int64_of_ge {x : Int} (low : 2 ^ 63 ≤ x) (high : x < 2 ^ 64) : int64 x = x - 2 ^ 64 := by
  have residue : x % ((2 ^ 64 : Nat) : Int) = x := Int.emod_eq_of_lt (by omega) (by omega)
  rw [int64, Int.bmod_def, residue, if_neg (by omega)]
  rfl

/-- The cell's two wraps amount to one. -/
theorem nodeAt_eq (numNodes offset stride pos : Nat) :
    nodeAt numNodes offset stride pos = int64 ((pos * stride + offset : Nat) : Int) % numNodes := by
  rw [nodeAt, int64, int64, Int.bmod_add_bmod, int64]
  push_cast
  rfl

/-- A stride `_random_coprime_stride` returns after some draws from the generator. -/
def MayReturn (modulus stride : Nat) : Prop :=
  ∃ strides : List Nat, (∀ s ∈ strides, 1 ≤ s ∧ s < modulus) ∧
    randomCoprimeStride modulus strides = some stride

theorem randomCoprimeStride_coprime {modulus stride : Nat} {strides : List Nat}
    (returned : randomCoprimeStride modulus strides = some stride) : stride.Coprime modulus := by
  rw [randomCoprimeStride] at returned
  split at returned
  · obtain rfl := Option.some.inj returned
    exact Nat.coprime_one_left modulus
  · have accepted := List.find?_some returned
    exact beq_iff_eq.1 accepted

theorem MayReturn.le {modulus stride : Nat} (nonempty : 0 < modulus)
    (returned : MayReturn modulus stride) : stride ≤ modulus := by
  obtain ⟨strides, bounds, returned⟩ := returned
  rw [randomCoprimeStride] at returned
  split at returned
  · obtain rfl := Option.some.inj returned
    exact nonempty
  · exact Nat.le_of_lt (bounds stride (List.mem_of_find?_eq_some returned)).2

theorem MayReturn.coprime {modulus stride : Nat} (returned : MayReturn modulus stride) :
    stride.Coprime modulus := by
  obtain ⟨strides, -, returned⟩ := returned
  exact randomCoprimeStride_coprime returned

/-- Every stride below the modulus that is coprime to it may come out. -/
theorem mayReturn_of_coprime {modulus stride : Nat} (positive : 1 ≤ stride)
    (below : stride < modulus) (coprime : stride.Coprime modulus) : MayReturn modulus stride := by
  refine ⟨[stride], fun s mem => ?_, ?_⟩
  · obtain rfl := List.mem_singleton.1 mem
    exact ⟨positive, below⟩
  · rw [randomCoprimeStride, if_neg (by omega), List.find?_cons_of_pos]
    exact beq_iff_eq.2 coprime

section Walk

variable {numNodes offset stride : Nat}

/-- The last position's exact value bounds every other. -/
theorem reach_le {pos : Nat} (within : pos < numNodes) :
    pos * stride + offset ≤ (numNodes - 1) * stride + offset :=
  Nat.add_le_add_right (Nat.mul_le_mul_right _ (Nat.le_sub_one_of_lt within)) _

theorem reach_lt_square {pos : Nat} (within : pos < numNodes) (drawn : offset < numNodes)
    (below : stride ≤ numNodes) : pos * stride + offset < numNodes * numNodes := by
  calc pos * stride + offset < pos * numNodes + numNodes :=
        Nat.add_lt_add_of_le_of_lt (Nat.mul_le_mul_left _ below) drawn
    _ = (pos + 1) * numNodes := (Nat.succ_mul _ _).symm
    _ ≤ numNodes * numNodes := Nat.mul_le_mul_right _ within

theorem nodeAt_of_lt {pos : Nat} (small : pos * stride + offset < 2 ^ 63) :
    nodeAt numNodes offset stride pos = ((pos * stride + offset) % numNodes : Nat) := by
  rw [nodeAt_eq, int64_of_lt (Int.natCast_nonneg _) (by omega)]
  exact (Int.natCast_emod _ _).symm

theorem nodeAt_of_ge {pos : Nat} (large : 2 ^ 63 ≤ pos * stride + offset)
    (fits : pos * stride + offset < 2 ^ 64) :
    nodeAt numNodes offset stride pos =
      (((pos * stride + offset : Nat) : Int) - 2 ^ 64) % numNodes := by
  rw [nodeAt_eq, int64_of_ge (by omega) (by omega)]

theorem walk_injective (coprime : stride.Coprime numNodes) {p q : Nat} (hp : p < numNodes)
    (hq : q < numNodes)
    (same : (p * stride + offset) % numNodes = (q * stride + offset) % numNodes) : p = q := by
  have shifted : p * stride ≡ q * stride [MOD numNodes] := Nat.ModEq.add_right_cancel' offset same
  have residues : p ≡ q [MOD numNodes] :=
    Nat.ModEq.cancel_right_of_coprime (Nat.coprime_comm.1 coprime) shifted
  exact Nat.ModEq.eq_of_lt_of_lt residues hp hq

/-- Between the roots of half the word and of the word no node count divides the word. -/
theorem not_dvd_word (large : 2 ^ 31 < numNodes) (bound : numNodes < 2 ^ 32) :
    ¬numNodes ∣ 2 ^ 64 := by
  intro divides
  obtain ⟨m, -, rfl⟩ := (Nat.dvd_prime_pow Nat.prime_two).1 divides
  have above : 31 < m := (Nat.pow_lt_pow_iff_right (by decide)).1 large
  have below : m < 32 := (Nat.pow_lt_pow_iff_right (by decide)).1 bound
  omega

/-- Two positions a word apart in their exact values land on one node once the later wraps. -/
theorem nodeAt_collides {p d : Nat} (gap : d * stride ≡ 2 ^ 64 [MOD numNodes])
    (small : p * stride + offset < 2 ^ 63) (large : 2 ^ 63 ≤ (p + d) * stride + offset)
    (fits : (p + d) * stride + offset < 2 ^ 64) :
    nodeAt numNodes offset stride (p + d) = nodeAt numNodes offset stride p := by
  rw [nodeAt_of_ge large fits, nodeAt_of_lt small, Int.natCast_emod]
  refine Int.emod_eq_emod_iff_emod_sub_eq_zero.2 (Int.emod_eq_zero_of_dvd ?_)
  have divides := Int.dvd_neg.2 (Nat.modEq_iff_dvd.1 gap)
  rw [Nat.add_mul]
  push_cast at divides ⊢
  have gone : (p * stride + d * stride + offset - 18446744073709551616 -
      (p * stride + offset) : Int) = -(18446744073709551616 - d * stride) := by omega
  rwa [gone]

/-- Once the last position's exact value leaves the cell, two positions share a node. -/
theorem exists_collision (bound : numNodes ≤ maxNodes) (drawn : offset < numNodes)
    (below : stride ≤ numNodes) (coprime : stride.Coprime numNodes)
    (exceeds : 2 ^ 63 ≤ (numNodes - 1) * stride + offset) :
    ∃ p < numNodes, ∃ q < numNodes, p ≠ q ∧
      nodeAt numNodes offset stride p = nodeAt numNodes offset stride q := by
  have nonempty : 0 < numNodes := Nat.zero_lt_of_lt drawn
  have squared := reach_lt_square (Nat.sub_one_lt_of_lt drawn) drawn below
  have short : numNodes < 2 ^ 32 := Nat.lt_of_le_of_lt bound (by decide)
  have long : 2 ^ 31 < numNodes := by
    by_contra shorter
    have : numNodes * numNodes ≤ 2 ^ 31 * 2 ^ 31 :=
      Nat.mul_le_mul (Nat.le_of_not_lt shorter) (Nat.le_of_not_lt shorter)
    omega
  -- A step of `d` positions advances the exact value by a whole word, up to the node count.
  obtain ⟨d, hd, gap⟩ := Nat.exists_mul_mod_eq_of_coprime (2 ^ 64) coprime nonempty.ne'
  have positive : 0 < d := by
    rcases Nat.eq_zero_or_pos d with rfl | positive
    · rw [Nat.mul_zero, Nat.zero_mod] at gap
      exact absurd (Nat.dvd_of_mod_eq_zero gap.symm) (not_dvd_word long short)
    · exact positive
  -- `first` is the least position whose value wraps.
  have wraps : ∃ pos, 2 ^ 63 ≤ pos * stride + offset := ⟨_, exceeds⟩
  let first := Nat.find wraps
  have hfirst : 2 ^ 63 ≤ first * stride + offset := Nat.find_spec wraps
  have least : ∀ pos < first, pos * stride + offset < 2 ^ 63 := fun pos before =>
    Nat.lt_of_not_le (Nat.find_min wraps before)
  have reached : first ≤ numNodes - 1 := Nat.find_min' wraps exceeds
  have started : 0 < first := by
    rcases Nat.eq_zero_or_pos first with none | started
    · rw [none, Nat.zero_mul] at hfirst
      omega
    · exact started
  have later : max first d < numNodes := Nat.max_lt.2 ⟨by omega, hd⟩
  have split : max first d - d + d = max first d := Nat.sub_add_cancel (Nat.le_max_right _ _)
  refine ⟨max first d, later, max first d - d, by omega, by omega, ?_⟩
  have collides := nodeAt_collides (p := max first d - d) (d := d)
    (by rw [Nat.mul_comm]; exact gap) (least _ (by omega))
    (by
      rw [split]
      exact Nat.le_trans hfirst (Nat.add_le_add_right
        (Nat.mul_le_mul_right _ (Nat.le_max_left _ _)) _))
    (by
      rw [split]
      refine Nat.lt_trans (reach_lt_square later drawn below) ?_
      calc numNodes * numNodes < 2 ^ 32 * 2 ^ 32 := Nat.mul_lt_mul'' short short
        _ = 2 ^ 64 := by decide)
  rwa [split] at collides

theorem strided_full {batchSize : Nat} (positive : 0 < batchSize) (i : Nat)
    (within : i + 1 < numBatches numNodes batchSize) :
    (getBatchStrided numNodes offset stride batchSize i).seeds.length = batchSize := by
  rw [getBatchStrided_seeds]
  exact length_slice (by rw [List.length_map, List.length_range]) positive within

theorem visitsOnce_of_lt {batchSize : Nat} (drawn : offset < numNodes)
    (coprime : stride.Coprime numNodes) (positive : 0 < batchSize)
    (fits : (numNodes - 1) * stride + offset < 2 ^ 63) :
    VisitsOnce (getBatchStrided numNodes offset stride batchSize) numNodes batchSize where
  once := by
    intro node within
    let walk := fun pos => (pos * stride + offset) % numNodes
    have values : (List.range numNodes).map (nodeAt numNodes offset stride) =
        ((List.range numNodes).map walk).map Nat.cast := by
      rw [List.map_map]
      refine List.map_congr_left fun pos mem => ?_
      exact nodeAt_of_lt (Nat.lt_of_le_of_lt (reach_le (List.mem_range.1 mem)) fits)
    have distinct : ((List.range numNodes).map walk).Nodup :=
      List.Nodup.map_on (fun p hp q hq same =>
        walk_injective coprime (List.mem_range.1 hp) (List.mem_range.1 hq) same) List.nodup_range
    have inside : (List.range numNodes).map walk ⊆ List.range numNodes := by
      intro x mem
      obtain ⟨pos, -, rfl⟩ := List.mem_map.1 mem
      exact List.mem_range.2 (Nat.mod_lt _ (Nat.zero_lt_of_lt drawn))
    have every : ((List.range numNodes).map walk).Perm (List.range numNodes) :=
      (List.subperm_of_subset distinct inside).perm_of_length_le (by rw [List.length_map])
    rw [strided_epoch positive, values, (every.map Nat.cast).count_eq]
    refine List.count_eq_one_of_mem ?_ (List.mem_map.2 ⟨node, List.mem_range.2 within, rfl⟩)
    exact List.nodup_range.map fun _ _ same => Int.ofNat_inj.1 same
  full := strided_full positive

theorem lt_of_visitsOnce {batchSize : Nat} (bound : numNodes ≤ maxNodes)
    (drawn : offset < numNodes) (below : stride ≤ numNodes) (coprime : stride.Coprime numNodes)
    (positive : 0 < batchSize)
    (visits : VisitsOnce (getBatchStrided numNodes offset stride batchSize) numNodes batchSize) :
    (numNodes - 1) * stride + offset < 2 ^ 63 := by
  by_contra exceeds
  obtain ⟨p, hp, q, hq, distinct, same⟩ :=
    exists_collision bound drawn below coprime (Nat.le_of_not_lt exceeds)
  have once := visits.once
  rw [strided_epoch positive] at once
  have nodup : ((List.range numNodes).map (nodeAt numNodes offset stride)).Nodup := by
    refine List.nodup_iff_count_le_one.2 fun node => ?_
    by_cases mem : node ∈ (List.range numNodes).map (nodeAt numNodes offset stride)
    · obtain ⟨pos, -, rfl⟩ := List.mem_map.1 mem
      have low : 0 ≤ nodeAt numNodes offset stride pos := Int.emod_nonneg _ (by omega)
      have high : nodeAt numNodes offset stride pos < numNodes := Int.emod_lt_of_pos _ (by omega)
      obtain ⟨node, value⟩ := Int.eq_ofNat_of_zero_le low
      rw [value] at high ⊢
      exact Nat.le_of_eq (once node (Int.ofNat_lt.1 high))
    · rw [List.count_eq_zero_of_not_mem mem]
      exact Nat.zero_le 1
  exact distinct (List.inj_on_of_nodup_map nodup (List.mem_range.2 hp) (List.mem_range.2 hq) same)

end Walk

/-- The strided epoch visits every node once exactly when the last position's exact value still
fits the cell. -/
theorem visitsOnce_iff {numNodes batchSize offset stride : Nat} (bound : numNodes ≤ maxNodes)
    (positive : 0 < batchSize) (drawn : offset < numNodes) (returned : MayReturn numNodes stride) :
    VisitsOnce (getBatchStrided numNodes offset stride batchSize) numNodes batchSize ↔
      (numNodes - 1) * stride + offset < 2 ^ 63 :=
  ⟨lt_of_visitsOnce bound drawn (returned.le (Nat.zero_lt_of_lt drawn)) returned.coprime positive,
    visitsOnce_of_lt drawn returned.coprime positive⟩

theorem visitsOnce_iff_seven :
    VisitsOnce (getBatchStrided 7 5 3 2) 7 2 ↔ (7 - 1) * 3 + 5 < 2 ^ 63 :=
  visitsOnce_iff (by decide) (by decide) (by decide)
    (mayReturn_of_coprime (by decide) (by decide) (by decide))

/-- The largest graph with its largest stride repeats a node. -/
theorem strided_repeats :
    ¬∀ numNodes batchSize offset stride : Nat, 0 < numNodes → numNodes ≤ maxNodes →
      0 < batchSize → offset < numNodes → MayReturn numNodes stride →
      VisitsOnce (getBatchStrided numNodes offset stride batchSize) numNodes batchSize := by
  intro always
  have coprime : Nat.Coprime (2 ^ 32 - 2) (2 ^ 32 - 1) := by decide +kernel
  have visits := always (2 ^ 32 - 1) 1024 0 (2 ^ 32 - 2) (by decide) (by decide) (by decide)
    (by decide) (mayReturn_of_coprime (by decide) (by decide) coprime)
  exact absurd (lt_of_visitsOnce (Nat.le_refl _) (by decide) (by decide) coprime (by decide) visits)
    (by decide)

end SeedBatches

end AetherGraph
