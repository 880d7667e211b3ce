import AetherGraph.Csr
import AetherGraph.GraphHeader
import AetherGraph.Foundation.FoldM
import AetherGraph.Foundation.KeyRuns
import Mathlib.Data.List.GetD

/-! Batches of seeds aligned with their partitions: one sort groups the seeds, the runs of one
partition are visited in shuffled order, and batches fill up from one run to the next. -/

namespace AetherGraph

open Foundation

/-- A seed's partition above its place in the list. -/
def partitionKey (p : U32) (i : Nat) : U64 := (p.setWidth 64 <<< 32) ||| BitVec.ofNat 64 i

def keyPartition (key : U64) : Nat := (key >>> 32).toNat

def keyPlace (key : U64) : Nat := (key.setWidth 32).toNat

def keySeed (partitions : List U32) (seed : Nat × Nat) : Except Failure U64 :=
  match partitions[seed.1]? with
  | some p => .ok (partitionKey p seed.2)
  | none => .error (.error [s!"seed {seed.1} is out of range for partitions of length " ++
      s!"{partitions.length}"])

def nextRng (rng : U64) : U64 := rng * 0x517cc1b727220a95 + 1

/-- One exchange of the Fisher-Yates loop. -/
def swapRun (s : List (Nat × Nat) × U64) (i : Nat) : Option (List (Nat × Nat) × U64) := do
  let rng := nextRng s.2
  let j := (rng >>> 33).toNat % (i + 1)
  let a ← s.1[i]?
  let b ← s.1[j]?
  some ((s.1.set i b).set j a, rng)

def shuffleRuns (runs : List (Nat × Nat)) (seed : U64) : Option (List (Nat × Nat)) :=
  ((List.range' 1 (runs.length - 1)).reverse.foldlM swapRun (runs, nextRng seed)).map Prod.fst

def fillSeed (seeds : List Nat) (batchSize : Nat) (s : List (List Nat) × List Nat) (key : U64) :
    Option (List (List Nat) × List Nat) :=
  seeds[keyPlace key]?.map (KeyRuns.fillBatch batchSize s)

def fillRun (keyed : List U64) (seeds : List Nat) (batchSize : Nat)
    (s : List (List Nat) × List Nat) (r : Nat × Nat) : Option (List (List Nat) × List Nat) :=
  if r.1 ≤ r.2 ∧ r.2 ≤ keyed.length then (slice keyed r).foldlM (fillSeed seeds batchSize) s
  else none

def visitOrder (runs : List (Nat × Nat)) (shufflePartitions : Bool) (seed : U64) :
    Except Failure (List (Nat × Nat)) :=
  if shufflePartitions then orPanic (shuffleRuns runs seed) else .ok runs

/-- The keys are distinct, so the unstable sort has one outcome. -/
def partitionAlignedBatches (partitions : List U32) (seeds : List Nat) (batchSize : Nat)
    (shufflePartitions : Bool) (seed : U64) : Except Failure (List (List Nat)) := do
  ensure (0 < batchSize) "batch_size must be >= 1"
  let keyed ← seeds.zipIdx.mapM (keySeed partitions)
  let keyed := keyed.mergeSort fun a b => decide (a ≤ b)
  let runs ← orPanic (KeyRuns.cut keyPartition keyed)
  let runs ← visitOrder runs shufflePartitions seed
  let filled ← orPanic (runs.foldlM (fillRun keyed seeds batchSize) ([], []))
  pure (KeyRuns.sendLast filled)

section Keys

theorem partitionKey_toNat (p : U32) {i : Nat} (small : i < 2 ^ 32) :
    (partitionKey p i).toNat = p.toNat * 2 ^ 32 + i := by
  have bound := p.isLt
  have high : (p.setWidth 64 <<< 32).toNat = p.toNat <<< 32 := by
    rw [BitVec.toNat_shiftLeft, BitVec.toNat_setWidth, Nat.mod_eq_of_lt (a := p.toNat) (by omega),
      Nat.mod_eq_of_lt]
    rw [Nat.shiftLeft_eq]
    omega
  rw [partitionKey, BitVec.toNat_or, high, BitVec.toNat_ofNat, Nat.mod_eq_of_lt (by omega),
    ← Nat.shiftLeft_add_eq_or_of_lt small, Nat.shiftLeft_eq]

theorem keyPartition_eq (key : U64) : keyPartition key = key.toNat / 2 ^ 32 := by
  rw [keyPartition, BitVec.toNat_ushiftRight, Nat.shiftRight_eq_div_pow]

theorem keyPlace_eq (key : U64) : keyPlace key = key.toNat % 2 ^ 32 := BitVec.toNat_setWidth ..

theorem keyPartition_partitionKey (p : U32) {i : Nat} (small : i < 2 ^ 32) :
    keyPartition (partitionKey p i) = p.toNat := by
  rw [keyPartition_eq, partitionKey_toNat p small]
  omega

theorem keyPlace_partitionKey (p : U32) {i : Nat} (small : i < 2 ^ 32) :
    keyPlace (partitionKey p i) = i := by
  rw [keyPlace_eq, partitionKey_toNat p small]
  omega

theorem keyPartition_mono {a b : U64} (h : a ≤ b) : keyPartition a ≤ keyPartition b := by
  rw [keyPartition_eq, keyPartition_eq]
  exact Nat.div_le_div_right h

end Keys

section Grouped

variable {partitions : List U32} {seeds : List Nat}

/-- The keys in seed order. -/
def keysOf (partitions : List U32) (seeds : List Nat) : List U64 :=
  seeds.zipIdx.map fun t => partitionKey (partitions.getD t.1 0) t.2

theorem keySeeds_eq (inside : ∀ s ∈ seeds, s < partitions.length) :
    seeds.zipIdx.mapM (keySeed partitions) = .ok (keysOf partitions seeds) := by
  refine mapM_ok fun t ht => ?_
  have within : t.1 < partitions.length := inside t.1 (List.fst_mem_of_mem_zipIdx ht)
  rw [keySeed, List.getElem?_eq_getElem within, List.getD_eq_getElem _ _ within]

theorem place_lt (short : seeds.length < 2 ^ 32) {t : Nat × Nat} (ht : t ∈ seeds.zipIdx) :
    seeds[t.2]? = some t.1 ∧ t.2 < 2 ^ 32 := by
  have here := List.mem_zipIdx_iff_getElem?.mp ht
  exact ⟨here, Nat.lt_trans (List.getElem?_eq_some_iff.mp here).1 short⟩

theorem zipIdx_ascending (xs : List Nat) : xs.zipIdx.Pairwise fun t t' => t.2 < t'.2 := by
  have places : (xs.zipIdx.map Prod.snd).Pairwise (· < ·) := by
    rw [List.zipIdx_map_snd]
    exact List.pairwise_lt_range' ..
  exact List.pairwise_map.mp places

/-- The keys of one partition ascend in seed order. -/
theorem keysOf_ascending (short : seeds.length < 2 ^ 32) :
    (keysOf partitions seeds).Pairwise fun a b => keyPartition a = keyPartition b → a ≤ b := by
  refine List.pairwise_map.mpr
    ((zipIdx_ascending seeds).imp_of_mem fun {t t'} ht ht' later same => ?_)
  have small := (place_lt short ht).2
  have small' := (place_lt short ht').2
  rw [keyPartition_partitionKey _ small, keyPartition_partitionKey _ small'] at same
  rw [BitVec.le_def, partitionKey_toNat _ small, partitionKey_toNat _ small', same]
  omega

def sortedKeys (partitions : List U32) (seeds : List Nat) : List U64 :=
  (keysOf partitions seeds).mergeSort fun a b => decide (a ≤ b)

theorem sortedKeys_perm : (sortedKeys partitions seeds).Perm (keysOf partitions seeds) :=
  List.mergeSort_perm _ _

variable (partitions seeds) in
theorem sortedKeys_sorted : (sortedKeys partitions seeds).Pairwise (· ≤ ·) := by
  have sorted : (sortedKeys partitions seeds).Pairwise fun a b => decide (a ≤ b) :=
    List.pairwise_mergeSort (fun a b c => by simpa using BitVec.le_trans)
      (fun a b => by simpa using BitVec.le_total a b) (keysOf partitions seeds)
  exact sorted.imp of_decide_eq_true

/-- The sorted keys of a partition are its keys in seed order. -/
theorem sortedKeys_filter (short : seeds.length < 2 ^ 32) (k : Nat) :
    (sortedKeys partitions seeds).filter (fun key => keyPartition key = k) =
      (keysOf partitions seeds).filter fun key => keyPartition key = k := by
  refine List.Perm.eq_of_pairwise (fun a b _ _ => BitVec.le_antisymm)
    ((sortedKeys_sorted partitions seeds).filter _) ?_ (sortedKeys_perm.filter _)
  refine List.pairwise_filter.mpr ((keysOf_ascending short).imp fun {a b} ordered ha hb => ?_)
  exact ordered ((of_decide_eq_true ha).trans (of_decide_eq_true hb).symm)

/-- The seeds a key list stands for are read back. -/
theorem fillSeeds_eq (short : seeds.length < 2 ^ 32) (batchSize : Nat) {ts : List (Nat × Nat)}
    (known : ∀ t ∈ ts, t ∈ seeds.zipIdx) (s : List (List Nat) × List Nat) :
    (ts.map fun t => partitionKey (partitions.getD t.1 0) t.2).foldlM (fillSeed seeds batchSize) s =
      some ((ts.map Prod.fst).foldl (KeyRuns.fillBatch batchSize) s) := by
  induction ts generalizing s with
  | nil => rfl
  | cons t ts ih =>
      obtain ⟨here, small⟩ := place_lt short (known t List.mem_cons_self)
      rw [List.map_cons, List.foldlM_cons, fillSeed, keyPlace_partitionKey _ small, here]
      exact ih (fun u hu => known u (List.mem_cons_of_mem _ hu)) _

end Grouped

/-- The seeds of a partition, in input order. -/
def seedsOf (partitions : List U32) (seeds : List Nat) (k : Nat) : List Nat :=
  seeds.filter fun s => (partitions.getD s 0).toNat = k

section Visited

variable {partitions : List U32} {seeds : List Nat}

variable (partitions) in
theorem keysOf_filter (short : seeds.length < 2 ^ 32) (k : Nat) :
    ∃ ts : List (Nat × Nat), (∀ t ∈ ts, t ∈ seeds.zipIdx) ∧
      ts.map Prod.fst = seedsOf partitions seeds k ∧
      (keysOf partitions seeds).filter (fun key => keyPartition key = k) =
        ts.map fun t => partitionKey (partitions.getD t.1 0) t.2 := by
  refine ⟨seeds.zipIdx.filter fun t => (partitions.getD t.1 0).toNat = k,
    fun t ht => (List.mem_filter.mp ht).1, ?_, ?_⟩
  · have names : seeds = seeds.zipIdx.map Prod.fst := (List.zipIdx_map_fst ..).symm
    rw [seedsOf]
    conv => rhs; rw [names]
    rw [List.filter_map]
    rfl
  · rw [keysOf, List.filter_map]
    refine congrArg _ (List.filter_congr fun t ht => ?_)
    show decide (keyPartition _ = k) = _
    rw [keyPartition_partitionKey _ (place_lt short ht).2]

variable (partitions) in
theorem exists_key (short : seeds.length < 2 ^ 32) {s : Nat} (hs : s ∈ seeds) :
    ∃ key ∈ keysOf partitions seeds, keyPartition key = (partitions.getD s 0).toNat := by
  rw [← List.zipIdx_map_fst 0 seeds] at hs
  obtain ⟨t, ht, rfl⟩ := List.mem_map.mp hs
  exact ⟨_, List.mem_map_of_mem ht, keyPartition_partitionKey _ (place_lt short ht).2⟩

/-- A visit of the runs deals out the seeds of their partitions. -/
theorem fillRuns_eq (short : seeds.length < 2 ^ 32) (batchSize : Nat) {runs : List (Nat × Nat)}
    (inside : ∀ r ∈ runs, r.1 ≤ r.2 ∧ r.2 ≤ (sortedKeys partitions seeds).length)
    {label : Nat × Nat → Nat}
    (whole : ∀ r ∈ runs, slice (sortedKeys partitions seeds) r =
      (sortedKeys partitions seeds).filter fun key => keyPartition key = label r)
    (s : List (List Nat) × List Nat) :
    runs.foldlM (fillRun (sortedKeys partitions seeds) seeds batchSize) s =
      some (((runs.map label).flatMap (seedsOf partitions seeds)).foldl
        (KeyRuns.fillBatch batchSize) s) := by
  induction runs generalizing s with
  | nil => rfl
  | cons r runs ih =>
      obtain ⟨ts, known, names, keys⟩ := keysOf_filter partitions short (label r)
      rw [List.foldlM_cons, fillRun, if_pos (inside r List.mem_cons_self),
        whole r List.mem_cons_self, sortedKeys_filter short, keys, fillSeeds_eq short _ known,
        names, List.map_cons, List.flatMap_cons, List.foldl_append]
      exact ih (fun q hq => inside q (List.mem_cons_of_mem _ hq))
        (fun q hq => whole q (List.mem_cons_of_mem _ hq)) _

end Visited

section Shuffle

theorem swapRun_perm {s : List (Nat × Nat) × U64} {i : Nat} (inside : i < s.1.length) :
    ∃ s', swapRun s i = some s' ∧ s'.1.Perm s.1 := by
  have below : ((nextRng s.2) >>> 33).toNat % (i + 1) < s.1.length :=
    Nat.lt_of_lt_of_le (Nat.mod_lt _ (Nat.succ_pos i)) inside
  refine ⟨(_, nextRng s.2), ?_, List.set_set_perm inside below⟩
  unfold swapRun
  dsimp only
  rw [List.getElem?_eq_getElem inside, List.getElem?_eq_getElem below]
  rfl

theorem swapRuns_perm {is : List Nat} {s : List (Nat × Nat) × U64}
    (inside : ∀ i ∈ is, i < s.1.length) :
    ∃ s', is.foldlM swapRun s = some s' ∧ s'.1.Perm s.1 := by
  induction is generalizing s with
  | nil => exact ⟨s, rfl, List.Perm.refl _⟩
  | cons i is ih =>
      obtain ⟨s₁, swapped, perm⟩ := swapRun_perm (inside i List.mem_cons_self)
      obtain ⟨s', ran, perm'⟩ := ih (s := s₁) fun j hj =>
        perm.length_eq ▸ inside j (List.mem_cons_of_mem _ hj)
      refine ⟨s', ?_, perm'.trans perm⟩
      rw [List.foldlM_cons, swapped]
      exact ran

/-- The shuffle visits every run once. -/
theorem shuffleRuns_perm (runs : List (Nat × Nat)) (seed : U64) :
    ∃ runs', shuffleRuns runs seed = some runs' ∧ runs'.Perm runs := by
  obtain ⟨s, ran, perm⟩ := swapRuns_perm (s := (runs, nextRng seed)) fun i (hi : i ∈
      (List.range' 1 (runs.length - 1)).reverse) => by
      have bounds := List.mem_range'_1.mp (List.mem_reverse.mp hi)
      dsimp only
      omega
  exact ⟨s.1, by rw [shuffleRuns, ran]; rfl, perm⟩

theorem visitOrder_perm (runs : List (Nat × Nat)) (shufflePartitions : Bool) (seed : U64) :
    ∃ runs', visitOrder runs shufflePartitions seed = .ok runs' ∧ runs'.Perm runs := by
  cases shufflePartitions with
  | false => exact ⟨runs, rfl, List.Perm.refl _⟩
  | true =>
      obtain ⟨runs', shuffled, perm⟩ := shuffleRuns_perm runs seed
      refine ⟨runs', ?_, perm⟩
      rw [visitOrder, if_pos rfl, shuffled]
      rfl

end Shuffle

/-- The batches hold the seeds, those of a partition together and in input order; every batch but
the last is full, and none is empty. -/
structure PartitionAligned (partitions : List U32) (seeds : List Nat) (batchSize : Nat)
    (batches : List (List Nat)) : Prop where
  perm : batches.flatten.Perm seeds
  contiguous : ∀ p : U32, ∃ before after,
    batches.flatten = before ++ seeds.filter (fun s => partitions[s]? = some p) ++ after ∧
      ∀ s ∈ before ++ after, partitions[s]? ≠ some p
  full : ∀ b ∈ batches.dropLast, b.length = batchSize
  nonempty : ∀ b ∈ batches, b ≠ [] ∧ b.length ≤ batchSize

section Main

variable {partitions : List U32} {seeds : List Nat}

theorem partition_iff (inside : ∀ s ∈ seeds, s < partitions.length) (p : U32) {s : Nat}
    (hs : s ∈ seeds) : partitions[s]? = some p ↔ (partitions.getD s 0).toNat = p.toNat := by
  rw [List.getD_eq_getElem _ _ (inside s hs), List.getElem?_eq_getElem (inside s hs),
    Option.some.injEq, BitVec.toNat_inj]

/-- Visited in any order, each partition once, the seeds of a partition stay together. -/
theorem seedsOf_contiguous (inside : ∀ s ∈ seeds, s < partitions.length) {order : List Nat}
    (distinct : order.Nodup) (every : ∀ s ∈ seeds, (partitions.getD s 0).toNat ∈ order) (p : U32) :
    ∃ before after, order.flatMap (seedsOf partitions seeds) =
        before ++ seeds.filter (fun s => partitions[s]? = some p) ++ after ∧
      ∀ s ∈ before ++ after, partitions[s]? ≠ some p := by
  have own : seeds.filter (fun s => partitions[s]? = some p) =
      seedsOf partitions seeds p.toNat :=
    List.filter_congr fun s hs => decide_eq_decide.mpr (partition_iff inside p hs)
  have others : ∀ ks : List Nat, p.toNat ∉ ks →
      ∀ s ∈ ks.flatMap (seedsOf partitions seeds), partitions[s]? ≠ some p := by
    intro ks absent s hs here
    obtain ⟨k, hk, hs⟩ := List.mem_flatMap.mp hs
    obtain ⟨mem, label⟩ := List.mem_filter.mp hs
    have same := (partition_iff inside p mem).mp here
    rw [← same, of_decide_eq_true label] at absent
    exact absent hk
  rw [own]
  by_cases visited : p.toNat ∈ order
  · obtain ⟨before, after, rfl⟩ := List.append_of_mem visited
    refine ⟨before.flatMap (seedsOf partitions seeds), after.flatMap (seedsOf partitions seeds),
      ?_, fun s hs => ?_⟩
    · rw [List.flatMap_append, List.flatMap_cons, List.append_assoc]
    · rw [← List.flatMap_append] at hs
      refine others _ (fun mem => ?_) s hs
      rw [List.nodup_middle, List.nodup_cons] at distinct
      exact distinct.1 mem
  · have empty : seedsOf partitions seeds p.toNat = [] := by
      refine List.filter_eq_nil_iff.mpr fun s hs label => visited ?_
      rw [← of_decide_eq_true label]
      exact every s hs
    refine ⟨order.flatMap (seedsOf partitions seeds), [], by rw [empty, List.append_nil,
      List.append_nil], fun s hs => ?_⟩
    rw [List.append_nil] at hs
    exact others order visited s hs

/-- Batches over fewer than `2 ^ 32` seeds of the graph lose none and repeat none, whatever the
shuffle. -/
theorem partition_batches_aligned {batchSize : Nat} (positive : 1 ≤ batchSize)
    (short : seeds.length < 2 ^ 32) (inside : ∀ s ∈ seeds, s < partitions.length)
    (shufflePartitions : Bool) (seed : U64) :
    ∃ batches, partitionAlignedBatches partitions seeds batchSize shufflePartitions seed =
        .ok batches ∧ PartitionAligned partitions seeds batchSize batches := by
  obtain ⟨runs, ran, cut⟩ := KeyRuns.cut_eq ((sortedKeys_sorted partitions seeds).imp keyPartition_mono)
  obtain ⟨runs', visited, shuffled⟩ := visitOrder_perm runs shufflePartitions seed
  let label := KeyRuns.firstKey keyPartition (sortedKeys partitions seeds)
  have filled := fillRuns_eq short batchSize
    (fun r hr => cut.inside r (shuffled.mem_iff.mp hr))
    (fun r hr => cut.whole r (shuffled.mem_iff.mp hr)) ([], [])
  have order : (runs'.map label).Perm (runs.map label) := shuffled.map label
  have distinct : (runs'.map label).Nodup :=
    order.nodup_iff.mpr (cut.ascending.imp Nat.ne_of_lt)
  have every : ∀ s ∈ seeds, (partitions.getD s 0).toNat ∈ runs'.map label := by
    intro s hs
    obtain ⟨key, known, same⟩ := exists_key partitions short hs
    rw [← same, order.mem_iff]
    refine cut.before key ?_
    rw [List.take_length]
    exact sortedKeys_perm.mem_iff.mpr known
  generalize runs'.map label = ks at filled distinct every
  obtain ⟨dealt, full, nonempty⟩ :=
    KeyRuns.batches_spec positive (ks.flatMap (seedsOf partitions seeds))
  refine ⟨_, ?_, ⟨?_, fun p => ?_, full, nonempty⟩⟩
  · unfold partitionAlignedBatches
    rw [ByteReader.ensure_ok (show 0 < batchSize from positive), keySeeds_eq inside]
    show Except.bind (orPanic (KeyRuns.cut keyPartition (sortedKeys partitions seeds))) _ = _
    rw [ran]
    show Except.bind (visitOrder runs _ _) _ = _
    rw [visited]
    show Except.bind (orPanic (List.foldlM (fillRun (sortedKeys partitions seeds) _ _) _ _)) _ = _
    rw [filled]
    rfl
  · rw [dealt]
    refine (KeyRuns.classes_perm (fun s => (partitions.getD s 0).toNat) seeds distinct).trans ?_
    rw [List.filter_eq_self.mpr fun s hs => decide_eq_true (every s hs)]
  · rw [dealt]
    exact seedsOf_contiguous inside distinct every p

theorem partition_batches_aligned_sample : ∃ batches,
    partitionAlignedBatches [1, 0, 1] [2, 1, 0, 2] 3 true 7 = .ok batches ∧
      PartitionAligned [1, 0, 1] [2, 1, 0, 2] 3 batches :=
  partition_batches_aligned (by decide) (by decide) (by decide) true 7

end Main

end AetherGraph
