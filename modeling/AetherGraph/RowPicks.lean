import AetherGraph.NeighborSampler
import AetherGraph.Foundation.Floyd

/-! The row positions that one expansion draws, as functions of the row and the generator. -/

namespace AetherGraph

open Foundation

/-- Draw for each item in turn. -/
def drawEach {σ ι α : Type} (draw : σ → ι → α × σ) : List ι → σ → List α × σ
  | [], r => ([], r)
  | x :: xs, r => ((draw r x).1 :: (drawEach draw xs (draw r x).2).1, (drawEach draw xs (draw r x).2).2)

/-- What each draw keeps of its item, all the draws keep. -/
theorem drawEach_map {σ ι α β : Type} {draw : σ → ι → α × σ} {f : α → β} {h : ι → β}
    (each : ∀ r x, f (draw r x).1 = h x) (items : List ι) (r : σ) :
    (drawEach draw items r).1.map f = items.map h := by
  induction items generalizing r with
  | nil => rfl
  | cons x items ih => rw [drawEach, List.map_cons, List.map_cons, each, ih]

theorem forall_mem_drawEach {σ ι α : Type} {draw : σ → ι → α × σ} {P : α → Prop}
    (each : ∀ r x, P (draw r x).1) (items : List ι) (r : σ) :
    ∀ a ∈ (drawEach draw items r).1, P a := by
  induction items generalizing r with
  | nil => exact fun a ha => absurd ha List.not_mem_nil
  | cons x items ih => exact List.forall_mem_cons.mpr ⟨each r x, ih _⟩

namespace Pass

open NeighborSampler (hubCap mostRecentFirst weightedKey)

section Draws

variable {σ : Type} [Rng σ] {Time : Type} [LT Time] [DecidableLT Time] [Top Time]
variable (ops : SliceOps) (cfg : SamplingConfig)

/-- `k` positions below `n`, ascending. -/
def cappedPositions (r : σ) (n k : Nat) : List Nat × σ :=
  ((floydSample randBelow r n k).1.insertionSort (· ≤ ·), (floydSample randBelow r n k).2)

/-- The positions of a row that a temporal draw chooses among. -/
def eligible (strategy : TemporalStrategy) (n : Nat) (ts : List Time) (nodeTime : Time) (r : σ) :
    List (Nat × Time) × σ :=
  match strategy, hubCap cfg n with
  | .uniform, some cap =>
      (((cappedPositions r n cap).1.map fun i => (i, ts.getD i ⊤)).filter
        fun e => decide (e.2 < nodeTime), (cappedPositions r n cap).2)
  | _, _ => ((ts.zipIdx.map Prod.swap).filter fun e => decide (e.2 < nodeTime), r)

def temporalPicks (strategy : TemporalStrategy) (sampleSize : Nat) (filtered : List (Nat × Time))
    (r : σ) : List Nat × σ :=
  match strategy with
  | .uniform =>
      if filtered.length ≤ sampleSize then (filtered.map Prod.fst, r)
      else
        ((floydSample randBelow r filtered.length sampleSize).1.map fun i =>
          (filtered.map Prod.fst).getD i 0, (floydSample randBelow r filtered.length sampleSize).2)
  | .last =>
      let take := min filtered.length sampleSize
      (((if take < filtered.length then ops.select (take - 1) mostRecentFirst filtered
        else filtered).take take).map Prod.fst, r)

def cumulativeSums (weights : List Float32) : Float × List Float :=
  weights.foldl (fun acc w =>
    let total := acc.1 + w.toFloat
    (total, acc.2 ++ [total])) ((0.0 : Float), ([] : List Float))

/-- The position a drawn word falls on. -/
def cumulativePick (n : Nat) (sums : Float × List Float) (word : Nat) : Nat :=
  let u := (UInt64.ofNat word).toFloat * (sums.1 / (UInt64.ofNat (2 ^ 64 - 1)).toFloat)
  min (ops.partitionPoint (fun c => decide (c ≤ u)) sums.2) (n - 1)

/-- Positions below `n`, with repeats. -/
def replacementPicks (n : Nat) (weights : List Float32) (k : Nat) (r : σ) : List Nat × σ :=
  if n = 0 then ([], r)
  else
    let words := drawEach (fun r (_ : Nat) => Rng.nextU64 r) (List.range k) r
    (words.1.map (cumulativePick ops n (cumulativeSums weights)), words.2)

/-- Positions below `n`, none twice. -/
def keyedPicks (n : Nat) (weights : List Float32) (k : Nat) (r : σ) : List Nat × σ :=
  if k = 0 then ([], r)
  else if n ≤ k then (List.range n, r)
  else
    let keys := drawEach (fun r (entry : Float32 × Nat) =>
      ((weightedKey (Rng.nextU64 r).1 entry.1, entry.2), (Rng.nextU64 r).2))
      (weights.take n).zipIdx r
    (((ops.select (k - 1) (fun a b => partialCmp a.1 b.1) keys.1).take k).map Prod.snd, keys.2)

def weightedPicks (n : Nat) (weights : List Float32) (k : Nat) (r : σ) : List Nat × σ :=
  if cfg.replace then replacementPicks ops n weights k r else keyedPicks ops n weights k r

def normalPicks (n : Nat) (weights : Option (List Float32)) (k : Nat) (r : σ) : List Nat × σ :=
  match weights with
  | some w =>
      match hubCap cfg n with
      | some cap =>
          let idx := cappedPositions r n cap
          let picks := weightedPicks ops cfg idx.1.length (idx.1.map fun i => w.getD i 0) k idx.2
          (picks.1.map fun i => idx.1.getD i 0, picks.2)
      | none => weightedPicks ops cfg n w k r
  | none =>
      if cfg.replace then drawEach (fun r _ => randBelow r n) (List.range k) r
      else if n ≤ k then (List.range n, r)
      else floydSample randBelow r n k

section Bounds

omit [LT Time] [DecidableLT Time] [Top Time]

variable {ops : SliceOps} {cfg : SamplingConfig} {n k : Nat}

theorem hubCap_lt {cap : Nat} (h : hubCap cfg n = some cap) : cap < n := by
  obtain ⟨c, -, h⟩ := Option.bind_eq_some_iff.mp h
  split at h
  · cases h
  · obtain rfl := Option.some.inj h
    omega

theorem range_picked (n : Nat) : Picked (List.range n) n :=
  ⟨List.nodup_range, fun _ hx => List.mem_range.mp hx⟩

theorem picked_of_perm {xs ys : List Nat} {bound : Nat} (h : Picked xs bound) (perm : ys.Perm xs) :
    Picked ys bound :=
  ⟨perm.nodup_iff.mpr h.nodup, fun x hx => h.lt x (perm.mem_iff.mp hx)⟩

theorem picked_of_sublist {xs ys : List Nat} {bound : Nat} (h : Picked xs bound)
    (sub : ys.Sublist xs) : Picked ys bound :=
  ⟨sub.nodup h.nodup, fun x hx => h.lt x (sub.subset hx)⟩

/-- Distinct picks of distinct positions are distinct positions. -/
theorem picked_map {idx picks : List Nat} (hidx : Picked idx n) (h : Picked picks idx.length) :
    Picked (picks.map fun i => idx.getD i 0) n := by
  have at_ : ∀ {i : Nat}, i ∈ picks → ∃ hi : i < idx.length, idx.getD i 0 = idx[i] := fun hi =>
    ⟨h.lt _ hi, List.getD_eq_getElem _ _ (h.lt _ hi)⟩
  refine ⟨(List.nodup_map_iff_inj_on h.nodup).mpr fun i hi j hj same => ?_, fun x hx => ?_⟩
  · obtain ⟨li, ei⟩ := at_ hi
    obtain ⟨lj, ej⟩ := at_ hj
    rw [ei, ej] at same
    exact (hidx.nodup.getElem_inj_iff).mp same
  · obtain ⟨i, hi, rfl⟩ := List.mem_map.mp hx
    obtain ⟨li, ei⟩ := at_ hi
    exact ei ▸ hidx.lt _ (List.getElem_mem li)

theorem cappedPositions_picked (r : σ) (hk : k ≤ n) :
    Picked (cappedPositions r n k).1 n ∧ (cappedPositions r n k).1.length = k := by
  obtain ⟨picked, length⟩ := floydSample_picked (fun r _ hs => randBelow_lt r hs) r hk
  have perm := List.perm_insertionSort (· ≤ ·) (floydSample randBelow r n k).1
  exact ⟨picked_of_perm picked perm, perm.length_eq.trans length⟩

theorem replacementPicks_lt (weights : List Float32) (r : σ) :
    ∀ i ∈ (replacementPicks ops n weights k r).1, i < n := by
  unfold replacementPicks
  split
  · exact fun i hi => absurd hi List.not_mem_nil
  · rename_i nonempty
    refine List.forall_mem_map.mpr fun word _ => ?_
    have := Nat.min_le_right (ops.partitionPoint
      (fun c => decide (c ≤ (UInt64.ofNat word).toFloat *
        ((cumulativeSums weights).1 / (UInt64.ofNat (2 ^ 64 - 1)).toFloat)))
      (cumulativeSums weights).2) (n - 1)
    exact Nat.lt_of_le_of_lt this (by omega)

variable (ops) in
theorem keyedPicks_picked {weights : List Float32} (length : weights.length = n) (r : σ) :
    Picked (keyedPicks ops n weights k r).1 n ∧
      (keyedPicks ops n weights k r).1.length = min k n := by
  unfold keyedPicks
  split
  · rename_i none
    exact ⟨Picked.nil n, by simp [none]⟩
  · split
    · rename_i few
      exact ⟨range_picked n, by rw [List.length_range, Nat.min_eq_right few]⟩
    · rename_i many
      have keys : (drawEach (fun r (entry : Float32 × Nat) =>
          ((weightedKey (Rng.nextU64 r).1 entry.1, entry.2), (Rng.nextU64 r).2))
          (weights.take n).zipIdx r).1.map Prod.snd = List.range n := by
        rw [drawEach_map (h := Prod.snd) (fun _ _ => rfl), List.zipIdx_map_snd, List.length_take,
          length, Nat.min_self, List.range_eq_range']
      have perm := (ops.select_perm (k - 1) (fun a b => partialCmp a.1 b.1)
        (drawEach (fun r (entry : Float32 × Nat) =>
          ((weightedKey (Rng.nextU64 r).1 entry.1, entry.2), (Rng.nextU64 r).2))
          (weights.take n).zipIdx r).1).map Prod.snd
      rw [keys] at perm
      dsimp only
      rw [List.map_take]
      refine ⟨picked_of_sublist (picked_of_perm (range_picked n) perm) (List.take_sublist _ _), ?_⟩
      rw [List.length_take, perm.length_eq, List.length_range]

theorem weightedPicks_lt {weights : List Float32} (length : weights.length = n) (r : σ) :
    ∀ i ∈ (weightedPicks ops cfg n weights k r).1, i < n := by
  unfold weightedPicks
  split
  · exact replacementPicks_lt weights r
  · exact (keyedPicks_picked ops length r).1.lt

/-- Every drawn position is in the row. -/
theorem normalPicks_lt {weights : Option (List Float32)} (length : ∀ w ∈ weights, w.length = n)
    (nonempty : 0 < n) (r : σ) : ∀ i ∈ (normalPicks ops cfg n weights k r).1, i < n := by
  unfold normalPicks
  cases weights with
  | some w =>
      dsimp only
      split
      · rename_i cap found
        obtain ⟨picked, count⟩ := cappedPositions_picked r (Nat.le_of_lt (hubCap_lt found))
        refine List.forall_mem_map.mpr fun i hi => ?_
        have inIdx := weightedPicks_lt (by rw [List.length_map]) _ i hi
        rw [List.getD_eq_getElem _ _ inIdx]
        exact picked.lt _ (List.getElem_mem inIdx)
      · exact weightedPicks_lt (length w rfl) r
  | none =>
      dsimp only
      split
      · exact forall_mem_drawEach (fun r _ => randBelow_lt r nonempty) _ r
      · split
        · exact (range_picked n).lt
        · rename_i many
          exact (floydSample_picked (fun r _ hs => randBelow_lt r hs) r (by omega)).1.lt

variable (ops) in
/-- Without replacement the drawn positions are distinct and at most `k`; a uniform draw
takes `k`, or the whole row. -/
theorem normalPicks_picked {weights : Option (List Float32)}
    (length : ∀ w ∈ weights, w.length = n) (once : cfg.replace = false) (r : σ) :
    Picked (normalPicks ops cfg n weights k r).1 n ∧
      (normalPicks ops cfg n weights k r).1.length ≤ min k n ∧
      (weights = none → (normalPicks ops cfg n weights k r).1.length = min k n) := by
  unfold normalPicks weightedPicks
  cases weights with
  | some w =>
      simp only [once, Bool.false_eq_true, if_false]
      split
      · rename_i cap found
        have small := hubCap_lt found
        obtain ⟨picked, count⟩ := cappedPositions_picked r (Nat.le_of_lt small)
        have gathered : ((cappedPositions r n cap).1.map fun i => w.getD i 0).length =
            (cappedPositions r n cap).1.length := List.length_map _
        obtain ⟨keyed, few⟩ := keyedPicks_picked ops (k := k) gathered (cappedPositions r n cap).2
        refine ⟨picked_map picked keyed, ?_, nofun⟩
        rw [List.length_map, few, count]
        exact Nat.le_min.mpr ⟨Nat.min_le_left _ _, Nat.le_trans (Nat.min_le_right _ _)
          (Nat.le_of_lt small)⟩
      · obtain ⟨keyed, few⟩ := keyedPicks_picked ops (k := k) (length w rfl) r
        exact ⟨keyed, Nat.le_of_eq few, nofun⟩
  | none =>
      simp only [once, Bool.false_eq_true, if_false]
      split
      · rename_i few
        have count : (List.range n).length = min k n := by
          rw [List.length_range, Nat.min_eq_right few]
        exact ⟨range_picked n, Nat.le_of_eq count, fun _ => count⟩
      · rename_i many
        obtain ⟨picked, count⟩ :=
          floydSample_picked (fun r _ hs => randBelow_lt r hs) r (n := n) (k := k) (by omega)
        have count : (floydSample randBelow r n k).1.length = min k n := by
          rw [count, Nat.min_eq_left (by omega)]
        exact ⟨picked, Nat.le_of_eq count, fun _ => count⟩

end Bounds

section Temporal

variable {ops : SliceOps} {cfg : SamplingConfig} {n k : Nat} {ts : List Time} {nodeTime : Time}

/-- Row positions, none twice, each with its timestamp before `nodeTime`. -/
structure Eligible (ts : List Time) (nodeTime : Time) (n : Nat) (filtered : List (Nat × Time)) :
    Prop where
  picked : Picked (filtered.map Prod.fst) n
  before : ∀ e ∈ filtered, ts.getD e.1 ⊤ < nodeTime

omit [Rng σ] in
theorem Eligible.filter {entries : List (Nat × Time)}
    (picked : Picked (entries.map Prod.fst) n) (own : ∀ e ∈ entries, e.2 = ts.getD e.1 ⊤) :
    Eligible ts nodeTime n (entries.filter fun e => decide (e.2 < nodeTime)) := by
  refine ⟨picked_of_sublist picked (List.filter_sublist.map Prod.fst), fun e he => ?_⟩
  obtain ⟨mem, before⟩ := List.mem_filter.mp he
  exact own e mem ▸ of_decide_eq_true before

variable (cfg nodeTime) in
theorem eligible_eligible (strategy : TemporalStrategy) (length : ts.length = n) (r : σ) :
    Eligible ts nodeTime n (eligible cfg strategy n ts nodeTime r).1 := by
  have whole : Eligible ts nodeTime n
      ((ts.zipIdx.map Prod.swap).filter fun e => decide (e.2 < nodeTime)) := by
    refine Eligible.filter ?_ fun e he => ?_
    · have fst : (ts.zipIdx.map Prod.swap).map Prod.fst = List.range n := by
        rw [List.map_map, ← length, List.range_eq_range', ← List.zipIdx_map_snd]
        rfl
      rw [fst]
      exact range_picked n
    · obtain ⟨x, hx, rfl⟩ := List.mem_map.mp he
      rw [List.mem_zipIdx_iff_getElem?] at hx
      simp [List.getD_eq_getElem?_getD, hx]
  unfold eligible
  split
  · rename_i cap found
    obtain ⟨picked, -⟩ := cappedPositions_picked r (Nat.le_of_lt (hubCap_lt found))
    refine Eligible.filter ?_ fun e he => ?_
    · have fst : ((cappedPositions r n cap).1.map fun i => (i, ts.getD i ⊤)).map Prod.fst =
          (cappedPositions r n cap).1 := by
        rw [List.map_map]
        exact List.map_id _
      rw [fst]
      exact picked
    · obtain ⟨i, -, rfl⟩ := List.mem_map.mp he
      rfl
  · exact whole

variable (ops) in
omit [Top Time] in
/-- A temporal draw takes distinct eligible positions, as many as there are up to `k`. -/
theorem temporalPicks_picked (strategy : TemporalStrategy) {filtered : List (Nat × Time)}
    (picked : Picked (filtered.map Prod.fst) n) (r : σ) :
    Picked (temporalPicks ops strategy k filtered r).1 n ∧
      (temporalPicks ops strategy k filtered r).1.length = min filtered.length k ∧
      ∀ i ∈ (temporalPicks ops strategy k filtered r).1, i ∈ filtered.map Prod.fst := by
  unfold temporalPicks
  cases strategy with
  | uniform =>
      dsimp only
      split
      · rename_i few
        exact ⟨picked, by rw [List.length_map, Nat.min_eq_left few], fun i hi => hi⟩
      · rename_i many
        obtain ⟨drawn, count⟩ :=
          floydSample_picked (fun r _ hs => randBelow_lt r hs) r (n := filtered.length) (k := k)
            (by omega)
        rw [← List.length_map (f := Prod.fst)] at drawn
        have mapped := picked_map picked drawn
        rw [List.length_map] at mapped
        refine ⟨mapped, ?_, List.forall_mem_map.mpr fun i hi => ?_⟩
        · rw [List.length_map, count, Nat.min_eq_right (by omega)]
        · rw [List.length_map] at drawn
          have inRow : i < (filtered.map Prod.fst).length := by
            rw [List.length_map]
            exact drawn.lt i hi
          rw [List.getD_eq_getElem _ _ inRow]
          exact List.getElem_mem inRow
  | last =>
      dsimp only
      have perm : (if min filtered.length k < filtered.length then
          ops.select (min filtered.length k - 1) mostRecentFirst filtered else filtered).Perm
          filtered := by
        split
        · exact ops.select_perm _ _ _
        · exact List.Perm.refl _
      have positions := perm.map Prod.fst
      rw [List.map_take]
      refine ⟨picked_of_sublist (picked_of_perm picked positions) (List.take_sublist _ _), ?_,
        fun i hi => positions.mem_iff.mp (List.mem_of_mem_take hi)⟩
      rw [List.length_take, List.length_map, perm.length_eq]
      omega

end Temporal

end Draws

end Pass

end AetherGraph
