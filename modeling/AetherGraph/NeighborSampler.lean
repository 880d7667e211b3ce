import AetherGraph.Csr
import AetherGraph.GenStamp
import Mathlib.Data.List.Sort

/-! The neighbor sampler with all its scratch.  Edges are recorded in stored direction:
the node whose row was expanded, and the neighbor drawn from that row. -/

namespace AetherGraph

inductive TemporalStrategy where
  | uniform
  | last
  deriving DecidableEq, Repr

inductive SubgraphType where
  | directional
  | induced
  | bidirectional
  deriving DecidableEq, Repr

structure SamplingConfig where
  fanout : List Nat
  replace : Bool
  seed : Option Nat
  maxDegree : Option Nat
  cumulative : Bool
  weighted : Bool
  subgraphType : SubgraphType
  trackEdgeIds : Bool
  temporalStrategy : Option TemporalStrategy
  disjoint : Bool
  deriving DecidableEq, Repr

instance : Inhabited SamplingConfig where
  default := {
    fanout := [25, 10]
    replace := false
    seed := none
    maxDegree := none
    cumulative := false
    weighted := false
    subgraphType := .directional
    trackEdgeIds := true
    temporalStrategy := none
    disjoint := false }

/-- Seed ids proven to lie below `numNodes`. -/
structure Seeds where
  ids : List Nat
  numNodes : Nat
  inRange : ∀ id ∈ ids, id < numNodes

inductive TemporalSamplingError where
  | lengthMismatch (seeds times : Nat)
  | timestampsMissing
  | strategyMissing
  deriving DecidableEq, Repr

inductive SampleError where
  | seedsExceedGraph (checkedAgainst numNodes : Nat)
  | temporal (e : TemporalSamplingError)
  deriving DecidableEq, Repr

def batchSeed (base batchIdx : Nat) : Nat :=
  let z := base ^^^ batchIdx * 0x9E3779B97F4A7C15 % 2 ^ 64
  let z := (z ^^^ z / 2 ^ 30) * 0xBF58476D1CE4E5B9 % 2 ^ 64
  let z := (z ^^^ z / 2 ^ 27) * 0x94D049BB133111EB % 2 ^ 64
  z ^^^ z / 2 ^ 31

structure SampledSubgraph where
  nodes : List Nat
  edgeSrc : List Nat
  edgeDst : List Nat
  edgeIds : List Nat
  seeds : List Nat
  numSampledNodes : List Nat
  numSampledEdges : List Nat
  srcLocal : List Nat
  dstLocal : List Nat
  seedLocals : List Nat
  batch : Option (List Nat)
  deriving DecidableEq, Repr

/-- The slice operations whose exact results the standard library leaves open. -/
structure SliceOps where
  /-- `select_nth_unstable_by` -/
  select : {α : Type} → Nat → (α → α → Ordering) → List α → List α
  select_perm : ∀ {α : Type} (k : Nat) (cmp : α → α → Ordering) (xs : List α),
    (select k cmp xs).Perm xs
  select_split : ∀ {α : Type} (k : Nat) (cmp : α → α → Ordering) (xs : List α),
    (∀ a b, cmp a b = (cmp b a).swap) →
    (∀ a b c, cmp a b ≠ .gt → cmp b c ≠ .gt → cmp a c ≠ .gt) →
    ∀ a ∈ (select k cmp xs).take (k + 1), ∀ b ∈ (select k cmp xs).drop k, cmp a b ≠ .gt
  /-- `partition_point` -/
  partitionPoint : {α : Type} → (α → Bool) → List α → Nat
  partitionPoint_eq : ∀ {α : Type} (p : α → Bool) (xs ys : List α),
    (∀ x ∈ xs, p x = true) → (∀ y ∈ ys, p y = false) → partitionPoint p (xs ++ ys) = xs.length

/-- Slice operations that sort the whole slice and scan from its front. -/
def SliceOps.sorting : SliceOps where
  select _ cmp xs := xs.insertionSort fun a b => cmp a b ≠ .gt
  select_perm _ cmp xs := List.perm_insertionSort _ xs
  select_split k cmp xs swap trans a ha b hb := by
    have total : ∀ x y, cmp x y ≠ .gt ∨ cmp y x ≠ .gt := by
      intro x y
      rw [swap y x]
      cases cmp x y <;> simp [Ordering.swap]
    have refl : cmp a a ≠ .gt := (total a a).elim id id
    have sorted : (xs.insertionSort fun a b => cmp a b ≠ .gt).Pairwise fun a b => cmp a b ≠ .gt :=
      @List.pairwise_insertionSort _ (fun a b => cmp a b ≠ .gt) _ ⟨total⟩ ⟨fun _ _ _ => trans _ _ _⟩ xs
    obtain ⟨i, hi, rfl⟩ := List.mem_iff_getElem.mp ha
    obtain ⟨j, hj, rfl⟩ := List.mem_iff_getElem.mp hb
    rw [List.length_take] at hi
    rw [List.length_drop] at hj
    rw [List.getElem_take, List.getElem_drop] at *
    rcases Nat.lt_or_ge i (k + j) with before | after
    · exact List.pairwise_iff_getElem.mp sorted i (k + j) _ _ before
    · have same : i = k + j := by omega
      subst same
      exact refl
  partitionPoint p xs := (xs.takeWhile p).length
  partitionPoint_eq p xs ys front back := by
    rw [List.takeWhile_append_of_pos front]
    cases ys with
    | nil => simp
    | cons y ys =>
        rw [List.takeWhile_cons_of_neg (by simp [back y List.mem_cons_self]), List.append_nil]

/-- Exact `-ln(u)` for a random word mapped to a uniform `u` in (0, 1]. -/
def fastNegLnU64 (bits : Nat) : Float :=
  let u := ((UInt64.ofNat (bits / 2 ^ 11)).toFloat + 1.0) * (1.0 / (UInt64.ofNat (2 ^ 53)).toFloat)
  Float.neg (Float.log u)

/-- `partial_cmp`, with `Equal` where the values do not compare. -/
def partialCmp {α : Type} [LT α] [DecidableLT α] (a b : α) : Ordering :=
  if a < b then .lt else if b < a then .gt else .eq

/-- A membership set emptied and refilled by Floyd's sampling. -/
def seenInsert (seen : List Nat) (i : Nat) : Bool × List Nat :=
  if i ∈ seen then (false, seen) else (true, seen ++ [i])

def pairKey (src dst : Nat) : Nat := src * 2 ^ 32 + dst

structure NeighborSampler (σ Time : Type) where
  rng : σ
  dedup : GenDedup
  nodeVec : List Nat
  nodeTimes : List Time
  trackTimes : Bool
  hop : Nat
  edgeSrcBuf : List Nat
  edgeDstBuf : List Nat
  edgeIdsBuf : List Nat
  srcLocalBuf : List Nat
  dstLocalBuf : List Nat
  seedLocalsBuf : List Nat
  frontier : List (Nat × Nat)
  nextFrontier : List (Nat × Nat)
  sampleBuf : List (Nat × Nat)
  floyd : FloydStamps
  seenSet : List Nat
  temporalFiltered : List (Nat × Time)
  weightedKeys : List (Float × Nat)
  cumsumBuf : List Float
  capIdx : List Nat
  capNbrs : List Nat
  capW : List Float32
  emittedAt : List (Nat × Nat)
  pairSet : List Nat

namespace NeighborSampler

def denseDedupMaxNodes : Nat := 8 * 2 ^ 20

variable {σ : Type} [Rng σ] {Time : Type}

/-- A sampler with no call behind it; `dense` picks the dedup table. -/
def fresh (dense : Bool) (numNodes seed : Nat) : NeighborSampler σ Time where
  rng := Rng.new seed
  dedup := if dense then .dense (.new numNodes) else .map []
  nodeVec := []
  nodeTimes := []
  trackTimes := false
  hop := 0
  edgeSrcBuf := []
  edgeDstBuf := []
  edgeIdsBuf := []
  srcLocalBuf := []
  dstLocalBuf := []
  seedLocalsBuf := []
  frontier := []
  nextFrontier := []
  sampleBuf := []
  floyd := .new
  seenSet := []
  temporalFiltered := []
  weightedKeys := []
  cumsumBuf := []
  capIdx := []
  capNbrs := []
  capW := []
  emittedAt := []
  pairSet := []

/-- `entropy` seeds a sampler whose config has no seed. -/
def new (g : Csr Time) (cfg : SamplingConfig) (entropy : Nat) : NeighborSampler σ Time :=
  fresh (decide (g.numNodes ≤ denseDedupMaxNodes)) g.numNodes (cfg.seed.getD entropy)

def reseed (s : NeighborSampler σ Time) (seed : Nat) : NeighborSampler σ Time :=
  { s with rng := Rng.new seed }

omit [Rng σ] in
def beginPass (s : NeighborSampler σ Time) (isTemporal : Bool) : NeighborSampler σ Time :=
  { s with
    dedup := s.dedup.begin
    nodeVec := []
    nodeTimes := []
    trackTimes := isTemporal
    edgeSrcBuf := []
    edgeDstBuf := []
    edgeIdsBuf := []
    srcLocalBuf := []
    dstLocalBuf := []
    frontier := []
    nextFrontier := []
    emittedAt := [] }

/-- The earlier of a bound and a time. -/
def lower [LT Time] [DecidableLT Time] (time bound : Time) : Time := if time < bound then time else bound

variable [LT Time] [DecidableLT Time] [LE Time] [DecidableLE Time] [Top Time]
variable (ops : SliceOps) (g : Csr Time) (cfg : SamplingConfig)

/-- The local index of `id`, whether it is new, and the sampler with it registered. -/
def register (s : NeighborSampler σ Time) (id : Nat) (time : Time) :
    (Nat × Bool) × NeighborSampler σ Time :=
  let probed := s.dedup.probeOrInsert id (s.nodeVec.length % 2 ^ 32)
  let s := { s with dedup := probed.2 }
  (probed.1,
    if probed.1.2 then
      { s with
        nodeVec := s.nodeVec ++ [id]
        nodeTimes := if s.trackTimes then s.nodeTimes ++ [time] else s.nodeTimes }
    else if s.trackTimes then
      { s with nodeTimes := s.nodeTimes.modify probed.1.1 (lower time) }
    else s)

/-- `none` when `id` is outside the graph. -/
def insertNodeFrontier (s : NeighborSampler σ Time) (id : Nat) (time : Time) :
    Option Nat × NeighborSampler σ Time :=
  if g.numNodes ≤ id then (none, s)
  else
    let (found, s) := s.register id time
    (some found.1, if found.2 then { s with nextFrontier := s.nextFrontier ++ [(id, found.1)] } else s)

/-- Whether edge `eid` may be emitted this hop. -/
def freshEdge (s : NeighborSampler σ Time) (eid : Nat) : Bool × NeighborSampler σ Time :=
  match s.emittedAt.lookup eid with
  | some hop => (decide (hop = s.hop), s)
  | none => (true, { s with emittedAt := (eid, s.hop) :: s.emittedAt })

def pushEdge (s : NeighborSampler σ Time) (src srcLocal dst dstLocal eid : Nat) :
    NeighborSampler σ Time :=
  { s with
    edgeSrcBuf := s.edgeSrcBuf ++ [src]
    edgeDstBuf := s.edgeDstBuf ++ [dst]
    srcLocalBuf := s.srcLocalBuf ++ [srcLocal]
    dstLocalBuf := s.dstLocalBuf ++ [dstLocal]
    edgeIdsBuf := if cfg.trackEdgeIds then s.edgeIdsBuf ++ [eid] else s.edgeIdsBuf }

/-- Register a sampled neighbor and push its edge; one outside the graph is skipped. -/
def emitEdge (s : NeighborSampler σ Time) (src srcLocal neighbor eid : Nat) (time : Time) :
    NeighborSampler σ Time :=
  let (allowed, s) := if cfg.cumulative then s.freshEdge eid else (true, s)
  if allowed then
    match s.insertNodeFrontier g neighbor time with
    | (some dstLocal, s) => s.pushEdge cfg src srcLocal neighbor dstLocal eid
    | (none, s) => s
  else s

/-- `emitEdge` of an edge it lets through. -/
def emitAllowed (s : NeighborSampler σ Time) (src srcLocal neighbor eid : Nat) (time : Time) :
    NeighborSampler σ Time :=
  match s.insertNodeFrontier g neighbor time with
  | (some dstLocal, s) => s.pushEdge cfg src srcLocal neighbor dstLocal eid
  | (none, s) => s

/-- `Some(max_degree)` when a row of `degree` exceeds it. -/
def hubCap (degree : Nat) : Option Nat :=
  cfg.maxDegree.bind fun cap => if degree ≤ cap then none else some cap

/-- One step of Floyd's sampling on the reusable set: the pick at upper end `i`. -/
def seenPick (s : NeighborSampler σ Time) (i : Nat) : Nat × NeighborSampler σ Time :=
  let drawn := randBelow s.rng (i + 1)
  match seenInsert s.seenSet drawn.1 with
  | (true, seen) => (drawn.1, { s with rng := drawn.2, seenSet := seen })
  | (false, seen) => (i, { s with rng := drawn.2, seenSet := (seenInsert seen i).2 })

/-- One step of Floyd's sampling on the stamp block. -/
def stampPick (s : NeighborSampler σ Time) (i : Nat) : Nat × NeighborSampler σ Time :=
  let drawn := randBelow s.rng (i + 1)
  match s.floyd.testAndSet drawn.1 with
  | (true, floyd) => (drawn.1, { s with rng := drawn.2, floyd := floyd })
  | (false, floyd) => (i, { s with rng := drawn.2, floyd := (floyd.testAndSet i).2 })

/-- The range `n - k .. n`. -/
def upperEnds (n k : Nat) : List Nat := List.range' (n - k) (n - (n - k))

/-- `k` positions below `n`, ascending, in `cap_idx`. -/
def drawPositions (s : NeighborSampler σ Time) (n k : Nat) : NeighborSampler σ Time :=
  let s := { s with capIdx := [], seenSet := [] }
  let s := (upperEnds n k).foldl (fun s i =>
    let picked := s.seenPick i
    { picked.2 with capIdx := picked.2.capIdx ++ [picked.1] }) s
  { s with capIdx := s.capIdx.insertionSort (· ≤ ·) }

/-- Keep a row position whose timestamp is before the node's time. -/
def filterTime (nodeTime : Time) (s : NeighborSampler σ Time) (entry : Nat × Time) :
    NeighborSampler σ Time :=
  if entry.2 < nodeTime then { s with temporalFiltered := s.temporalFiltered ++ [entry] } else s

/-- Fill `temporal_filtered` from the row, or from a hub's drawn positions. -/
def keepEligible (s : NeighborSampler σ Time) (strategy : TemporalStrategy) (n : Nat)
    (ts : List Time) (nodeTime : Time) : NeighborSampler σ Time :=
  match strategy, hubCap cfg n with
  | .uniform, some cap =>
      let s := s.drawPositions n cap
      (s.capIdx.map fun i => (i, ts.getD i ⊤)).foldl (filterTime nodeTime) s
  | _, _ => (ts.zipIdx.map Prod.swap).foldl (filterTime nodeTime) s

def pushSample (neighbors : List Nat) (s : NeighborSampler σ Time) (i : Nat) :
    NeighborSampler σ Time :=
  { s with sampleBuf := s.sampleBuf ++ [(neighbors.getD i 0, i)] }

def mostRecentFirst (a b : Nat × Time) : Ordering := partialCmp b.2 a.2

/-- Fill `sample_buf` from the eligible positions. -/
def selectTemporal (strategy : TemporalStrategy) (neighbors : List Nat) (sampleSize : Nat)
    (s : NeighborSampler σ Time) : NeighborSampler σ Time :=
  let valid := s.temporalFiltered.length
  match strategy with
  | .uniform =>
      if valid ≤ sampleSize then
        s.temporalFiltered.foldl (fun s entry => s.pushSample neighbors entry.1) s
      else
        (upperEnds valid sampleSize).foldl (fun s i =>
          let picked := s.seenPick i
          picked.2.pushSample neighbors
            ((picked.2.temporalFiltered.map Prod.fst).getD picked.1 0))
          { s with seenSet := [] }
  | .last =>
      let take := min valid sampleSize
      if take = 0 then s
      else
        let s := if take < valid then
          { s with temporalFiltered := ops.select (take - 1) mostRecentFirst s.temporalFiltered }
        else s
        (s.temporalFiltered.take take).foldl (fun s entry => s.pushSample neighbors entry.1) s

def emitSamples (s : NeighborSampler σ Time) (node nodeLocal edgeOffset : Nat)
    (time : Nat → Time) : NeighborSampler σ Time :=
  s.sampleBuf.foldl (fun s sample =>
    s.emitEdge g cfg node nodeLocal sample.1 (edgeOffset + sample.2) (time sample.2)) s

def sampleTemporal (s : NeighborSampler σ Time) (node nodeLocal : Nat) (neighbors : List Nat)
    (ts : List Time) (edgeOffset sampleSize : Nat) : NeighborSampler σ Time :=
  match cfg.temporalStrategy with
  | none => s
  | some strategy =>
      let nodeTime := s.nodeTimes.getD nodeLocal ⊤
      let s := { s with sampleBuf := [], temporalFiltered := [] }
      let s := s.keepEligible cfg strategy neighbors.length ts nodeTime
      if s.temporalFiltered.length = 0 then s
      else
        (s.selectTemporal ops strategy neighbors sampleSize).emitSamples g cfg node nodeLocal
          edgeOffset fun i => ts.getD i ⊤

def weightedSampleWithReplacement (s : NeighborSampler σ Time) (neighbors : List Nat)
    (weights : List Float32) (k : Nat) : NeighborSampler σ Time :=
  let n := neighbors.length
  if n = 0 then s
  else
    let sums := weights.foldl (fun acc w =>
      let total := acc.1 + w.toFloat
      (total, acc.2 ++ [total])) ((0.0 : Float), ([] : List Float))
    let s := { s with cumsumBuf := sums.2 }
    let scale := sums.1 / (UInt64.ofNat (2 ^ 64 - 1)).toFloat
    (List.range k).foldl (fun s _ =>
      let word := Rng.nextU64 s.rng
      let u := (UInt64.ofNat word.1).toFloat * scale
      let idx := min (ops.partitionPoint (fun c => decide (c ≤ u)) s.cumsumBuf) (n - 1)
      pushSample neighbors { s with rng := word.2 } idx) s

/-- Key of a neighbor, smaller first; a weight that is not positive and finite sorts last. -/
def weightedKey (word : Nat) (weight : Float32) : Float :=
  let w := weight.toFloat
  if w.isFinite ∧ 0.0 < w then fastNegLnU64 word / w else 1.0 / 0.0

def weightedSampleWithoutReplacement (s : NeighborSampler σ Time) (neighbors : List Nat)
    (weights : List Float32) (k : Nat) : NeighborSampler σ Time :=
  let n := neighbors.length
  if k = 0 then s
  else if n ≤ k then (List.range n).foldl (pushSample neighbors) s
  else
    let s := (weights.take n).zipIdx.foldl (fun s entry =>
      let word := Rng.nextU64 s.rng
      { s with
        rng := word.2
        weightedKeys := s.weightedKeys ++ [(weightedKey word.1 entry.1, entry.2)] })
      { s with weightedKeys := [] }
    let s := { s with
      weightedKeys := ops.select (k - 1) (fun a b => partialCmp a.1 b.1) s.weightedKeys }
    (s.weightedKeys.take k).foldl (fun s entry => s.pushSample neighbors entry.2) s

def weightedInto (s : NeighborSampler σ Time) (neighbors : List Nat) (weights : List Float32)
    (k : Nat) : NeighborSampler σ Time :=
  if cfg.replace then s.weightedSampleWithReplacement ops neighbors weights k
  else s.weightedSampleWithoutReplacement ops neighbors weights k

def emitPick (s : NeighborSampler σ Time) (node nodeLocal : Nat) (neighbors : List Nat)
    (edgeOffset idx : Nat) : NeighborSampler σ Time :=
  s.emitEdge g cfg node nodeLocal (neighbors.getD idx 0) (edgeOffset + idx) ⊤

def emitSampleReplace (s : NeighborSampler σ Time) (node nodeLocal : Nat) (neighbors : List Nat)
    (edgeOffset k : Nat) : NeighborSampler σ Time :=
  (List.range k).foldl (fun s _ =>
    let drawn := randBelow s.rng neighbors.length
    emitPick g cfg { s with rng := drawn.2 } node nodeLocal neighbors edgeOffset drawn.1) s

def emitTakeAll (s : NeighborSampler σ Time) (node nodeLocal : Nat) (neighbors : List Nat)
    (edgeOffset : Nat) : NeighborSampler σ Time :=
  (List.range neighbors.length).foldl (fun s idx =>
    s.emitPick g cfg node nodeLocal neighbors edgeOffset idx) s

/-- Stamps for rows of up to 256, the reusable set otherwise. -/
def emitSampleFloyd (s : NeighborSampler σ Time) (node nodeLocal : Nat) (neighbors : List Nat)
    (edgeOffset k : Nat) : NeighborSampler σ Time :=
  let n := neighbors.length
  if n ≤ 256 then
    (upperEnds n k).foldl (fun s i =>
      let picked := s.stampPick i
      picked.2.emitPick g cfg node nodeLocal neighbors edgeOffset picked.1)
      { s with floyd := s.floyd.begin }
  else
    (upperEnds n k).foldl (fun s i =>
      let picked := s.seenPick i
      picked.2.emitPick g cfg node nodeLocal neighbors edgeOffset picked.1)
      { s with seenSet := [] }

def sampleNormal (s : NeighborSampler σ Time) (node nodeLocal : Nat) (neighbors : List Nat)
    (weights : Option (List Float32)) (edgeOffset sampleSize : Nat) : NeighborSampler σ Time :=
  match weights with
  | some w =>
      let s := { s with sampleBuf := [] }
      let s : NeighborSampler σ Time := match hubCap cfg neighbors.length with
        | some cap =>
            let s := s.drawPositions neighbors.length cap
            let s := { s with
              capNbrs := s.capIdx.map fun i => neighbors.getD i 0
              capW := s.capIdx.map fun i => w.getD i 0 }
            let s := s.weightedInto ops cfg s.capNbrs s.capW sampleSize
            { s with sampleBuf := s.sampleBuf.map fun pick => (pick.1, s.capIdx.getD pick.2 0) }
        | none => s.weightedInto ops cfg neighbors w sampleSize
      s.emitSamples g cfg node nodeLocal edgeOffset fun _ => ⊤
  | none =>
      if cfg.replace then s.emitSampleReplace g cfg node nodeLocal neighbors edgeOffset sampleSize
      else if neighbors.length ≤ sampleSize then
        s.emitTakeAll g cfg node nodeLocal neighbors edgeOffset
      else s.emitSampleFloyd g cfg node nodeLocal neighbors edgeOffset sampleSize

/-- The body of the hop loop for one frontier entry. -/
def expand (isTemporal : Bool) (sampleSize : Nat) (s : NeighborSampler σ Time)
    (entry : Nat × Nat) : NeighborSampler σ Time :=
  let range := g.neighborRange entry.1
  if range.2 ≤ range.1 then s
  else
    let neighbors := slice g.edges range
    if isTemporal then
      match g.timestamps with
      | none => s
      | some ts =>
          s.sampleTemporal ops g cfg entry.1 entry.2 neighbors (slice ts range) range.1 sampleSize
    else
      let weights := if cfg.weighted then g.weights else none
      s.sampleNormal ops g cfg entry.1 entry.2 neighbors (weights.map fun w => slice w range) range.1
        sampleSize

/-- One hop, with its count of new frontier nodes and new edges. -/
def runHop (isTemporal : Bool) (s : NeighborSampler σ Time) (hop : Nat) :
    (Nat × Nat) × NeighborSampler σ Time :=
  let s := { s with hop := hop % 2 ^ 32, nextFrontier := [] }
  let edgesBefore := s.edgeSrcBuf.length
  let s := s.frontier.foldl (expand ops g cfg isTemporal (cfg.fanout.getD hop 0)) s
  ((s.nextFrontier.length, s.edgeSrcBuf.length - edgesBefore),
    if cfg.cumulative then { s with frontier := s.frontier ++ s.nextFrontier }
    else { s with frontier := s.nextFrontier, nextFrontier := s.frontier })

/-- The hop loop from hop `hop` on, with the counts of each hop. -/
def runHopsFrom (isTemporal : Bool) (hop : Nat) : Nat → NeighborSampler σ Time →
    List (Nat × Nat) × NeighborSampler σ Time
  | 0, s => ([], s)
  | hops + 1, s =>
      let ran := s.runHop ops g cfg isTemporal hop
      let rest := runHopsFrom isTemporal (hop + 1) hops ran.2
      (ran.1 :: rest.1, rest.2)

def runHops (isTemporal : Bool) (s : NeighborSampler σ Time) :
    List (Nat × Nat) × NeighborSampler σ Time :=
  s.runHopsFrom ops g cfg isTemporal 0 cfg.fanout.length

/-- Keep an edge of a sampled node's row when its other end was sampled. -/
def induceEdge (u uLocal : Nat) (s : NeighborSampler σ Time) (pos : Nat) :
    NeighborSampler σ Time :=
  let timestamps := if s.trackTimes then g.timestamps else none
  let bound := if s.trackTimes then s.nodeTimes.getD uLocal ⊤ else ⊤
  if timestamps.any fun ts => decide (bound ≤ ts.getD pos ⊤) then s
  else match s.dedup.get (g.edges.getD pos 0) with
    | some wLocal => s.pushEdge cfg u uLocal (g.edges.getD pos 0) wLocal pos
    | none => s

def induce (s : NeighborSampler σ Time) : NeighborSampler σ Time :=
  s.nodeVec.zipIdx.foldl (fun s entry =>
    let range := g.neighborRange entry.1
    (List.range' range.1 (range.2 - range.1)).foldl (induceEdge g cfg entry.1 entry.2) s)
    { s with edgeSrcBuf := [], edgeDstBuf := [], edgeIdsBuf := [], srcLocalBuf := [],
             dstLocalBuf := [] }

/-- Append the reverse of edge `i` unless its endpoint pair is present. -/
def mirrorEdge (s : NeighborSampler σ Time) (i : Nat) : NeighborSampler σ Time :=
  let src := s.srcLocalBuf.getD i 0
  let dst := s.dstLocalBuf.getD i 0
  if pairKey dst src ∈ s.pairSet then s
  else
    { s with
      pairSet := s.pairSet ++ [pairKey dst src]
      edgeSrcBuf := s.edgeSrcBuf ++ [s.edgeDstBuf.getD i 0]
      edgeDstBuf := s.edgeDstBuf ++ [s.edgeSrcBuf.getD i 0]
      srcLocalBuf := s.srcLocalBuf ++ [dst]
      dstLocalBuf := s.dstLocalBuf ++ [src]
      edgeIdsBuf := if cfg.trackEdgeIds then s.edgeIdsBuf ++ [s.edgeIdsBuf.getD i 0]
        else s.edgeIdsBuf }

def mirror (s : NeighborSampler σ Time) : NeighborSampler σ Time :=
  let n := s.edgeSrcBuf.length
  let s := (List.range n).foldl (fun s i => { s with
    pairSet := (seenInsert s.pairSet
      (pairKey (s.srcLocalBuf.getD i 0) (s.dstLocalBuf.getD i 0))).2 }) { s with pairSet := [] }
  (List.range n).foldl (mirrorEdge cfg) s

def applySubgraphType (s : NeighborSampler σ Time) : NeighborSampler σ Time :=
  match cfg.subgraphType with
  | .directional => s
  | .induced => s.induce g cfg
  | .bidirectional => s.mirror cfg

/-- Register a seed; a repeated one keeps one frontier entry. -/
def registerSeed (s : NeighborSampler σ Time) (seed : Nat × Time) : NeighborSampler σ Time :=
  let registered := s.register seed.1 seed.2
  let found := registered.1
  let s := { registered.2 with seedLocalsBuf := registered.2.seedLocalsBuf ++ [found.1] }
  if found.2 then { s with frontier := s.frontier ++ [(seed.1, found.1)] } else s

/-- Each seed with its time bound. -/
def seedTimes (seeds : List Nat) (inputTimes : Option (List Time)) : List (Nat × Time) :=
  seeds.zipIdx.map fun entry => (entry.1, (inputTimes.map fun t => t.getD entry.2 ⊤).getD ⊤)

def sampleNeighborsInner (s : NeighborSampler σ Time) (seeds : List Nat)
    (inputTimes : Option (List Time)) : SampledSubgraph × NeighborSampler σ Time :=
  let isTemporal := cfg.temporalStrategy.isSome
  let s := { s.beginPass isTemporal with seedLocalsBuf := [] }
  let s := (seedTimes seeds inputTimes).foldl registerSeed s
  let seedNodes := s.nodeVec.length
  let ran := s.runHops ops g cfg isTemporal
  let counts := ran.1
  let s := ran.2.applySubgraphType g cfg
  ({ nodes := s.nodeVec
     edgeSrc := s.edgeSrcBuf
     edgeDst := s.edgeDstBuf
     edgeIds := s.edgeIdsBuf
     seeds := seeds
     numSampledNodes := seedNodes :: counts.map Prod.fst
     numSampledEdges := counts.map Prod.snd
     srcLocal := s.srcLocalBuf
     dstLocal := s.dstLocalBuf
     seedLocals := s.seedLocalsBuf
     batch := none },
    { s with nodeVec := [], edgeSrcBuf := [], edgeDstBuf := [], edgeIdsBuf := [],
             srcLocalBuf := [], dstLocalBuf := [], seedLocalsBuf := [] })

def sampleNeighbors (s : NeighborSampler σ Time) (seeds : List Nat) :
    SampledSubgraph × NeighborSampler σ Time :=
  s.sampleNeighborsInner ops g cfg seeds none

def sampleNeighborsTemporal (s : NeighborSampler σ Time) (seeds : List Nat)
    (inputTimes : List Time) :
    Except TemporalSamplingError SampledSubgraph × NeighborSampler σ Time :=
  if seeds.length ≠ inputTimes.length then
    (.error (.lengthMismatch seeds.length inputTimes.length), s)
  else if g.timestamps.isNone then (.error .timestampsMissing, s)
  else if cfg.temporalStrategy.isNone then (.error .strategyMissing, s)
  else
    let out := s.sampleNeighborsInner ops g cfg seeds (some inputTimes)
    (.ok out.1, out.2)

/-- One seed's block appended to the combined subgraph. -/
def sampleBlock (acc : SampledSubgraph × NeighborSampler σ Time) (entry : (Nat × Time) × Nat) :
    SampledSubgraph × NeighborSampler σ Time :=
  let isTemporal := cfg.temporalStrategy.isSome
  let s := acc.2.beginPass isTemporal
  let registered := s.register entry.1.1 entry.1.2
  let seedLocal := registered.1.1
  let s := { registered.2 with
    frontier := registered.2.frontier ++ [(entry.1.1, seedLocal)] }
  let ran := s.runHops ops g cfg isTemporal
  let counts := ran.1
  let s := ran.2.applySubgraphType g cfg
  let out := acc.1
  let nodeOffset := out.nodes.length % 2 ^ 32
  ({ out with
     nodes := out.nodes ++ s.nodeVec
     edgeSrc := out.edgeSrc ++ s.edgeSrcBuf
     edgeDst := out.edgeDst ++ s.edgeDstBuf
     edgeIds := out.edgeIds ++ s.edgeIdsBuf
     numSampledNodes := out.numSampledNodes.take 1 ++
       (out.numSampledNodes.drop 1).zipWith (· + ·) (counts.map Prod.fst)
     numSampledEdges := out.numSampledEdges.zipWith (· + ·) (counts.map Prod.snd)
     srcLocal := out.srcLocal ++ s.srcLocalBuf.map fun l => (l + nodeOffset) % 2 ^ 32
     dstLocal := out.dstLocal ++ s.dstLocalBuf.map fun l => (l + nodeOffset) % 2 ^ 32
     seedLocals := out.seedLocals ++ [(nodeOffset + seedLocal) % 2 ^ 32]
     batch := out.batch.map fun b => b ++ List.replicate s.nodeVec.length (entry.2 % 2 ^ 32) }, s)

def sampleNeighborsDisjoint (s : NeighborSampler σ Time) (seeds : List Nat)
    (inputTimes : Option (List Time)) : SampledSubgraph × NeighborSampler σ Time :=
  let numHops := cfg.fanout.length
  (seedTimes seeds inputTimes).zipIdx.foldl (sampleBlock ops g cfg)
    ({ nodes := []
       edgeSrc := []
       edgeDst := []
       edgeIds := []
       seeds := seeds
       numSampledNodes := seeds.length :: List.replicate numHops 0
       numSampledEdges := List.replicate numHops 0
       srcLocal := []
       dstLocal := []
       seedLocals := []
       batch := some [] }, s)

/-- What `sample` checks before it samples. -/
def checkSample (seeds : Seeds) (inputTimes : Option (List Time)) : Option SampleError :=
  if g.numNodes < seeds.numNodes then some (.seedsExceedGraph seeds.numNodes g.numNodes)
  else match inputTimes with
    | some times =>
        if times.length ≠ seeds.ids.length then
          some (.temporal (.lengthMismatch seeds.ids.length times.length))
        else if cfg.temporalStrategy.isNone then some (.temporal .strategyMissing)
        else if g.timestamps.isNone then some (.temporal .timestampsMissing)
        else none
    | none =>
        if cfg.temporalStrategy.isSome ∧ g.timestamps.isNone then
          some (.temporal .timestampsMissing)
        else none

def sample (s : NeighborSampler σ Time) (seeds : Seeds) (inputTimes : Option (List Time)) :
    Except SampleError SampledSubgraph × NeighborSampler σ Time :=
  match checkSample g cfg seeds inputTimes with
  | some e => (.error e, s)
  | none =>
      let out := if cfg.disjoint then s.sampleNeighborsDisjoint ops g cfg seeds.ids inputTimes
        else s.sampleNeighborsInner ops g cfg seeds.ids inputTimes
      (.ok out.1, out.2)

end NeighborSampler

end AetherGraph
