import AetherGraph.Csr
import AetherGraph.Foundation.Strided
import AetherGraph.Philox
import Mathlib.Data.Nat.Bitwise

/-! The device sampler: a checked graph and batch, the grid `sample` launches, and the kernel lane
by lane.  What leaves the arrays, divides by zero or overflows an `int` is `none`.  The lanes'
stores are collected, so that they can be replayed in any order. -/

namespace AetherGraph

open Foundation

/-- Offsets that rise from 0 to the neighbor count. -/
structure DeviceCsr where
  offsets : List Nat
  neighbors : List UInt32
  numNodes : Nat
  offsets_length : offsets.length = numNodes + 1
  first : offsets.getD 0 0 = 0
  ordered : ∀ i < numNodes, offsets.getD i 0 ≤ offsets.getD (i + 1) 0
  last : offsets.getD numNodes 0 = neighbors.length

namespace DeviceCsr

/-- The first row whose end lies before its start. -/
def decrease (offsets : List Nat) : Option Nat :=
  (List.range (offsets.length - 1)).find? fun i =>
    decide (offsets.getD (i + 1) 0 < offsets.getD i 0)

theorem ordered_of_decrease {offsets : List Nat} (none : decrease offsets = none) :
    ∀ i < offsets.length - 1, offsets.getD i 0 ≤ offsets.getD (i + 1) 0 := by
  intro i hi
  have here := List.find?_eq_none.mp none i (List.mem_range.mpr hi)
  rw [decide_eq_true_eq] at here
  omega

def upload (offsets : List Nat) (neighbors : List UInt32) : Except String DeviceCsr :=
  if nonempty : offsets = [] then .error "CSR offsets must hold num_nodes + 1 entries"
  else
    let first := offsets.getD 0 0
    if start : first ≠ 0 then .error s!"CSR offsets must start at 0, not {first}"
    else
      match rising : decrease offsets with
      | some w => .error s!"CSR offsets decrease at row {w}"
      | none =>
          let last := offsets.getD (offsets.length - 1) 0
          let count := neighbors.length
          if stop : last ≠ count then
            .error s!"CSR offsets end at {last}, but there are {count} neighbors"
          else
            .ok {
              offsets, neighbors
              numNodes := offsets.length - 1
              offsets_length := by have := List.length_pos_of_ne_nil nonempty; omega
              first := not_not.mp start
              ordered := ordered_of_decrease rising
              last := not_not.mp stop }

theorem upload_ok {offsets : List Nat} {neighbors : List UInt32} (nonempty : offsets ≠ [])
    (start : offsets.getD 0 0 = 0) (rising : decrease offsets = none)
    (stop : offsets.getD (offsets.length - 1) 0 = neighbors.length) :
    ∃ csr, upload offsets neighbors = .ok csr ∧ csr.offsets = offsets ∧
      csr.neighbors = neighbors ∧ csr.numNodes = offsets.length - 1 := by
  rw [upload, dif_neg nonempty]
  dsimp only
  rw [dif_neg (not_not.mpr start)]
  split
  · rename_i w falls
    rw [rising] at falls
    cases falls
  · rw [dif_neg (not_not.mpr stop)]
    exact ⟨_, rfl, rfl, rfl, rfl⟩

variable (csr : DeviceCsr)

/-- A node's neighbors; none of a node outside the graph. -/
def row (node : UInt64) : List UInt32 :=
  if node.toNat < csr.numNodes then
    slice csr.neighbors (csr.offsets.getD node.toNat 0, csr.offsets.getD (node.toNat + 1) 0)
  else []

def degree (node : UInt64) : Nat := (csr.row node).length

theorem offsets_le_last {i : Nat} (hi : i ≤ csr.numNodes) :
    csr.offsets.getD (csr.numNodes - i) 0 ≤ csr.neighbors.length := by
  induction i with
  | zero => exact csr.last.le
  | succ i ih =>
      have step := csr.ordered (csr.numNodes - (i + 1)) (by omega)
      rw [show csr.numNodes - (i + 1) + 1 = csr.numNodes - i by omega] at step
      exact step.trans (ih (by omega))

theorem offsets_le {i : Nat} (hi : i < csr.numNodes) :
    csr.offsets.getD (i + 1) 0 ≤ csr.neighbors.length := by
  have below := csr.offsets_le_last (i := csr.numNodes - (i + 1)) (by omega)
  rwa [Nat.sub_sub_self hi] at below

end DeviceCsr

/-- Extents that fit an `i32`, and buffers of those extents. -/
structure SampleBatch where
  neighbors : List UInt32
  counts : List UInt32
  rows : Nat
  fanout : Nat
  neighbors_length : neighbors.length = rows * fanout
  counts_length : counts.length = rows
  fanout_pos : 0 < fanout
  rows_lt : rows < 2 ^ 31
  fanout_lt : fanout < 2 ^ 31

def samplePad : UInt32 := 0xffffffff

/-- A word of the batch. -/
inductive BatchAddr where
  | neighbor (index : Nat)
  | count (row : Nat)
  deriving DecidableEq, Repr

abbrev BatchStore := BatchAddr × UInt32

namespace SampleBatch

def new (rows fanout : Nat) : Except String SampleBatch :=
  if empty : rows = 0 ∨ fanout = 0 then
    .error "a sample batch needs at least one row and one sample"
  else if large : 2 ^ 31 ≤ rows ∨ 2 ^ 31 ≤ fanout then
    .error s!"batch {rows}x{fanout} exceeds the kernel's i32 extents"
  else if 2 ^ 64 ≤ rows * fanout then .error "rows * fanout overflows"
  else
    .ok {
      neighbors := List.replicate (rows * fanout) 0
      counts := List.replicate rows 0
      rows, fanout
      neighbors_length := List.length_replicate
      counts_length := List.length_replicate
      fanout_pos := by omega
      rows_lt := by omega
      fanout_lt := by omega }

def get (out : SampleBatch) : BatchAddr → Option UInt32
  | .neighbor i => out.neighbors[i]?
  | .count row => out.counts[row]?

def store (out : SampleBatch) (s : BatchStore) : Option SampleBatch :=
  match s.1 with
  | .neighbor i =>
      if i < out.neighbors.length then
        some { out with
          neighbors := out.neighbors.set i s.2
          neighbors_length := by rw [List.length_set, out.neighbors_length] }
      else none
  | .count row =>
      if row < out.counts.length then
        some { out with
          counts := out.counts.set row s.2
          counts_length := by rw [List.length_set, out.counts_length] }
      else none

end SampleBatch

structure SampleRequest where
  seed : UInt64
  layer : UInt32

/-- The kernel's arguments and its grid of blocks of 256 threads. -/
structure SamplerLaunch where
  csr : DeviceCsr
  nodes : List UInt64
  fanout : Nat
  seed : UInt64
  layer : UInt32
  gridDim : Nat

namespace WarpSampler

def maxSampleBlocks : Nat := 65535

def sample (csr : DeviceCsr) (seeds : List UInt64) (out : SampleBatch) (req : SampleRequest) :
    Except String (Option SamplerLaunch) :=
  let nodeCount := seeds.length
  let rows := out.rows
  if nodeCount = 0 then .ok none
  else if rows < nodeCount then .error s!"{nodeCount} seeds exceed the batch's {rows} rows"
  else if 2 ^ 31 ≤ nodeCount ∨ 2 ^ 31 ≤ out.fanout then
    .error "out of range integral type conversion attempted"
  else
    let wanted := (nodeCount + 7) / 8
    let blocks := if wanted < 2 ^ 32 then wanted else 2 ^ 32 - 1
    .ok (some ⟨csr, seeds, out.fanout, req.seed, req.layer, min (max blocks 1) maxSampleBlocks⟩)

end WarpSampler

abbrev Lane := Fin 32

/-- What every lane of a warp computes; undefined when one lane's part is. -/
def eachLane {α : Type} (f : Lane → Option α) : Option (Lane → α) :=
  if h : ∀ lane, (f lane).isSome then some fun lane => (f lane).get (h lane) else none

/-- `__ballot_sync` over the whole warp. -/
def ballot (p : Lane → Bool) : Nat := Nat.ofBits p

/-- The counter of `for (int i = …; i < n; i += 32)`. -/
def forInt (n i : Nat) : Option (List Nat) :=
  if 2 ^ 31 ≤ i then none
  else if i < n then (forInt n (i + 32)).map (i :: ·)
  else some []
termination_by n - i

namespace SamplerLaunch

variable (l : SamplerLaunch)

def blockDim : Nat := 256

/-- The row a thread starts at. -/
def firstRow (blockIdx threadIdx : Nat) : Nat := (blockIdx * blockDim + threadIdx) >>> 5

def rowStride : Nat := (l.gridDim * blockDim) >>> 5

/-- The rows the warp's lane runs through. -/
def rowsOf (warp : Fin l.rowStride) (lane : Lane) : List Nat :=
  strided l.rowStride l.nodes.length (firstRow (warp / 8) (warp % 8 * 32 + lane))

def slotAddr (row i : Nat) : BatchAddr := .neighbor (row * l.fanout + i)

/-- `fanout > 32`: a draw with replacement for every slot. -/
def drawLane (row : Nat) (node : UInt64) (begin_ degree : Nat) (lane : Lane) :
    Option (List BatchStore) := do
  let draws ← forInt l.fanout lane
  draws.mapM fun draw => do
    let r := aetherPhiloxU32 l.seed l.layer node (UInt32.ofNat draw)
    let v ← l.csr.neighbors[begin_ + r.toNat % degree]?
    some (l.slotAddr row draw, v)

/-- `degree <= fanout`: a copy of the row. -/
def copyLane (row begin_ degree : Nat) (lane : Lane) : Option (List BatchStore) :=
  (strided 32 degree lane).mapM fun i => do
    let v ← l.csr.neighbors[begin_ + i]?
    some (l.slotAddr row i, v)

/-- One candidate of Algorithm R, read from the window and offered to every lane's slot. -/
def consume (node : UInt64) (live : Nat) (wbuf : Lane → UInt32) (base : Nat)
    (slot : Lane → UInt32) (k : Nat) : Option (Lane → UInt32) :=
  let t := base + k
  let r := aetherPhiloxU32 l.seed l.layer node (UInt32.ofNat t)
  let width := UInt32.ofNat (t + 1)
  if width = 0 then none
  else
    let j := (r % width).toNat
    some fun lane =>
      if j < l.fanout ∧ live >>> j &&& 1 ≠ 0 ∧ (lane : Nat) = j then wbuf (Fin.ofNat 32 k)
      else slot lane

def refill (begin_ base nload : Nat) (wbuf : Lane → UInt32) : Option (Lane → UInt32) :=
  eachLane fun lane =>
    if lane < nload then l.csr.neighbors[begin_ + base + lane]? else some (wbuf lane)

/-- The candidates from `base` on, a window at a time: the window and the slots left at the end. -/
def stream (node : UInt64) (begin_ degree live : Nat) (wbuf slot : Lane → UInt32) (base : Nat) :
    Option ((Lane → UInt32) × (Lane → UInt32)) :=
  if base < degree then
    let nload := min (degree - base) 32
    match l.refill begin_ base nload wbuf with
    | none => none
    | some wbuf =>
        match (List.range nload).foldlM (l.consume node live wbuf base) slot with
        | none => none
        | some slot => stream node begin_ degree live wbuf slot (base + nload)
  else some (wbuf, slot)
termination_by degree - base

/-- `fanout <= 32`: Algorithm R with a slot a lane. -/
def reservoirWarp (node : UInt64) (begin_ degree : Nat) (wbuf : Lane → UInt32) :
    Option ((Lane → UInt32) × (Lane → UInt32)) := do
  let slot ← eachLane fun lane =>
    if lane < l.fanout then l.csr.neighbors[begin_ + lane]? else some 0
  let live := ballot fun lane => decide (lane < l.fanout)
  l.stream node begin_ degree live wbuf slot l.fanout

def reservoirLane (row : Nat) (slot : Lane → UInt32) (lane : Lane) : List BatchStore :=
  if lane < l.fanout then [(l.slotAddr row lane, slot lane)] else []

def padLane (row taken : Nat) (lane : Lane) : Option (List BatchStore) := do
  let unused ← forInt l.fanout (taken + lane)
  some (unused.map fun i => (l.slotAddr row i, samplePad))

/-- Where a node's neighbors begin, and how many there are. -/
def bounds (node : UInt64) : Option (Nat × Nat) :=
  if node.toNat < l.csr.numNodes then do
    let begin_ ← l.csr.offsets[node.toNat]?
    let end_ ← l.csr.offsets[node.toNat + 1]?
    some (begin_, end_ - begin_)
  else some (0, 0)

/-- The samples of a row: the window left behind, the number taken and each lane's stores. -/
def take (row : Nat) (node : UInt64) (begin_ degree : Nat) (wbuf : Lane → UInt32) :
    Option ((Lane → UInt32) × Nat × (Lane → List BatchStore)) :=
  if degree = 0 then some (wbuf, 0, fun _ => [])
  else if 32 < l.fanout then do
    let stores ← eachLane (l.drawLane row node begin_ degree)
    some (wbuf, l.fanout, stores)
  else if degree ≤ l.fanout then do
    let stores ← eachLane (l.copyLane row begin_ degree)
    some (wbuf, degree, stores)
  else do
    let (wbuf, slot) ← l.reservoirWarp node begin_ degree wbuf
    some (wbuf, l.fanout, l.reservoirLane row slot)

def countLane (row taken : Nat) (lane : Lane) : List BatchStore :=
  if lane = 0 then [(.count row, UInt32.ofNat taken)] else []

/-- One row by one warp: the window it leaves and the stores of its lanes. -/
def sampleRow (wbuf : Lane → UInt32) (row : Nat) :
    Option ((Lane → UInt32) × List BatchStore) := do
  let node ← l.nodes[row]?
  let (begin_, degree) ← l.bounds node
  let (wbuf, taken, stores) ← l.take row node begin_ degree wbuf
  let pads ← eachLane (l.padLane row taken)
  some (wbuf, (List.finRange 32).flatMap fun lane =>
    stores lane ++ (pads lane ++ countLane row taken lane))

/-- A warp's rows in turn, each reusing the window of the one before. -/
def runRows (rows : List Nat) (wbuf : Lane → UInt32) : Option (List BatchStore) :=
  match rows with
  | [] => some []
  | row :: rows =>
      match l.sampleRow wbuf row with
      | none => none
      | some (wbuf, stores) => (runRows rows wbuf).map (stores ++ ·)

/-- The stores of the grid, from what its shared memory happened to hold. -/
def warpSampleNeighbors (win : Fin l.rowStride → Lane → UInt32) : Option (List BatchStore) :=
  ((List.finRange l.rowStride).mapM fun warp => l.runRows (l.rowsOf warp 0) (win warp)).map
    List.flatten

end SamplerLaunch

end AetherGraph
