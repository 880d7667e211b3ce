import AetherGraph.FeatureHeader
import AetherGraph.LandingPlan
import AetherGraph.Foundation.PieceWrites
import Mathlib.Data.List.Destutter

/-! The feature store's batch: the coalesced gather through a ring lane, the row-by-row fallback,
and the readahead hints. -/

namespace AetherGraph

open Foundation

section Device

/-- How a batch stops short: an error with its errno, if it has one, or a panic. -/
inductive GatherError where
  | failed (errno : Option Nat) (text : String)
  | panic
  deriving DecidableEq, Repr

structure Read where
  offset : Nat
  dest : Nat
  len : Nat
  deriving DecidableEq, Repr

/-- What came of a batch: the reads that landed, in their order, and the first failure. -/
structure Completion where
  landed : List Read
  error : Option (Option Nat × String)

/-- The kernel behind the file's descriptors.  A batch that succeeds has landed every read whole,
in any order; every other outcome of a batch or a `pread` is left open. -/
structure Device (file : List U8) where
  complete : List Read → Completion
  whole : ∀ reads, (complete reads).error = none →
    (complete reads).landed.Perm reads ∧ ∀ r ∈ reads, r.offset + r.len ≤ file.length
  pread : Nat → Nat → Option (Option Nat × String)

/-- The bytes of a read land, as far as the file has them and the buffer room. -/
def landRead (file region : List U8) (r : Read) : List U8 :=
  if r.dest + r.len ≤ region.length then
    writeAt region r.dest ((file.drop r.offset).take r.len)
  else region

theorem landRead_length (file region : List U8) (r : Read) :
    (landRead file region r).length = region.length := by
  unfold landRead
  split_ifs with room
  · refine writeAt_length ?_
    rw [List.length_take]
    omega
  · rfl

theorem foldl_landRead_length (file region : List U8) (reads : List Read) :
    (reads.foldl (landRead file) region).length = region.length := by
  induction reads generalizing region with
  | nil => rfl
  | cons r reads ih => rw [List.foldl_cons, ih, landRead_length]

def u32Max : Nat := 2 ^ 32 - 1

/-- `batch_read` into a buffer.  A destination outside it breaks the caller's contract, which
counts as a panic. -/
def batchRead {file : List U8} (device : Device file) (region : List U8) (reads : List Read) :
    Except GatherError Unit × List U8 :=
  if reads = [] then (.ok (), region)
  else if reads.any fun r => decide (region.length < r.dest + r.len) then (.error .panic, region)
  else match reads.find? fun r => decide (u32Max < r.len) with
    | some r =>
        (.error (.failed none
          s!"read length {r.len} exceeds io_uring limit of {u32Max} bytes"), region)
    | none =>
        let batch := device.complete reads
        (match batch.error with
          | none => .ok ()
          | some (errno, text) => .error (.failed errno text),
          batch.landed.foldl (landRead file) region)

theorem batchRead_length {file : List U8} (device : Device file) (region : List U8)
    (reads : List Read) : (batchRead device region reads).2.length = region.length := by
  unfold batchRead
  split_ifs
  · rfl
  · rfl
  · split
    · rfl
    · exact foldl_landRead_length file region _

end Device

section Lane

def directIoAlignment : Nat := 4096

def nextMultiple (n k : Nat) : Nat := (n + (k - 1)) / k * k

theorem nextMultiple_mod (n k : Nat) : nextMultiple n k % k = 0 := Nat.mul_mod_left _ _

/-- Page-aligned slots in one region. -/
structure AlignedBufferPool where
  numSlots : Nat
  slotSize : Nat
  region : List U8
  aligned : slotSize % directIoAlignment = 0
  size : region.length = numSlots * slotSize

/-- The allocation itself is taken to succeed. -/
def AlignedBufferPool.tryNew (numSlots slotSize : Nat) : Except GatherError AlignedBufferPool :=
  if numSlots = 0 ∨ slotSize = 0 then
    .error (.failed none "AlignedBufferPool requires non-zero num_slots and slot_size")
  else if (checkedAdd slotSize (directIoAlignment - 1)).isNone then
    .error (.failed none s!"slot size overflow: {slotSize} + {directIoAlignment - 1}")
  else
    let alignedSlotSize := nextMultiple slotSize directIoAlignment
    match checkedMul numSlots alignedSlotSize with
    | none =>
        .error (.failed none
          s!"AlignedBufferPool size overflow: {numSlots} slots * {slotSize} bytes")
    | some totalSize =>
        if (checkedAdd totalSize (directIoAlignment - 1)).isNone then
          .error (.failed none s!"buffer size overflow: {totalSize} + {directIoAlignment - 1}")
        else
          .ok ⟨numSlots, alignedSlotSize, List.replicate (numSlots * alignedSlotSize) 0,
            nextMultiple_mod slotSize directIoAlignment, List.length_replicate⟩

/-- A ring's reusable landing buffers; the scratch is whole `f32` lanes. -/
structure UringLane where
  scratch : List U8
  pool : Option AlignedBufferPool

namespace UringLane

/-- The scratch, grown to hold `len` bytes. -/
def growScratch (lane : UringLane) (len : Nat) : UringLane :=
  { lane with
    scratch := lane.scratch ++
      List.replicate (nextMultiple len 4 - lane.scratch.length) 0 }

/-- The pool, rebuilt when the geometry outgrows it. -/
def directPool (lane : UringLane) (numSlots slotSize : Nat) : Except GatherError UringLane :=
  match lane.pool with
  | some pool =>
      if pool.numSlots < numSlots ∨ pool.slotSize < slotSize then
        (AlignedBufferPool.tryNew numSlots slotSize).map fun pool => { lane with pool := some pool }
      else .ok lane
  | none =>
      (AlignedBufferPool.tryNew numSlots slotSize).map fun pool => { lane with pool := some pool }

/-- The landing buffer of `landingBytes`, packed rows in the pool or the scratch. -/
def landing (lane : UringLane) (directIo : Bool) (landingBytes featureSize : Nat) :
    Except GatherError UringLane :=
  if directIo then
    lane.directPool
      ((landingBytes + (nextMultiple featureSize directIoAlignment - 1)) /
        nextMultiple featureSize directIoAlignment) featureSize
  else .ok (lane.growScratch landingBytes)

def region (lane : UringLane) (directIo : Bool) : List U8 :=
  if directIo then lane.pool.elim [] AlignedBufferPool.region else lane.scratch

/-- The lane after reads into its landing buffer. -/
def land (lane : UringLane) (directIo : Bool) (bytes : List U8)
    (same : bytes.length = (lane.region directIo).length) : UringLane :=
  match directIo, lane with
  | true, ⟨scratch, some pool⟩ =>
      ⟨scratch, some { pool with region := bytes, size := same.trans pool.size }⟩
  | true, ⟨scratch, none⟩ => ⟨scratch, none⟩
  | false, ⟨_, pool⟩ => ⟨bytes, pool⟩

end UringLane

end Lane

section Gather

/-- `xs[start..start + len]`; a range past the end is a panic. -/
def sliceExact (xs : List U8) (start len : Nat) : Option (List U8) :=
  if start + len ≤ xs.length then some ((xs.drop start).take len) else none

/-- A row's bytes viewed as `f32`; a broken lane is a panic. -/
def castF32 (row : List U8) : Option (List U32) :=
  if row.length % 4 = 0 then
    some ((chunksExact 4 row).map fun piece => BitVec.ofNat 32 (ofLe piece))
  else none

/-- How a file's rows become elements: the machine's `f16` path and its conversions. -/
structure RowDecoder where
  half : HalfToFloat
  path : F16Path

namespace RowLayout

variable (layout : RowLayout) (decoder : RowDecoder)

def read (run : RowRun) : Read :=
  ⟨layout.rowOffset run.first, run.at_ * layout.featureSize, run.rows * layout.featureSize⟩

/-- The scratch, landed in request order, decoded as one run. -/
def decodeScratch (scratch : List U8) (landingBytes totalElems : Nat) : Option (List U32) :=
  match layout.dtype with
  | .f32 => (sliceExact scratch 0 (totalElems * 4)).bind castF32
  | dtype =>
      (sliceExact scratch 0 landingBytes).bind fun src =>
        decodeRow decoder.half decoder.path dtype src totalElems

/-- The landed rows scattered to the requests.  `chunks_exact_mut` panics at width zero. -/
def scatterRows (landed : List U8) (slotOf : List Nat) : Option (List U32) :=
  match layout.dtype with
  | .f32 =>
      (slotOf.mapM fun slot =>
        (sliceExact landed (slot * layout.featureSize) layout.featureSize).bind castF32).map
        List.flatten
  | dtype =>
      if layout.featureDim = 0 then none
      else
        (slotOf.mapM fun slot =>
          (sliceExact landed (slot * layout.featureSize) layout.featureSize).bind fun row =>
            decodeRow decoder.half decoder.path dtype row layout.featureDim).map List.flatten

/-- What the gather makes of the landed bytes. -/
def decodeLanding (lane : UringLane) (directIo : Bool) (plan : LandingPlan)
    (landingBytes nodes : Nat) : Option (List U32) :=
  if !directIo && plan.isIdentity then
    layout.decodeScratch decoder lane.scratch landingBytes (nodes * layout.featureDim)
  else
    (sliceExact (lane.region directIo) 0 landingBytes).bind fun landed =>
      layout.scatterRows decoder landed plan.slotOf

/-- The gather through a ring lane, and the lane after it. -/
def uringGatherRows {file : List U8} (device : Device file) (lane : UringLane) (nodes : List U32)
    (directIo : Bool) : Except GatherError (List U32) × UringLane :=
  if nodes = [] then (.ok [], lane)
  else match LandingPlan.new nodes layout.featureSize with
    | none => (.error .panic, lane)
    | some plan =>
        match checkedMul plan.rows layout.featureSize with
        | none =>
            (.error (.failed none
              s!"buffer size overflow: {plan.rows} rows * {layout.featureSize} bytes"), lane)
        | some landingBytes =>
            match lane.landing directIo landingBytes layout.featureSize with
            | .error e => (.error e, lane)
            | .ok lane =>
                let reads := plan.runs.map layout.read
                let batch := batchRead device (lane.region directIo) reads
                let lane := lane.land directIo batch.2 (batchRead_length ..)
                match batch.1 with
                | .error e => (.error e, lane)
                | .ok () =>
                    ((layout.decodeLanding decoder lane directIo plan landingBytes
                      nodes.length).elim (.error .panic) .ok, lane)

/-- `read_exact_at` through the buffered descriptor; an empty buffer asks nothing. -/
def readExactAt {file : List U8} (device : Device file) (len offset : Nat) :
    Except GatherError (List U8) :=
  if len = 0 then .ok []
  else match device.pread offset len with
    | some (errno, text) => .error (.failed errno text)
    | none =>
        (sliceExact file offset len).elim (.error (.failed none "failed to fill whole buffer")) .ok

/-- One row through the landing buffer. -/
def readRow {file : List U8} (device : Device file) (node : U32) :
    Except GatherError (List U32) := do
  let buffer ← readExactAt device layout.featureSize (layout.rowOffset node.toNat)
  (decodeRow decoder.half decoder.path layout.dtype buffer layout.featureDim).elim
    (.error .panic) .ok

/-- The fallback, row by row. -/
def batchReadSync {file : List U8} (device : Device file) (nodes : List U32) :
    Except GatherError (List U32) :=
  (nodes.mapM (layout.readRow decoder device)).map List.flatten

end RowLayout

end Gather

section Hints

def hintMergeGapBytes : Nat := 4096

/-- The hints issued so far, newest first, and the open run. -/
structure Hints where
  issued : List (Nat × Nat)
  run : Option (Nat × Nat)

namespace Hints

/-- The file range of an open run, as `(offset, len)`. -/
def range (run : Nat × Nat) : Nat × Nat := (run.1, (run.2 + 2 ^ 64 - run.1) % 2 ^ 64)

def row (s : Hints) (start stop : Nat) : Hints :=
  match s.run with
  | some (first, last) =>
      if start ≤ (last + hintMergeGapBytes) % 2 ^ 64 then { s with run := some (first, stop) }
      else ⟨range (first, last) :: s.issued, some (start, stop)⟩
  | none => { s with run := some (start, stop) }

def finish (s : Hints) : List (Nat × Nat) :=
  ((s.run.elim [] fun run => [range run]) ++ s.issued).reverse

end Hints

end Hints

section Store

/-- The prefetch thread's store; `direct` is whether it has an O_DIRECT descriptor. -/
structure SyncFeatureStore where
  numNodes : Nat
  featureDim : Nat
  featuresStartOffset : Nat
  dtype : FeatureDtype
  direct : Bool
  uring : Option UringLane

namespace SyncFeatureStore

/-- The store over an accepted header. -/
def load (header : FeatureHeader) (direct : Bool) (uring : Option UringLane) : SyncFeatureStore :=
  ⟨header.numNodes, header.featureDim, header.featuresStartOffset, header.dtype, direct, uring⟩

variable (store : SyncFeatureStore)

def rowBytes : Nat := store.featureDim * store.dtype.elementSize

def layout : RowLayout :=
  ⟨store.featuresStartOffset, store.rowBytes, store.dtype, store.featureDim⟩

def readsBypassCache : Bool := store.uring.isSome && store.direct

/-- The readahead hints for the rows of `nodes`. -/
def prefetchNodes (nodes : List U32) : List (Nat × Nat) :=
  if store.readsBypassCache then []
  else
    let hintRows := ((nodes.map BitVec.toNat).mergeSort fun a b => decide (a ≤ b)).destutter (· ≠ ·)
    (hintRows.foldl (fun (s : Hints) node =>
      let start := store.layout.rowOffset node
      s.row start ((start + store.rowBytes) % 2 ^ 64)) ⟨[], none⟩).finish

def eopnotsupp : Nat := 95

def einval : Nat := 22

/-- The errors by which the kernel declines the ring for a file. -/
def isRingUnsupported : GatherError → Bool
  | .failed (some errno) _ => errno = eopnotsupp || errno = einval
  | _ => false

/-- The first node out of bounds is the error. -/
def checkBounds (nodes : List U32) : Except GatherError Unit :=
  match nodes.find? fun node => decide (store.numNodes ≤ node.toNat) with
  | some node => .error (.failed none s!"node {node.toNat} out of bounds (max {store.numNodes})")
  | none => .ok ()

/-- The buffered path; its hints change no result. -/
def fallback {file : List U8} (device : Device file) (decoder : RowDecoder) (nodes : List U32) :
    Except GatherError (List U32) :=
  store.layout.batchReadSync decoder device nodes

/-- A batch, and the store after it: a lane the kernel declines is dropped. -/
def getBatch {file : List U8} (device : Device file) (decoder : RowDecoder) (nodes : List U32) :
    Except GatherError (List U32) × SyncFeatureStore :=
  match store.checkBounds nodes with
  | .error e => (.error e, store)
  | .ok () =>
      match store.uring with
      | none => (store.fallback device decoder nodes, store)
      | some lane =>
          match store.layout.uringGatherRows decoder device lane nodes store.direct with
          | (.ok features, lane) => (.ok features, { store with uring := some lane })
          | (.error e, lane) =>
              if isRingUnsupported e then
                (store.fallback device decoder nodes, { store with uring := none })
              else (.error e, { store with uring := some lane })

end SyncFeatureStore

end Store

end AetherGraph
