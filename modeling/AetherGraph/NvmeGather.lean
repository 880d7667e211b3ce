import AetherGraph.NvmeBatch
import AetherGraph.GatherFaithful
import AetherGraph.Foundation.RangeRuns
import Mathlib.Data.List.Sort
import Mathlib.Data.List.TakeWhile

/-! The passthrough gather: a file's extents placed on the namespace and searched, and a batch of
rows read through them into the lane's pool. -/

namespace AetherGraph

open Foundation

section Extents

/-- A piece of a file and where it lies. -/
structure Extent where
  logical : Nat
  physical : Nat
  length : Nat
  deriving DecidableEq, Repr

/-- The slice functions of the standard library, as far as they are specified: the order of equal
keys after an unstable sort is not, nor is a partition point of a slice without one. -/
structure ExtentOps where
  sortByLogical : List Extent → List Extent
  sort_perm : ∀ xs, (sortByLogical xs).Perm xs
  sort_ordered : ∀ xs, (sortByLogical xs).Pairwise fun a b => a.logical ≤ b.logical
  partitionPoint : (Extent → Bool) → List Extent → Nat
  partitionPoint_eq : ∀ (p : Extent → Bool) (xs ys : List Extent), (∀ x ∈ xs, p x = true) →
    (∀ y ∈ ys, p y = false) → partitionPoint p (xs ++ ys) = xs.length

structure ExtentMap where
  extents : List Extent
  deriving DecidableEq, Repr

namespace ExtentMap

/-- An extent inside the partition, shifted to the namespace. -/
def shift (partitionStart partitionLen : Nat) (e : Extent) : Except Failure Extent := do
  let stop ← okOr "extent end overflows" (checkedAdd e.physical e.length)
  ensure (stop ≤ partitionLen) (s!"extent at logical {e.logical} ends at device byte {stop}, " ++
    s!"past the {partitionLen}-byte block device")
  pure { e with physical := (e.physical + partitionStart) % 2 ^ 64 }

/-- The check of adjacent extents. -/
def checkOrder : List Extent → Except Failure Unit
  | a :: b :: rest => do
      ensure ((a.logical + a.length) % 2 ^ 64 ≤ b.logical)
        s!"FIEMAP reported overlapping extents at logical {b.logical}"
      checkOrder (b :: rest)
  | _ => pure ()

def place (ops : ExtentOps) (extents : List Extent) (partitionStart partitionLen : Nat) :
    Except Failure ExtentMap := do
  let shifted ← extents.mapM (shift partitionStart partitionLen)
  let sorted := ops.sortByLogical shifted
  checkOrder sorted
  pure ⟨sorted⟩

/-- The namespace offset behind a range of the file, unless it crosses an extent's edge. -/
def resolve (ops : ExtentOps) (map : ExtentMap) (logical len : Nat) : Option Nat := do
  let stop ← checkedAdd logical len
  let i := ops.partitionPoint (fun e => decide ((e.logical + e.length) % 2 ^ 64 ≤ logical))
    map.extents
  let e ← map.extents[i]?
  if e.logical ≤ logical ∧ stop ≤ (e.logical + e.length) % 2 ^ 64 then
    some ((e.physical + (logical - e.logical)) % 2 ^ 64)
  else none

/-- What placing has established of the map. -/
structure Placed (extents : List Extent) (partitionStart partitionLen : Nat) (map : ExtentMap) :
    Prop where
  perm : map.extents.Perm (extents.map fun e =>
    { e with physical := (e.physical + partitionStart) % 2 ^ 64 })
  apart : map.extents.Pairwise fun a b => a.logical + a.length ≤ b.logical
  inside : ∀ e ∈ extents, e.physical + e.length ≤ partitionLen

theorem checkOrder_ok {xs : List Extent} (checked : checkOrder xs = .ok ())
    (narrow : ∀ e ∈ xs, e.logical + e.length < 2 ^ 64)
    (ordered : xs.Pairwise fun a b => a.logical ≤ b.logical) :
    xs.Pairwise fun a b => a.logical + a.length ≤ b.logical := by
  induction xs with
  | nil => exact .nil
  | cons a rest ih =>
      obtain ⟨least, ordered⟩ := List.pairwise_cons.mp ordered
      obtain ⟨small, narrow⟩ := List.forall_mem_cons.mp narrow
      cases rest with
      | nil => exact List.pairwise_singleton _ a
      | cons b rest =>
          obtain ⟨apart, checked⟩ := ByteReader.ensure_bind_ok checked
          rw [Nat.mod_eq_of_lt small] at apart
          refine List.pairwise_cons.mpr ⟨fun c mem => ?_, ih checked narrow ordered⟩
          rcases List.mem_cons.mp mem with rfl | later
          · exact apart
          · exact Nat.le_trans apart ((List.pairwise_cons.mp ordered).1 c later)

theorem shift_ok {partitionStart partitionLen : Nat} {e e' : Extent}
    (shifted : shift partitionStart partitionLen e = .ok e') :
    e' = { e with physical := (e.physical + partitionStart) % 2 ^ 64 } ∧
      e.physical + e.length ≤ partitionLen := by
  obtain ⟨stop, summed, shifted⟩ := okOr_bind_ok shifted
  obtain ⟨inside, shifted⟩ := ByteReader.ensure_bind_ok shifted
  obtain ⟨same, -⟩ := checkedAdd_some summed
  exact ⟨(Except.ok.inj shifted).symm, same ▸ inside⟩

theorem place_ok {ops : ExtentOps} {extents : List Extent} {partitionStart partitionLen : Nat}
    {map : ExtentMap} (placed : place ops extents partitionStart partitionLen = .ok map)
    (narrow : ∀ e ∈ extents, e.logical + e.length < 2 ^ 64) :
    Placed extents partitionStart partitionLen map := by
  cases ran : extents.mapM (shift partitionStart partitionLen) with
  | error e =>
      rw [place, ran] at placed
      cases placed
  | ok shifted =>
      rw [place, ran] at placed
      cases checked : checkOrder (ops.sortByLogical shifted) with
      | error e =>
          change (checkOrder (ops.sortByLogical shifted) >>= _) = _ at placed
          rw [checked] at placed
          cases placed
      | ok =>
          change (checkOrder (ops.sortByLogical shifted) >>= _) = _ at placed
          rw [checked] at placed
          obtain rfl := Except.ok.inj placed
          have each := mapM_each ran
          have moved : shifted = extents.map fun e =>
              { e with physical := (e.physical + partitionStart) % 2 ^ 64 } := by
            clear ran checked placed narrow
            induction each with
            | nil => rfl
            | cons here _ ih => rw [List.map_cons, ← ih, (shift_ok here).1]
          have perm := ops.sort_perm shifted
          refine ⟨moved ▸ perm, checkOrder_ok checked (fun e mem => ?_) (ops.sort_ordered shifted),
            fun e mem => ?_⟩
          · have old := perm.mem_iff.mp mem
            rw [moved] at old
            obtain ⟨e', held, rfl⟩ := List.mem_map.mp old
            exact narrow e' held
          · obtain ⟨e', shifted⟩ := mapM_every ran e mem
            exact (shift_ok shifted).2

/-- The range of a file at `logical` lies in an extent, and this is its place on the namespace. -/
def Backs (extents : List Extent) (partitionStart logical len off : Nat) : Prop :=
  ∃ e ∈ extents, e.logical ≤ logical ∧ logical + len ≤ e.logical + e.length ∧
    off = partitionStart + (e.physical + (logical - e.logical))

variable {ops : ExtentOps} {extents : List Extent} {partitionStart partitionLen : Nat}
variable {map : ExtentMap} {logical len off : Nat}

theorem Placed.small (placed : Placed extents partitionStart partitionLen map)
    (narrow : ∀ e ∈ extents, e.logical + e.length < 2 ^ 64) :
    ∀ e ∈ map.extents, (e.logical + e.length) % 2 ^ 64 = e.logical + e.length := by
  intro e mem
  obtain ⟨e', held, rfl⟩ := List.mem_map.mp (placed.perm.mem_iff.mp mem)
  exact Nat.mod_eq_of_lt (narrow e' held)

/-- The search finds the only extent that can hold the start of a range. -/
theorem Placed.search (placed : Placed extents partitionStart partitionLen map)
    (narrow : ∀ e ∈ extents, e.logical + e.length < 2 ^ 64) (ops : ExtentOps) (logical : Nat)
    {e : Extent} :
    map.extents[ops.partitionPoint
        (fun e => decide ((e.logical + e.length) % 2 ^ 64 ≤ logical)) map.extents]? = some e ∧
        e.logical ≤ logical ↔
      e ∈ map.extents ∧ e.logical ≤ logical ∧ logical < e.logical + e.length := by
  have small := placed.small narrow
  obtain ⟨front, back, split, early, late⟩ :=
    partitioned_at placed.apart (fun e _ => Nat.le_add_right e.logical e.length) logical
  have point : ops.partitionPoint
      (fun e => decide ((e.logical + e.length) % 2 ^ 64 ≤ logical)) map.extents =
        front.length := by
    rw [split] at small
    rw [split]
    refine ops.partitionPoint_eq _ front back (fun e mem => ?_) fun e mem => ?_
    · rw [small e (List.mem_append_left _ mem), decide_eq_true_eq]
      exact early e mem
    · rw [small e (List.mem_append_right _ mem), decide_eq_false_iff_not, Nat.not_le]
      exact late e mem
  rw [point]
  exact holds_iff_first placed.apart split early late

theorem resolve_iff (placed : Placed extents partitionStart partitionLen map)
    (narrow : ∀ e ∈ extents, e.logical + e.length < 2 ^ 64)
    (fits : partitionStart + partitionLen < 2 ^ 64) (positive : 0 < len) :
    map.resolve ops logical len = some off ↔ Backs extents partitionStart logical len off := by
  have small := placed.small narrow
  have here : ∀ e ∈ extents, e.logical ≤ logical → logical + len ≤ e.logical + e.length →
      ((e.physical + partitionStart) % 2 ^ 64 + (logical - e.logical)) % 2 ^ 64 =
        partitionStart + (e.physical + (logical - e.logical)) := by
    intro e mem low high
    have := placed.inside e mem
    omega
  constructor
  · intro found
    obtain ⟨stop, summed, found⟩ := Option.bind_eq_some_iff.mp found
    obtain ⟨rfl, -⟩ := checkedAdd_some summed
    obtain ⟨e, at_, found⟩ := Option.bind_eq_some_iff.mp found
    split_ifs at found with inside
    obtain ⟨mem, low, -⟩ := (placed.search narrow ops logical).mp ⟨at_, inside.1⟩
    have high := inside.2
    rw [small e mem] at high
    obtain ⟨e', held, rfl⟩ := List.mem_map.mp (placed.perm.mem_iff.mp mem)
    exact ⟨e', held, low, high, (Option.some.inj found).symm.trans (here e' held low high)⟩
  · rintro ⟨e, held, low, high, rfl⟩
    have mem := placed.perm.mem_iff.mpr (List.mem_map_of_mem held)
    have at_ := ((placed.search narrow ops logical).mpr ⟨mem, low, by dsimp only; omega⟩).1
    have bounded := narrow e held
    unfold resolve checkedAdd
    rw [if_pos (by omega)]
    show (map.extents[_]? >>= _) = _
    rw [at_]
    refine (if_pos ⟨low, ?_⟩).trans (congrArg some (here e held low high))
    dsimp only
    rwa [Nat.mod_eq_of_lt bounded]

theorem resolve_lt (found : map.resolve ops logical len = some off) : off < 2 ^ 64 := by
  obtain ⟨stop, -, found⟩ := Option.bind_eq_some_iff.mp found
  obtain ⟨e, -, found⟩ := Option.bind_eq_some_iff.mp found
  split_ifs at found
  rw [← Option.some.inj found]
  exact Nat.mod_lt _ (by decide)

/-- A range behind an extent is inside the partition. -/
theorem Placed.within (placed : Placed extents partitionStart partitionLen map)
    (backs : Backs extents partitionStart logical len off) :
    partitionStart ≤ off ∧ off + len ≤ partitionStart + partitionLen := by
  obtain ⟨e, mem, low, high, rfl⟩ := backs
  have := placed.inside e mem
  omega

end ExtentMap

end Extents

section Gather

namespace AlignedBufferPool

variable (pool : AlignedBufferPool)

/-- A slot's place in the region; an index past the last is a panic. -/
def slotPtr (i : Nat) : Option Nat := if i < pool.numSlots then some (i * pool.slotSize) else none

def slotSlice (i len : Nat) : Option (List U8) :=
  if i < pool.numSlots ∧ len ≤ pool.slotSize then
    sliceExact pool.region (i * pool.slotSize) len
  else none

/-- The pool after its memory has been written. -/
def land (bytes : List U8) (size : bytes.length = pool.region.length) : AlignedBufferPool :=
  { pool with region := bytes, size := size.trans pool.size }

end AlignedBufferPool

/-- The passthrough backend of a store. -/
structure NvmeGather where
  target : NamespaceTarget
  extents : ExtentMap
  disabled : Bool

namespace NvmeGather

variable (ops : ExtentOps) (g : NvmeGather) (layout : RowLayout) (decoder : RowDecoder)
variable {ns : Nat → U8}

/-- Every row resolved and given its slot; one that does not resolve ends the search. -/
def requests (pool : AlignedBufferPool) :
    List (U32 × Nat) → Except GatherError (Option (List NvmeReq))
  | [] => .ok (some [])
  | (node, i) :: rest =>
      match g.extents.resolve ops (layout.rowOffset node.toNat) layout.featureSize with
      | none => .ok none
      | some deviceOff =>
          match pool.slotPtr i with
          | none => .error .panic
          | some ptr =>
              (requests pool rest).map (Option.map
                (⟨deviceOff, ptr, layout.featureSize % 2 ^ 32⟩ :: ·))

/-- The pool's slots decoded one after another.  `chunks_exact_mut` panics at width zero. -/
def decodePool (pool : AlignedBufferPool) (count : Nat) : Option (List U32) :=
  match layout.dtype with
  | .f32 =>
      ((List.range count).mapM fun i =>
        (pool.slotSlice i (layout.featureDim * 4)).bind castF32).map List.flatten
  | dtype =>
      if layout.featureDim = 0 then none
      else
        ((List.range count).mapM fun i =>
          (pool.slotSlice i layout.featureSize).bind fun row =>
            decodeRow decoder.half decoder.path dtype row layout.featureDim).map List.flatten

/-- What a batch of the lane's reader came to, and the region it leaves: those of some run. -/
structure BatchRead (target : NamespaceTarget) (ns : Nat → U8) (reqs : List NvmeReq)
    (region : List U8) where
  result : Except NvmeError Unit
  bytes : List U8
  size : bytes.length = region.length
  ran : ∃ s, ReadState.Reachable target ns reqs region s ∧ s.pc = .returned result ∧
    s.region = bytes

/-- A lane's reader.  A batch whose drain keeps failing takes the process down. -/
abbrev Reader (target : NamespaceTarget) (ns : Nat → U8) : Type :=
  (region : List U8) → (reqs : List NvmeReq) → Option (BatchRead target ns reqs region)

/-- The batch, and the decoding of what it landed.  Any failure turns the backend off. -/
def readRows (lane : UringLane) (pool : AlignedBufferPool) (read : Reader g.target ns)
    (reqs : List NvmeReq) (count : Nat) :
    Except GatherError (Option (List U32)) × UringLane × NvmeGather :=
  match read pool.region reqs with
  | none => (.error .panic, lane, g)
  | some batch =>
      let lane : UringLane := { lane with pool := some (pool.land batch.bytes batch.size) }
      match batch.result with
      | .error _ => (.ok none, lane, { g with disabled := true })
      | .ok () =>
          match lane.directPool count layout.featureSize with
          | .error e => (.error e, lane, g)
          | .ok lane =>
              match lane.pool with
              | none => (.error .panic, lane, g)
              | some pool =>
                  ((decodePool layout decoder pool count).elim (.error .panic) fun rows =>
                    .ok (some rows), lane, g)

/-- `Ok(None)` leaves the batch to the ring.  `opens` is whether the lane has a reader. -/
def gather (lane : UringLane) (opens : Bool) (read : Reader g.target ns) (nodes : List U32) :
    Except GatherError (Option (List U32)) × UringLane × NvmeGather :=
  if g.disabled ∨ nodes = [] then (.ok none, lane, g)
  else if layout.featuresStartOffset % g.target.lbaBytes ≠ 0 ∨
      layout.featureSize % g.target.lbaBytes ≠ 0 ∨ g.target.maxTransfer < layout.featureSize then
    (.ok none, lane, g)
  else
    match lane.directPool nodes.length layout.featureSize with
    | .error e => (.error e, lane, g)
    | .ok lane =>
        match lane.pool with
        | none => (.error .panic, lane, g)
        | some pool =>
            match g.requests ops layout pool nodes.zipIdx with
            | .error e => (.error e, lane, g)
            | .ok none => (.ok none, lane, g)
            | .ok (some reqs) =>
                if opens then g.readRows layout decoder lane pool read reqs nodes.length
                else (.ok none, lane, { g with disabled := true })

variable {ops g layout decoder}

section Pool

variable {lane lane' : UringLane} {pool : AlignedBufferPool} {count size : Nat}

theorem tryNew_fits (made : AlignedBufferPool.tryNew count size = .ok pool) :
    count ≤ pool.numSlots ∧ size ≤ pool.slotSize := by
  unfold AlignedBufferPool.tryNew at made
  split_ifs at made with empty wraps
  dsimp only at made
  cases sized : checkedMul count (nextMultiple size directIoAlignment) with
  | none =>
      rw [sized] at made
      cases made
  | some total =>
      rw [sized] at made
      dsimp only at made
      split_ifs at made
      obtain rfl := Except.ok.inj made
      exact ⟨Nat.le_refl _, le_nextMultiple (by decide)⟩

theorem directPool_fits (made : lane.directPool count size = .ok lane')
    (held : lane'.pool = some pool) : count ≤ pool.numSlots ∧ size ≤ pool.slotSize := by
  have fresh : (AlignedBufferPool.tryNew count size).map
      (fun pool => { lane with pool := some pool }) = .ok lane' →
        count ≤ pool.numSlots ∧ size ≤ pool.slotSize := by
    intro made
    cases new : AlignedBufferPool.tryNew count size with
    | error e =>
        rw [new] at made
        cases made
    | ok made' =>
        rw [new] at made
        obtain rfl := Except.ok.inj made
        obtain rfl := Option.some.inj held
        exact tryNew_fits new
  unfold UringLane.directPool at made
  cases old : lane.pool with
  | none =>
      rw [old] at made
      exact fresh made
  | some pool' =>
      rw [old] at made
      dsimp only at made
      split_ifs at made with outgrown
      · exact fresh made
      · obtain rfl := Except.ok.inj made
        obtain rfl := Option.some.inj (old.symm.trans held)
        omega

/-- A pool that fits is used again. -/
theorem directPool_again (held : lane.pool = some pool)
    (fits : count ≤ pool.numSlots ∧ size ≤ pool.slotSize) :
    lane.directPool count size = .ok lane := by
  unfold UringLane.directPool
  rw [held]
  exact if_neg (by omega)

end Pool

/-- What the request at a place of the batch asks for. -/
structure Asks (ops : ExtentOps) (g : NvmeGather) (layout : RowLayout) (pool : AlignedBufferPool)
    (entry : U32 × Nat) (r : NvmeReq) : Prop where
  resolved : g.extents.resolve ops (layout.rowOffset entry.1.toNat) layout.featureSize =
    some r.deviceOff
  slot : entry.2 < pool.numSlots
  buf : r.buf = entry.2 * pool.slotSize
  len : r.len = layout.featureSize % 2 ^ 32

theorem requests_ok {pool : AlignedBufferPool} {entries : List (U32 × Nat)} {reqs : List NvmeReq}
    (asked : g.requests ops layout pool entries = .ok (some reqs)) :
    List.Forall₂ (Asks ops g layout pool) entries reqs := by
  induction entries generalizing reqs with
  | nil =>
      obtain rfl := Option.some.inj (Except.ok.inj asked)
      exact .nil
  | cons entry rest ih =>
      obtain ⟨node, i⟩ := entry
      unfold requests at asked
      cases resolved : g.extents.resolve ops (layout.rowOffset node.toNat) layout.featureSize with
      | none =>
          rw [resolved] at asked
          cases asked
      | some deviceOff =>
          rw [resolved] at asked
          dsimp only at asked
          unfold AlignedBufferPool.slotPtr at asked
          split_ifs at asked with inside
          dsimp only at asked
          cases more : g.requests ops layout pool rest with
          | error e =>
              rw [more] at asked
              cases asked
          | ok later =>
              rw [more] at asked
              cases later with
              | none => cases asked
              | some later =>
                  obtain rfl := Option.some.inj (Except.ok.inj asked)
                  exact .cons ⟨resolved, inside, rfl, rfl⟩ (ih more)

/-- The extents as the kernel reports them: each holds the file's bytes of its range. -/
def FileOn (ns : Nat → U8) (file : List U8) (extents : List Extent) (partitionStart : Nat) : Prop :=
  ∀ e ∈ extents, ∀ k < e.length, ∀ b, file[e.logical + k]? = some b →
    ns (partitionStart + (e.physical + k)) = b

section Rows

variable {file : List U8} {extents : List Extent} {partitionStart : Nat}

/-- A range behind an extent holds the file's bytes. -/
theorem FileOn.bytes (on : FileOn ns file extents partitionStart) {logical len off : Nat}
    (backs : ExtentMap.Backs extents partitionStart logical len off)
    (inside : logical + len ≤ file.length) :
    (List.range len).map (fun k => ns (off + k)) = (file.drop logical).take len := by
  obtain ⟨e, mem, low, high, rfl⟩ := backs
  refine List.ext_getElem? fun k => ?_
  rcases Nat.lt_or_ge k len with within | past
  · have held : logical + k < file.length := by omega
    have byte := on e mem (logical - e.logical + k) (by omega) (file[logical + k]) (by
      rw [show e.logical + (logical - e.logical + k) = logical + k by omega]
      exact List.getElem?_eq_getElem held)
    rw [List.getElem?_map, List.getElem?_range within, List.getElem?_take_of_lt within,
      List.getElem?_drop, List.getElem?_eq_getElem held, ← byte, Option.map_some]
    exact congrArg (fun i => some (ns i)) (by omega)
  · rw [List.getElem?_eq_none, List.getElem?_eq_none]
    · exact Nat.le_trans (List.length_take_le _ _) past
    · rwa [List.length_map, List.length_range]

end Rows

section Decode

variable {pool : AlignedBufferPool} {count : Nat} {row : Nat → List U8}

/-- Slots that hold whole rows decode to the rows' elements. -/
theorem decodePool_rows (size : layout.featureSize = layout.featureDim * layout.dtype.elementSize)
    (slots : ∀ i < count, pool.slotSlice i layout.featureSize = some (row i))
    (length : ∀ i < count, (row i).length = layout.featureSize) {rows : List U32}
    (decoded : decodePool layout decoder pool count = some rows) :
    rows = (List.range count).flatMap fun i => decodeAll decoder.half layout.dtype (row i) := by
  have each : ∀ i ∈ List.range count,
      ((pool.slotSlice i layout.featureSize).bind fun row =>
        decodeRow decoder.half decoder.path layout.dtype row layout.featureDim) =
      some (decodeAll decoder.half layout.dtype (row i)) := fun i mem => by
    have inside := List.mem_range.mp mem
    rw [slots i inside]
    exact decodeRow_eq decoder.half decoder.path ((length i inside).trans size)
  unfold decodePool at decoded
  rw [List.flatMap_def]
  cases dtype : layout.dtype with
  | f32 =>
      rw [dtype] at decoded size
      dsimp only at decoded
      rw [mapM_some (g := fun i => decodeAll decoder.half .f32 (row i)) fun i mem => by
        have inside := List.mem_range.mp mem
        have width : layout.featureDim * 4 = layout.featureSize := size.symm
        rw [width, slots i inside]
        exact castF32_ok decoder.half ((length i inside).trans size)] at decoded
      exact (Option.some.inj decoded).symm
  | f16 =>
      rw [dtype] at decoded each
      dsimp only at decoded
      split_ifs at decoded
      rw [mapM_some each] at decoded
      exact (Option.some.inj decoded).symm
  | bf16 =>
      rw [dtype] at decoded each
      dsimp only at decoded
      split_ifs at decoded
      rw [mapM_some each] at decoded
      exact (Option.some.inj decoded).symm

end Decode

section Faithful

variable {file : List U8} {h : FeatureHeader} {pool : AlignedBufferPool}
variable {nodes : List U32} {reqs : List NvmeReq}

/-- The request at a place of the batch is its node's, in the slot of the same place. -/
theorem requests_at (asked : g.requests ops layout pool nodes.zipIdx = .ok (some reqs)) :
    reqs.length = nodes.length ∧ ∀ (j : Nat) (r : NvmeReq), reqs[j]? = some r →
      ∃ node, nodes[j]? = some node ∧ Asks ops g layout pool (node, j) r := by
  have each := requests_ok asked
  have length := each.length_eq
  rw [List.length_zipIdx] at length
  refine ⟨length.symm, fun j r at_ => ?_⟩
  obtain ⟨inside, value⟩ := List.getElem?_eq_some_iff.mp at_
  have within : j < nodes.length := by omega
  have here := (List.forall₂_iff_get.mp each).2 j (by rw [List.length_zipIdx]; exact within) inside
  rw [List.get_eq_getElem, List.get_eq_getElem, List.getElem_zipIdx, value, Nat.zero_add] at here
  exact ⟨nodes[j], List.getElem?_eq_getElem within, here⟩

theorem requests_apart (asked : g.requests ops layout pool nodes.zipIdx = .ok (some reqs))
    (small : layout.featureSize < 2 ^ 32) (fits : layout.featureSize ≤ pool.slotSize) :
    ReadState.BuffersApart reqs pool.region.length where
  inside r mem := by
    obtain ⟨j, at_⟩ := List.mem_iff_getElem?.mp mem
    obtain ⟨node, -, asks⟩ := (requests_at asked).2 j r at_
    refine ⟨?_, ExtentMap.resolve_lt asks.resolved⟩
    have slot := Nat.mul_le_mul_right pool.slotSize (show j + 1 ≤ pool.numSlots from asks.slot)
    rw [Nat.succ_mul] at slot
    rw [asks.buf, asks.len, Nat.mod_eq_of_lt small, pool.size]
    dsimp only
    omega
  apart i j a b differ atA atB := by
    obtain ⟨_, -, asksA⟩ := (requests_at asked).2 i a atA
    obtain ⟨_, -, asksB⟩ := (requests_at asked).2 j b atB
    rw [asksA.buf, asksA.len, asksB.buf, asksB.len, Nat.mod_eq_of_lt small]
    dsimp only
    rcases Nat.lt_or_gt_of_ne differ with before | after
    · left
      have slot := Nat.mul_le_mul_right pool.slotSize (show i + 1 ≤ j from before)
      rw [Nat.succ_mul] at slot
      omega
    · right
      have slot := Nat.mul_le_mul_right pool.slotSize (show j + 1 ≤ i from after)
      rw [Nat.succ_mul] at slot
      omega

/-- A slot of a batch that succeeded holds its node's row. -/
theorem slot_row (checked : h.Checked file.length) {extents : List Extent}
    (placed : ExtentMap.place ops extents g.target.partitionStart g.target.partitionLen =
      .ok g.extents)
    (narrow : ∀ e ∈ extents, e.logical + e.length < 2 ^ 64)
    (on : FileOn ns file extents g.target.partitionStart)
    (inside : ∀ node ∈ nodes, node.toNat < h.numNodes)
    (small : h.layout.featureSize < 2 ^ 32) (fits : h.layout.featureSize ≤ pool.slotSize)
    (asked : g.requests ops h.layout pool nodes.zipIdx = .ok (some reqs)) {s : ReadState}
    (reached : ReadState.Reachable g.target ns reqs pool.region s)
    (ended : s.pc = .returned (.ok ())) {j : Nat} {node : U32} (at_ : nodes[j]? = some node) :
    j < pool.numSlots ∧
      (s.region.drop (j * pool.slotSize)).take h.layout.featureSize =
        fileRow h.layout file node.toNat := by
  obtain ⟨count, each⟩ := requests_at asked
  obtain ⟨within, -⟩ := List.getElem?_eq_some_iff.mp at_
  have request := List.getElem?_eq_getElem (show j < reqs.length by omega)
  obtain ⟨node', same, asks⟩ := each j _ request
  obtain rfl := Option.some.inj (at_.symm.trans same)
  have read := reached.read (requests_apart asked small fits) ended request
  obtain ⟨offset, stop, -⟩ := checked.row (inside node (List.mem_of_getElem? at_))
  have size : h.layout.featureSize = h.featureSize := checked.featureSize.symm
  have payload := checked.inside
  refine ⟨asks.slot, ?_⟩
  rw [asks.buf, asks.len, Nat.mod_eq_of_lt small] at read
  dsimp only at read
  have place : h.layout.featuresStartOffset + node.toNat * h.layout.featureSize =
      h.layout.rowOffset node.toNat := by
    rw [offset, size]
    rfl
  rw [read, fileRow, place]
  rcases Nat.eq_zero_or_pos h.layout.featureSize with empty | positive
  · rw [empty, List.take_zero]
    rfl
  · have backs := (ExtentMap.resolve_iff (ExtentMap.place_ok placed narrow) narrow
      g.target.no_wrap positive).mp asks.resolved
    exact on.bytes backs (by omega)

/-- A gather with rows to show went through the reader. -/
theorem gather_some {read : Reader g.target ns} {lane : UringLane} {opens : Bool} {rows : List U32}
    (got : (g.gather ops layout decoder lane opens read nodes).1 = .ok (some rows)) :
    layout.featureSize ≤ g.target.maxTransfer ∧ ∃ lane' pool reqs,
      lane.directPool nodes.length layout.featureSize = .ok lane' ∧ lane'.pool = some pool ∧
        g.requests ops layout pool nodes.zipIdx = .ok (some reqs) ∧
        (g.readRows layout decoder lane' pool read reqs nodes.length).1 = .ok (some rows) := by
  unfold NvmeGather.gather at got
  by_cases off : g.disabled ∨ nodes = []
  · rw [if_pos off] at got
    cases got
  rw [if_neg off] at got
  by_cases refused : layout.featuresStartOffset % g.target.lbaBytes ≠ 0 ∨
      layout.featureSize % g.target.lbaBytes ≠ 0 ∨ g.target.maxTransfer < layout.featureSize
  · rw [if_pos refused] at got
    cases got
  rw [if_neg refused] at got
  refine ⟨by omega, ?_⟩
  cases made : lane.directPool nodes.length layout.featureSize with
  | error e =>
      rw [made] at got
      cases got
  | ok lane' =>
      rw [made] at got
      dsimp only at got
      cases held : lane'.pool with
      | none =>
          rw [held] at got
          cases got
      | some pool =>
          rw [held] at got
          dsimp only at got
          cases asked : g.requests ops layout pool nodes.zipIdx with
          | error e =>
              rw [asked] at got
              cases got
          | ok some_ =>
              rw [asked] at got
              cases some_ with
              | none => cases got
              | some reqs =>
                  cases opens with
                  | false => cases got
                  | true => exact ⟨lane', pool, reqs, rfl, held, asked, got⟩

/-- Rows come from a batch that succeeded, out of the slots it left. -/
theorem readRows_some {lane : UringLane} {read : Reader g.target ns}
    (fits : nodes.length ≤ pool.numSlots ∧ layout.featureSize ≤ pool.slotSize) {rows : List U32}
    (got : (g.readRows layout decoder lane pool read reqs nodes.length).1 = .ok (some rows)) :
    ∃ batch : BatchRead g.target ns reqs pool.region, batch.result = .ok () ∧
      decodePool layout decoder (pool.land batch.bytes batch.size) nodes.length = some rows := by
  unfold NvmeGather.readRows at got
  cases answer : read pool.region reqs with
  | none =>
      rw [answer] at got
      cases got
  | some batch =>
      rw [answer] at got
      dsimp only at got
      cases ended : batch.result with
      | error e =>
          rw [ended] at got
          cases got
      | ok =>
          rw [ended] at got
          dsimp only at got
          have again : UringLane.directPool
              { lane with pool := some (pool.land batch.bytes batch.size) } nodes.length
                layout.featureSize =
              .ok { lane with pool := some (pool.land batch.bytes batch.size) } :=
            directPool_again rfl fits
          rw [again] at got
          dsimp only at got
          refine ⟨batch, ended, ?_⟩
          cases decoded : decodePool layout decoder (pool.land batch.bytes batch.size)
              nodes.length with
          | none =>
              rw [decoded] at got
              cases got
          | some rows' =>
              rw [decoded] at got
              exact congrArg some (Option.some.inj (Except.ok.inj got))

/-- Rows the backend returns are the file's own. -/
theorem gather_rows (checked : h.Checked file.length) {extents : List Extent}
    (placed : ExtentMap.place ops extents g.target.partitionStart g.target.partitionLen =
      .ok g.extents)
    (narrow : ∀ e ∈ extents, e.logical + e.length < 2 ^ 64)
    (on : FileOn ns file extents g.target.partitionStart)
    (inside : ∀ node ∈ nodes, node.toNat < h.numNodes) {read : Reader g.target ns}
    {lane : UringLane} {opens : Bool} {rows : List U32}
    (got : (g.gather ops h.layout decoder lane opens read nodes).1 = .ok (some rows)) :
    rows = decodedRows h decoder.half file nodes := by
  obtain ⟨limit, lane', pool, reqs, made, held, asked, got⟩ := gather_some got
  have small := Nat.lt_of_le_of_lt limit g.target.max_lt
  have fits := directPool_fits made held
  obtain ⟨batch, ok, decoded⟩ := readRows_some fits got
  obtain ⟨s, reached, ended, region⟩ := batch.ran
  rw [ok] at ended
  have slots : ∀ (j : Nat) (node : U32), nodes[j]? = some node → j < pool.numSlots ∧
      (s.region.drop (j * pool.slotSize)).take h.layout.featureSize =
        fileRow h.layout file node.toNat := fun j node at_ =>
    slot_row checked placed narrow on inside small fits.2 asked reached ended at_
  have inRange : ∀ j < nodes.length, ∃ node, nodes[j]? = some node := fun j lt =>
    ⟨nodes[j], List.getElem?_eq_getElem lt⟩
  have sliced : ∀ j < nodes.length,
      (pool.land batch.bytes batch.size).slotSlice j h.layout.featureSize =
        some ((s.region.drop (j * pool.slotSize)).take h.layout.featureSize) := by
    intro j lt
    have slot := Nat.mul_le_mul_right pool.slotSize (show j + 1 ≤ pool.numSlots by omega)
    rw [Nat.succ_mul] at slot
    have length : s.region.length = pool.numSlots * pool.slotSize := by
      rw [region]
      exact batch.size.trans pool.size
    rw [region] at length ⊢
    exact (if_pos ⟨Nat.lt_of_lt_of_le lt fits.1, fits.2⟩).trans
      (sliceExact_ok (show j * pool.slotSize + _ ≤ batch.bytes.length by omega))
  have long : ∀ j < nodes.length,
      ((s.region.drop (j * pool.slotSize)).take h.layout.featureSize).length =
        h.layout.featureSize := by
    intro j lt
    obtain ⟨node, at_⟩ := inRange j lt
    rw [(slots j node at_).2]
    exact fileRow_length checked (inside node (List.mem_of_getElem? at_))
  rw [decodePool_rows rfl sliced long decoded, decodedRows, List.flatMap_def, List.flatMap_def]
  refine congrArg List.flatten (List.ext_getElem? fun j => ?_)
  rw [List.getElem?_map, List.getElem?_map]
  rcases Nat.lt_or_ge j nodes.length with lt | past
  · obtain ⟨node, at_⟩ := inRange j lt
    rw [List.getElem?_range lt, at_, Option.map_some, Option.map_some, (slots j node at_).2]
    rfl
  · rw [List.getElem?_eq_none (by rwa [List.length_range]), List.getElem?_eq_none past]
    rfl

end Faithful

end NvmeGather

variable {extents : List Extent} {partitionStart partitionLen : Nat} {map : ExtentMap}

/-- A placed extent map resolves a range exactly where one extent holds it whole, inside the
partition; rows gathered through it are those of the file; and a batch returns with no command left
behind, succeeding only where each did. -/
theorem passthrough_reads_file (ops : ExtentOps)
    (placed : ExtentMap.place ops extents partitionStart partitionLen = .ok map)
    (narrow : ∀ e ∈ extents, e.logical + e.length < 2 ^ 64)
    (fits : partitionStart + partitionLen < 2 ^ 64) :
    (∀ logical len off : Nat, 0 < len →
      (map.resolve ops logical len = some off ↔
        ExtentMap.Backs extents partitionStart logical len off) ∧
      (map.resolve ops logical len = some off →
        partitionStart ≤ off ∧ off + len ≤ partitionStart + partitionLen)) ∧
    (∀ (g : NvmeGather) (ns : Nat → U8) (filePrefix file : List U8) (h : FeatureHeader),
      g.extents = map → g.target.partitionStart = partitionStart →
      g.target.partitionLen = partitionLen →
      parseFeatureHeaderBytes filePrefix file.length = .ok h →
      NvmeGather.FileOn ns file extents partitionStart →
      ∀ nodes : List U32, (∀ node ∈ nodes, node.toNat < h.numNodes) →
      ∀ (decoder : RowDecoder) (lane : UringLane) (opens : Bool)
        (read : NvmeGather.Reader g.target ns) (rows : List U32),
        (g.gather ops h.layout decoder lane opens read nodes).1 = .ok (some rows) →
        rows = decodedRows h decoder.half file nodes ∧
        ∀ device : Device file, (∀ offset len, device.pread offset len = none) →
          h.layout.batchReadSync decoder device nodes = .ok rows) ∧
    ∀ (target : NamespaceTarget) (ns : Nat → U8) (reqs : List NvmeReq) (region : List U8)
      (s : ReadState), ReadState.Reachable target ns reqs region s →
      ∀ result : Except NvmeError Unit, s.pc = .returned result →
        s.sq = [] ∧ s.inflight = [] ∧ s.cq = [] ∧
        (s.seen.map NvmeCqe.index).Perm (List.range s.issued) ∧
        (result = .ok () → s.issued = reqs.length ∧ ∀ c ∈ s.seen, c.result = 0) := by
  have known := ExtentMap.place_ok placed narrow
  refine ⟨fun logical len off positive => ?_, ?_, ?_⟩
  · have exact_ : map.resolve ops logical len = some off ↔
        ExtentMap.Backs extents partitionStart logical len off :=
      ExtentMap.resolve_iff known narrow fits positive
    exact ⟨exact_, fun found => known.within (exact_.mp found)⟩
  · intro g ns filePrefix file h same start length parsed on nodes inside decoder lane opens read
      rows got
    subst same start length
    have checked := parse_checked parsed
    have rows_ := NvmeGather.gather_rows checked placed narrow on inside got
    exact ⟨rows_, fun device quiet => rows_ ▸ batchReadSync_eq checked quiet inside decoder⟩
  · intro target ns reqs region s reached result ended
    obtain ⟨queue, flight, ring, every, -, ok⟩ := reached.returned ended
    exact ⟨queue, flight, ring, every, ok⟩

namespace ReadState

/-- The run of a single command that the drive completes. -/
theorem reachable_single {target : NamespaceTarget} (ns : Nat → U8) {r : NvmeReq}
    {cmd : NvmePassthruCmd} (region : List U8)
    (checked : commandFor target.nsid target.lbaBytes target.maxTransfer r = .ok cmd) :
    ∃ s, Reachable target ns [r] region s ∧ s.pc = .returned (.ok ()) ∧
      s.region = writeAt region cmd.addr (cmd.data ns target.lbaBytes) := by
  have parsed : [r].mapM (commandFor target.nsid target.lbaBytes target.maxTransfer) =
      .ok [cmd] := by
    rw [List.mapM_cons, checked]
    rfl
  let landed := writeAt region cmd.addr (cmd.data ns target.lbaBytes)
  have begun : Reachable target ns [r] region
      ⟨.push 0 0, [cmd], [], [], [], [], 0, 0, none, region, 0, []⟩ := by
    have step : Reachable target ns [r] region
        ((initial region []).advance target [r] (.ok ())) :=
      (Reachable.initial []).step (.program (.ok ()))
    simpa [advance, initial, begin, parsed] using step
  have pushed : Reachable target ns [r] region
      ⟨.push 0 1, [cmd], [⟨cmd, 0, 0⟩], [], [], [], 1, 0, none, region, 1, []⟩ :=
    begun.step (.program (.ok ()))
  have full : Reachable target ns [r] region
      ⟨.drain 0 0, [cmd], [⟨cmd, 0, 0⟩], [], [], [], 1, 0, none, region, 1, []⟩ :=
    pushed.step (.program (.ok ()))
  have taken : Reachable target ns [r] region
      ⟨.drain 0 0, [cmd], [], [⟨cmd, 0, 0⟩], [], [], 1, 0, none, region, 1, []⟩ :=
    full.step (.take _ [] rfl)
  have done : Reachable target ns [r] region
      ⟨.drain 0 0, [cmd], [], [], [⟨0, 0, 0⟩], [], 1, 0, none, landed, 1, []⟩ :=
    taken.step (.complete ⟨cmd, 0, 0⟩ [] [] rfl)
  have entered : Reachable target ns [r] region
      ⟨.reap 0, [cmd], [], [], [⟨0, 0, 0⟩], [], 1, 0, none, landed, 1, []⟩ :=
    done.step (.program (.ok ()))
  have reaped : Reachable target ns [r] region
      ⟨.drain 0 0, [cmd], [], [], [], [], 1, 1, none, landed, 1, [⟨0, 0, 0⟩]⟩ :=
    entered.step (.program (.ok ()))
  have last : Reachable target ns [r] region
      ⟨.push 1 0, [cmd], [], [], [], [], 0, 1, none, landed, 1, [⟨0, 0, 0⟩]⟩ :=
    reaped.step (.program (.ok ()))
  exact ⟨_, last.step (.program (.ok ())), rfl, rfl⟩

end ReadState

/-- Insertion and a walk, for the slice functions. -/
def walkedOps : ExtentOps where
  sortByLogical := List.insertionSort fun a b => a.logical ≤ b.logical
  sort_perm := List.perm_insertionSort _
  sort_ordered xs := by
    have : Std.Total fun a b : Extent => a.logical ≤ b.logical := ⟨fun a b => Nat.le_total _ _⟩
    have : IsTrans Extent fun a b => a.logical ≤ b.logical := ⟨fun _ _ _ => Nat.le_trans⟩
    exact List.pairwise_insertionSort _ xs
  partitionPoint p xs := (xs.takeWhile p).length
  partitionPoint_eq p xs ys holds fails := by
    rw [List.takeWhile_append_of_pos holds]
    cases ys with
    | nil => simp
    | cons y ys => simp [fails y List.mem_cons_self]

/-- A file of two rows of 128 floats, its second row before its first on the device. -/
def splitRows : List U8 :=
  featureMagic ++ toLe 8 2 ++ toLe 8 128 ++ toLe 8 512 ++ [0, 0, 0, 0] ++ List.replicate 1500 1

def splitHeader : FeatureHeader := ⟨2, 128, 512, 512, 1024, .f32⟩

def splitExtents : List Extent := [⟨1024, 4096, 512⟩, ⟨0, 8192, 1024⟩]

def splitTarget : NamespaceTarget :=
  ⟨1, 512, 131072, 1048576, 16384, by decide, by decide, by decide, by decide⟩

def splitMap : ExtentMap := ⟨[⟨0, 1056768, 1024⟩, ⟨1024, 1052672, 512⟩]⟩

/-- The namespace with the file's pieces where the extents say. -/
def splitDevice (i : Nat) : U8 :=
  if i < 1056768 then splitRows.getD (i - 1052672 + 1024) 0 else splitRows.getD (i - 1056768) 0

theorem place_splitExtents :
    ExtentMap.place walkedOps splitExtents 1048576 16384 = .ok splitMap := by decide +kernel

theorem parse_splitRows :
    parseFeatureHeaderBytes splitRows splitRows.length = .ok splitHeader := by decide +kernel

theorem fileOn_splitDevice : NvmeGather.FileOn splitDevice splitRows splitExtents 1048576 := by
  intro e mem k within b held
  unfold splitDevice
  rw [List.getD_eq_getElem?_getD, List.getD_eq_getElem?_getD]
  rcases List.mem_cons.mp mem with rfl | mem
  · dsimp only at within held ⊢
    rw [if_pos (by omega), show 1048576 + (4096 + k) - 1052672 + 1024 = 1024 + k by omega, held]
    rfl
  · obtain rfl := List.mem_singleton.mp mem
    dsimp only at within held ⊢
    rw [if_neg (by omega), show 1048576 + (8192 + k) - 1056768 = 0 + k by omega, held]
    rfl

/-- The command behind the second row. -/
def splitCmd : NvmePassthruCmd := .read 1 2056 0 0 512

theorem commandFor_second :
    commandFor splitTarget.nsid splitTarget.lbaBytes splitTarget.maxTransfer ⟨1052672, 0, 512⟩ =
      .ok splitCmd := by decide +kernel

theorem length_splitCmd : (splitCmd.data splitDevice splitTarget.lbaBytes).length = 512 := by
  rw [NvmePassthruCmd.data, List.length_map, List.length_range]
  decide

/-- A reader for the batch of the second row. -/
def splitReader : NvmeGather.Reader splitTarget splitDevice := fun region reqs =>
  if h : reqs = [⟨1052672, 0, 512⟩] ∧ 512 ≤ region.length then
    some
      { result := .ok ()
        bytes := writeAt region splitCmd.addr (splitCmd.data splitDevice splitTarget.lbaBytes)
        size := writeAt_length (by
          rw [length_splitCmd]
          exact h.2)
        ran := by
          obtain ⟨rfl, -⟩ := h
          exact ReadState.reachable_single splitDevice region commandFor_second }
  else none

def splitGather : NvmeGather := ⟨splitTarget, splitMap, false⟩

def splitPool : AlignedBufferPool := ⟨1, 4096, List.replicate 4096 0, rfl, List.length_replicate⟩

def splitLane : UringLane := ⟨[], some splitPool⟩

theorem requests_second :
    splitGather.requests walkedOps splitHeader.layout splitPool [(1, 0)] =
      .ok (some [⟨1052672, 0, 512⟩]) := by
  have found : splitGather.extents.resolve walkedOps
      (splitHeader.layout.rowOffset (1 : U32).toNat) splitHeader.layout.featureSize =
        some 1052672 :=
    (ExtentMap.resolve_iff (ExtentMap.place_ok place_splitExtents (by decide)) (by decide)
      (by decide) (by decide)).mpr
      ⟨⟨1024, 4096, 512⟩, by decide, by decide, by decide, by decide⟩
  rw [NvmeGather.requests, found]
  rfl

theorem gather_second :
    ∃ rows, (splitGather.gather walkedOps splitHeader.layout halfDecoder splitLane true splitReader
      [1]).1 = .ok (some rows) := by
  obtain ⟨batch, answer, ended⟩ : ∃ batch, splitReader splitPool.region [⟨1052672, 0, 512⟩] =
      some batch ∧ batch.result = .ok () :=
    ⟨_, dif_pos ⟨rfl, by rw [splitPool, List.length_replicate]; decide⟩, rfl⟩
  obtain ⟨rows, decoded⟩ : ∃ rows, NvmeGather.decodePool splitHeader.layout halfDecoder
      (splitPool.land batch.bytes batch.size) 1 = some rows := by
    have room : 0 + 512 ≤ batch.bytes.length := by
      rw [batch.size, splitPool, List.length_replicate]
      decide
    refine ⟨_, (congrArg (Option.map List.flatten)
      (mapM_some (g := fun _ => decodeAll halfDecoder.half .f32 ((batch.bytes.drop 0).take 512))
        fun i mem => ?_)).trans rfl⟩
    obtain rfl : i = 0 := by simpa using mem
    have slice : (splitPool.land batch.bytes batch.size).slotSlice 0 512 =
        some ((batch.bytes.drop 0).take 512) :=
      (if_pos ⟨Nat.zero_lt_one, show 512 ≤ 4096 by decide⟩).trans (sliceExact_ok room)
    show ((splitPool.land batch.bytes batch.size).slotSlice 0 512).bind castF32 = _
    rw [slice]
    refine castF32_ok halfDecoder.half (show _ = 128 * 4 from ?_)
    rw [List.length_take, List.drop_zero]
    omega
  refine ⟨rows, ?_⟩
  unfold NvmeGather.gather
  rw [if_neg (by decide), if_neg (by decide)]
  rw [show splitLane.directPool [(1 : U32)].length splitHeader.layout.featureSize =
    .ok splitLane from rfl]
  dsimp only [splitLane]
  rw [show [(1 : U32)].zipIdx = [(1, 0)] from rfl, requests_second]
  refine (congrArg Prod.fst (if_pos rfl)).trans ?_
  unfold NvmeGather.readRows
  rw [answer]
  dsimp only
  rw [ended]
  show ((NvmeGather.decodePool splitHeader.layout halfDecoder
    (splitPool.land batch.bytes batch.size) 1).elim _ _ : Except GatherError _) = _
  rw [decoded]
  rfl

theorem passthrough_reads_splitRows :
    ∃ rows, (splitGather.gather walkedOps splitHeader.layout halfDecoder splitLane true splitReader
        [1]).1 = .ok (some rows) ∧
      rows = decodedRows splitHeader halfDecoder.half splitRows [1] := by
  obtain ⟨-, reads, -⟩ := passthrough_reads_file walkedOps place_splitExtents
    (by decide) (by decide)
  obtain ⟨rows, got⟩ := gather_second
  exact ⟨rows, got, (reads splitGather splitDevice splitRows splitRows splitHeader rfl rfl rfl
    parse_splitRows fileOn_splitDevice [1] (by simp [splitHeader]) halfDecoder splitLane true
    splitReader rows got).1⟩

end Gather

end AetherGraph
