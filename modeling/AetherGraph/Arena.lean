import AetherGraph.Chunk
import Mathlib.Algebra.GroupWithZero.Nat

/-! Two-region slab arena with grace-period recycling.  Chunk slots bump up from
the low end of one buffer, interior slots bump down from the high end; the two
classes are otherwise treated alike, so a per-class field of the source is one
field indexed by `SlotClass`.  Slot contents are two maps from slot index to node:
`Arena.regions_disjoint` is why the byte buffer may be split this way.  Pooled spare
batches are always empty when taken, so only what they are filled with is kept. -/

namespace AetherGraph

inductive SlotClass where
  | chunk
  | interior
  deriving DecidableEq, Repr

structure Interior where
  left : Nat
  right : Nat
  count : Nat
  splitKey : Nat
  deriving DecidableEq, Repr

def chunkSlot : Nat := 64
def interiorSlot : Nat := 16

/-- Free-list terminator inside the recycler. -/
def noSlot : Nat := 2 ^ 32 - 1
def gateStripes : Nat := 16
def retireLogCap : Nat := 4096
def coalesceSlots : Nat := 4096
def u64Max : Nat := 2 ^ 64 - 1

/-- Two-phase striped reader gate: `active stripe bucket` counts live readers. -/
structure ReadGate where
  phase : Nat
  active : Nat → Nat → Nat

namespace ReadGate

def new : ReadGate := ⟨0, fun _ _ => 0⟩

def bucketEmpty (g : ReadGate) (bucket : Nat) : Bool :=
  (List.range gateStripes).all fun s => g.active s bucket == 0

/-- One turn of the loop in `advance`; `none` is its `break`. -/
def advanceOnce (g : ReadGate) : Option ReadGate :=
  if g.bucketEmpty ((g.phase + 1) % 2) then some { g with phase := g.phase + 1 } else none

/-- Advance the phase as far as drained buckets allow, two steps at most. -/
def advance (g : ReadGate) : ReadGate :=
  match g.advanceOnce with
  | none => g
  | some g => g.advanceOnce.getD g

end ReadGate

/-- Retired slots awaiting reader grace and pin release. -/
structure PendingBatch where
  stampEpoch : Nat
  gracePhase : Nat
  slots : SlotClass → List Nat

def PendingBatch.len (b : PendingBatch) : Nat :=
  (b.slots .chunk).length + (b.slots .interior).length

/-- Epochs pinned by live snapshots: `(epoch, refcount)` ascending, and the cached
minimum, `u64::MAX` when nothing is pinned. -/
structure PinRegistry where
  pins : List (Nat × Nat)
  min : Nat
  deriving DecidableEq, Repr

namespace PinRegistry

def new : PinRegistry := ⟨[], u64Max⟩

def ofPins (pins : List (Nat × Nat)) : PinRegistry :=
  ⟨pins, (pins.head?.map Prod.fst).getD u64Max⟩

def pinsRegister (epoch : Nat) : List (Nat × Nat) → List (Nat × Nat)
  | [] => [(epoch, 1)]
  | (e, c) :: rest =>
      if e = epoch then (e, c + 1) :: rest
      else if epoch < e then (epoch, 1) :: (e, c) :: rest
      else (e, c) :: pinsRegister epoch rest

/-- `none` is the panic on an epoch that is not pinned. -/
def pinsRelease (epoch : Nat) : List (Nat × Nat) → Option (List (Nat × Nat))
  | [] => none
  | (e, c) :: rest =>
      if e = epoch then some (if c - 1 = 0 then rest else (e, c - 1) :: rest)
      else (pinsRelease epoch rest).map ((e, c) :: ·)

def register (r : PinRegistry) (epoch : Nat) : PinRegistry :=
  ofPins (pinsRegister epoch r.pins)

def release (r : PinRegistry) (epoch : Nat) : Option PinRegistry :=
  (pinsRelease epoch r.pins).map ofPins

def pinCount (r : PinRegistry) : Nat := (r.pins.map Prod.snd).sum

end PinRegistry

structure Recycler where
  pendingYoung : List PendingBatch
  pendingOld : List PendingBatch
  freeHead : SlotClass → Nat
  freeCount : SlotClass → Nat

def Recycler.new : Recycler := ⟨[], [], fun _ => noSlot, fun _ => 0⟩

/-- Fold `batch` into the newest batch of `queue` while the merge stays small; the
merged batch takes the later of both requirements. -/
def enqueue (queue : List PendingBatch) (batch : PendingBatch) (stampEpoch gracePhase : Nat) :
    List PendingBatch :=
  if batch.len = 0 then queue
  else
    match queue.getLast? with
    | some back =>
        if back.len + batch.len ≤ coalesceSlots then
          queue.dropLast ++ [⟨max back.stampEpoch stampEpoch, max back.gracePhase gracePhase,
            fun k => back.slots k ++ batch.slots k⟩]
        else queue ++ [⟨stampEpoch, gracePhase, batch.slots⟩]
    | none => queue ++ [⟨stampEpoch, gracePhase, batch.slots⟩]

/-- Superseded slots a guard has recorded but not stamped. -/
structure RetireLog where
  slots : SlotClass → List Nat

namespace RetireLog

def new : RetireLog := ⟨fun _ => []⟩

def push (log : RetireLog) (k : SlotClass) (idx : Nat) : RetireLog :=
  ⟨Function.update log.slots k (log.slots k ++ [idx])⟩

def isEmpty (log : RetireLog) : Bool :=
  (log.slots .chunk).isEmpty && (log.slots .interior).isEmpty

/-- Both classes cut back to recorded length marks. -/
def truncate (log : RetireLog) (mark : SlotClass → Nat) : RetireLog :=
  ⟨fun k => (log.slots k).take (mark k)⟩

def marks (log : RetireLog) (k : SlotClass) : Nat := (log.slots k).length

def wantsFlush (log : RetireLog) : Bool :=
  decide (retireLogCap - 128 ≤ (log.slots .chunk).length) ||
    decide (retireLogCap - 128 ≤ (log.slots .interior).length)

end RetireLog

structure Arena where
  capacity : Nat
  gate : ReadGate
  pins : PinRegistry
  low : Nat
  high : Nat
  recycler : Recycler
  chunks : Nat → Chunk
  interiors : Nat → Interior

namespace Arena

/-- 32 GiB: the interior region's slot index has bit 31 to spare. -/
def maxCapacity : Nat := 2 ^ 31 * interiorSlot

/-- `none` is one of the two assertion failures. -/
def new (capacity : Nat) : Option Arena :=
  if maxCapacity < capacity then none
  else
    let capacity := capacity - capacity % interiorSlot
    if capacity = 0 then none
    else some ⟨capacity, .new, .new, 0, capacity, .new, fun _ => .empty, fun _ => ⟨0, 0, 0, 0⟩⟩

/-- First four bytes of a slot, read as the intrusive free-list link. -/
def readLink (a : Arena) : SlotClass → Nat → Nat
  | .chunk, idx => (a.chunks idx).count + 256 * (a.chunks idx).pad
  | .interior, idx => (a.interiors idx).left

def writeLink (a : Arena) : SlotClass → Nat → Nat → Arena
  | .chunk, idx, next =>
      let freed := { a.chunks idx with count := next % 256, pad := next / 256 }
      { a with chunks := Function.update a.chunks idx freed }
  | .interior, idx, next =>
      let freed := { a.interiors idx with left := next }
      { a with interiors := Function.update a.interiors idx freed }

/-- One turn of the loops in `free_batch`. -/
def pushFree (k : SlotClass) (a : Arena) (idx : Nat) : Arena :=
  let a := a.writeLink k idx (a.recycler.freeHead k)
  { a with recycler :=
      { a.recycler with
        freeHead := Function.update a.recycler.freeHead k idx
        freeCount := Function.update a.recycler.freeCount k (a.recycler.freeCount k + 1) } }

def freeBatch (a : Arena) (b : PendingBatch) : Arena :=
  (b.slots .interior).foldl (pushFree .interior) ((b.slots .chunk).foldl (pushFree .chunk) a)

/-- Free batches from the front up to the first that is not `ready`. -/
def drain (ready : PendingBatch → Bool) : List PendingBatch → Arena → List PendingBatch × Arena
  | [], a => ([], a)
  | b :: rest, a => if ready b then drain ready rest (a.freeBatch b) else (b :: rest, a)

/-- `pop_free_chunk` and `pop_free_interior`. -/
def popFree (k : SlotClass) (a : Arena) : Option (Nat × Arena) :=
  let idx := a.recycler.freeHead k
  if idx = noSlot then none
  else some (idx, { a with recycler :=
    { a.recycler with
      freeHead := Function.update a.recycler.freeHead k (a.readLink k idx)
      freeCount := Function.update a.recycler.freeCount k (a.recycler.freeCount k - 1) } })

def bumpChunk (a : Arena) : Option (Nat × Arena) :=
  let newLow := a.low + chunkSlot
  if a.high < newLow then none else some (a.low / chunkSlot, { a with low := newLow })

def bumpInterior (a : Arena) : Option (Nat × Arena) :=
  if a.high < a.low + interiorSlot then none
  else
    let newHigh := a.high - interiorSlot
    let idx := (a.capacity - newHigh) / interiorSlot - 1
    -- index 2 ^ 31 - 1, tagged, would be the `NULL` sentinel
    if 2 ^ 31 - 1 ≤ idx then none else some (idx, { a with high := newHigh })

def bump : SlotClass → Arena → Option (Nat × Arena)
  | .chunk => bumpChunk
  | .interior => bumpInterior

/-- Later of two front requirements, where `none` asks for nothing. -/
def laterNeed : Option Nat → Option Nat → Option Nat
  | some x, some y => some (max x y)
  | some x, none => some x
  | none, need => need

def reclaimReady (a : Arena) : Arena :=
  let minPinned := a.pins.min
  let youngNeed := a.recycler.pendingYoung.head?.map PendingBatch.gracePhase
  let oldNeed := (a.recycler.pendingOld.head?.filter
    fun b => decide (b.stampEpoch ≤ minPinned)).map PendingBatch.gracePhase
  match laterNeed youngNeed oldNeed with
  | none => a
  | some needed =>
      let gate := if a.gate.phase < needed then a.gate.advance else a.gate
      let (young, a) := drain (fun b => decide (b.gracePhase ≤ gate.phase))
        a.recycler.pendingYoung { a with gate := gate }
      let (old, a) := drain
        (fun b => decide (b.gracePhase ≤ gate.phase) && decide (b.stampEpoch ≤ minPinned))
        a.recycler.pendingOld a
      { a with recycler := { a.recycler with pendingYoung := young, pendingOld := old } }

/-- Slots of a class ever handed out by its bump cursor. -/
def bumped (a : Arena) : SlotClass → Nat
  | .chunk => a.low / chunkSlot
  | .interior => (a.capacity - a.high) / interiorSlot

def interiorByte (a : Arena) (idx : Nat) : Nat := a.capacity - (idx + 1) * interiorSlot

end Arena

/-- The arena's write handle with the bump cursors at guard start. -/
structure ArenaWriter where
  arena : Arena
  youngStart : SlotClass → Nat

def Arena.writer (a : Arena) : ArenaWriter := ⟨a, a.bumped⟩

namespace ArenaWriter

/-- Free list, then bump, then reclaim and retry. -/
def alloc (k : SlotClass) (w : ArenaWriter) : Option Nat × ArenaWriter :=
  match w.arena.popFree k with
  | some (idx, a) => (some idx, { w with arena := a })
  | none =>
      match w.arena.bump k with
      | some (idx, a) => (some idx, { w with arena := a })
      | none =>
          let a := w.arena.reclaimReady
          match a.popFree k with
          | some (idx, a) => (some idx, { w with arena := a })
          | none => (none, { w with arena := a })

def allocChunk : ArenaWriter → Option Nat × ArenaWriter := alloc .chunk

def allocInterior : ArenaWriter → Option Nat × ArenaWriter := alloc .interior

def allocWriteChunk (w : ArenaWriter) (val : Chunk) : Option Nat × ArenaWriter :=
  match w.allocChunk with
  | (none, w) => (none, w)
  | (some idx, w) => (some idx,
      { w with arena := { w.arena with chunks := Function.update w.arena.chunks idx val } })

def allocWriteInterior (w : ArenaWriter) (val : Interior) : Option Nat × ArenaWriter :=
  match w.allocInterior with
  | (none, w) => (none, w)
  | (some idx, w) => (some idx,
      { w with arena := { w.arena with interiors := Function.update w.arena.interiors idx val } })

/-- Stamp the log, split it by guard-start cursor, queue both halves, and free every
ready batch.  The log comes back empty. -/
def retire (w : ArenaWriter) (log : RetireLog) (stampEpoch : Nat) : ArenaWriter × RetireLog :=
  if log.isEmpty then (w, log)
  else
    let gracePhase := w.arena.gate.phase + 2
    let young : PendingBatch :=
      ⟨0, 0, fun k => (log.slots k).filter fun idx => decide (w.youngStart k ≤ idx)⟩
    let old : PendingBatch :=
      ⟨0, 0, fun k => (log.slots k).filter fun idx => !decide (w.youngStart k ≤ idx)⟩
    let recycler := { w.arena.recycler with
      pendingYoung := enqueue w.arena.recycler.pendingYoung young stampEpoch gracePhase
      pendingOld := enqueue w.arena.recycler.pendingOld old stampEpoch gracePhase }
    ({ w with arena := ({ w.arena with recycler := recycler } : Arena).reclaimReady }, .new)

def reclaim (w : ArenaWriter) : ArenaWriter := { w with arena := w.arena.reclaimReady }

end ArenaWriter

end AetherGraph
