import AetherGraph.SieveSweep
import AetherGraph.Foundation.LinkedQueue
import Mathlib.Algebra.GroupWithZero.Nat

/-! A memory tier of the feature cache as it is stored: rows in a block slab with a free list,
queue links indexed by slab row, a map from nodes to rows, and the hand. -/

namespace AetherGraph

open Foundation

/-- `SLAB_BLOCK_ROWS`. -/
def slabBlockRows : Nat := 4096

structure RowSlab (α : Type) where
  blocks : List (List α)
  dim : Nat
  rows : Nat
  free : List Nat
  deriving DecidableEq, Repr

namespace RowSlab

variable {α : Type}

def new (dim : Nat) : RowSlab α := ⟨[], dim, 0, []⟩

def alloc [OfNat α 0] (s : RowSlab α) : Nat × RowSlab α :=
  match s.free.getLast? with
  | some r => (r, { s with free := s.free.dropLast })
  | none => (s.rows, { s with
      blocks := if s.rows % slabBlockRows = 0 then
          s.blocks ++ [List.replicate (slabBlockRows * s.dim) 0]
        else s.blocks
      rows := (s.rows + 1) % 2 ^ 32 })

def release (s : RowSlab α) (r : Nat) : RowSlab α := { s with free := s.free ++ [r] }

def row (s : RowSlab α) (r : Nat) : Option (List α) := do
  let block ← s.blocks[r / slabBlockRows]?
  let start := r % slabBlockRows * s.dim
  if start + s.dim ≤ block.length then some ((block.drop start).take s.dim) else none

/-- `row_mut(r).copy_from_slice(features)`. -/
def copyRow (s : RowSlab α) (r : Nat) (features : List α) : Option (RowSlab α) := do
  let block ← s.blocks[r / slabBlockRows]?
  let start := r % slabBlockRows * s.dim
  if start + s.dim ≤ block.length ∧ features.length = s.dim then
    let written := block.take start ++ features ++ block.drop (start + s.dim)
    some { s with blocks := s.blocks.set (r / slabBlockRows) written }
  else none

end RowSlab

/-- One cached row's place in the queue. -/
structure Link where
  node : Nat
  visited : Bool
  prev : Nat
  next : Nat
  deriving DecidableEq, Repr

/-- `NIL`: no entry. -/
def noEntry : Nat := 2 ^ 32 - 1

def Link.vacant : Link := ⟨0, false, noEntry, noEntry⟩

/-- The stored form of a tier: an index out of bounds panics, and the operations return none. -/
structure LinkedSieve (α : Type) where
  capacity : Nat
  cache : List (Nat × Nat)
  slab : RowSlab α
  links : List Link
  head : Nat
  tail : Nat
  hand : Nat
  warmupFreq : List (Nat × Nat)
  pinned : List Nat
  deriving DecidableEq, Repr

namespace LinkedSieve

open SieveCache (InsertOutcome)

variable {α : Type}

def new (capacity dim : Nat) (warmupFreq : List (Nat × Nat)) : LinkedSieve α where
  capacity := capacity
  cache := []
  slab := .new dim
  links := []
  head := noEntry
  tail := noEntry
  hand := noEntry
  warmupFreq := warmupFreq
  pinned := []

/-- Whether the warmup pass saw the node. -/
def warm (c : LinkedSieve α) (node : Nat) : Bool := (c.warmupFreq.lookup node).any (0 < ·)

def modifyLink (c : LinkedSieve α) (r : Nat) (f : Link → Link) : Option (LinkedSieve α) :=
  if r < c.links.length then some { c with links := c.links.modify r f } else none

def mapRemove (cache : List (Nat × Nat)) (node : Nat) : List (Nat × Nat) :=
  cache.filter fun entry => decide (entry.1 ≠ node)

def mapInsert (cache : List (Nat × Nat)) (node row : Nat) : List (Nat × Nat) :=
  (node, row) :: mapRemove cache node

def get (c : LinkedSieve α) (node : Nat) : Option (Option (List α) × LinkedSieve α) :=
  match c.cache.lookup node with
  | none => some (none, c)
  | some row => do
      let c ← c.modifyLink row fun link => { link with visited := true }
      let features ← c.slab.row row
      some (some features, c)

/-- Lead the older neighbour, or the tail, to `next`. -/
def setNext (c : LinkedSieve α) (prev next : Nat) : Option (LinkedSieve α) :=
  if prev ≠ noEntry then c.modifyLink prev fun l => { l with next := next }
  else some { c with tail := next }

/-- Lead the newer neighbour, or the head, to `prev`. -/
def setPrev (c : LinkedSieve α) (next prev : Nat) : Option (LinkedSieve α) :=
  if next ≠ noEntry then c.modifyLink next fun l => { l with prev := prev }
  else some { c with head := prev }

/-- Remove `r` from the queue, mending its neighbours' links. -/
def unlink (c : LinkedSieve α) (r : Nat) : Option (LinkedSieve α) := do
  let link ← c.links[r]?
  let c ← c.setNext link.prev link.next
  let c ← c.setPrev link.next link.prev
  c.modifyLink r fun l => { l with prev := noEntry, next := noEntry }

/-- Splice `r` in as the newest entry. -/
def pushHead (c : LinkedSieve α) (r : Nat) : Option (LinkedSieve α) := do
  let oldHead := c.head
  let c ← c.modifyLink r fun l => { l with prev := oldHead, next := noEntry }
  let c ← c.setNext oldHead r
  some { c with head := r }

/-- Evict the entry the hand has moved off. -/
def evictEntry (c : LinkedSieve α) (cur node : Nat) :
    Option (Option (Nat × List α) × LinkedSieve α) := do
  let c ← c.unlink cur
  let c := { c with cache := mapRemove c.cache node }
  let row ← c.slab.row cur
  some (some (node, row), { c with slab := c.slab.release cur })

/-- Advance the hand until an unvisited, unpinned entry is found and evicted. -/
def evictLoop : Nat → LinkedSieve α → Option (Option (Nat × List α) × LinkedSieve α)
  | 0, c => some (none, c)
  | budget + 1, c => do
      let c := { c with hand := if c.hand = noEntry then c.tail else c.hand }
      if c.hand = noEntry then some (none, c)
      else
        let cur := c.hand
        let link ← c.links[cur]?
        if link.node ∈ c.pinned then evictLoop budget { c with hand := link.next }
        else if link.visited then
          let c ← c.modifyLink cur fun l => { l with visited := false }
          evictLoop budget { c with hand := link.next }
        else evictEntry { c with hand := link.next } cur link.node

def evict (c : LinkedSieve α) : Option (Option (Nat × List α) × LinkedSieve α) :=
  c.evictLoop (c.cache.length * 2 + 2)

/-- Store a node that is not resident as the newest entry. -/
def place [OfNat α 0] (c : LinkedSieve α) (node : Nat) (features : List α) :
    Option (LinkedSieve α) := do
  let allocated := c.slab.alloc
  let row := allocated.1
  let slab ← allocated.2.copyRow row features
  let links := if c.links.length ≤ row then
      c.links ++ List.replicate (row + 1 - c.links.length) Link.vacant
    else c.links
  let c := { c with slab := slab, links := links }
  let c ← c.modifyLink row fun l => { l with node := node, visited := c.warm node }
  let c ← c.pushHead row
  some { c with cache := mapInsert c.cache node row }

def insert [OfNat α 0] (c : LinkedSieve α) (node : Nat) (features : List α) :
    Option (InsertOutcome (List α) × LinkedSieve α) :=
  match c.cache.lookup node with
  | some row => do
      let c ← c.modifyLink row fun l => { l with visited := true }
      let slab ← c.slab.copyRow row features
      some (.stored, { c with slab := slab })
  | none =>
      if c.capacity ≤ c.cache.length then do
        match ← c.evict with
        | (some victim, c) =>
            let c ← c.place node features
            some (.storedEvicting victim.1 victim.2, c)
        | (none, c) => some (.refused, c)
      else do
        let c ← c.place node features
        some (.stored, c)

def remove (c : LinkedSieve α) (node : Nat) : Option (Bool × LinkedSieve α) :=
  match c.cache.lookup node with
  | none => some (false, c)
  | some row => do
      let c := { c with cache := mapRemove c.cache node }
      let link ← c.links[row]?
      let c := { c with hand := if c.hand = row then link.next else c.hand }
      let c ← c.unlink row
      some (true, { c with slab := c.slab.release row })

def pin (c : LinkedSieve α) (node : Nat) : LinkedSieve α :=
  { c with pinned := if node ∈ c.pinned then c.pinned else c.pinned ++ [node] }

def unpin (c : LinkedSieve α) (node : Nat) : LinkedSieve α :=
  { c with pinned := c.pinned.filter fun n => decide (n ≠ node) }

end LinkedSieve

end AetherGraph
