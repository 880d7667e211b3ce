import AetherGraph.Foundation.RowFill
import AetherGraph.PinSafety
import AetherGraph.RegionBuild

/-! Full-graph compaction: every tree is rebuilt balanced into a fresh arena, by threads that
each own a range of the vertices and a region of the slots. -/

namespace AetherGraph

open Foundation

inductive CompactError where
  | poisoned
  | arenaFull
  | pinned
  deriving DecidableEq, Repr

/-- The rows appended one after the other, with the running length after each. -/
def csrOf (row : Nat → Option (List Nat)) (vs : List Nat) : Option (List Nat × List Nat) :=
  vs.foldlM (fun (csr : List Nat × List Nat) v =>
    (row v).map fun row => (csr.1 ++ [(csr.2 ++ row).length], csr.2 ++ row)) ([0], [])

def DynamicGraph.snapshotCsr (g : DynamicGraph) : Option (List Nat × List Nat) :=
  csrOf g.neighborsInto (List.range g.numVertices)

/-- `available` is what `available_parallelism` answers, 1 where it cannot. -/
def compactThreads (edges available : Nat) : Nat :=
  if edges < 2 ^ 20 then 1 else max 1 (min available 16)

/-- The vertex bounds of the threads' ranges. -/
def rangeBounds (offsets : List Nat) (edges nv threads : Nat) : List Nat :=
  (List.range' 1 (threads - 1)).foldl (fun bounds t =>
    let target := edges * t / threads
    let v := min (offsets.takeWhile fun o => decide (o < target)).length nv
    bounds ++ [max (bounds.getLastD 0) v]) [0] ++ [nv]

/-- Slots the vertices of one range need, chunks and interiors. -/
def rangeCost (offsets : List Nat) (lo hi : Nat) : Nat × Nat :=
  (List.range' lo (hi - lo)).foldl (fun (cost : Nat × Nat) v =>
    let deg := compactSlotCost (offsets.getD (v + 1) 0 - offsets.getD v 0)
    (cost.1 + deg.1, cost.2 + deg.2)) (0, 0)

/-- One thread's loop over its vertices: the roots it stores, and its region at the end. -/
def buildVertices (offsets edges : List Nat) : List Nat → RegionWriter →
    Option (List Nat × RegionWriter)
  | [], region => some ([], region)
  | v :: vs, region =>
      let start := offsets.getD v 0
      let stop := offsets.getD (v + 1) 0
      if start = stop then
        (buildVertices offsets edges vs region).map fun out => (null :: out.1, out.2)
      else
        match buildBalancedRegion region ((edges.drop start).take (stop - start)) with
        | none => none
        | some (root, region) =>
            (buildVertices offsets edges vs region).map fun out => (root :: out.1, out.2)

/-- What one thread is handed: its vertices, its bases and the slots reserved for it. -/
structure CompactRange where
  vertices : List Nat
  chunkBase : Nat
  interiorBase : Nat
  cost : Nat × Nat
  deriving DecidableEq, Repr

/-- The ranges between the bounds, each with the bases the ones before it leave. -/
def compactRanges (offsets : List Nat) (chunkBase interiorBase : Nat) :
    List Nat → List CompactRange
  | lo :: hi :: bounds =>
      let cost := rangeCost offsets lo hi
      ⟨List.range' lo (hi - lo), chunkBase, interiorBase, cost⟩ ::
        compactRanges offsets (chunkBase + cost.1) (interiorBase + cost.2) (hi :: bounds)
  | _ => []

def CompactRange.build (offsets edges : List Nat) (range : CompactRange) :
    Option (List Nat × RegionWriter) :=
  buildVertices offsets edges range.vertices
    (Arena.region range.chunkBase range.cost.1 range.interiorBase range.cost.2)

def Arena.commitRegions (a : Arena) (chunkSlots interiorSlots : Nat) : Arena :=
  { a with low := chunkSlots * chunkSlot, high := a.capacity - interiorSlots * interiorSlot }

/-- Full-copy snapshot of the current roots, its epoch pinned. -/
def DynamicGraph.fullSnapshot (g : DynamicGraph) (epoch : Nat) : Snapshot × DynamicGraph :=
  (⟨epoch, g.numVertices, g.numEdges, .fromRoots g.roots⟩, g.pin epoch)

/-- The rebuilt arena and roots go live; the old snapshot dies with the old arena. -/
def DynamicGraph.replaceArena (g : DynamicGraph) (arena : Arena) (roots : List Nat) :
    DynamicGraph :=
  let g := { g with arena := arena, roots := roots }
  let (snap, g) := g.fullSnapshot g.epoch
  { g with latest := snap }

/-- `order` is the order in which the threads' writes reach the arena; `none` is a panic. -/
def DynamicGraph.compactWithCapacity (g : DynamicGraph) (newCapacity available : Nat)
    (order : List SlotWrite → List SlotWrite) : Option (Except CompactError DynamicGraph) :=
  if g.poisoned then some (.error .poisoned)
  else if 1 < g.arena.pins.pinCount then some (.error .pinned)
  else
    match g.snapshotCsr with
    | none => none
    | some (offsets, edges) =>
        let bounds := rangeBounds offsets edges.length g.numVertices
          (compactThreads edges.length available)
        let ranges := compactRanges offsets 0 0 bounds
        let totalChunks := (ranges.map fun range => range.cost.1).sum
        let totalInteriors := (ranges.map fun range => range.cost.2).sum
        if newCapacity < totalChunks * chunkSlot + totalInteriors * interiorSlot then
          some (.error .arenaFull)
        else
          match Arena.new newCapacity with
          | none => none
          | some arena =>
              (ranges.mapM (CompactRange.build offsets edges)).map fun built =>
                .ok (g.replaceArena
                  ((arena.storeAll (order (built.flatMap fun out => out.2.written))).commitRegions
                    totalChunks totalInteriors)
                  (built.flatMap Prod.fst))

def DynamicGraph.compact (g : DynamicGraph) (available : Nat)
    (order : List SlotWrite → List SlotWrite) : Option (Except CompactError DynamicGraph) :=
  g.compactWithCapacity g.arena.capacity available order

end AetherGraph
