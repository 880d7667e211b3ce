import AetherGraph.Dirty
import AetherGraph.RootTable
import AetherGraph.Wal

/-! Dynamic graph: a root per vertex, the arena behind them, and the latest committed
snapshot.  Mutexes and shared pointers leave no trace here; dropping a snapshot is an
operation of its own because it releases a pin. -/

namespace AetherGraph

/-- An immutable view of the graph as of one commit. -/
structure Snapshot where
  epoch : Nat
  numVertices : Nat
  numEdges : Nat
  table : RootTable

structure DynamicGraph where
  roots : List Nat
  arena : Arena
  numVertices : Nat
  numEdges : Nat
  dirty : DirtyBitmap
  writerLocked : Bool
  poisoned : Bool
  epoch : Nat
  latest : Snapshot
  wal : Option WalWriter

namespace Snapshot

def rootOf (s : Snapshot) (v : Nat) : Nat := if s.numVertices ≤ v then null else s.table.get v

def degree (s : Snapshot) (g : DynamicGraph) (v : Nat) : Nat :=
  (CTree.mk (s.rootOf v)).count g.arena

def neighborsInto (s : Snapshot) (g : DynamicGraph) (v : Nat) : Option (List Nat) :=
  (CTree.mk (s.rootOf v)).collect g.arena

def hasEdge (s : Snapshot) (g : DynamicGraph) (src dst : Nat) : Option Bool :=
  (CTree.mk (s.rootOf src)).contains g.arena dst

end Snapshot

namespace DynamicGraph

def u32Max : Nat := 2 ^ 32 - 1

/-- `none` is one of the assertion failures on the two sizes. -/
def newWithEpoch (numVertices arenaBytes epoch : Nat) : Option DynamicGraph :=
  if u32Max < numVertices then none
  else
    (Arena.new arenaBytes).map fun arena =>
      { roots := List.replicate numVertices null
        arena := { arena with pins := arena.pins.register epoch }
        numVertices := numVertices
        numEdges := 0
        dirty := .new numVertices
        writerLocked := false
        poisoned := false
        epoch := epoch
        latest := ⟨epoch, numVertices, 0, .empty numVertices⟩
        wal := none }

def new (numVertices arenaBytes : Nat) : Option DynamicGraph :=
  newWithEpoch numVertices arenaBytes 0

def treeFor (g : DynamicGraph) (v : Nat) : CTree := ⟨g.roots.getD v null⟩

def degree (g : DynamicGraph) (v : Nat) : Nat := (g.treeFor v).count g.arena

def neighborsInto (g : DynamicGraph) (v : Nat) : Option (List Nat) :=
  (g.treeFor v).collect g.arena

def hasEdge (g : DynamicGraph) (src dst : Nat) : Option Bool :=
  (g.treeFor src).contains g.arena dst

def pin (g : DynamicGraph) (epoch : Nat) : DynamicGraph :=
  { g with arena := { g.arena with pins := g.arena.pins.register epoch } }

/-- `none` is the panic on an epoch that is not pinned. -/
def unpin (g : DynamicGraph) (epoch : Nat) : Option DynamicGraph :=
  (g.arena.pins.release epoch).map fun pins => { g with arena := { g.arena with pins := pins } }

/-- Clone the latest snapshot, pinning its epoch once more. -/
def acquire (g : DynamicGraph) : Snapshot × DynamicGraph := (g.latest, g.pin g.latest.epoch)

def buildTable (g : DynamicGraph) (touched : List Nat) : RootTable :=
  g.latest.table.withLeaves (Foundation.sortDedup touched) g.roots

/-- Advance the epoch and, with a table, swap in the commit's snapshot: the new pin is
registered before the old one is released. -/
def publishCommit (g : DynamicGraph) (table : Option RootTable) : Option (Nat × DynamicGraph) :=
  let epoch := g.epoch + 1
  let g := { g with epoch := epoch }
  match table with
  | none => some (epoch, g)
  | some table =>
      let prev := g.latest
      let next : Snapshot := ⟨epoch, g.numVertices, g.numEdges, table⟩
      (({ g with latest := next }.pin epoch).unpin prev.epoch).map fun g => (epoch, g)

end DynamicGraph

end AetherGraph
