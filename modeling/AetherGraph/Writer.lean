import AetherGraph.Graph

/-! The single-writer guard: edge inserts, log appends, retirement and commit.  The
guard's buffers are fields; a call that panics hands back the guard as it was left,
for `drop` to run on. -/

namespace AetherGraph

open Foundation

def dirtyBufFlushThreshold : Nat := 8192
def touchedLeavesDedupStart : Nat := 1024

inductive WriterError where
  | busy
  | poisoned
  deriving DecidableEq, Repr

inductive InsertError where
  | arenaFull
  | vertexOutOfRange (src dst : Nat)
  | walAppend
  deriving DecidableEq, Repr

structure Writer where
  graph : DynamicGraph
  youngStart : SlotClass → Nat
  retireStamp : Nat
  dirty : List Nat
  touchedLeaves : List Nat
  retireLog : RetireLog
  pendingEdges : Nat
  touchedDedupLimit : Nat
  walFailed : Bool

/-- How a call on the guard ends. -/
inductive Call (α : Type) where
  | panic (w : Writer)
  | done (result : Except InsertError α) (w : Writer)

def DynamicGraph.writer (g : DynamicGraph) : Except WriterError Writer :=
  if g.poisoned then .error .poisoned
  else if g.writerLocked then .error .busy
  else .ok
    { graph := { g with writerLocked := true }
      youngStart := g.arena.bumped
      retireStamp := g.epoch + 1
      dirty := []
      touchedLeaves := []
      retireLog := .new
      pendingEdges := 0
      touchedDedupLimit := touchedLeavesDedupStart
      walFailed := false }

/-- Fewer slots written by a path copy an edge than by a rebuild of the merged list? -/
def preferPathCopy (degree k : Nat) : Bool :=
  let depth := Nat.log2 (max ((degree + (chunkCap - 1)) / chunkCap) 1) + 2
  decide (k * depth < 2 * ((degree + k + (chunkCap - 1)) / chunkCap))

/-- The merge loop: the merged list and the destinations that were new. -/
def mergeSorted : List Nat → List Nat → List Nat × List Nat
  | existing, [] => (existing, [])
  | [], d :: dsts => (d :: dsts, d :: dsts)
  | x :: existing, d :: dsts =>
      if x < d then
        let (merged, new) := mergeSorted existing (d :: dsts)
        (x :: merged, new)
      else if d < x then
        let (merged, new) := mergeSorted (x :: existing) dsts
        (d :: merged, d :: new)
      else
        let (merged, new) := mergeSorted existing dsts
        (x :: merged, new)
  termination_by existing dsts => existing.length + dsts.length

/-- The barrier of a clean drop, trivial without a log. -/
def syncLog : Option WalWriter → Bool × Option WalWriter
  | none => (true, none)
  | some wal => (wal.sync.1, some wal.sync.2)

namespace Writer

def aw (w : Writer) : ArenaWriter := ⟨w.graph.arena, w.youngStart⟩

def withArena (w : Writer) (aw : ArenaWriter) : Writer :=
  { w with graph := { w.graph with arena := aw.arena } }

def withLog (w : Writer) (aw : ArenaWriter) (log : RetireLog) : Writer :=
  { w.withArena aw with retireLog := log }

/-- Stamp what the log holds at the guard's pre-commit stamp. -/
def stampRetired (w : Writer) : Writer :=
  let (aw, log) := w.aw.retire w.retireLog w.retireStamp
  w.withLog aw log

def maybeStampRetired (w : Writer) : Writer :=
  if w.retireLog.wantsFlush then w.stampRetired else w

/-- `check_wal`. -/
def walRefuses (w : Writer) : Bool := w.walFailed

/-- Log the batch for `src`, all or nothing. -/
def appendBatch (w : Writer) (src : Nat) (dsts : List Nat) : Bool × Writer :=
  match w.graph.wal with
  | none => (true, w)
  | some wal =>
      let (ok, wal) := wal.appendEdges src dsts
      (ok, { w with graph := { w.graph with wal := some wal }, walFailed := w.walFailed || !ok })

def noteRootStore (w : Writer) (src : Nat) : Writer :=
  let leaf := src / leafLen
  if w.touchedLeaves.getLast? = some leaf then w
  else
    let touched := w.touchedLeaves ++ [leaf]
    if w.touchedDedupLimit ≤ touched.length then
      let touched := sortDedup touched
      { w with touchedLeaves := touched
               touchedDedupLimit := max (touched.length * 2) touchedLeavesDedupStart }
    else { w with touchedLeaves := touched }

def flushDirty (w : Writer) : Writer :=
  if w.dirty.isEmpty then w
  else
    { w with graph := { w.graph with dirty := w.graph.dirty.markSorted (sortDedup w.dirty) }
             dirty := [] }

def noteDirty (w : Writer) (v : Nat) : Writer :=
  let w := if w.dirty.length = dirtyBufFlushThreshold then w.flushDirty else w
  { w with dirty := w.dirty ++ [v] }

def storeRoot (w : Writer) (src root : Nat) : Writer :=
  { w with graph := { w.graph with roots := w.graph.roots.set src root } }

/-- Publish `tree` for `src` and account for its new destinations. -/
def publishBatch (w : Writer) (src : Nat) (tree : CTree) (newDsts : List Nat) : Writer :=
  let w := (w.storeRoot src tree.root).noteRootStore src
  let w := { w with pendingEdges := w.pendingEdges + newDsts.length }
  (newDsts.foldl noteDirty w).noteDirty src

/-- The bookkeeping of one published edge: source first, then destination. -/
def publishEdge (w : Writer) (src dst : Nat) (tree : CTree) : Writer :=
  let w := (w.storeRoot src tree.root).noteRootStore src
  let w := { w with pendingEdges := w.pendingEdges + 1 }
  (w.noteDirty src).noteDirty dst

def insertEdgeInner (w : Writer) (src dst : Nat) : Call Bool :=
  let mark := w.retireLog.marks
  match (w.graph.treeFor src).insertWithScratch w.aw dst w.retireLog with
  | .error (aw, log) => .panic (w.withLog aw log)
  | .ok (.inserted newTree, aw, log) =>
      match (w.withLog aw log).appendBatch src [dst] with
      | (false, w) =>
          -- the old tree stays live, so its nodes leave the log again
          .done (.error .walAppend) { w with retireLog := w.retireLog.truncate mark }
      | (true, w) => .done (.ok true) (w.publishEdge src dst newTree).maybeStampRetired
  | .ok (.duplicate, aw, log) => .done (.ok false) (w.withLog aw log)
  | .ok (.arenaFull, aw, log) => .done (.error .arenaFull) (w.withLog aw log)

/-- On a full arena: stamp what earlier stores superseded, and retry once. -/
def insertEdge (w : Writer) (src dst : Nat) : Call Bool :=
  if w.graph.numVertices ≤ src ∨ w.graph.numVertices ≤ dst then
    .done (.error (.vertexOutOfRange src dst)) w
  else if w.walRefuses then .done (.error .walAppend) w
  else
    match w.insertEdgeInner src dst with
    | .done (.error .arenaFull) w => w.stampRetired.insertEdgeInner src dst
    | other => other

/-- Outcome of one chain of path copies. -/
inductive Chain where
  | panic (w : Writer)
  | full (w : Writer)
  | built (tree : CTree) (newDsts : List Nat) (w : Writer)

def chain (w : Writer) (cur : CTree) (newDsts : List Nat) : List Nat → Chain
  | [] => .built cur newDsts w
  | d :: dsts =>
      match cur.insertWithScratch w.aw d w.retireLog with
      | .error (aw, log) => .panic (w.withLog aw log)
      | .ok (.inserted tree, aw, log) => (w.withLog aw log).chain tree (newDsts ++ [d]) dsts
      | .ok (.duplicate, aw, log) => (w.withLog aw log).chain cur newDsts dsts
      | .ok (.arenaFull, aw, log) => .full (w.withLog aw log)

/-- The chain is complete: append and publish its last tree. -/
def finishChain (w : Writer) (mark : SlotClass → Nat) (src : Nat) (tree : CTree)
    (newDsts : List Nat) : Call Nat :=
  if newDsts.isEmpty then .done (.ok 0) w
  else
    match w.appendBatch src newDsts with
    | (false, w) =>
        .done (.error .walAppend) { w with retireLog := w.retireLog.truncate mark }
    | (true, w) =>
        .done (.ok newDsts.length) (w.publishBatch src tree newDsts).maybeStampRetired

/-- The first chain ran out: its entries leave the log, the rest is stamped. -/
def restamp (w : Writer) (mark : SlotClass → Nat) : Writer :=
  ({ w with retireLog := w.retireLog.truncate mark }).stampRetired

/-- Chain path-copying inserts, publishing only the last.  The marks are taken once,
before the retry. -/
def insertSortedByPathCopy (w : Writer) (src : Nat) (tree : CTree) (dsts : List Nat) : Call Nat :=
  let mark := w.retireLog.marks
  match w.chain tree [] dsts with
  | .panic w => .panic w
  | .built cur newDsts w => w.finishChain mark src cur newDsts
  | .full w =>
      match (w.restamp mark).chain tree [] dsts with
      | .panic w => .panic w
      | .built cur newDsts w => w.finishChain mark src cur newDsts
      | .full w =>
          .done (.error .arenaFull) { w with retireLog := w.retireLog.truncate mark }

/-- With the merged tree built: append, publish, then log the whole old tree. -/
def finishRebuild (w : Writer) (src : Nat) (tree newTree : CTree) (newDsts : List Nat) :
    Call Nat :=
  match w.appendBatch src newDsts with
  | (false, w) => .done (.error .walAppend) w
  | (true, w) =>
      let w := w.publishBatch src newTree newDsts
      if tree.root = null then .done (.ok newDsts.length) w.maybeStampRetired
      else
        match w.graph.arena.retireSubtree tree.root w.retireLog with
        | none => .panic w
        | some log => .done (.ok newDsts.length) { w with retireLog := log }.maybeStampRetired

/-- Merge the neighbours with `dsts` and build the new tree in one pass. -/
def insertSortedByRebuild (w : Writer) (src : Nat) (tree : CTree) (dsts : List Nat) : Call Nat :=
  match tree.collect w.graph.arena with
  | none => .panic w
  | some existing =>
      let (merged, newDsts) := mergeSorted existing dsts
      if newDsts.isEmpty then .done (.ok 0) w
      else
        match CTree.fromSorted w.aw merged with
        | (some newTree, aw) => (w.withArena aw).finishRebuild src tree newTree newDsts
        | (none, aw) =>
            let w := (w.withArena aw).stampRetired
            match CTree.fromSorted w.aw merged with
            | (some newTree, aw) => (w.withArena aw).finishRebuild src tree newTree newDsts
            | (none, aw) => .done (.error .arenaFull) (w.withArena aw)

/-- `dsts` is strictly ascending, which the source proves at construction. -/
def insertEdgesSorted (w : Writer) (src : Nat) (dsts : List Nat) : Call Nat :=
  match dsts with
  | [] => .done (.ok 0) w
  | first :: _ =>
      let nv := w.graph.numVertices
      if nv ≤ src then .done (.error (.vertexOutOfRange src first)) w
      else
        match dsts.find? fun d => decide (nv ≤ d) with
        | some bad => .done (.error (.vertexOutOfRange src bad)) w
        | none =>
            if w.walRefuses then .done (.error .walAppend) w
            else
              let tree := w.graph.treeFor src
              let degree := tree.count w.graph.arena
              if preferPathCopy degree dsts.length then w.insertSortedByPathCopy src tree dsts
              else w.insertSortedByRebuild src tree dsts

/-- One source after the other; the first error stops the batch. -/
def insertRuns (w : Writer) (inserted : Nat) : List (Nat × List Nat) → Call Nat
  | [] => .done (.ok inserted) w
  | (src, dsts) :: runs =>
      match w.insertEdgesSorted src dsts with
      | .panic w => .panic w
      | .done (.error e) w => .done (.error e) w
      | .done (.ok n) w => w.insertRuns (inserted + n) runs

/-- Edges in source order, then destination order. -/
def edgeLe (a b : Nat × Nat) : Bool := decide (a.1 < b.1) || (a.1 == b.1 && decide (a.2 ≤ b.2))

/-- Sorted, grouped by source, repeats dropped. -/
def groupRuns (edges : List (Nat × Nat)) : List (Nat × List Nat) :=
  ((edges.insertionSort fun a b => edgeLe a b = true).splitBy fun a b => a.1 == b.1).map
    fun run => ((run.map Prod.fst).headD 0, dedup (run.map Prod.snd))

def insertEdges (w : Writer) (edges : List (Nat × Nat)) : Call Nat :=
  let nv := w.graph.numVertices
  match edges.find? fun e => decide (nv ≤ e.1) || decide (nv ≤ e.2) with
  | some (src, dst) => .done (.error (.vertexOutOfRange src dst)) w
  | none => w.insertRuns 0 (groupRuns edges)

def flushBookkeeping (w : Writer) : Writer :=
  let graph := if 0 < w.pendingEdges then
    { w.graph with numEdges := w.graph.numEdges + w.pendingEdges } else w.graph
  flushDirty { w with graph := graph, pendingEdges := 0 }

/-- The clean end of a guard: counters and marks, snapshot, then the log at the commit
epoch.  `none` is a panic on the pin registry. -/
def commit (w : Writer) : Option DynamicGraph :=
  let w := w.flushBookkeeping
  let table := if w.touchedLeaves.isEmpty then none else some (w.graph.buildTable w.touchedLeaves)
  match w.graph.publishCommit table with
  | none => none
  | some (epoch, graph) =>
      let w := { w with graph := graph }
      let (aw, _) := w.aw.retire w.retireLog epoch
      some { w.graph with arena := aw.reclaim.arena, writerLocked := false }

/-- `Drop for Writer`: poison on a panic or a failed log, commit otherwise.  Parking the
buffers empties them. -/
def drop (w : Writer) (panicking : Bool) : Option DynamicGraph :=
  if panicking then
    some { w.graph with poisoned := true
                        wal := w.graph.wal.map WalWriter.discardPending
                        writerLocked := false }
  else
    let (synced, wal) := syncLog w.graph.wal
    let w := { w with graph := { w.graph with wal := wal } }
    if w.walFailed || !synced then
      some { w.graph with poisoned := true, writerLocked := false }
    else w.commit

end Writer

end AetherGraph
