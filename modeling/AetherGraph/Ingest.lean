import AetherGraph.Retirement

/-! The ingest drivers: edges of a source inserted one by one through a guard that is dropped and
reopened as it fills, as its edges grow old and as the source goes quiet. -/

namespace AetherGraph

def commitIntervalEdges : Nat := 65536

/-- What other threads and the clock do, by the steps the driver has taken: to the graph behind a
live guard, to the graph while there is none, and whether the guard has been open for longest. -/
structure Surroundings where
  readers : Nat → Writer → Writer
  others : Nat → DynamicGraph → DynamicGraph
  late : Nat → Bool

/-- A writer guard, or the graph when there is none, and the edges that decide when to commit. -/
structure Committer where
  stage : Stage
  edges : Nat

structure IngestStats where
  received : Nat
  inserted : Nat
  duplicates : Nat
  errors : Nat
  deriving DecidableEq, Repr

/-- The counters of the driver's thread. -/
structure LocalCounts where
  received : Nat
  inserted : Nat
  duplicates : Nat
  errors : Nat
  deriving DecidableEq, Repr

namespace LocalCounts

def zero : LocalCounts := ⟨0, 0, 0, 0⟩

def flush (counts : LocalCounts) (stats : IngestStats) : IngestStats where
  received := stats.received + counts.received
  inserted := stats.inserted + counts.inserted
  duplicates := stats.duplicates + counts.duplicates
  errors := stats.errors + counts.errors

/-- The answers' counters; `false` is an error that ends the ingest. -/
def record (counts : LocalCounts) : Except InsertError Bool → Bool × LocalCounts
  | .ok true => (true, { counts with inserted := counts.inserted + 1 })
  | .ok false => (true, { counts with duplicates := counts.duplicates + 1 })
  | .error (.vertexOutOfRange _ _) => (true, { counts with errors := counts.errors + 1 })
  | .error _ => (false, { counts with errors := counts.errors + 1 })

end LocalCounts

/-- A call of `insert_edge` by a driver. -/
structure EdgeCall where
  edge : Nat × Nat
  before : Writer
  call : Call Bool

inductive IngestEvent where
  | opened
  | called (c : EdgeCall)
  | unguarded (edge : Nat × Nat)
  | dropped
  | refused (e : WriterError)

/-- A driver's locals.  `taken` are the edges pulled from the source, `journal` what the driver has
done, and `clock` counts its steps. -/
structure Ingest where
  guard : Committer
  counts : LocalCounts
  stats : IngestStats
  clock : Nat
  taken : List (Nat × Nat)
  journal : List IngestEvent

inductive Ended where
  | returned (result : Except WriterError Unit)
  | panicked
  deriving DecidableEq

/-- `none` is a panic, which leaves the guard for the unwinding to drop. -/
def driveEdge (w : Writer) (counts : LocalCounts) (src dst : Nat) :
    Option Bool × LocalCounts × Writer :=
  let counts := { counts with received := counts.received + 1 }
  match w.insertEdge src dst with
  | .panic w => (none, counts, w)
  | .done answer w => (some (counts.record answer).1, (counts.record answer).2, w)

namespace Ingest

variable (around : Surroundings) (s : Ingest)

def log (e : IngestEvent) : Ingest := { s with journal := s.journal ++ [e] }

def take (edges : List (Nat × Nat)) : Ingest := { s with taken := s.taken ++ edges }

def tick : Ingest := { s with clock := s.clock + 1 }

def flush : Ingest := { s with stats := s.counts.flush s.stats, counts := .zero }

/-- The end of a guard, if there is one; `false` is a panic of the drop. -/
def dropGuard (panicking : Bool) : Bool × Ingest :=
  match s.guard.stage with
  | .idle _ => (true, s)
  | .guarded w =>
      let w := around.readers s.clock w
      let ended := w.drop panicking
      (ended.isSome, { s with guard := { s.guard with stage := .idle (ended.getD w.graph) } }.log
        .dropped)

/-- The next guard, on the graph as the others have left it. -/
def reopen : Except (Ended × Ingest) Ingest :=
  let graph := around.others s.clock s.guard.stage.graph
  match graph.writer with
  | .error e =>
      .error (.returned (.error e),
        { s with guard := { s.guard with stage := .idle graph } }.log (.refused e))
  | .ok w => .ok ({ s with guard := ⟨.guarded w, 0⟩ }.log .opened)

/-- `Committer::open`, with the locals a driver begins with. -/
def openGuard (graph : DynamicGraph) : Except (Ended × Ingest) Ingest :=
  reopen around ⟨⟨.idle graph, 0⟩, .zero, ⟨0, 0, 0, 0⟩, 0, [], []⟩

/-- One edge through the guard.  An insert without one is a panic, and a panic drops the guard. -/
def insert (edge : Nat × Nat) : Except (Ended × Ingest) (Bool × Ingest) :=
  match s.guard.stage with
  | .idle _ => .error (.panicked, s.log (.unguarded edge))
  | .guarded w =>
      let w := around.readers s.clock w
      let called := ⟨edge, w, w.insertEdge edge.1 edge.2⟩
      let (ok, counts, w) := driveEdge w s.counts edge.1 edge.2
      let s := ({ s with counts := counts }.log (.called called)).tick
      match ok with
      | none =>
          let s := { s with guard := { s.guard with stage := .guarded w } }
          .error (.panicked, (s.dropGuard around true).2)
      | some ok => .ok (ok, { s with guard := ⟨.guarded w, s.guard.edges + if ok then 1 else 0⟩ })

def full : Bool := decide (commitIntervalEdges ≤ s.guard.edges)

def due : Bool := s.full || decide (0 < s.guard.edges) && around.late s.clock

/-- Drop the guard, committing it, and open the next one. -/
def commit : Except (Ended × Ingest) Ingest :=
  match s.dropGuard around false with
  | (false, s) => .error (.panicked, s)
  | (true, s) => s.tick.reopen around

def commitPending : Except (Ended × Ingest) Ingest :=
  if 0 < s.guard.edges then s.commit around else .ok s

/-- The return of a driver, whose guard goes out of scope. -/
def finish : Ended × Ingest :=
  match s.flush.dropGuard around false with
  | (false, s) => (.panicked, s)
  | (true, s) => (.returned (.ok ()), s)

/-- The loop of `run` over what the source still yields. -/
def runLoop : Ingest → List (Nat × Nat) → Ended × Ingest
  | s, [] => s.finish around
  | s, edge :: edges =>
      match (s.take [edge]).insert around edge with
      | .error stopped => stopped
      | .ok (false, s) => s.finish around
      | .ok (true, s) =>
          if s.due around then
            match s.flush.commit around with
            | .error stopped => stopped
            | .ok s => runLoop s edges
          else runLoop s edges

/-- The inner loop of `run_batches` and of `drain_into`; `false` breaks out of the outer one.  A
batch is pulled as a whole, a queued edge as the loop comes to it. -/
def insertEach (pull : Nat × Nat → List (Nat × Nat)) :
    Ingest → List (Nat × Nat) → Except (Ended × Ingest) (Bool × Ingest)
  | s, [] => .ok (true, s)
  | s, edge :: edges =>
      match (s.take (pull edge)).insert around edge with
      | .error stopped => .error stopped
      | .ok (false, s) => .ok (false, s)
      | .ok (true, s) =>
          if s.full then
            match s.flush.commit around with
            | .error stopped => .error stopped
            | .ok s => insertEach pull s edges
          else insertEach pull s edges

def runBatchesLoop : Ingest → List (List (Nat × Nat)) → Ended × Ingest
  | s, [] => s.finish around
  | s, batch :: batches =>
      match (s.take batch).tick.insertEach around (fun _ => []) batch with
      | .error stopped => stopped
      | .ok (false, s) => s.finish around
      | .ok (true, s) =>
          if s.due around then
            match s.flush.commit around with
            | .error stopped => stopped
            | .ok s => runBatchesLoop s batches
          else runBatchesLoop s batches

/-- What the thread of `spawn` adds where it stops without a guard. -/
def countRefusal : Ended × Ingest → Ended × Ingest
  | (.returned (.error e), s) =>
      (.returned (.error e), { s with stats := { s.stats with errors := s.stats.errors + 1 } })
  | stopped => stopped

/-- The loop of `spawn`'s thread over the answers it polls until `stop` is set. -/
def spawnLoop : Ingest → Nat → List (Option (Nat × Nat)) → Ended × Ingest
  | s, _, [] => s.finish around
  | s, _, some edge :: polls =>
      match (s.take [edge]).insert around edge with
      | .error stopped => stopped
      | .ok (false, s) => s.finish around
      | .ok (true, s) =>
          if s.due around then
            match s.flush.commit around with
            | .error stopped => countRefusal stopped
            | .ok s => spawnLoop s 0 polls
          else spawnLoop s 0 polls
  | s, idleSpins, none :: polls =>
      let idleSpins := (idleSpins + 1) % 2 ^ 32
      if idleSpins < 64 then spawnLoop s.flush.tick idleSpins polls
      else
        match s.flush.tick.commitPending around with
        | .error stopped => countRefusal stopped
        | .ok s => spawnLoop s idleSpins polls

/-- The loop of `drain_into` until the channel disconnects or `stop` is set.  A wait times out, or
ends with an edge and those then queued behind it. -/
def drainLoop : Ingest → List (Option ((Nat × Nat) × List (Nat × Nat))) → Ended × Ingest
  | s, [] => s.finish around
  | s, none :: waits =>
      match s.flush.tick.commitPending around with
      | .error stopped => stopped
      | .ok s => drainLoop s waits
  | s, some (first, queued) :: waits =>
      match s.insertEach around (fun edge => [edge]) (first :: queued) with
      | .error stopped => stopped
      | .ok (false, s) => s.finish around
      | .ok (true, s) =>
          if s.flush.due around then
            match s.flush.commit around with
            | .error stopped => stopped
            | .ok s => drainLoop s waits
          else drainLoop s.flush waits

/-- `edges` are what `next_edge` yields before its first `None`. -/
def run (graph : DynamicGraph) (edges : List (Nat × Nat)) : Ended × Ingest :=
  match openGuard around graph with
  | .error stopped => stopped
  | .ok s => s.runLoop around edges

def runBatches (graph : DynamicGraph) (batches : List (List (Nat × Nat))) : Ended × Ingest :=
  match openGuard around graph with
  | .error stopped => stopped
  | .ok s => s.runBatchesLoop around batches

/-- The thread of `spawn`. -/
def spawn (graph : DynamicGraph) (polls : List (Option (Nat × Nat))) : Ended × Ingest :=
  match openGuard around graph with
  | .error stopped => stopped
  | .ok s => s.spawnLoop around 0 polls

def drainChannel (graph : DynamicGraph)
    (waits : List (Option ((Nat × Nat) × List (Nat × Nat)))) : Ended × Ingest :=
  match openGuard around graph with
  | .error stopped => stopped
  | .ok s => s.drainLoop around waits

end Ingest

end AetherGraph
