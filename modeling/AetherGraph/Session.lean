import AetherGraph.Compaction
import AetherGraph.Foundation.Versions

/-! A graph through its life: guards one after the other, snapshots held beside them, compactions
in between, and the abstract set of edges with versions that explains every answer. -/

namespace AetherGraph

open Foundation

/-- A graph or its guard, and the snapshots handed out. -/
structure GraphSession where
  stage : Stage
  snaps : List Snapshot

/-- An order in which the writes of several threads reach an arena. -/
structure WriteOrder where
  run : List SlotWrite → List SlotWrite
  perm : ∀ writes, (run writes).Perm writes

/-- What happens next.  `advance` is another owner of the shared epoch clock, `gate` what
readers do to the gate. -/
inductive Act where
  | openGuard
  | insertEdge (src dst : Nat)
  | insertEdges (edges : List (Nat × Nat))
  | insertEdgesSorted (src : Nat) (dsts : List Nat)
  | dropGuard (panicking : Bool)
  | acquire
  | clone (i : Nat)
  | release (i : Nat)
  | compact (newCapacity available : Nat) (order : WriteOrder)
  | advance (d : Nat)
  | gate (gate : ReadGate)

inductive Answer where
  | opened
  | refused (e : WriterError)
  | edge (r : Except InsertError Bool)
  | batch (r : Except InsertError Nat)
  | panicked
  | closed (poisoned : Bool) (epoch : Nat)
  | snapshot (epoch : Nat)
  | compacted (r : Except CompactError Unit)
  | done

/-- A call that panics drops the guard on its way out. -/
def Call.conclude {α : Type} (snaps : List Snapshot) (answer : Except InsertError α → Answer) :
    Call α → Option (Answer × GraphSession)
  | .panic w => (w.drop true).map fun g => (.panicked, ⟨.idle g, snaps⟩)
  | .done r w => some (answer r, ⟨.guarded w, snaps⟩)

namespace GraphSession

def graph (s : GraphSession) : DynamicGraph := s.stage.graph

/-- No guard open, no snapshot held. -/
def start (g : DynamicGraph) : GraphSession := ⟨.idle g, []⟩

def withGraph (s : GraphSession) (g : DynamicGraph) : GraphSession :=
  { s with stage := s.stage.withGraph g }

/-- `none` is a call that is not available, or a panic outside the inserts. -/
def step (s : GraphSession) : Act → Option (Answer × GraphSession)
  | .openGuard =>
      match s.graph.writer, s.stage with
      | .error e, _ => some (.refused e, s)
      | .ok w, .idle _ => some (.opened, ⟨.guarded w, s.snaps⟩)
      | .ok _, .guarded _ => none
  | .insertEdge src dst =>
      match s.stage with
      | .idle _ => none
      | .guarded w => (w.insertEdge src dst).conclude s.snaps .edge
  | .insertEdges edges =>
      match s.stage with
      | .idle _ => none
      | .guarded w => (w.insertEdges edges).conclude s.snaps .batch
  | .insertEdgesSorted src dsts =>
      match s.stage with
      | .idle _ => none
      | .guarded w =>
          if dsts.Pairwise (· < ·) then (w.insertEdgesSorted src dsts).conclude s.snaps .batch
          else none
  | .dropGuard panicking =>
      match s.stage with
      | .idle _ => none
      | .guarded w =>
          (w.drop panicking).map fun g => (.closed g.poisoned g.epoch, ⟨.idle g, s.snaps⟩)
  | .acquire =>
      let (snap, g) := s.graph.acquire
      some (.snapshot snap.epoch, ⟨s.stage.withGraph g, snap :: s.snaps⟩)
  | .clone i =>
      s.snaps[i]?.map fun snap =>
        (.done, ⟨s.stage.withGraph (s.graph.pin snap.epoch), snap :: s.snaps⟩)
  | .release i =>
      s.snaps[i]?.bind fun snap => (s.graph.unpin snap.epoch).map fun g =>
        (.done, ⟨s.stage.withGraph g, s.snaps.eraseIdx i⟩)
  | .compact newCapacity available order =>
      match s.stage with
      | .guarded _ => none
      | .idle g =>
          (g.compactWithCapacity newCapacity available order.run).map fun
            | .error e => (.compacted (.error e), s)
            | .ok g => (.compacted (.ok ()), ⟨.idle g, s.snaps⟩)
  | .advance d => some (.done, s.withGraph { s.graph with epoch := s.graph.epoch + d })
  | .gate gate => some (.done, s.withGraph
      { s.graph with arena := { s.graph.arena with gate := gate } })

def run : GraphSession → List Act → Option (List Answer × GraphSession)
  | s, [] => some ([], s)
  | s, act :: acts =>
      (s.step act).bind fun out => (out.2.run acts).map fun rest => (out.1 :: rest.1, rest.2)

/-- The call leaves entries of a failed chain in the retire log. -/
def stale (s : GraphSession) : Act → Bool
  | .insertEdges edges =>
      match s.stage with
      | .idle _ => false
      | .guarded w => w.batchStale edges
  | .insertEdgesSorted src dsts =>
      match s.stage with
      | .idle _ => false
      | .guarded w => w.sortedStale src dsts
  | _ => false

/-- No call of the run leaves entries of a failed chain in the retire log. -/
def fresh : GraphSession → List Act → Bool
  | _, [] => true
  | s, act :: acts => !s.stale act && ((s.step act).map fun out => out.2.fresh acts).getD true

/-- Some run without stale entries leads from `s` to `s'`. -/
def Runs (s s' : GraphSession) : Prop :=
  ∃ acts answers, s.fresh acts = true ∧ s.run acts = some (answers, s')

/-- A state of a run from a new graph. -/
def Reached (s : GraphSession) : Prop :=
  ∃ n bytes epoch g wal, DynamicGraph.newWithEpoch n bytes epoch = some g ∧
    (start { g with wal := wal }).Runs s

end GraphSession

/-- The edges of a graph with their versions. -/
abbrev Ledger := Versions (Nat × Nat)

section Explanation

/-- What a ledger of edges allows a call to answer, and the edges it takes in. -/
inductive Allows (V : Ledger) : Act → Answer → List (Nat × Nat) → Prop where
  | inserted {src dst} : (src, dst) ∉ V.visible →
      Allows V (.insertEdge src dst) (.edge (.ok true)) [(src, dst)]
  | duplicate {src dst} : (src, dst) ∈ V.visible →
      Allows V (.insertEdge src dst) (.edge (.ok false)) []
  | edgeError {src dst e} : Allows V (.insertEdge src dst) (.edge (.error e)) []
  | sorted {src dsts} : Allows V (.insertEdgesSorted src dsts)
      (.batch (.ok (dsts.filter fun d => decide ((src, d) ∉ V.visible)).length))
      ((dsts.filter fun d => decide ((src, d) ∉ V.visible)).map (src, ·))
  | sortedError {src dsts e} : Allows V (.insertEdgesSorted src dsts) (.batch (.error e)) []
  | edges {edges new} : (∀ e ∈ new, e ∈ edges) → (∀ e ∈ edges, e ∈ V.visible ∨ e ∈ new) →
      Allows V (.insertEdges edges) (.batch (.ok new.length)) new
  | edgesError {edges new e} : (∀ e ∈ new, e ∈ edges) →
      Allows V (.insertEdges edges) (.batch (.error e)) new

def Act.inserts : Act → Bool
  | .insertEdge .. | .insertEdges _ | .insertEdgesSorted .. => true
  | _ => false

/-- One step of the ledger: what an act with its answer does to the edges and versions. -/
inductive Explains : Ledger → Act → Answer → Ledger → Prop where
  | opened {V} : V.phase = .idle → Explains V .openGuard .opened V.begin
  | busy {V} : V.phase = .writing → Explains V .openGuard (.refused .busy) V
  | poisoned {V} : V.phase = .stopped → Explains V .openGuard (.refused .poisoned) V
  | insert {V act answer new} : V.phase = .writing → Allows V act answer new → new.Nodup →
      (∀ e ∈ new, e ∉ V.visible) → Explains V act answer (V.add new)
  | panicked {V act new} : V.phase = .writing → act.inserts = true → new.Nodup →
      (∀ e ∈ new, e ∉ V.visible) → Explains V act .panicked (V.add new).abandon
  | committed {V} : V.phase = .writing →
      Explains V (.dropGuard false) (.closed false (V.now + 1)) V.commit
  | abandoned {V panicking} : V.phase = .writing →
      Explains V (.dropGuard panicking) (.closed true V.now) V.abandon
  | acquired {V t} : t ≤ V.now → V.asOf t = V.committed → Explains V .acquire (.snapshot t) V
  | cloned {V i} : Explains V (.clone i) .done V
  | released {V i} : Explains V (.release i) .done V
  | compacted {V newCapacity available order} : V.phase = .idle →
      Explains V (.compact newCapacity available order) (.compacted (.ok ())) V
  | refusedCompact {V newCapacity available order e} :
      (e = .poisoned ↔ V.phase = .stopped) →
      Explains V (.compact newCapacity available order) (.compacted (.error e)) V
  | advanced {V d} : Explains V (.advance d) .done (V.advance d)
  | gated {V gate} : Explains V (.gate gate) .done V

inductive Explained : Ledger → List (Act × Answer) → Ledger → Prop where
  | nil {V} : Explained V [] V
  | cons {V V' V'' act answer trace} : Explains V act answer V' → Explained V' trace V'' →
      Explained V ((act, answer) :: trace) V''

/-- A snapshot's answers are those of the edges `E`. -/
structure Answers (S : Snapshot) (g : DynamicGraph) (E : List (Nat × Nat)) : Prop where
  hasEdge : ∀ v x, S.hasEdge g v x = some (decide ((v, x) ∈ E))
  degree : ∀ v, S.degree g v = E.countP fun e => e.1 == v
  numEdges : S.numEdges = E.length
  total : S.numEdges = ((List.range S.numVertices).map (S.degree g)).sum
  neighbors : ∀ v l, S.neighborsInto g v = some l →
    l.Pairwise (· < ·) ∧ ∀ x, x ∈ l ↔ (v, x) ∈ E

/-- The session shows what the ledger says: the live graph all edges, a snapshot those of its
version. -/
structure Serves (s : GraphSession) (V : Ledger) : Prop where
  live : ∀ v x, s.graph.hasEdge v x = some (decide ((v, x) ∈ V.visible))
  distinct : V.visible.Nodup
  counted : s.graph.numEdges = V.committed.length
  latest : V.asOf s.graph.latest.epoch = V.committed
  snapshots : ∀ S ∈ s.graph.latest :: s.snaps, Answers S s.graph (V.asOf S.epoch)

end Explanation

end AetherGraph
