import AetherGraph.Commit
import AetherGraph.Reach

/-! Retirement safety of the single writer over whole runs: what is logged, pending or
free is unreachable from every published root and listed once. -/

namespace AetherGraph

open Foundation Foundation.LeafTree ArenaWriter Tree
open Arena (reach_of_reaches)

/-- A graph between guards, or the guard that has it. -/
inductive Stage where
  | idle (graph : DynamicGraph)
  | guarded (writer : Writer)

/-- What may happen next.  `readers` is any change readers and snapshots make to the gate
and the pins. -/
inductive Op where
  | openGuard
  | insertEdge (src dst : Nat)
  | insertEdges (edges : List (Nat × Nat))
  | insertEdgesSorted (src : Nat) (dsts : List Nat)
  | dropGuard (panicking : Bool)
  | readers (gate : ReadGate) (pins : PinRegistry)

/-- The guard after a call that returned. -/
def Call.returned {α : Type} : Call α → Option Writer
  | .panic _ => none
  | .done _ w => some w

namespace Stage

def graph : Stage → DynamicGraph
  | .idle g => g
  | .guarded w => w.graph

def logged : Stage → SlotClass → List Nat
  | .idle _ => fun _ => []
  | .guarded w => w.retireLog.slots

/-- `none` is an operation that is not available or does not return. -/
def step : Stage → Op → Option Stage
  | .idle g, .openGuard => g.writer.toOption.map .guarded
  | .guarded w, .insertEdge src dst => (w.insertEdge src dst).returned.map .guarded
  | .guarded w, .insertEdges edges => (w.insertEdges edges).returned.map .guarded
  | .guarded w, .insertEdgesSorted src dsts =>
      if dsts.Pairwise (· < ·) then (w.insertEdgesSorted src dsts).returned.map .guarded else none
  | .guarded w, .dropGuard panicking => (w.drop panicking).map .idle
  | .idle g, .readers gate pins =>
      some (.idle { g with arena := { g.arena with gate := gate, pins := pins } })
  | .guarded w, .readers gate pins => some (.guarded
      { w with graph := { w.graph with arena := { w.graph.arena with gate := gate, pins := pins } } })
  | _, _ => none

/-- The operation leaves entries of a failed chain in the log. -/
def stale : Stage → Op → Bool
  | .guarded w, .insertEdges edges => w.batchStale edges
  | .guarded w, .insertEdgesSorted src dsts => w.sortedStale src dsts
  | _, _ => false

def run : Stage → List Op → Option Stage
  | s, [] => some s
  | s, op :: ops => (s.step op).bind fun s => s.run ops

/-- No operation of the run leaves entries of a failed chain in the log. -/
def fresh : Stage → List Op → Bool
  | _, [] => true
  | s, op :: ops => !s.stale op && ((s.step op).map fun s => s.fresh ops).getD true

/-- What is logged, pending or free is unreachable from every root and listed once. -/
structure RetirementSafe (s : Stage) : Prop where
  unreachable : ∀ k i, i ∈ s.logged k ∨ i ∈ s.graph.arena.pendingSlots k ∨
    i ∈ s.graph.arena.freeList k → ∀ v, ¬ s.graph.arena.Reach (s.graph.roots.getD v null) k i
  nodup : ∀ k, (s.logged k ++
    (s.graph.arena.pendingSlots k ++ s.graph.arena.freeList k)).Nodup

/-- The trees behind the roots, with no write-ahead log attached. -/
def Sound : Stage → Prop
  | .idle g => g.wal = none ∧ ∃ T, Forest g.arena g.numVertices g.roots T
  | .guarded w => w.graph.wal = none ∧ w.walFailed = false ∧
      ∃ T, Core.Good w.graph.numVertices (w.core T)

end Stage

namespace DynamicGraph

theorem forest_of_new {n bytes : Nat} {g : DynamicGraph} (h : DynamicGraph.new n bytes = some g) :
    Forest g.arena g.numVertices g.roots (fun _ => none) ∧ g.wal = none := by
  unfold DynamicGraph.new newWithEpoch at h
  split at h
  · cases h
  rename_i small
  obtain ⟨a, ha, rfl⟩ := Option.map_eq_some_iff.mp h
  refine ⟨⟨{ Arena.new_ok ha with }, List.length_replicate, Nat.le_of_not_lt small, fun v => ?_,
    fun v => trivial, fun v x hx => absurd hx List.not_mem_nil,
    fun u v _ k i hi => absurd hi List.not_mem_nil⟩, rfl⟩
  simp only [List.getD_eq_getElem?_getD, List.getElem?_replicate]
  split <;> rfl

theorem writer_ok {g : DynamicGraph} {w : Writer} (h : g.writer = .ok w) :
    g.poisoned = false ∧ g.writerLocked = false ∧ w =
      { graph := { g with writerLocked := true }
        youngStart := g.arena.bumped
        retireStamp := g.epoch + 1
        dirty := []
        touchedLeaves := []
        retireLog := .new
        pendingEdges := 0
        touchedDedupLimit := touchedLeavesDedupStart
        walFailed := false } := by
  unfold DynamicGraph.writer at h
  split at h
  · cases h
  split at h
  · cases h
  rename_i clean unlocked
  exact ⟨by simpa using clean, by simpa using unlocked, (Except.ok.inj h).symm⟩

theorem good_of_writer {g : DynamicGraph} {w : Writer} (h : g.writer = .ok w) {T : Nat → Adj}
    (forest : Forest g.arena g.numVertices g.roots T) :
    Core.Good w.graph.numVertices (w.core T) := by
  obtain ⟨-, -, rfl⟩ := writer_ok h
  exact ⟨{ forest with }, .empty _ _ fun _ => rfl⟩

end DynamicGraph

namespace Stage

theorem Sound.safe {s : Stage} (h : s.Sound) : s.RetirementSafe := by
  have account : ∃ T, Forest s.graph.arena s.graph.numVertices s.graph.roots T ∧
      LogOk s.graph.arena T ⟨s.logged⟩ := by
    cases s with
    | idle g =>
        obtain ⟨-, T, forest⟩ := h
        exact ⟨T, forest, .empty _ _ fun _ => rfl⟩
    | guarded w =>
        obtain ⟨-, -, T, good⟩ := h
        exact ⟨T, good.forest, good.log⟩
  obtain ⟨T, forest, log⟩ := account
  refine ⟨fun k i hi v reach => ?_, fun k => ?_⟩
  · rw [forest.root_eq, (forest.live v).reach_iff] at reach
    obtain ⟨-, free, pending⟩ := (forest.live v).held k i reach
    rcases hi with hi | hi | hi
    · exact log.off v k i hi reach
    · exact pending hi
    · exact free hi
  · refine List.nodup_append.mpr ⟨log.nodup k, ?_, fun i hi j hj same => ?_⟩
    · exact (forest.ok.nodup k).perm List.perm_append_comm
    · subst same
      obtain ⟨-, free, pending⟩ := log.held k i hi
      exact (List.mem_append.mp hj).elim pending free

/-- A call with the effect of its specification keeps the trees in order. -/
theorem Sound.call {α : Type} {w w' : Writer} (h : (guarded w).Sound)
    {call : Call α} (returned : call.returned = some w')
    {post : (Nat → Adj) → Except InsertError α → List (Nat × Nat) → Prop}
    (outcome : ∀ T, w.Sound T → Writer.Outcome w T (post T) call) : (guarded w').Sound := by
  obtain ⟨wal, up, T, good⟩ := h
  have outcome := outcome T ⟨_, good, fun _ => rfl⟩
  cases call with
  | panic w₁ => cases returned
  | done r w₁ =>
      obtain rfl := Option.some.inj returned
      obtain ⟨T', added, effect, -, -⟩ := outcome
      have up' : w₁.walFailed = false := (effect.failed wal).trans up
      exact ⟨WalAppended.none_left (wal ▸ effect.wal), up', T', effect.good up' good⟩

theorem Sound.step {s s' : Stage} {op : Op} (h : s.Sound) (fresh : s.stale op = false)
    (done : s.step op = some s') : s'.Sound := by
  cases s with
  | idle g =>
      obtain ⟨wal, T, forest⟩ := h
      cases op with
      | openGuard =>
          obtain ⟨w, hw, rfl⟩ := Option.map_eq_some_iff.mp done
          have opened : g.writer = .ok w := by
            cases hg : g.writer with
            | error e => rw [hg] at hw; cases hw
            | ok w₁ => rw [hg] at hw; exact congrArg _ (Option.some.inj hw)
          have good := DynamicGraph.good_of_writer opened forest
          obtain ⟨-, -, rfl⟩ := DynamicGraph.writer_ok opened
          exact ⟨wal, rfl, T, good⟩
      | readers gate pins =>
          obtain rfl := Option.some.inj done
          have good : Core.Good g.numVertices ⟨g.arena, g.roots, .new, [], T⟩ :=
            ⟨forest, .empty _ _ fun _ => rfl⟩
          exact ⟨wal, T, (good.setPins gate pins).forest⟩
      | _ => cases done
  | guarded w =>
      cases op with
      | openGuard => cases done
      | insertEdge src dst =>
          obtain ⟨w', hw, rfl⟩ := Option.map_eq_some_iff.mp done
          exact h.call hw fun T sound => Writer.insertEdge_outcome sound src dst
      | insertEdges edges =>
          obtain ⟨w', hw, rfl⟩ := Option.map_eq_some_iff.mp done
          exact h.call hw fun T sound => Writer.insertEdges_outcome sound edges fresh
      | insertEdgesSorted src dsts =>
          simp only [Stage.step] at done
          split at done
          · rename_i sorted
            obtain ⟨w', hw, rfl⟩ := Option.map_eq_some_iff.mp done
            exact h.call hw fun T sound => Writer.insertEdgesSorted_outcome sound sorted fresh
          · cases done
      | dropGuard panicking =>
          obtain ⟨g, hg, rfl⟩ := Option.map_eq_some_iff.mp done
          obtain ⟨wal, up, T, good⟩ := h
          rcases Writer.drop_some hg with ⟨-, -, -, committed⟩ | ⟨-, abandoned⟩
          · rw [wal] at committed
            exact ⟨committed.wal, T, committed.forest good⟩
          · exact ⟨abandoned.wal wal, T, abandoned.forest ⟨_, good, fun _ => rfl⟩⟩
      | readers gate pins =>
          obtain rfl := Option.some.inj done
          obtain ⟨wal, up, T, good⟩ := h
          exact ⟨wal, up, T, good.setPins gate pins⟩

theorem Sound.run {s s' : Stage} (h : s.Sound) {ops : List Op} (fresh : s.fresh ops = true)
    (done : s.run ops = some s') : s'.Sound := by
  induction ops generalizing s with
  | nil =>
      obtain rfl := Option.some.inj done
      exact h
  | cons op ops ih =>
      obtain ⟨s₁, first, rest⟩ := Option.bind_eq_some_iff.mp done
      simp only [Stage.fresh, first, Option.map_some, Option.getD_some, Bool.and_eq_true,
        Bool.not_eq_true'] at fresh
      exact ih (h.step fresh.1 first) fresh.2 rest

end Stage

/-- In a run without a stale truncation every state keeps what is logged, pending or free
unreachable and listed once. -/
theorem retirementSafe_of_fresh (n bytes : Nat) (g : DynamicGraph)
    (new : DynamicGraph.new n bytes = some g) (ops : List Op)
    (fresh : (Stage.idle g).fresh ops = true) (s : Stage)
    (done : (Stage.idle g).run ops = some s) : s.RetirementSafe := by
  obtain ⟨forest, wal⟩ := DynamicGraph.forest_of_new new
  have start : (Stage.idle g).Sound := ⟨wal, _, forest⟩
  exact (start.run fresh done).safe

/-- Forty-four neighbours for vertex 0 and two for vertex 1 leave one superseded leaf in
the log and room for one chunk.  The chain for 50 and 51 fails, the stamp frees that leaf,
and the second chain fails after logging a leaf that vertex 0 still uses. -/
def staleOps : List Op :=
  [.openGuard, .insertEdgesSorted 0 (List.range 44), .insertEdge 1 2, .insertEdge 1 3,
    .insertEdgesSorted 0 [50, 51]]

/-- Chunk 2 is logged and in the tree of vertex 0. -/
def loggedAndLive (s : Stage) : Bool :=
  (s.logged .chunk).contains 2 &&
    s.graph.arena.reaches .chunk 2 3 (s.graph.roots.getD 0 null)

theorem staleOps_loggedAndLive :
    ((DynamicGraph.new 100 496).bind fun g => (Stage.idle g).run staleOps).map loggedAndLive =
      some true := by decide +kernel

theorem retirementSafe_fails : ¬ ∀ (n bytes : Nat) (g : DynamicGraph),
    DynamicGraph.new n bytes = some g → ∀ (ops : List Op) (s : Stage),
      (Stage.idle g).run ops = some s → s.RetirementSafe := by
  intro safe
  obtain ⟨s, ran, bad⟩ := Option.map_eq_some_iff.mp staleOps_loggedAndLive
  obtain ⟨g, new, ran⟩ := Option.bind_eq_some_iff.mp ran
  simp only [loggedAndLive, Bool.and_eq_true, List.contains_iff_mem] at bad
  exact (safe _ _ g new _ s ran).unreachable .chunk 2 (.inl bad.1) 0 (reach_of_reaches bad.2)

theorem retirementSafe_of_fresh_staleOps : ∃ g s, DynamicGraph.new 100 496 = some g ∧
    (Stage.idle g).run (staleOps.take 4) = some s ∧ s.RetirementSafe := by
  have ran : (((DynamicGraph.new 100 496).bind fun g => ((Stage.idle g).run (staleOps.take 4)).map
      fun _ => (Stage.idle g).fresh (staleOps.take 4))) = some true := by decide +kernel
  obtain ⟨g, new, ran⟩ := Option.bind_eq_some_iff.mp ran
  obtain ⟨s, ran, fresh⟩ := Option.map_eq_some_iff.mp ran
  exact ⟨g, s, new, ran, retirementSafe_of_fresh 100 496 g new _ fresh s ran⟩

end AetherGraph
