import AetherGraph.GuardCalls

/-! The end of a guard: a commit, or a graph poisoned and left as it was. -/

namespace AetherGraph

open Foundation Foundation.LeafTree Arena ArenaWriter Tree

namespace Writer

/-- The pins a commit leaves: the new snapshot's registered, the old one's released. -/
def pinsAfter (w : Writer) : Option PinRegistry :=
  if w.touchedLeaves = [] then some w.graph.arena.pins
  else (w.graph.arena.pins.register (w.graph.epoch + 1)).release w.graph.latest.epoch

/-- The arena a commit leaves, given the pins: the log is stamped with the commit's epoch. -/
def arenaAfter (w : Writer) (pins : PinRegistry) : Arena :=
  ((ArenaWriter.mk { w.graph.arena with pins := pins } w.youngStart).retire w.retireLog
    (w.graph.epoch + 1)).1.reclaim.arena

def latestAfter (w : Writer) : Snapshot :=
  if w.touchedLeaves = [] then w.graph.latest
  else ⟨w.graph.epoch + 1, w.graph.numVertices, w.graph.numEdges + w.pendingEdges,
    w.graph.buildTable w.touchedLeaves⟩

/-- The graph `g` is what the guard `w` commits. -/
structure Committed (w : Writer) (g : DynamicGraph) : Prop where
  roots : g.roots = w.graph.roots
  numVertices : g.numVertices = w.graph.numVertices
  numEdges : g.numEdges = w.graph.numEdges + w.pendingEdges
  dirty : g.dirty = w.marks.flush.map
  writerLocked : g.writerLocked = false
  poisoned : g.poisoned = w.graph.poisoned
  epoch : g.epoch = w.graph.epoch + 1
  latest : g.latest = w.latestAfter
  wal : g.wal = w.graph.wal
  arena : ∃ pins, w.pinsAfter = some pins ∧ g.arena = w.arenaAfter pins

theorem flushBookkeeping_eq (w : Writer) : w.flushBookkeeping =
    withMarks { w with graph := { w.graph with numEdges := w.graph.numEdges + w.pendingEdges }
                       pendingEdges := 0 } w.marks.flush := by
  have count : (if 0 < w.pendingEdges then
      { w.graph with numEdges := w.graph.numEdges + w.pendingEdges } else w.graph) =
        { w.graph with numEdges := w.graph.numEdges + w.pendingEdges } := by
    split
    · rfl
    · rename_i none
      obtain none : w.pendingEdges = 0 := by omega
      rw [none, Nat.add_zero]
  unfold flushBookkeeping Marks.flush flushDirty
  dsimp only
  rw [count, show w.marks.buf.isEmpty = w.dirty.isEmpty from rfl]
  split <;> rfl

theorem commit_some {w : Writer} {g : DynamicGraph} (h : w.commit = some g) : w.Committed g := by
  unfold commit at h
  rw [flushBookkeeping_eq] at h
  dsimp only [withMarks] at h
  by_cases untouched : w.touchedLeaves = []
  · rw [untouched] at h
    simp only [List.isEmpty_nil, if_true, DynamicGraph.publishCommit, Option.some.injEq] at h
    subst h
    refine ⟨rfl, rfl, rfl, rfl, rfl, rfl, rfl, ?_, rfl, w.graph.arena.pins, ?_, rfl⟩
    · rw [latestAfter, if_pos untouched]
    · rw [pinsAfter, if_pos untouched]
  · have touched : w.touchedLeaves.isEmpty = false := by simpa using untouched
    simp only [touched, Bool.false_eq_true, if_false, DynamicGraph.publishCommit,
      DynamicGraph.pin, DynamicGraph.unpin] at h
    cases released : (w.graph.arena.pins.register (w.graph.epoch + 1)).release
        w.graph.latest.epoch with
    | none =>
        rw [released] at h
        cases h
    | some pins =>
        rw [released] at h
        simp only [Option.map_some, Option.some.injEq] at h
        subst h
        refine ⟨rfl, rfl, rfl, rfl, rfl, rfl, rfl, ?_, rfl, pins, ?_, rfl⟩
        · rw [latestAfter, if_neg untouched]
          rfl
        · rw [pinsAfter, if_neg untouched, released]

/-- The graph `g` is what the guard `w` leaves without a commit. -/
structure Abandoned (w : Writer) (g : DynamicGraph) : Prop where
  roots : g.roots = w.graph.roots
  arena : g.arena = w.graph.arena
  numVertices : g.numVertices = w.graph.numVertices
  numEdges : g.numEdges = w.graph.numEdges
  dirty : g.dirty = w.graph.dirty
  writerLocked : g.writerLocked = false
  poisoned : g.poisoned = true
  epoch : g.epoch = w.graph.epoch
  latest : g.latest = w.graph.latest
  wal : w.graph.wal = none → g.wal = none

/-- How a drop ends: a clean one whose barrier held commits, any other poisons. -/
theorem drop_some {w : Writer} {panicking : Bool} {g : DynamicGraph}
    (h : w.drop panicking = some g) :
    (panicking = false ∧ w.walFailed = false ∧ (syncLog w.graph.wal).1 = true ∧
      Committed { w with graph := { w.graph with wal := (syncLog w.graph.wal).2 } } g) ∨
    ((panicking = true ∨ w.walFailed = true ∨ (syncLog w.graph.wal).1 = false) ∧ Abandoned w g) := by
  unfold drop at h
  split at h
  · rename_i panicking
    obtain rfl := Option.some.inj h
    exact .inr ⟨.inl panicking, rfl, rfl, rfl, rfl, rfl, rfl, rfl, rfl, rfl,
      fun none => congrArg (Option.map _) none⟩
  rename_i calm
  rcases synced : syncLog w.graph.wal with ⟨held, wal⟩
  rw [synced] at h
  dsimp only at h ⊢
  split at h
  · rename_i failed
    obtain rfl := Option.some.inj h
    refine .inr ⟨?_, rfl, rfl, rfl, rfl, rfl, rfl, rfl, rfl, rfl, fun none => ?_⟩
    · simpa [calm] using failed
    · rw [none] at synced
      exact (Prod.mk.inj synced).2.symm
  · rename_i clean
    simp only [Bool.or_eq_true, Bool.not_eq_true', not_or, Bool.not_eq_false,
      Bool.not_eq_true] at clean
    exact .inl ⟨by simpa using calm, clean.1, clean.2, commit_some h⟩

theorem Committed.forest {w : Writer} {g : DynamicGraph} (h : w.Committed g) {T : Nat → Adj}
    (good : Core.Good w.graph.numVertices (w.core T)) :
    Forest g.arena g.numVertices g.roots T := by
  obtain ⟨pins, -, arena⟩ := h.arena
  have stamped := ((good.setPins w.graph.arena.gate pins).stamp w.youngStart
    (w.graph.epoch + 1)).reclaim
  rw [h.roots, h.numVertices, arena]
  exact stamped.forest

theorem Abandoned.forest {w : Writer} {g : DynamicGraph} (h : w.Abandoned g) {T : Nat → Adj}
    (good : w.Sound T) : Forest g.arena g.numVertices g.roots T := by
  obtain ⟨log, good, -⟩ := good
  rw [h.roots, h.numVertices, h.arena]
  exact good.forest

end Writer

end AetherGraph
