import AetherGraph.SessionRuns
import Mathlib.Algebra.Order.BigOperators.Group.List

/-! What a compaction of a reachable graph leaves: trees that can all be read, in an arena where
nothing else has been handed out, and no more slots than before. -/

namespace AetherGraph

open Foundation Foundation.LeafTree Tree

/-- Bytes behind the two cursors; recycled slots count. -/
def Arena.used (a : Arena) : Nat := a.low + (a.capacity - a.high)

theorem Arena.Ok.used_eq {a : Arena} (h : a.Ok) :
    a.used = a.bumped .chunk * chunkSlot + a.bumped .interior * interiorSlot := by
  have cap := h.capacity_mod
  have low := h.low_mod
  have high := h.high_mod
  have le := h.high_le
  simp only [used, bumped, chunkSlot, interiorSlot] at *
  omega

section Extent

variable {g g' : DynamicGraph} {T T' : Nat → Adj}

/-- Leaves hold at most a full chunk each. -/
theorem leavesFor_le_leafSlots {t : Tree} (wf : t.WellFormed chunkCap) :
    leavesFor t.elems.length ≤ t.leafSlots.length := by
  induction t with
  | leaf s ks =>
      have cap := wf.2.1
      simp only [leafSlots, elems, List.length_singleton, leavesFor, chunkCap] at *
      omega
  | node s key l r ihl ihr =>
      have left := ihl wf.1
      have right := ihr wf.2.1
      simp only [leafSlots, elems, List.length_append, leavesFor, chunkCap] at *
      omega

/-- A full rebuild takes at most the slots of the tree it replaces. -/
theorem Adj.Live.slotCost_le {a : Arena} {t : Adj} (h : t.Live a) (k : SlotClass) :
    slotCost t.elems.length k ≤ (t.slots k).length := by
  cases t with
  | none => cases k <;> exact Nat.le_refl 0
  | some t =>
      have leaves := leavesFor_le_leafSlots h.2
      have nodes := t.leafSlots_length
      have cost : compactSlotCost t.elems.length = (_, _) :=
        if_neg (List.length_pos_of_ne_nil h.2.elems_ne_nil).ne'
      cases k <;> simp only [slotCost, Adj.elems, Adj.slots, Tree.slots, cost] <;> omega

/-- The live trees lie in distinct slots below the cursors. -/
theorem Forest.slotTotal_le (forest : Forest g.arena g.numVertices g.roots T) (k : SlotClass) :
    slotTotal (fun v => (T v).elems) (List.range g.numVertices) k ≤ g.arena.bumped k := by
  have nodup : ((List.range g.numVertices).flatMap fun v => (T v).slots k).Nodup :=
    List.nodup_flatMap.mpr ⟨fun v _ => (forest.live v).nodup k,
      List.nodup_range.imp fun apart i hu hv => forest.apart _ _ apart k i hu hv⟩
  calc slotTotal (fun v => (T v).elems) (List.range g.numVertices) k
      ≤ ((List.range g.numVertices).map fun v => ((T v).slots k).length).sum :=
        List.sum_le_sum fun v _ => (forest.live v).slotCost_le k
    _ = ((List.range g.numVertices).flatMap fun v => (T v).slots k).length :=
        List.length_flatMap.symm
    _ ≤ g.arena.bumped k := length_le_of_keys nodup fun i hi => by
        obtain ⟨v, -, hi⟩ := List.mem_flatMap.mp hi
        exact ((forest.live v).held k i hi).1

theorem Forest.degree_eq (forest : Forest g.arena g.numVertices g.roots T) (v : Nat) :
    g.degree v = (T v).elems.length := by
  rw [DynamicGraph.degree, DynamicGraph.treeFor, forest.root_eq, (forest.live v).count]

theorem Forest.hasEdge_eq (forest : Forest g.arena g.numVertices g.roots T) (v x : Nat) :
    g.hasEdge v x = some (decide (x ∈ (T v).elems)) := by
  rw [DynamicGraph.hasEdge, DynamicGraph.treeFor, forest.root_eq, (forest.live v).contains]

namespace DynamicGraph

/-- The rebuilt trees are shallow enough for the reader's stack. -/
theorem Compacted.neighborsInto (h : Compacted g T g' T') (v : Nat) :
    g'.neighborsInto v = some (T v).elems := by
  rw [DynamicGraph.neighborsInto, DynamicGraph.treeFor, h.forest.root_eq]
  rw [(h.forest.live v).collect, h.elems]
  intro t own
  have keys := h.forest.keys v
  have live := h.forest.live v
  rw [own] at keys live
  have size := length_le_of_keys (l := t.elems) (live.2.elems_sorted.imp Nat.ne_of_lt) keys
  have small := h.forest.small
  have depth := (h.balanced v t own).depth_le (c := 32) (by
    simp only [leavesFor, chunkCap, DynamicGraph.u32Max] at *
    omega)
  exact (t.leftDepth_le_depth.trans depth).trans (by decide)

/-- The capacity check compares with at most the bytes in use. -/
theorem compactWithCapacity_fits (forest : Forest g.arena g.numVertices g.roots T)
    {newCapacity available : Nat} {order : List SlotWrite → List SlotWrite}
    (room : g.arena.used ≤ newCapacity) :
    g.compactWithCapacity newCapacity available order ≠ some (.error .arenaFull) := by
  intro full
  unfold compactWithCapacity at full
  split at full
  · cases full
  split at full
  · cases full
  split at full
  · cases full
  rename_i read
  obtain ⟨built, trees, F, -, done, rebuilt⟩ :=
    rangeBounds_built (snapshotCsr_ok forest read) available
  have chunks := Nat.mul_le_mul_right chunkSlot (forest.slotTotal_le .chunk)
  have interiors := Nat.mul_le_mul_right interiorSlot (forest.slotTotal_le .interior)
  dsimp only at full
  rw [done.chunks, done.interiors, rebuilt.cost, rebuilt.cost, if_neg (Nat.not_lt.mpr
    ((Nat.add_le_add chunks interiors).trans (forest.ok.used_eq ▸ room)))] at full
  split at full
  · cases full
  · obtain ⟨_, -, same⟩ := Option.map_eq_some_iff.mp full
    cases same

end DynamicGraph

end Extent

section Runs

theorem sessionActs_compacted : ((DynamicGraph.newWithEpoch 4 1024 7).bind fun g₀ =>
    ((GraphSession.start { g₀ with wal := none }).run (sessionActs.take 12)).bind fun out =>
      match out.2.stage with
      | .guarded _ => none
      | .idle g => (g.compactWithCapacity 512 2 List.reverse).map fun r =>
          (GraphSession.start { g₀ with wal := none }).fresh (sessionActs.take 12) && r.isOk) =
    some true := by decide +kernel

theorem sessionActs_compacting : ∃ g snaps g', (GraphSession.mk (.idle g) snaps).Reached ∧
    g.compactWithCapacity 512 2 List.reverse = some (.ok g') := by
  obtain ⟨g₀, new, ran⟩ := Option.bind_eq_some_iff.mp sessionActs_compacted
  obtain ⟨⟨answers, stage, snaps⟩, ran, compacting⟩ := Option.bind_eq_some_iff.mp ran
  cases stage with
  | guarded w => cases compacting
  | idle g =>
      obtain ⟨r, compacted, checked⟩ := Option.map_eq_some_iff.mp compacting
      obtain ⟨fresh, ok⟩ := Bool.and_eq_true_iff.mp checked
      cases r with
      | error e => cases ok
      | ok g' =>
          exact ⟨g, snaps, g', ⟨4, 1024, 7, g₀, none, new, _, answers, fresh, ran⟩, compacted⟩

end Runs

end AetherGraph
