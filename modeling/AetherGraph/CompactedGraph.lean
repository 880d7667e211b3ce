import AetherGraph.CompactRanges

/-! What a compaction leaves: the same neighbours behind new roots, in an arena whose every slot
is in exactly one tree. -/

namespace AetherGraph

open Foundation Foundation.LeafTree Tree

section Tiled

/-- A fresh arena filled up to both cursors. -/
structure Arena.Tiled (a : Arena) (slots : SlotClass → Nat) : Prop where
  ok : a.Ok
  bumped : ∀ k, a.bumped k = slots k
  held : ∀ k i, a.Held k i ↔ i < slots k
  pins : a.pins = .new

theorem Arena.new_some {newCapacity : Nat} {a : Arena} (h : Arena.new newCapacity = some a) :
    newCapacity ≤ maxCapacity ∧ a = ⟨newCapacity - newCapacity % interiorSlot, .new, .new, 0,
      newCapacity - newCapacity % interiorSlot, .new, fun _ => .empty, fun _ => ⟨0, 0, 0, 0⟩⟩ := by
  unfold Arena.new at h
  split at h
  · cases h
  rename_i small
  dsimp only at h
  split at h
  · cases h
  · exact ⟨Nat.le_of_not_lt small, (Option.some.inj h).symm⟩

/-- The writes of the threads and their commit, in an arena with room for all slots. -/
theorem Arena.tiled {newCapacity : Nat} {a : Arena} (h : Arena.new newCapacity = some a)
    (writes : List SlotWrite) {chunks interiors : Nat} (fewer : interiors ≤ chunks)
    (fits : chunks * chunkSlot + interiors * interiorSlot ≤ newCapacity) :
    ((a.storeAll writes).commitRegions chunks interiors).Tiled (bases chunks interiors) := by
  obtain ⟨small, rfl⟩ := Arena.new_some h
  rw [storeAll_eq]
  simp only [maxCapacity, chunkSlot, interiorSlot] at small fits
  have bumped : ∀ k, (Arena.commitRegions
      { capacity := newCapacity - newCapacity % interiorSlot, gate := .new, pins := .new, low := 0,
        high := newCapacity - newCapacity % interiorSlot, recycler := .new,
        chunks := writeCells (fun _ => .empty) (writes.filterMap SlotWrite.chunkOf),
        interiors := writeCells (fun _ => ⟨0, 0, 0, 0⟩) (writes.filterMap SlotWrite.interiorOf) }
      chunks interiors).bumped k = bases chunks interiors k := fun k => by
    cases k with
    | chunk => exact Nat.mul_div_cancel chunks (by decide)
    | interior =>
        simp only [Arena.bumped, commitRegions, interiorSlot, bases]
        omega
  refine ⟨⟨?_, ?_, ?_, ?_, ?_, ?_, ?_, fun k => rfl, fun k => List.nodup_nil,
    fun k i hi => absurd hi List.not_mem_nil⟩, bumped, fun k i => ?_, rfl⟩
  · simp only [commitRegions, interiorSlot]
    omega
  · simp only [commitRegions, interiorSlot, maxCapacity]
    omega
  · exact Nat.mul_mod_left ..
  · simp only [commitRegions, interiorSlot]
    omega
  · simp only [commitRegions, interiorSlot, chunkSlot]
    omega
  · exact Nat.sub_le ..
  · rw [bumped]
    simp only [bases]
    omega
  · rw [← bumped]
    exact ⟨And.left, fun hi => ⟨hi, List.not_mem_nil, List.not_mem_nil⟩⟩

end Tiled

namespace DynamicGraph

variable {g g' : DynamicGraph} {T : Nat → Adj}

/-- The arrays read off the live roots. -/
theorem snapshotCsr_ok (forest : Forest g.arena g.numVertices g.roots T) {offsets edges : List Nat}
    (h : g.snapshotCsr = some (offsets, edges)) :
    CsrOk offsets edges (fun v => (T v).elems) g.numVertices := by
  obtain ⟨present, rows, -, rfl⟩ := csrOf_range h
  have content : ∀ v < g.numVertices, (g.neighborsInto v).getD [] = (T v).elems := fun v hv => by
    have read := present v hv
    rw [neighborsInto, forest.treeFor v] at read ⊢
    exact (Writer.collect_some (forest.live v) read).1
  refine ⟨⟨rows.first, fun v hv => ?_⟩, ?_, fun v _ => (forest.live v).elems_sorted,
    fun v hv => ?_⟩
  · rw [rows.next v hv, content v hv]
  · exact List.flatMap_congr fun v hv => content v (List.mem_range.mp hv)
  · have keys := length_le_of_keys ((forest.live v).elems_sorted.imp Nat.ne_of_lt) (forest.keys v)
    have small := forest.small
    simp only [DynamicGraph.u32Max] at small
    omega

/-- The graph `g'` is `g` with its trees rebuilt: same neighbours and counters, a fresh arena
without garbage, and a snapshot of the new roots. -/
structure Compacted (g : DynamicGraph) (T : Nat → Adj) (g' : DynamicGraph) (T' : Nat → Adj) :
    Prop where
  forest : Forest g'.arena g'.numVertices g'.roots T'
  elems : ∀ v, (T' v).elems = (T v).elems
  balanced : ∀ v t, T' v = some t → Balanced t
  tight : ∀ k i, i < g'.arena.bumped k ↔ ∃ v, i ∈ (T' v).slots k
  held : ∀ k i, g'.arena.Held k i ↔ i < g'.arena.bumped k
  bumped : ∀ k, g'.arena.bumped k =
    slotTotal (fun v => (T v).elems) (List.range g.numVertices) k
  pins : g'.arena.pins = PinRegistry.new.register g.epoch
  latest : g'.latest = ⟨g.epoch, g.numVertices, g.numEdges, .fromRoots g'.roots⟩
  rest : ∃ arena roots latest, g' = { g with arena := arena, roots := roots, latest := latest }

/-- The trees of all vertices, by vertex. -/
def treeAt (trees : List Adj) (v : Nat) : Adj := trees.getD v none

theorem treeAt_mem {trees : List Adj} {v : Nat} {t : Tree} (h : treeAt trees v = some t) :
    v < trees.length ∧ some t ∈ trees := by
  unfold treeAt at h
  rw [List.getD_eq_getElem?_getD] at h
  cases own : trees[v]? with
  | none => rw [own] at h; cases h
  | some adj =>
      rw [own, Option.getD_some] at h
      subst h
      exact ⟨(List.getElem?_eq_some_iff.mp own).1, List.mem_of_getElem? own⟩

theorem mem_slots_treeAt {trees : List Adj} {k : SlotClass} {i : Nat} :
    i ∈ trees.flatMap (fun t => t.slots k) ↔ ∃ v, i ∈ (treeAt trees v).slots k := by
  constructor
  · intro hi
    obtain ⟨t, ht, hi⟩ := List.mem_flatMap.mp hi
    obtain ⟨v, hv, rfl⟩ := List.getElem_of_mem ht
    refine ⟨v, ?_⟩
    rwa [treeAt, List.getD_eq_getElem _ _ hv]
  · rintro ⟨v, hi⟩
    cases own : treeAt trees v with
    | none =>
        rw [own] at hi
        exact absurd hi List.not_mem_nil
    | some t =>
        rw [own] at hi
        exact List.mem_flatMap.mpr ⟨some t, (treeAt_mem own).2, hi⟩

/-- Trees over one run of distinct slots share none. -/
theorem treeAt_apart {trees : List Adj} {k : SlotClass}
    (nodup : (trees.flatMap fun t => t.slots k).Nodup) {u v : Nat} (apart : u ≠ v) {i : Nat}
    (hu : i ∈ (treeAt trees u).slots k) : i ∉ (treeAt trees v).slots k := by
  intro hv
  have inside : ∀ w, i ∈ (treeAt trees w).slots k → w < trees.length := fun w hw => by
    cases own : treeAt trees w with
    | none => rw [own] at hw; exact absurd hw List.not_mem_nil
    | some t => exact (treeAt_mem own).1
  have pairs := List.pairwise_iff_getElem.mp (List.nodup_flatMap.mp nodup).2
  have hu' := inside u hu
  have hv' := inside v hv
  rw [treeAt, List.getD_eq_getElem _ _ hu'] at hu
  rw [treeAt, List.getD_eq_getElem _ _ hv'] at hv
  rcases Nat.lt_or_gt_of_ne apart with lt | gt
  · exact pairs u v hu' hv' lt hu hv
  · exact pairs v u hv' hu' gt hv hu

theorem replaceArena_eq (g : DynamicGraph) (arena : Arena) (roots : List Nat) :
    g.replaceArena arena roots =
      { g with arena := { arena with pins := arena.pins.register g.epoch }
               roots := roots
               latest := ⟨g.epoch, g.numVertices, g.numEdges, .fromRoots roots⟩ } := rfl

theorem compacted_of_built (forest : Forest g.arena g.numVertices g.roots T)
    {a : Arena} {slots : SlotClass → Nat} (tiled : a.Tiled slots) {trees : List Adj}
    (elems : trees.map Adj.elems = (List.range g.numVertices).map fun v => (T v).elems)
    (shape : ∀ t, some t ∈ trees → t.WellFormed chunkCap ∧ Balanced t)
    (stored : ∀ t, some t ∈ trees → Stored a t)
    (all : ∀ k, (trees.flatMap fun t => t.slots k).Perm (List.range (slots k)))
    (total : ∀ k, slots k = slotTotal (fun v => (T v).elems) (List.range g.numVertices) k) :
    Compacted g T (g.replaceArena a (trees.map Adj.root)) (treeAt trees) := by
  have length : trees.length = g.numVertices := by
    have := congrArg List.length elems
    rwa [List.length_map, List.length_map, List.length_range] at this
  have own : ∀ v, (treeAt trees v).elems = (T v).elems := fun v => by
    rcases Nat.lt_or_ge v g.numVertices with inside | outside
    · have at_ := congrArg (fun l : List (List Nat) => l[v]?) elems
      simp only [List.getElem?_map, List.getElem?_range inside, Option.map_some,
        List.getElem?_eq_getElem (length ▸ inside), Option.some.injEq] at at_
      rw [treeAt, List.getD_eq_getElem _ _ (length ▸ inside), at_]
    · rw [treeAt, List.getD_eq_default _ _ (length.le.trans outside)]
      have root := forest.root_eq v
      rw [List.getD_eq_default _ _ (forest.length_eq.le.trans outside)] at root
      have live := forest.live v
      cases hT : T v with
      | none => rfl
      | some t =>
          rw [hT] at root live
          exact absurd root.symm live.root_ne
  have mem : ∀ k i, (∃ v, i ∈ (treeAt trees v).slots k) ↔ i < slots k := fun k i => by
    rw [← mem_slots_treeAt, (all k).mem_iff, List.mem_range]
  have nodup : ∀ k, (trees.flatMap fun t => t.slots k).Nodup := fun k =>
    (all k).nodup_iff.mpr List.nodup_range
  rw [replaceArena_eq]
  refine ⟨⟨{ tiled.ok with }, ?_, forest.small, fun v => ?_, fun v => ?_, fun v x hx => ?_,
    fun u v apart k i hu => treeAt_apart (nodup k) apart hu⟩, own, fun v t ht => ?_, fun k i => ?_,
    fun k i => ?_, fun k => (tiled.bumped k).trans (total k), ?_, rfl, ⟨_, _, _, rfl⟩⟩
  · rw [List.length_map, length]
  · rw [List.getD_eq_getElem?_getD, List.getElem?_map, treeAt, List.getD_eq_getElem?_getD]
    cases trees[v]? <;> rfl
  · cases ht : treeAt trees v with
    | none => trivial
    | some t =>
        have mine := (treeAt_mem ht).2
        refine Adj.Live.setPins (t := some t) ⟨⟨stored t mine, fun k i hi => ?_⟩, (shape t mine).1⟩
          a.gate _
        exact (tiled.held k i).mpr ((mem k i).mp ⟨v, ht ▸ hi⟩)
  · exact forest.keys v x (own v ▸ hx)
  · exact (shape t (treeAt_mem ht).2).2
  · rw [mem k i, ← tiled.bumped k]
    exact Iff.rfl
  · show a.Held k i ↔ i < a.bumped k
    rw [tiled.held, tiled.bumped]
  · rw [tiled.pins]

/-- A compaction that succeeds. -/
theorem compactWithCapacity_ok (forest : Forest g.arena g.numVertices g.roots T)
    {newCapacity available : Nat} {order : List SlotWrite → List SlotWrite}
    (any : ∀ writes, (order writes).Perm writes)
    (h : g.compactWithCapacity newCapacity available order = some (.ok g')) :
    g.poisoned = false ∧ g.arena.pins.pinCount ≤ 1 ∧ ∃ T', Compacted g T g' T' := by
  unfold compactWithCapacity at h
  split at h
  · cases h
  rename_i clean
  split at h
  · cases h
  rename_i unpinned
  refine ⟨by simpa using clean, Nat.le_of_not_lt unpinned, ?_⟩
  split at h
  · cases h
  rename_i offsets edges read
  have csr := snapshotCsr_ok forest read
  obtain ⟨built, trees, F, ran, done, rebuilt⟩ := rangeBounds_built csr available
  dsimp only at h
  split at h
  · cases h
  rename_i fits
  split at h
  · cases h
  rename_i a fresh
  rw [ran, Option.map_some] at h
  obtain rfl := Except.ok.inj (Option.some.inj h)
  rw [done.roots]
  have run : ∀ k, F k = List.range (F k).length := fun k => by
    rw [List.range_eq_range']
    have run := done.run k
    cases k <;> exact run
  have fewer : (F .interior).length ≤ (F .chunk).length := by
    rw [rebuilt.cost, rebuilt.cost]
    exact slotTotal_interior_le _ _
  rw [done.chunks, done.interiors] at fits ⊢
  have tiled := Arena.tiled fresh (order (built.flatMap fun out => out.2.written)) fewer
    (Nat.le_of_not_lt fits)
  have slots : ∀ k, bases (F .chunk).length (F .interior).length k = (F k).length := fun k => by
    cases k <;> rfl
  refine ⟨_, compacted_of_built forest tiled rebuilt.elems rebuilt.shape (fun t ht => ?_)
    (fun k => ?_) fun k => ?_⟩
  · have distinct : ∀ k, (SlotWrite.slotsOf (order (built.flatMap fun out => out.2.written))
        k).Nodup := fun k => by
      rw [(SlotWrite.slotsOf_perm (any _) k).nodup_iff, rebuilt.written, run]
      exact List.nodup_range
    refine rebuilt.stored (fun k i hi => ?_) _ (fun w hw => ?_) t ht
    · rw [run, List.mem_range, ← slots, ← tiled.bumped] at hi
      exact ((tiled.held k i).mpr (tiled.bumped k ▸ hi)).lt tiled.ok
    · have held := a.storeAll_holds distinct ((any _).mem_iff.mpr hw)
      cases w <;> exact held
  · rw [slots, ← run]
    exact rebuilt.slots k
  · rw [slots]
    exact rebuilt.cost k

/-- Of the three refusals the first is a poisoned graph's only. -/
theorem compactWithCapacity_error (g : DynamicGraph) {newCapacity available : Nat}
    {order : List SlotWrite → List SlotWrite} {e : CompactError}
    (h : g.compactWithCapacity newCapacity available order = some (.error e)) :
    e = .poisoned ↔ g.poisoned = true := by
  unfold compactWithCapacity at h
  split at h
  · rename_i poisoned
    obtain rfl := Except.error.inj (Option.some.inj h)
    exact iff_of_true rfl poisoned
  rename_i clean
  refine iff_of_false (fun same => ?_) clean
  subst same
  split at h
  · cases h
  split at h
  · cases h
  dsimp only at h
  split at h
  · cases h
  split at h
  · cases h
  · obtain ⟨built, -, same⟩ := Option.map_eq_some_iff.mp h
    cases same

end DynamicGraph

end AetherGraph
