import AetherGraph.BalancedBuild
import AetherGraph.Foundation.CellWrites

/-! The private slot region of one compaction thread, and the balanced trees built into it.
The writes are recorded; the shared arena takes them in whatever order the threads run. -/

namespace AetherGraph

open Foundation Foundation.LeafTree Arena

inductive SlotWrite where
  | chunk (idx : Nat) (val : Chunk)
  | interior (idx : Nat) (val : Interior)
  deriving DecidableEq, Repr

/-- One plain write into a reserved slot. -/
def Arena.store (a : Arena) : SlotWrite → Arena
  | .chunk idx val => { a with chunks := Function.update a.chunks idx val }
  | .interior idx val => { a with interiors := Function.update a.interiors idx val }

/-- The next free slot and the end of the reservation, per class. -/
structure RegionWriter where
  next : SlotClass → Nat
  stop : SlotClass → Nat
  written : List SlotWrite

/-- `Arena::region` -/
def Arena.region (chunkStart chunkCount interiorStart interiorCount : Nat) : RegionWriter where
  next
    | .chunk => chunkStart
    | .interior => interiorStart
  stop
    | .chunk => chunkStart + chunkCount
    | .interior => interiorStart + interiorCount
  written := []

namespace RegionWriter

/-- Past the reservation only a debug build panics. -/
def writeChunk (r : RegionWriter) (val : Chunk) : Nat × RegionWriter :=
  let idx := r.next .chunk
  (idx, { r with next := Function.update r.next .chunk (idx + 1)
                 written := r.written ++ [.chunk idx val] })

def writeInterior (r : RegionWriter) (val : Interior) : Nat × RegionWriter :=
  let idx := r.next .interior
  (idx, { r with next := Function.update r.next .interior (idx + 1)
                 written := r.written ++ [.interior idx val] })

instance : SlotSink RegionWriter where
  putChunk r val := ((r.writeChunk val).1, (r.writeChunk val).2)
  putInterior r val := ((r.writeInterior val).1, (r.writeInterior val).2)

end RegionWriter

/-- Slots of a perfectly balanced tree over `deg` elements, chunks and interiors. -/
def compactSlotCost (deg : Nat) : Nat × Nat :=
  if deg = 0 then (0, 0) else (leavesFor deg, leavesFor deg - 1)

/-- `none` is the failing `expect`. -/
def buildBalancedRegion (region : RegionWriter) (vals : List Nat) : Option (Nat × RegionWriter) :=
  match buildBalanced region vals with
  | (none, _) => none
  | (some root, region) => some (root, region)

namespace SlotWrite

def slot : SlotWrite → SlotClass × Nat
  | chunk idx _ => (.chunk, idx)
  | interior idx _ => (.interior, idx)

def chunkOf : SlotWrite → Option (Nat × Chunk)
  | chunk idx val => some (idx, val)
  | interior _ _ => none

def interiorOf : SlotWrite → Option (Nat × Interior)
  | chunk _ _ => none
  | interior idx val => some (idx, val)

/-- The slots of one class that some writes fill, in order. -/
def slotsOf (writes : List SlotWrite) (k : SlotClass) : List Nat :=
  writes.filterMap fun w => if w.slot.1 = k then some w.slot.2 else none

theorem slotsOf_append (writes more : List SlotWrite) (k : SlotClass) :
    slotsOf (writes ++ more) k = slotsOf writes k ++ slotsOf more k := List.filterMap_append

theorem slotsOf_perm {writes more : List SlotWrite} (same : writes.Perm more) (k : SlotClass) :
    (slotsOf writes k).Perm (slotsOf more k) := same.filterMap _

theorem slotsOf_chunk (writes : List SlotWrite) :
    slotsOf writes .chunk = (writes.filterMap chunkOf).map Prod.fst := by
  rw [slotsOf, List.map_filterMap]
  refine List.filterMap_congr fun w _ => ?_
  cases w <;> rfl

theorem slotsOf_interior (writes : List SlotWrite) :
    slotsOf writes .interior = (writes.filterMap interiorOf).map Prod.fst := by
  rw [slotsOf, List.map_filterMap]
  refine List.filterMap_congr fun w _ => ?_
  cases w <;> rfl

end SlotWrite

namespace Arena

open SlotWrite

/-- The arena after some writes, first to last. -/
def storeAll (a : Arena) (writes : List SlotWrite) : Arena := writes.foldl store a

theorem storeAll_eq (a : Arena) (writes : List SlotWrite) : a.storeAll writes =
    { a with chunks := writeCells a.chunks (writes.filterMap chunkOf)
             interiors := writeCells a.interiors (writes.filterMap interiorOf) } := by
  induction writes generalizing a with
  | nil => rfl
  | cons w writes ih =>
      rw [storeAll, List.foldl_cons, ← storeAll, ih]
      cases w <;> rfl

/-- The arena holds what `w` wrote. -/
def Holds (a : Arena) : SlotWrite → Prop
  | .chunk idx val => a.chunks idx = val
  | .interior idx val => a.interiors idx = val

/-- Writes to distinct slots all stay, whatever their order. -/
theorem storeAll_holds (a : Arena) {writes : List SlotWrite}
    (nodup : ∀ k, (slotsOf writes k).Nodup) {w : SlotWrite} (mem : w ∈ writes) :
    (a.storeAll writes).Holds w := by
  rw [storeAll_eq]
  cases w with
  | chunk idx val =>
      exact writeCells_mem _ (slotsOf_chunk writes ▸ nodup .chunk)
        (List.mem_filterMap.mpr ⟨_, mem, rfl⟩)
  | interior idx val =>
      exact writeCells_mem _ (slotsOf_interior writes ▸ nodup .interior)
        (List.mem_filterMap.mpr ⟨_, mem, rfl⟩)

/-- Two arenas holding the same write agree on its slot. -/
theorem Holds.same {a b : Arena} {w : SlotWrite} (ha : a.Holds w) (hb : b.Holds w) :
    SameNode a b w.slot.1 w.slot.2 := by
  cases w with
  | chunk idx val => exact Eq.trans hb ha.symm
  | interior idx val => exact Eq.trans hb ha.symm

end Arena

namespace RegionWriter

open SlotWrite

/-- An arena with this writer's own writes only. -/
def view (r : RegionWriter) : Arena :=
  ({ capacity := 0, gate := .new, pins := .new, low := 0, high := 0, recycler := .new,
     chunks := fun _ => .empty, interiors := fun _ => ⟨0, 0, 0, 0⟩ } : Arena).storeAll r.written

/-- Between `r` and `r'` the slots of `F` were written, each class in one ascending run. -/
structure Wrote (r r' : RegionWriter) (F : SlotClass → List Nat) : Prop where
  stop : r'.stop = r.stop
  next : ∀ k, r'.next k = r.next k + (F k).length
  run : ∀ k, F k = List.range' (r.next k) (F k).length
  writes : ∃ more, r'.written = r.written ++ more ∧ ∀ k, slotsOf more k = F k

variable {r r' r'' : RegionWriter} {F G : SlotClass → List Nat}

theorem Wrote.refl (r : RegionWriter) : Wrote r r fun _ => [] :=
  ⟨rfl, fun _ => rfl, fun _ => rfl, [], (List.append_nil _).symm, fun _ => rfl⟩

theorem Wrote.trans (h : Wrote r r' F) (h' : Wrote r' r'' G) :
    Wrote r r'' fun k => F k ++ G k where
  stop := h'.stop.trans h.stop
  next k := by rw [h'.next, h.next, List.length_append, Nat.add_assoc]
  run k := by
    have second := h'.run k
    rw [h.next] at second
    rw [List.length_append, ← List.range'_append_1, ← h.run, ← second]
  writes := by
    obtain ⟨more, eq, slots⟩ := h.writes
    obtain ⟨more', eq', slots'⟩ := h'.writes
    refine ⟨more ++ more', ?_, fun k => ?_⟩
    · rw [eq', eq, List.append_assoc]
    · rw [slotsOf_append, slots, slots']

theorem wrote_chunk (r : RegionWriter) (val : Chunk) :
    Wrote r (r.writeChunk val).2 (only .chunk [r.next .chunk]) where
  stop := rfl
  next k := by cases k <;> rfl
  run k := by cases k <;> rfl
  writes := ⟨[.chunk (r.next .chunk) val], rfl, fun k => by cases k <;> rfl⟩

theorem wrote_interior (r : RegionWriter) (val : Interior) :
    Wrote r (r.writeInterior val).2 (only .interior [r.next .interior]) where
  stop := rfl
  next k := by cases k <;> rfl
  run k := by cases k <;> rfl
  writes := ⟨[.interior (r.next .interior) val], rfl, fun k => by cases k <;> rfl⟩

theorem view_append {r r' : RegionWriter} {more : List SlotWrite}
    (eq : r'.written = r.written ++ more) : r'.view = r.view.storeAll more := by
  rw [view, eq, storeAll, List.foldl_append]
  rfl

theorem view_writeChunk (r : RegionWriter) (val : Chunk) :
    (r.writeChunk val).2.view = r.view.store (.chunk (r.next .chunk) val) :=
  view_append (show _ = r.written ++ [.chunk (r.next .chunk) val] from rfl)

theorem view_writeInterior (r : RegionWriter) (val : Interior) :
    (r.writeInterior val).2.view = r.view.store (.interior (r.next .interior) val) :=
  view_append (show _ = r.written ++ [.interior (r.next .interior) val] from rfl)

/-- Later writes land on later slots. -/
theorem Wrote.keeps (h : Wrote r r' F) (h' : Wrote r' r'' G) {k : SlotClass} {i : Nat}
    (hi : i ∈ F k) : SameNode r'.view r''.view k i := by
  obtain ⟨more, eq, slots⟩ := h'.writes
  have early : i < r'.next k := by
    rw [h.run] at hi
    have := (List.mem_range'_1.mp hi).2
    rwa [h.next]
  have off : i ∉ slotsOf more k := by
    rw [slots, h'.run]
    exact fun late => absurd (List.mem_range'_1.mp late).1 (Nat.not_le_of_lt early)
  rw [view_append eq, storeAll_eq]
  cases k with
  | chunk => exact writeCells_other _ (slotsOf_chunk more ▸ off)
  | interior => exact writeCells_other _ (slotsOf_interior more ▸ off)

instance : LawfulSink RegionWriter where
  arena := view
  Good _ := True
  Wrote := Wrote
  good _ := trivial
  trans := Wrote.trans
  keeps h h' hi := h.keeps h' hi
  putChunk_some {r r' val i} _ put := by
    obtain ⟨first, rfl⟩ := Prod.mk.inj put
    obtain rfl := Option.some.inj first
    refine ⟨r.wrote_chunk val, ?_⟩
    rw [view_writeChunk]
    exact Function.update_self ..
  putChunk_none _ put := nomatch (Prod.mk.inj put).1
  putInterior_some {r r' val i} _ put := by
    obtain ⟨first, rfl⟩ := Prod.mk.inj put
    obtain rfl := Option.some.inj first
    refine ⟨r.wrote_interior val, ?_⟩
    rw [view_writeInterior]
    exact Function.update_self ..
  putInterior_none _ put := nomatch (Prod.mk.inj put).1

theorem Wrote.slotsOf (h : Wrote r r' F) (k : SlotClass) :
    slotsOf r'.written k = slotsOf r.written k ++ F k := by
  obtain ⟨more, eq, slots⟩ := h.writes
  rw [eq, slotsOf_append, slots]

/-- A region never refuses a write. -/
theorem buildBalanced_region (r : RegionWriter) (vals : List Nat) :
    ∃ root r', buildBalanced r vals = (some root, r') := by
  induction hn : vals.length using Nat.strong_induction_on generalizing r vals with
  | _ n ih =>
      subst hn
      rw [buildBalanced]
      split
      · exact ⟨_, _, rfl⟩
      · rename_i big
        have mid := balancedMid_lt (Nat.lt_of_not_le big)
        obtain ⟨left, r₁, hleft⟩ := ih (vals.take (balancedMid vals.length)).length
          (by rw [List.length_take]; omega) r _ rfl
        obtain ⟨right, r₂, hright⟩ := ih (vals.drop (balancedMid vals.length)).length
          (by rw [List.length_drop]; omega) r₁ _ rfl
        dsimp only
        rw [hleft]
        dsimp only
        rw [hright]
        exact ⟨_, _, rfl⟩

/-- A tree built into a region, and the slots it took. -/
structure BuiltTree (r r' : RegionWriter) (vals : List Nat) (root : Nat) (t : Tree)
    (F : SlotClass → List Nat) : Prop extends Built r r' vals root t F where
  cost : ((F .chunk).length, (F .interior).length) = compactSlotCost vals.length

/-- The recursive build takes exactly the slots the closed formula foresees. -/
theorem buildBalancedRegion_built (r : RegionWriter) {vals : List Nat} (ne : vals ≠ [])
    (sorted : vals.Pairwise (· < ·)) (size : vals.length < 2 ^ 32) :
    ∃ root r' t F, buildBalancedRegion r vals = some (root, r') ∧
      BuiltTree r r' vals root t F := by
  obtain ⟨root, r', done⟩ := r.buildBalanced_region vals
  obtain ⟨t, F, built⟩ := buildBalanced_some (σ := RegionWriter) trivial ne sorted size done
  refine ⟨root, r', t, F, ?_, built, ?_⟩
  · rw [buildBalancedRegion, done]
  · have leaves := built.balanced.leaves built.wellFormed
    rw [built.elems_eq] at leaves
    have chunks := (built.slots_perm .chunk).length_eq
    have interiors := (built.slots_perm .interior).length_eq
    have nodes := t.leafSlots_length
    rw [compactSlotCost, if_neg (List.length_pos_of_ne_nil ne).ne', ← leaves, ← chunks,
      ← interiors]
    exact congrArg _ (by rw [Tree.slots, nodes, Nat.add_sub_cancel])

/-- What one build appended to the region's writes. -/
theorem Wrote.view_eq (h : Wrote r r' F) {more : List SlotWrite}
    (eq : r'.written = r.written ++ more) : r'.view = r.view.storeAll more ∧
      ∀ k, SlotWrite.slotsOf more k = F k := by
  refine ⟨view_append eq, fun k => ?_⟩
  have whole := h.slotsOf k
  rw [eq, slotsOf_append] at whole
  exact List.append_cancel_left whole

/-- A tree built into a region is stored in every arena that holds the writes of its build. -/
theorem BuiltTree.stored_in {vals : List Nat} {root : Nat} {t : Tree}
    (h : BuiltTree r r' vals root t F) (below : ∀ k, ∀ i ∈ F k, i < 2 ^ 31 - 1)
    {more : List SlotWrite} (eq : r'.written = r.written ++ more) {a : Arena}
    (holds : ∀ w ∈ more, a.Holds w) : Tree.Stored a t := by
  obtain ⟨view, slots⟩ := h.wrote.view_eq eq
  have distinct : ∀ k, (SlotWrite.slotsOf more k).Nodup := fun k => by
    rw [slots, h.wrote.run]
    exact List.nodup_range'
  refine (h.stored below).congr fun k i hi => ?_
  have mem : i ∈ SlotWrite.slotsOf more k := by
    rw [slots]
    exact (h.slots_perm k).mem_iff.mp hi
  obtain ⟨w, hw, slot⟩ := List.mem_filterMap.mp mem
  obtain ⟨rfl, rfl⟩ : w.slot.1 = k ∧ w.slot.2 = i := by
    split at slot
    · rename_i own
      exact ⟨own, Option.some.inj slot⟩
    · cases slot
  have own : r'.view.Holds w := view ▸ storeAll_holds r.view distinct hw
  exact own.same (holds w hw)

end RegionWriter

end AetherGraph
