import AetherGraph.Layout
import AetherGraph.SlotOwnership

/-! An insert on an arena with slots for its path and no more: the rebuild finds none, and the
path-copied tree is what comes back. -/

namespace AetherGraph

open Foundation Foundation.LeafTree Arena ArenaWriter Tree

namespace Arena

/-- Nothing to recycle, and `n` bytes between the cursors. -/
structure Gap (a : Arena) (n : Nat) : Prop where
  ok : a.Ok
  heads : ∀ k, a.recycler.freeHead k = noSlot
  young : a.recycler.pendingYoung = []
  old : a.recycler.pendingOld = []
  bytes : a.high = a.low + n
  small : a.capacity ≤ 2 ^ 34

theorem Gap.popFree {a : Arena} {n : Nat} (h : a.Gap n) (k : SlotClass) : a.popFree k = none := by
  rw [Arena.popFree, if_pos (h.heads k)]

theorem Gap.bump {a : Arena} {k : SlotClass} {n : Nat} (h : a.Gap (n + slotSize k)) :
    ∃ idx a', a.bump k = some (idx, a') ∧ a'.Gap n ∧ a'.capacity = a.capacity := by
  have cap := h.ok.capacity_mod
  have high_mod := h.ok.high_mod
  have high_le := h.ok.high_le
  have bytes := h.bytes
  have small := h.small
  cases k with
  | chunk =>
      have found : a.bump .chunk = some (a.low / chunkSlot, { a with low := a.low + chunkSlot }) := by
        simp only [Arena.bump, bumpChunk]
        rw [if_neg (by simp only [slotSize] at bytes; omega)]
      have grows := bump_grows h.ok found
      exact ⟨_, _, found, ⟨grows.ok, h.heads, h.young, h.old, by
        simp only [slotSize] at bytes
        simp only [bytes]
        omega, small⟩, rfl⟩
  | interior =>
      have found : a.bump .interior = some ((a.capacity - (a.high - interiorSlot)) / interiorSlot - 1,
          { a with high := a.high - interiorSlot }) := by
        simp only [Arena.bump, bumpInterior]
        rw [if_neg (by simp only [slotSize] at bytes; omega), if_neg (by
          simp only [interiorSlot]
          omega)]
      have grows := bump_grows h.ok found
      exact ⟨_, _, found, ⟨grows.ok, h.heads, h.young, h.old, by
        simp only [slotSize] at bytes
        simp only [bytes]
        omega, small⟩, rfl⟩

theorem Gap.reclaimReady {a : Arena} {n : Nat} (h : a.Gap n) : a.reclaimReady = a := by
  simp only [Arena.reclaimReady, h.young, h.old, List.head?_nil, Option.map_none, Option.filter_none,
    laterNeed]

theorem Gap.bump_zero {a : Arena} (h : a.Gap 0) (k : SlotClass) : a.bump k = none := by
  have bytes := h.bytes
  cases k with
  | chunk =>
      simp only [Arena.bump, bumpChunk]
      rw [if_pos (by simp only [chunkSlot]; omega)]
  | interior =>
      simp only [Arena.bump, bumpInterior]
      rw [if_pos (by simp only [interiorSlot]; omega)]

end Arena

namespace ArenaWriter

variable {w : ArenaWriter} {n : Nat}

theorem alloc_gap {k : SlotClass} (h : w.arena.Gap (n + slotSize k)) :
    ∃ idx w', w.alloc k = (some idx, w') ∧ w'.arena.Gap n ∧
      w'.arena.capacity = w.arena.capacity := by
  obtain ⟨idx, a', found, gap, capacity⟩ := h.bump
  exact ⟨idx, { w with arena := a' }, by rw [alloc, h.popFree, found], gap, capacity⟩

theorem alloc_no_gap (h : w.arena.Gap 0) (k : SlotClass) : (w.alloc k).1 = none := by
  simp only [alloc, h.popFree, h.bump_zero, h.reclaimReady]

theorem Gap.written {a b : Arena} (h : a.Gap n) (ok : b.Ok) (capacity : b.capacity = a.capacity)
    (low : b.low = a.low) (high : b.high = a.high) (recycler : b.recycler = a.recycler) :
    b.Gap n :=
  ⟨ok, recycler ▸ h.heads, recycler ▸ h.young, recycler ▸ h.old, by rw [high, low, h.bytes],
    capacity ▸ h.small⟩

theorem allocWriteChunk_gap (h : w.arena.Gap (n + chunkSlot)) (val : Chunk) :
    ∃ idx w', w.allocWriteChunk val = (some idx, w') ∧ w'.arena.Gap n ∧
      w'.arena.capacity = w.arena.capacity := by
  obtain ⟨idx, w₁, found, gap, capacity⟩ := alloc_gap (k := .chunk) h
  have written : w.allocWriteChunk val = (some idx,
      { w₁ with arena := { w₁.arena with chunks := Function.update w₁.arena.chunks idx val } }) := by
    rw [allocWriteChunk, allocChunk, found]
  obtain ⟨grows, -⟩ := allocWriteChunk_some h.ok written
  exact ⟨idx, _, written, Gap.written gap grows.ok rfl rfl rfl rfl, capacity⟩

theorem allocWriteInterior_gap (h : w.arena.Gap (n + interiorSlot)) (val : Interior) :
    ∃ idx w', w.allocWriteInterior val = (some idx, w') ∧ w'.arena.Gap n ∧
      w'.arena.capacity = w.arena.capacity := by
  obtain ⟨idx, w₁, found, gap, capacity⟩ := alloc_gap (k := .interior) h
  have written : w.allocWriteInterior val = (some idx, { w₁ with arena :=
      { w₁.arena with interiors := Function.update w₁.arena.interiors idx val } }) := by
    rw [allocWriteInterior, allocInterior, found]
  obtain ⟨grows, -⟩ := allocWriteInterior_some h.ok written
  exact ⟨idx, _, written, Gap.written gap grows.ok rfl rfl rfl rfl, capacity⟩

end ArenaWriter

/-- Bytes of the slots a leaf insert takes. -/
def leafBytes (c : Chunk) : Nat := if c.isFull then 2 * chunkSlot + interiorSlot else chunkSlot

theorem leafInsert_gap {w : ArenaWriter} {n : Nat} {c : Chunk} (h : w.arena.Gap (n + leafBytes c))
    {v : Nat} (fresh : leafInsert w c v ≠ .duplicate) :
    ∃ child levels w', leafInsert w c v = .placed child levels w' ∧ w'.arena.Gap n ∧
      w'.arena.capacity = w.arena.capacity := by
  unfold leafBytes at h
  unfold leafInsert at fresh ⊢
  split at h
  · rename_i full
    rw [if_pos full] at fresh ⊢
    cases halves : splitInsert c v with
    | none => rw [halves] at fresh; exact absurd rfl fresh
    | some pair =>
        obtain ⟨left, right⟩ := pair
        obtain ⟨lo, w₁, first, gap₁, cap₁⟩ := allocWriteChunk_gap (w := w)
          (n := n + chunkSlot + interiorSlot)
          (by rwa [show n + chunkSlot + interiorSlot + chunkSlot =
            n + (2 * chunkSlot + interiorSlot) by simp only [chunkSlot, interiorSlot]]) left
        obtain ⟨hi, w₂, second, gap₂, cap₂⟩ := allocWriteChunk_gap (w := w₁) (n := n + interiorSlot)
          (by rwa [show n + interiorSlot + chunkSlot = n + chunkSlot + interiorSlot by omega]) right
        obtain ⟨idx, w₃, third, gap₃, cap₃⟩ := allocWriteInterior_gap gap₂
          ⟨lo, hi, left.count + right.count, c.split.2.min⟩
        refine ⟨tagInterior idx, 1, w₃, ?_, gap₃, by rw [cap₃, cap₂, cap₁]⟩
        simp only [allocSplit, first, second, third]
  · rename_i room
    rw [if_neg room] at fresh ⊢
    cases placed : c.insert v with
    | none => rw [placed] at fresh; exact absurd rfl fresh
    | some c' =>
        obtain ⟨idx, w', found, gap, capacity⟩ := allocWriteChunk_gap h c'
        exact ⟨idx, 0, w', by simp only [found], gap, capacity⟩

theorem copyPath_gap (bump : Nat) {path : List (Nat × Bool)} {w : ArenaWriter} {n : Nat}
    (h : w.arena.Gap (n + path.length * interiorSlot)) (child : Nat) :
    ∃ copied w', copyPath bump w path child = (some copied, w') ∧ w'.arena.Gap n ∧
      w'.arena.capacity = w.arena.capacity := by
  induction path generalizing n with
  | nil =>
      rw [List.length_nil, Nat.zero_mul] at h
      exact ⟨_, w, rfl, h, rfl⟩
  | cons step path ih =>
      obtain ⟨offset, left⟩ := step
      rw [List.length_cons, Nat.succ_mul, ← Nat.add_assoc, Nat.add_right_comm] at h
      obtain ⟨⟨root, newPath⟩, w₁, inner, gap, cap₁⟩ := ih h
      simp only [copyPath, inner]
      obtain ⟨idx, w₂, found, gap₂, cap₂⟩ := allocWriteInterior_gap gap
        ⟨if left then root else (w₁.arena.interiorAt offset).left,
          if left then (w₁.arena.interiorAt offset).right else root,
          ((w₁.arena.interiorAt offset).count + bump) % 2 ^ 32,
          (w₁.arena.interiorAt offset).splitKey⟩
      exact ⟨_, w₂, by rw [found], gap₂, cap₂.trans cap₁⟩

/-- A build's first slot is a chunk. -/
theorem buildBalanced_no_gap {w : ArenaWriter} (h : w.arena.Gap 0) (vals : List Nat) :
    (buildBalanced w vals).1 = none := by
  induction hn : vals.length using Nat.strong_induction_on generalizing vals with
  | _ n ih =>
      subst hn
      rw [buildBalanced]
      split
      · change (w.allocWriteChunk _).1 = none
        have failed := alloc_no_gap h .chunk
        unfold allocWriteChunk allocChunk
        split
        · rfl
        · rename_i found
          rw [found] at failed
          cases failed
      · rename_i big
        have mid := balancedMid_lt (Nat.lt_of_not_le big)
        have lower := ih (vals.take (balancedMid vals.length)).length
          (by rw [List.length_take]; omega) _ rfl
        split
        · rfl
        · rename_i found
          rw [found] at lower
          cases lower

/-- An insert that has copied its path returns the copy or what the rebuild makes of it. -/
theorem CTree.insertWithScratch_of_copied {tree : CTree} {w : ArenaWriter} {val : Nat}
    {c : CopiedPath} (copied : tree.copiedPath w val = some c) (log : RetireLog) :
    ∃ log₁, tree.insertWithScratch w val log =
      if c.needRebalance then insertRebalanced c.writer c.newRoot c.newPath c.wentLeft log₁
      else .ok (.inserted ⟨c.newRoot⟩, c.writer, log₁) := by
  by_cases proper : tree.root = null
  · rw [copiedPath, if_pos proper] at copied
    cases copied
  rw [copiedPath, if_neg proper] at copied
  rw [insertWithScratch, if_neg proper]
  revert copied
  cases w.arena.descend val maxDepth tree.root with
  | none => rintro ⟨⟩
  | some found =>
      obtain ⟨path, cur⟩ := found
      dsimp only
      cases leafInsert w (w.arena.chunks cur) val with
      | duplicate => rintro ⟨⟩
      | arenaFull w₁ => rintro ⟨⟩
      | placed child splitLevels w₁ =>
          dsimp only
          cases copyPath 1 w₁ path child with
          | mk copied w₂ =>
              cases copied with
              | none => rintro ⟨⟩
              | some root =>
                  intro copied
                  obtain rfl := Option.some.inj copied
                  exact ⟨_, rfl⟩

namespace Arena

/-- `a` emptied of what waits for reuse, with exactly `n` bytes between the cursors. -/
def tightened (a : Arena) (n : Nat) : Arena :=
  { a with
    capacity := a.low + n + (a.capacity - a.high)
    gate := .new
    pins := .new
    high := a.low + n
    recycler := .new }

theorem tightened_gap {a : Arena} (ok : a.Ok) {n : Nat} (aligned : n % interiorSlot = 0)
    (small : a.low + n + (a.capacity - a.high) ≤ 2 ^ 34) : (a.tightened n).Gap n := by
  have cap := ok.capacity_mod
  have low := ok.low_mod
  have high := ok.high_mod
  have le := ok.high_le
  have top := ok.interior_lt
  have interior : (a.tightened n).bumped .interior = a.bumped .interior := by
    simp only [bumped, tightened]
    congr 1
    omega
  refine ⟨?_, fun k => rfl, rfl, rfl, rfl, small⟩
  exact {
    capacity_mod := by
      simp only [tightened, interiorSlot, chunkSlot] at *
      omega
    capacity_le := by
      simp only [tightened, maxCapacity, interiorSlot] at *
      omega
    low_mod := low
    high_mod := by
      simp only [tightened, interiorSlot, chunkSlot] at *
      omega
    low_le_high := Nat.le_add_right ..
    high_le := Nat.le_add_right ..
    interior_lt := interior ▸ top
    threaded := fun k => rfl
    nodup := fun k => List.nodup_nil
    below := fun k i hi => absurd hi List.not_mem_nil }

theorem tightened_preserves {a : Arena} {t : Adj} (live : t.Live a) {n : Nat}
    (gap : (a.tightened n).Gap n) : a.Preserves (a.tightened n) t.root := by
  refine ⟨gap.ok, fun k i reach => ⟨⟨?_, List.not_mem_nil, List.not_mem_nil⟩, ?_⟩⟩
  · have below := (live.held k i (live.reach_iff.mp reach)).1
    cases k with
    | chunk => exact below
    | interior =>
        simp only [bumped, tightened] at below ⊢
        rwa [Nat.add_sub_cancel_left]
  · cases k <;> rfl

end Arena

theorem rebalance_no_gap {w : ArenaWriter} (h : w.arena.Gap 0) {newRoot root : Nat}
    {newPath : List Nat} {wentLeft : List Bool} {log log' : RetireLog} {w' : ArenaWriter} :
    rebalance w newRoot newPath wentLeft log ≠ .ok (some root, w', log') := by
  intro done
  unfold rebalance at done
  dsimp only at done
  split at done
  · cases done
  rename_i chunks walked
  have failed := buildBalanced_no_gap h (chunks.flatMap Chunk.asSlice)
  split at done
  · cases done
  · rename_i built
    rw [built] at failed
    cases failed

/-- On any live tree there is a state of the arena in which an insert places its key, finds
no slot to rebuild with, and returns the tree as the path copy left it. -/
theorem exists_unrebalanced {a : Arena} (ok : a.Ok) {t : Tree} (live : Adj.Live a (some t))
    {v : Nat} (fresh : v ∉ t.elems) (short : t.pathLength v ≤ maxDepth)
    (shallow : t.leftDepth < maxDepth) (size : t.elems.length + 1 < 2 ^ 32)
    (small : a.low + (a.capacity - a.high) + 2000 ≤ 2 ^ 34) :
    ∃ w w' log' c ss sub, a.Preserves w.arena (offset t) ∧ CopiedOnto w t v c ss sub ∧
      (CTree.mk (offset t)).insertWithScratch w v .new =
        .ok (.inserted ⟨offset (t.graft v ss sub)⟩, w', log') ∧
      w'.arena.Ok ∧ Adj.Live w'.arena (some (t.graft v ss sub)) ∧
      w'.arena.low + (w'.arena.capacity - w'.arena.high) ≤
        a.low + (a.capacity - a.high) + 2000 := by
  obtain ⟨n, hn⟩ : ∃ n, n = t.pathLength v * interiorSlot + leafBytes (a.chunks (targetSlot v t)) :=
    ⟨_, rfl⟩
  have bound : n ≤ 2000 ∧ n % interiorSlot = 0 := by
    simp only [hn, leafBytes, chunkSlot, interiorSlot, maxDepth] at short ⊢
    split <;> omega
  have gap := tightened_gap ok bound.2 (by omega)
  have same := tightened_preserves live gap
  obtain ⟨kept, wf⟩ := live.preserved same
  obtain ⟨w, hw⟩ : ∃ w, w = (a.tightened n).writer := ⟨_, rfl⟩
  have arena_eq : w.arena = a.tightened n := by rw [hw]; rfl
  rw [← arena_eq] at gap same kept
  -- the slots of the path and the leaf are there
  have leaf_gap : w.arena.Gap (t.pathLength v * interiorSlot +
      leafBytes (w.arena.chunks (targetSlot v t))) := by
    rw [hn] at gap
    rw [arena_eq] at gap ⊢
    exact gap
  have new : leafInsert w (w.arena.chunks (targetSlot v t)) v ≠ .duplicate := by
    intro duplicate
    obtain ⟨ks, leaf_eq⟩ := subtreeAt_pathLength v t
    have keptLeaf := kept.subtreeAt v (t.pathLength v)
    have wfLeaf := wf.subtreeAt v (t.pathLength v)
    rw [leaf_eq] at keptLeaf wfLeaf
    obtain ⟨-, count, elems⟩ := keptLeaf.stored
    have outcome := leafInsert_spec gap.ok (c := w.arena.chunks (targetSlot v t))
      (by rw [count]; exact wfLeaf.2.1) (by rw [elems]; exact wfLeaf.2.2) v
    rw [elems, duplicate] at outcome
    refine fresh ((mem_elems_iff_subtreeAt wf v (t.pathLength v)).mpr ?_)
    rw [leaf_eq]
    exact outcome
  obtain ⟨child, levels, w₁, placed, gap₁, cap₁⟩ := leafInsert_gap leaf_gap new
  rw [← steps_length, ← Nat.zero_add ((steps v t).length * interiorSlot)] at gap₁
  obtain ⟨⟨newRoot, newPath⟩, w₂, copied, gap₂, cap₂⟩ := copyPath_gap 1 gap₁ child
  have reported : (CTree.mk (offset t)).copiedPath w v = some ⟨newRoot, newPath,
      (steps v t).map Prod.snd, (steps v t).length + levels,
      w.arena.subtreeSize (offset t) + 1, w₂⟩ := by
    rw [CTree.copiedPath, if_neg kept.stored.offset_lt.ne, descend_stored kept.stored, if_pos short]
    simp only [placed, copied]
  obtain ⟨ss, sub, onto⟩ := copiedPath_spec gap.ok kept wf size reported
  obtain ⟨log₁, result⟩ := CTree.insertWithScratch_of_copied reported .new
  have used : ∀ {w' : ArenaWriter}, w'.arena.Ok → w'.arena.capacity = w₂.arena.capacity →
      w'.arena.low + (w'.arena.capacity - w'.arena.high) ≤ a.low + (a.capacity - a.high) + 2000 := by
    intro w' ok' cap
    have whole : w.arena.capacity = a.low + n + (a.capacity - a.high) := by rw [arena_eq]; rfl
    have := ok'.low_le_high
    have := ok'.high_le
    omega
  cases need : CopiedPath.needRebalance _ with
  | false =>
      rw [need, if_neg Bool.false_ne_true] at result
      rw [onto.newRoot_eq] at result
      exact ⟨w, w₂, log₁, _, ss, sub, same, onto, result, onto.ok, ⟨onto.kept, onto.wellFormed⟩,
        used onto.ok rfl⟩
  | true =>
      rw [need, if_pos rfl] at result
      have outcome := rebalance_spec onto.ok onto.kept onto.wellFormed
        (onto.total_eq ▸ onto.grew ▸ size) onto.onPath log₁
      rw [← onto.newRoot_eq] at outcome
      unfold CTree.insertRebalanced at result
      split at result
      · rename_i panic
        rw [panic] at outcome
        have deep := leftDepth_graft_le v sub ss t
        have turns := leftTurns_le_leftDepth v ss.length t
        have top := leftDepth_le_depth sub
        have levels := onto.sub_depth
        have := outcome.1
        omega
      · rename_i done
        exact absurd done (rebalance_no_gap gap₂)
      · rename_i w₃ log₃ done
        rw [done] at outcome
        obtain ⟨-, F, grown⟩ := outcome
        rw [onto.newRoot_eq] at result
        have live' : Adj.Live w₃.arena (some (t.graft v ss sub)) :=
          ⟨onto.kept.grown grown, onto.wellFormed⟩
        exact ⟨w, w₃, log₃, _, ss, sub, same, onto, result, grown.ok, live',
          used grown.ok grown.grows.capacity⟩

end AetherGraph
