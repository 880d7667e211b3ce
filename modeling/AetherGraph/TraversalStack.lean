import AetherGraph.FailedRebuild

/-! The fixed stacks of `visit_chunks` and `retire_subtree` over every sequence of inserts whose
allocations succeed or fail.  The descent turns away a path longer than `maxDepth`, but a path of
exactly `maxDepth` nodes may still end in a leaf that splits. -/

namespace Foundation.LeafTree

variable {α ι : Type}

/-- Nodes down the right edge. -/
def rightEdge : LeafTree α ι → Nat
  | leaf _ _ => 0
  | node _ _ _ r => r.rightEdge + 1

/-- Keys of the leaf the right edge ends at. -/
def lastLeaf : LeafTree α ι → List α
  | leaf _ ks => ks
  | node _ _ _ r => r.lastLeaf

theorem rightEdge_of_flat {t : LeafTree α ι} (flat : t.depth = 0) :
    t.rightEdge = 0 ∧ t.lastLeaf = t.elems := by
  cases t with
  | leaf s ks => exact ⟨rfl, rfl⟩
  | node s key l r => cases flat

theorem rightEdge_of_split {t : LeafTree α ι} (split : t.depth = 1) : t.rightEdge = 1 := by
  cases t with
  | leaf s ks => cases split
  | node s key l r =>
      simp only [depth] at split
      rw [rightEdge, (rightEdge_of_flat (t := r) (by omega)).1]

variable [LinearOrder α]

theorem lastLeaf_bounds {cap : Nat} {t : LeafTree α ι} (wf : t.WellFormed cap) :
    0 < t.lastLeaf.length ∧ t.lastLeaf.length ≤ cap := by
  induction t with
  | leaf s ks => exact ⟨List.length_pos_of_ne_nil wf.1, wf.2.1⟩
  | node s key l r _ ih => exact ih wf.2.1

/-- A key above all others turns right everywhere. -/
theorem WellFormed.not_lt_key {cap : Nat} {s : ι} {key v : α} {l r : LeafTree α ι}
    (wf : (node s key l r).WellFormed cap) (above : ∀ x ∈ (node s key l r).elems, x < v) :
    ¬ v < key := by
  obtain ⟨x, hx⟩ := List.exists_mem_of_ne_nil _ wf.2.1.elems_ne_nil
  exact not_lt.mpr ((wf.2.2.2 x hx).trans (above x (List.mem_append_right _ hx)).le)

theorem pathLength_above {cap : Nat} {t : LeafTree α ι} (wf : t.WellFormed cap) {v : α}
    (above : ∀ x ∈ t.elems, x < v) : t.pathLength v = t.rightEdge := by
  induction t with
  | leaf => rfl
  | node s key l r _ ih =>
      rw [pathLength, if_neg (wf.not_lt_key above), rightEdge,
        ih wf.2.1 fun x hx => above x (List.mem_append_right _ hx)]

theorem subtreeAt_above {cap : Nat} {t : LeafTree α ι} (wf : t.WellFormed cap) {v : α}
    (above : ∀ x ∈ t.elems, x < v) : (t.subtreeAt v t.rightEdge).elems = t.lastLeaf := by
  induction t with
  | leaf => rfl
  | node s key l r _ ih =>
      rw [rightEdge, subtreeAt, if_neg (wf.not_lt_key above), lastLeaf]
      exact ih wf.2.1 fun x hx => above x (List.mem_append_right _ hx)

theorem leftTurns_above {cap : Nat} {t : LeafTree α ι} (wf : t.WellFormed cap) {v : α}
    (above : ∀ x ∈ t.elems, x < v) (n : Nat) : t.leftTurns v n = 0 := by
  induction t generalizing n with
  | leaf => cases n <;> rfl
  | node s key l r _ ih =>
      cases n with
      | zero => rfl
      | succ n =>
          rw [leftTurns, if_neg (wf.not_lt_key above)]
          exact ih wf.2.1 (fun x hx => above x (List.mem_append_right _ hx)) n

theorem graft_above {cap : Nat} {t : LeafTree α ι} (wf : t.WellFormed cap) {v : α}
    (above : ∀ x ∈ t.elems, x < v) {ss : List ι} (length : ss.length = t.rightEdge)
    (sub : LeafTree α ι) :
    (t.graft v ss sub).rightEdge = t.rightEdge + sub.rightEdge ∧
      (t.graft v ss sub).lastLeaf = sub.lastLeaf := by
  induction t generalizing ss with
  | leaf s ks =>
      obtain rfl := List.eq_nil_of_length_eq_zero length
      rw [graft_nil, rightEdge, Nat.zero_add]
      exact ⟨rfl, rfl⟩
  | node s key l r _ ih =>
      cases ss with
      | nil => cases length
      | cons s' ss =>
          obtain ⟨edge, last⟩ := ih wf.2.1 (fun x hx => above x (List.mem_append_right _ hx))
            (Nat.succ.inj length)
          rw [graft, if_neg (wf.not_lt_key above), rightEdge, lastLeaf, edge, last, rightEdge]
          exact ⟨by omega, rfl⟩

end Foundation.LeafTree

namespace AetherGraph

open Foundation Foundation.LeafTree Arena ArenaWriter Tree

/-- A root-to-leaf path with `n` interior nodes. -/
inductive Arena.Path (a : Arena) : Nat → Nat → Prop where
  | leaf {off} : off ≠ null → isLeaf off = true → Path a off 0
  | left {off n} : off ≠ null → isLeaf off = false → Path a (a.interiorAt off).left n →
      Path a off (n + 1)
  | right {off n} : off ≠ null → isLeaf off = false → Path a (a.interiorAt off).right n →
      Path a off (n + 1)

theorem Tree.Laid.path_le {a : Arena} {t : Tree} (h : Laid a t) {n : Nat}
    (path : a.Path (offset t) n) : n ≤ t.depth := by
  induction t generalizing n with
  | leaf s ks =>
      have hl := isLeaf_of_lt (show s < 2 ^ 31 from h)
      cases path with
      | leaf => exact Nat.zero_le _
      | left _ hn => rw [offset, hl] at hn; cases hn
      | right _ hn => rw [offset, hl] at hn; cases hn
  | node s key l r ihl ihr =>
      obtain ⟨-, left, right, -, laidL, laidR⟩ := id h
      simp only [depth]
      cases path with
      | leaf => exact Nat.zero_le _
      | left _ _ rest =>
          rw [offset, h.interiorAt, left] at rest
          have := ihl laidL rest
          omega
      | right _ _ rest =>
          rw [offset, h.interiorAt, right] at rest
          have := ihr laidR rest
          omega

theorem Tree.Laid.path_rightEdge {a : Arena} {t : Tree} (h : Laid a t) :
    a.Path (offset t) t.rightEdge := by
  induction t with
  | leaf s ks => exact .leaf h.offset_lt.ne (isLeaf_of_lt h)
  | node s key l r _ ih =>
      obtain ⟨top, -, right, -, -, laidR⟩ := id h
      refine .right h.offset_lt.ne (isLeaf_tagInterior (by omega)) ?_
      rw [offset, h.interiorAt, right]
      exact ih laidR

/-- The descent for `val` passes `maxDepth` nodes and ends at a full leaf that is split. -/
def CTree.splitsAtLimit (tree : CTree) (a : Arena) (val : Nat) : Bool :=
  decide (tree.root ≠ null) &&
    match a.descend val maxDepth tree.root with
    | none => false
    | some (path, cur) => decide (path.length = maxDepth) && (a.chunks cur).splits val

/-- Trees made by inserts that `fits` lets through, each into the tree the last one returned.
Between two inserts the arena may change anywhere but in the nodes of that tree, so every
allocation of an insert may find a slot or none. -/
inductive CTree.Made (fits : CTree → Arena → Nat → Prop) : Arena → CTree → Prop where
  | empty {a} : a.Ok → Made fits a .empty
  | insert {a w tree val log tree' w' log'} : Made fits a tree → a.Preserves w.arena tree.root →
      val < 2 ^ 32 → fits tree w.arena val →
      tree.insertWithScratch w val log = .ok (.inserted tree', w', log') → Made fits w'.arena tree'

/-- No path is longer than the stacks, both walks return, and so does the next insert. -/
structure CTree.StackSafe (fits : CTree → Arena → Nat → Prop) (a : Arena) (tree : CTree) :
    Prop where
  depth : ∀ n, a.Path tree.root n → n ≤ maxDepth
  visits : ∀ a', a.Preserves a' tree.root → (tree.chunks a').isSome = true
  retires : tree.root ≠ null → ∀ a' log, a.Preserves a' tree.root →
    (a'.retireSubtree tree.root log).isSome = true
  inserts : ∀ w val log, a.Preserves w.arena tree.root → fits tree w.arena val →
    (tree.insertWithScratch w val log).isOk = true

/-- Inserts that split no leaf at the limit. -/
def CTree.Clear (tree : CTree) (a : Arena) (val : Nat) : Prop := tree.splitsAtLimit a val = false

namespace Adj

theorem placedDepth_le {a : Arena} {t : Adj} (housed : t.Housed a) {v : Nat}
    (shallow : t.depth ≤ maxDepth) (clear : (CTree.mk t.root).Clear a v) :
    t.placedDepth a v ≤ maxDepth := by
  cases t with
  | none => exact Nat.zero_le _
  | some t =>
      have within := (pathLength_le_depth v t).trans shallow
      rw [CTree.Clear, CTree.splitsAtLimit,
        decide_eq_true (show (CTree.mk (Adj.root (some t))).root ≠ null from
          housed.1.laid.offset_lt.ne), Bool.true_and] at clear
      rw [show (CTree.mk (Adj.root (some t))).root = offset t from rfl,
        descend_laid housed.1.laid, if_pos within] at clear
      simp only [Adj.depth, placedDepth] at shallow ⊢
      simp only [steps_length, Bool.and_eq_false_iff, decide_eq_false_iff_not] at clear
      rcases clear with short | stays
      · have := Bool.toNat_le ((a.chunks (targetSlot v t)).splits v)
        omega
      · rw [stays, Bool.toNat_false]
        omega

theorem stackSafe {a : Arena} {t : Adj} (housed : t.Housed a) (shallow : t.depth ≤ maxDepth) :
    CTree.StackSafe CTree.Clear a ⟨t.root⟩ := by
  refine ⟨fun n path => ?_, fun a' same => ?_, fun proper a' log same => ?_,
    fun w val log same clear => ?_⟩
  · cases t with
    | none => cases path <;> contradiction
    | some t => exact (housed.1.laid.path_le path).trans shallow
  · have housed := housed.preserved same
    cases t with
    | none => rfl
    | some t =>
        have proper : (CTree.mk (Adj.root (some t))).root ≠ null := housed.1.laid.offset_lt.ne
        have walk := visitChunks_laid housed.1.laid housed.2 housed.1.below
        rw [if_pos ((leftDepth_le_depth t).trans shallow)] at walk
        rw [CTree.chunks, if_neg proper]
        exact Option.isSome_iff_exists.mpr ⟨_, walk⟩
  · have housed := housed.preserved same
    cases t with
    | none => exact absurd rfl proper
    | some t =>
        have walk := retireSubtree_laid housed.1.laid housed.2 housed.1.below
          ((leftDepth_le_depth t).trans shallow) log
        exact Option.isSome_iff_exists.mpr ⟨_, walk⟩
  · have housed := housed.preserved same
    have outcome := insertWithScratch_linked same.ok housed val log
    cases done : CTree.insertWithScratch ⟨t.root⟩ w val log with
    | ok result => rfl
    | error left =>
        rw [done] at outcome
        exact absurd (placedDepth_le housed shallow clear) (Nat.not_le_of_lt outcome)

end Adj

/-- What every tree made by such inserts is: linked in held slots, each once, and shallow. -/
theorem CTree.Made.housed {a : Arena} {tree : CTree} (h : Made Clear a tree) :
    ∃ t : Adj, tree = ⟨t.root⟩ ∧ t.Housed a ∧ t.depth ≤ maxDepth := by
  induction h with
  | empty ok => exact ⟨none, rfl, trivial, Nat.zero_le _⟩
  | @insert a w tree val log tree' w' log' _ same _ clear done ih =>
      obtain ⟨t, rfl, housed, shallow⟩ := ih
      have housed := housed.preserved same
      have outcome := insertWithScratch_linked same.ok housed val log
      rw [done] at outcome
      obtain ⟨t', logged, leak, F, root_eq, -, relinked⟩ := outcome
      refine ⟨some t', congrArg CTree.mk root_eq, ⟨relinked.housed, fun k => ?_⟩,
        relinked.depth_le.trans (Adj.placedDepth_le housed shallow clear)⟩
      exact (List.nodup_append.mp (relinked.whole_nodup housed k)).1

theorem combArena_tight : (combArena.tightened chunkSlot).Gap (0 + chunkSlot) :=
  (Nat.zero_add chunkSlot).symm ▸ tightened_gap combArena_ok (by decide) (by decide)

/-- A first key takes one chunk. -/
theorem made_one (fits : CTree → Arena → Nat → Prop)
    (fit : ∀ a, fits .empty a 0) : ∃ a t, CTree.Made fits a ⟨offset t⟩ ∧ a.Ok ∧
      Adj.Live a (some t) ∧ t = leaf (offset t) [0] ∧ a.capacity ≤ 8192 := by
  obtain ⟨idx, w', found, gap, cap⟩ :=
    allocWriteChunk_gap (w := (combArena.tightened chunkSlot).writer) (n := 0) combArena_tight
      (Chunk.fromSorted [0])
  obtain ⟨grown, held⟩ := grown_of_chunk combArena_tight.ok found
  have kept := kept_leaf grown held rfl (Chunk.asSlice_fromSorted (show 1 ≤ chunkCap by decide))
  have same : combArena.Preserves (combArena.tightened chunkSlot).writer.arena CTree.empty.root :=
    ⟨combArena_tight.ok, fun k i reach => absurd reach (combArena.not_reach_null k i)⟩
  have done : CTree.empty.insertWithScratch (combArena.tightened chunkSlot).writer 0 .new =
      .ok (.inserted ⟨idx⟩, w', .new) := by
    rw [CTree.insertWithScratch, if_pos (show CTree.empty.root = null from rfl), found]
  refine ⟨w'.arena, leaf idx [0], .insert (.empty combArena_ok) same (show 0 < 2 ^ 32 by decide)
    (fit _) done, grown.ok, ⟨kept, ?_⟩, rfl, ?_⟩
  · exact ⟨List.cons_ne_nil _ _, show 1 ≤ chunkCap by decide, List.pairwise_singleton _ _⟩
  · rw [cap]
    decide

/-- A tree grown at its right end only, by the keys below `v`. -/
structure RightGrown (a : Arena) (t : Tree) (v : Nat) : Prop where
  made : CTree.Made (fun _ _ _ => True) a ⟨offset t⟩
  ok : a.Ok
  live : Adj.Live a (some t)
  below : ∀ x ∈ t.elems, x < v
  flat : t.leftDepth ≤ 1
  count : v ≤ chunkCap * t.rightEdge + t.lastLeaf.length
  used : a.low + (a.capacity - a.high) ≤ 8192 + 2000 * v

/-- One more key, with no slot to rebuild with, fills the last leaf or splits it. -/
theorem RightGrown.insert {a : Arena} {t : Tree} {v : Nat} (h : RightGrown a t v)
    (short : t.rightEdge ≤ maxDepth) : ∃ a' t', RightGrown a' t' (v + 1) ∧
      ((t.lastLeaf.length < chunkCap ∧ t'.rightEdge = t.rightEdge ∧
          t'.lastLeaf.length = t.lastLeaf.length + 1) ∨
        (t.lastLeaf.length = chunkCap ∧ t'.rightEdge = t.rightEdge + 1)) := by
  obtain ⟨kept, wf⟩ := h.live
  have path := pathLength_above wf h.below
  have last := lastLeaf_bounds wf
  have few : v ≤ 1000 := by
    have := h.count
    simp only [chunkCap, maxDepth] at *
    omega
  have size : t.elems.length ≤ v := length_le_of_keys (wf.elems_sorted.imp Nat.ne_of_lt) h.below
  obtain ⟨w, w', log', c, ss, sub, same, onto, done, ok', live', used'⟩ :=
    exists_unrebalanced h.ok h.live (fun mem => (h.below v mem).false) (path ▸ short)
      (h.flat.trans_lt (by decide)) (by omega) (by have := h.used; omega)
  have made' := CTree.Made.insert h.made same (show v < 2 ^ 32 by omega) trivial done
  -- the keys are the old ones and `v`
  have fits : Adj.elems (some t) = t.elems := rfl
  have outcome := insertWithScratch_spec same.ok (h.live.preserved same) (v := v)
    (.inr (by rw [fits]; omega)) .new
  rw [show (CTree.mk (Adj.root (some t))) = ⟨offset t⟩ from rfl, done] at outcome
  obtain ⟨t', logged, leak, F, root_eq, -, spec⟩ := outcome
  obtain rfl := live'.1.stored.unique spec.kept.stored root_eq
  have length : ss.length = t.rightEdge := onto.length_eq.trans path
  obtain ⟨edge, lastLeaf_eq⟩ := graft_above wf h.below length sub
  have wfSub : sub.WellFormed chunkCap := by
    have whole := live'.2.subtreeAt v ss.length
    rwa [subtreeAt_graft onto.length_eq.le] at whole
  have grew : sub.elems.length = t.lastLeaf.length + 1 := by
    have total := onto.grew
    rw [onto.total_eq, elems_graft] at total
    have before := congrArg List.length (elems_split v ss.length t)
    have at_end := subtreeAt_above wf h.below
    rw [length] at total before
    rw [at_end] at before
    simp only [List.length_append] at total before
    omega
  have flat' : (t.graft v ss sub).leftDepth ≤ 1 := by
    have deep := leftDepth_graft_le v sub ss t
    rw [leftTurns_above wf h.below] at deep
    have := leftDepth_le_depth sub
    have := onto.sub_depth
    have := h.flat
    omega
  have below' : ∀ x ∈ (t.graft v ss sub).elems, x < v + 1 := by
    intro x hx
    rw [spec.elems_eq, List.mem_orderedInsert] at hx
    rcases hx with rfl | hx
    · exact Nat.lt_succ_self x
    · exact (h.below x hx).trans (Nat.lt_succ_self v)
  have lastSub := lastLeaf_bounds wfSub
  have used : a.low + (a.capacity - a.high) + 2000 ≤ 8192 + 2000 * (v + 1) := by
    rw [Nat.mul_add, ← Nat.add_assoc]
    exact Nat.add_le_add_right h.used 2000
  have grown : v + 1 ≤ chunkCap * (t.graft v ss sub).rightEdge + (t.graft v ss sub).lastLeaf.length →
      RightGrown w'.arena (t.graft v ss sub) (v + 1) := fun count =>
    ⟨made', ok', live', below', flat', count, used'.trans used⟩
  rcases onto.sub_depth with single | ⟨split, -⟩
  · obtain ⟨edgeSub, elemsSub⟩ := rightEdge_of_flat single
    rw [elemsSub] at lastSub
    rw [edgeSub, Nat.add_zero] at edge
    rw [elemsSub] at lastLeaf_eq
    have count : (t.graft v ss sub).lastLeaf.length = t.lastLeaf.length + 1 := by
      rw [lastLeaf_eq, grew]
    refine ⟨_, _, grown ?_, .inl ⟨by omega, edge, count⟩⟩
    have := h.count
    rw [edge, count]
    omega
  · have full : t.lastLeaf.length = chunkCap := by
      have := onto.sub_depth
      omega
    rw [rightEdge_of_split split] at edge
    refine ⟨_, _, grown ?_, .inr ⟨full, edge⟩⟩
    have := h.count
    rw [edge, lastLeaf_eq, Nat.mul_add]
    omega

/-- With no rebuild finding slots, the right edge reaches any length the descent lets through. -/
theorem exists_rightGrown {n : Nat} (short : n ≤ maxDepth + 1) :
    ∃ a t v, RightGrown a t v ∧ t.rightEdge = n := by
  induction n with
  | zero =>
      obtain ⟨a, t, made, ok, live, single, small⟩ :=
        made_one (fun _ _ _ => True) fun _ => trivial
      refine ⟨a, t, 1, ⟨made, ok, live, ?_, ?_, ?_, ?_⟩, ?_⟩
      · rw [single]
        intro x hx
        rw [List.mem_singleton.mp hx]
        exact Nat.one_pos
      · rw [single]
        exact Nat.zero_le 1
      · rw [single]
        exact Nat.le_refl 1
      · have := ok.low_le_high
        have := ok.high_le
        omega
      · rw [single]
        rfl
  | succ n ih =>
      obtain ⟨a, t, v, start, edge⟩ := ih (by omega)
      -- fill the last leaf, then split it
      induction room : chunkCap - t.lastLeaf.length generalizing a t v with
      | zero =>
          have last := lastLeaf_bounds start.live.2
          obtain ⟨a', t', next, ⟨lt, -⟩ | ⟨-, edge'⟩⟩ := start.insert (by omega)
          · omega
          · exact ⟨a', t', v + 1, next, by omega⟩
      | succ room fill =>
          obtain ⟨a', t', next, ⟨-, edge', count⟩ | ⟨full, -⟩⟩ := start.insert (by omega)
          · exact fill a' t' (v + 1) next (by omega) (by omega)
          · omega

end AetherGraph
