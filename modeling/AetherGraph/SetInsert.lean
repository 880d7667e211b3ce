import AetherGraph.TreeInsert
import Mathlib.Tactic.IntervalCases

/-! `insert_with_scratch` as set insertion on a vertex's neighbours, with every slot it
hands out, keeps or logs accounted for. -/

namespace AetherGraph

open Foundation Foundation.LeafTree Arena ArenaWriter Tree

/-- A vertex's neighbours: no tree, or one with keys. -/
abbrev Adj := Option Tree

namespace Adj

def root : Adj → Nat
  | none => null
  | some t => offset t

def elems : Adj → List Nat
  | none => []
  | some t => t.elems

def slots : Adj → SlotClass → List Nat
  | none => fun _ => []
  | some t => Tree.slots t

def Live (a : Arena) : Adj → Prop
  | none => True
  | some t => Kept a t ∧ t.WellFormed chunkCap

/-- The search for `v` and the walk over the tree with `v` placed fit their stacks. -/
def Room (v : Nat) : Adj → Prop
  | none => True
  | some t => t.leftDepth ≤ maxDepth ∧
      ((t.subtreeAt v (t.pathLength v)).elems.length = chunkCap →
        t.leftTurns v (t.pathLength v) < maxDepth)

def pathLength (v : Nat) : Adj → Nat
  | none => 0
  | some t => t.pathLength v

theorem Live.grown {w w' : ArenaWriter} {t : Adj} (h : t.Live w.arena)
    {F : SlotClass → List Nat} (g : Grown w w' F) : t.Live w'.arena := by
  cases t with
  | none => trivial
  | some t => exact ⟨h.1.grown g, h.2⟩

theorem Live.held {a : Arena} {t : Adj} (h : t.Live a) (k : SlotClass) (i : Nat)
    (hi : i ∈ t.slots k) : a.Held k i := by
  cases t with
  | none => exact absurd hi List.not_mem_nil
  | some t => exact h.1.held k i hi

theorem Live.elems_sorted {a : Arena} {t : Adj} (h : t.Live a) :
    t.elems.Pairwise (· < ·) := by
  cases t with
  | none => exact List.Pairwise.nil
  | some t => exact h.2.elems_sorted

end Adj

/-- A tree with `v` inserted; `leak` is what a failed rebuild left behind. -/
structure Inserted (w w' : ArenaWriter) (t : Adj) (v : Nat) (t' : Tree)
    (logged leak F : SlotClass → List Nat) : Prop where
  fresh : v ∉ t.elems
  grown : Grown w w' F
  kept : Kept w'.arena t'
  wellFormed : t'.WellFormed chunkCap
  elems_eq : t'.elems = t.elems.orderedInsert (· ≤ ·) v
  account : ∀ k, (slots t' k ++ (logged k ++ leak k)).Perm (t.slots k ++ F k)
  leftDepth_le : t.Room v → t'.leftDepth ≤ maxDepth

/-- `error` is the panic of a traversal stack. -/
def InsertOutcome (w : ArenaWriter) (t : Adj) (v : Nat) (log : RetireLog) :
    Except (ArenaWriter × RetireLog) (InsertResult × ArenaWriter × RetireLog) → Prop
  | .error (w', _) => ¬ t.Room v ∧ ∃ F, Grown w w' F
  | .ok (.duplicate, w', log') => v ∈ t.elems ∧ w' = w ∧ log' = log
  | .ok (.arenaFull, w', log') => log' = log ∧ (∃ F, Grown w w' F) ∧
      (AllocFailed w w' ∨ maxDepth < t.pathLength v ∧ w' = w)
  | .ok (.inserted tree, w', log') => ∃ t' logged leak F, tree.root = offset t' ∧
      log' = log.append logged ∧ Inserted w w' t v t' logged leak F

/-- Up to 2 ^ 32 keys the path above a scapegoat and its rebuilt subtree fit the stack. -/
theorem rebuilt_depth_le {n sc m : Nat} {sub : Tree} (balanced : Balanced sub)
    (wf : sub.WellFormed chunkCap) (hm : sub.elems.length = m)
    (weight : 3 ^ sc * m ≤ 2 ^ sc * n) (size : n < 2 ^ 32) : sc + sub.depth ≤ maxDepth := by
  have pos : 0 < m := hm ▸ List.length_pos_of_ne_nil wf.elems_ne_nil
  have leaves : leavesFor m ≤ m := by
    simp only [leavesFor, chunkCap]
    omega
  have short : sc < 55 := by
    by_contra long
    obtain ⟨rest, rfl⟩ := Nat.exists_eq_add_of_le (Nat.le_of_not_lt long)
    have grow : 2 ^ rest ≤ 3 ^ rest := Nat.pow_le_pow_left (by decide) rest
    have lower : 3 ^ 55 * 2 ^ rest ≤ 2 ^ (55 + rest) * n :=
      calc 3 ^ 55 * 2 ^ rest ≤ 3 ^ 55 * 3 ^ rest := Nat.mul_le_mul_left _ grow
        _ = 3 ^ (55 + rest) * 1 := by ring
        _ ≤ 3 ^ (55 + rest) * m := Nat.mul_le_mul_left _ pos
        _ ≤ 2 ^ (55 + rest) * n := weight
    have upper : 2 ^ (55 + rest) * n ≤ 2 ^ 55 * 2 ^ 32 * 2 ^ rest :=
      calc 2 ^ (55 + rest) * n ≤ 2 ^ (55 + rest) * 2 ^ 32 := Nat.mul_le_mul_left _ size.le
        _ = 2 ^ 55 * 2 ^ 32 * 2 ^ rest := by ring
    have := Nat.le_of_mul_le_mul_right (lower.trans upper) (Nat.two_pow_pos rest)
    omega
  have fits : leavesFor sub.elems.length ≤ 2 ^ (maxDepth - sc) := by
    rw [hm]
    refine leaves.trans ?_
    simp only [maxDepth]
    interval_cases sc <;> omega
  have := balanced.depth_le fits
  simp only [maxDepth] at *
  omega

/-- With the path copied, the tree is `t` with `v` placed in its leaf. -/
structure Placed (w w' : ArenaWriter) (t : Tree) (v : Nat) (ss : List Nat) (sub : Tree)
    (F : SlotClass → List Nat) : Prop where
  fresh : v ∉ t.elems
  length_eq : ss.length = t.pathLength v
  grown : Grown w w' F
  kept : Kept w'.arena (t.graft v ss sub)
  wellFormed : (t.graft v ss sub).WellFormed chunkCap
  elems_eq : (t.graft v ss sub).elems = t.elems.orderedInsert (· ≤ ·) v
  account : ∀ k, (slots (t.graft v ss sub) k ++
    (only .chunk [targetSlot v t] k ++ only .interior (t.pathSlots v ss.length) k)).Perm
      (slots t k ++ F k)
  leftDepth_le : Adj.Room v (some t) → (t.graft v ss sub).leftDepth ≤ maxDepth

theorem placed_of_copied {w w₁ w₂ : ArenaWriter} {t sub : Tree} {v splitLevels : Nat}
    {ks ss newPath : List Nat} {root : Nat} {F : SlotClass → List Nat}
    (wf : t.WellFormed chunkCap)
    (leaf_eq : t.subtreeAt v (t.pathLength v) = leaf (targetSlot v t) ks)
    (placed : LeafPlaced w w₁ ks v sub splitLevels F) (hss : ss.length = t.pathLength v)
    (copied : PathCopied w₁ w₂ v 1 t sub ss root newPath) :
    Placed w w₂ t v ss sub fun k => F k ++ only .interior ss k := by
  have member : v ∈ t.elems ↔ v ∈ ks := by
    rw [mem_elems_iff_subtreeAt wf v (t.pathLength v), leaf_eq]
    rfl
  refine ⟨fun hv => placed.fresh (member.mp hv), hss, placed.grown.trans copied.grown,
    copied.kept, wf.graft placed.wellFormed fun x hx => ?_, elems_graft_insert wf ?_,
    fun k => ?_, fun room => ?_⟩
  · rw [placed.elems_eq, List.mem_orderedInsert] at hx
    rwa [hss, leaf_eq]
  · rw [placed.elems_eq, hss, leaf_eq]
    rfl
  · have account := slots_graft sub hss.le k
    have handed := placed.slots_perm k
    have target : slots (t.subtreeAt v ss.length) k = only .chunk [targetSlot v t] k := by
      rw [hss, leaf_eq]
      cases k <;> rfl
    rw [target] at account
    refine List.perm_iff_count.mpr fun x => ?_
    have h₁ := List.perm_iff_count.mp account x
    have h₂ := List.perm_iff_count.mp handed x
    simp only [List.count_append] at h₁ h₂ ⊢
    omega
  · obtain ⟨shallow, turns⟩ := room
    have bound := leftDepth_graft_le v sub ss t
    have along := leftTurns_le_leftDepth v ss.length t
    rw [leaf_eq] at turns
    rw [placed.leftDepth_eq, placed.split_iff] at bound
    rw [hss] at bound along
    split at bound
    · rename_i full
      have := turns full
      omega
    · omega

/-- Rebalancing the placed tree, or keeping it when the rebuild found no room. -/
theorem insertRebalanced_spec {w w₁ : ArenaWriter} {t sub : Tree} {v : Nat} {ss : List Nat}
    {F : SlotClass → List Nat} (placed : Placed w w₁ t v ss sub F)
    (size : (t.graft v ss sub).elems.length < 2 ^ 32) (log : RetireLog) {logged}
    (hlog : logged = fun k =>
      only .chunk [targetSlot v t] k ++ only .interior (t.pathSlots v ss.length) k) :
    InsertOutcome w (some t) v log (CTree.insertRebalanced w₁ (offset (t.graft v ss sub))
      (ss.map tagInterior) ((steps v t).map Prod.snd) (log.append logged)) := by
  have path : OnPath (t.graft v ss sub) v (ss.map tagInterior) ((steps v t).map Prod.snd) := by
    refine ⟨?_, ?_, ?_⟩
    · rw [List.length_map, steps_graft placed.length_eq.le]
    · rw [List.length_map, List.length_map, steps_length, placed.length_eq]
    · rw [List.length_map]
      exact length_le_pathLength_graft placed.length_eq.le
  have outcome := rebalance_spec placed.grown.ok placed.kept placed.wellFormed size path
    (log.append logged)
  unfold CTree.insertRebalanced
  split
  · rename_i w₂ log₂ panic
    rw [panic] at outcome
    obtain ⟨deep, rfl⟩ := outcome
    exact ⟨fun room => absurd (placed.leftDepth_le room) (Nat.not_le_of_lt deep), F, placed.grown⟩
  · rename_i root w₂ log₂ done
    rw [done] at outcome
    obtain ⟨t', logged', G, rfl, rfl, rebuilt⟩ := outcome
    rw [RetireLog.append_append]
    refine ⟨t', _, fun _ => [], _, rfl, rfl, placed.fresh, placed.grown.trans rebuilt.grown,
      rebuilt.kept, rebuilt.wellFormed, rebuilt.elems_eq.trans placed.elems_eq, fun k => ?_,
      fun room => ?_⟩
    · refine List.perm_iff_count.mpr fun x => ?_
      have h₁ := List.perm_iff_count.mp (placed.account k) x
      have h₂ := List.perm_iff_count.mp (rebuilt.account k) x
      simp only [hlog, Adj.slots, List.count_append, List.count_nil] at h₁ h₂ ⊢
      omega
    · obtain ⟨ss', sub', hss', rfl, balanced, wf', weight⟩ := rebuilt.shape
      have bound := leftDepth_graft_le v sub' ss' (t.graft v ss sub)
      have turns := leftTurns_le v ss'.length (t.graft v ss sub)
      have deep := rebuilt_depth_le balanced wf' rfl weight size
      have := leftDepth_le_depth sub'
      have := placed.leftDepth_le room
      omega
  · rename_i w₂ log₂ done
    rw [done] at outcome
    obtain ⟨rfl, G, grown⟩ := outcome
    refine ⟨t.graft v ss sub, logged, G, _, rfl, rfl, placed.fresh, placed.grown.trans grown,
      placed.kept.grown grown, placed.wellFormed, placed.elems_eq, fun k => ?_,
      placed.leftDepth_le⟩
    refine List.perm_iff_count.mpr fun x => ?_
    have h₁ := List.perm_iff_count.mp (placed.account k) x
    simp only [hlog, Adj.slots, List.count_append] at h₁ ⊢
    omega

/-- `insert_with_scratch` on a live vertex is set insertion, or fails and changes
nothing but the free lists. -/
theorem insertWithScratch_spec {w : ArenaWriter} (ok : w.arena.Ok) {t : Adj}
    (live : t.Live w.arena) {v : Nat} (size : v ∈ t.elems ∨ t.elems.length + 1 < 2 ^ 32)
    (log : RetireLog) :
    InsertOutcome w t v log (CTree.insertWithScratch ⟨t.root⟩ w v log) := by
  cases t with
  | none =>
      unfold CTree.insertWithScratch
      rw [if_pos (show (CTree.mk (Adj.root none)).root = null from rfl)]
      split
      · rename_i off w' halloc
        obtain ⟨grown, held⟩ := grown_of_chunk ok halloc
        refine ⟨leaf off [v], fun _ => [], fun _ => [], _, rfl, (log.append_nil).symm,
          List.not_mem_nil, grown, kept_leaf grown held rfl ?_, ?_, rfl, fun k => ?_,
          fun _ => Nat.zero_le _⟩
        · exact Chunk.asSlice_fromSorted (show 1 ≤ chunkCap by decide)
        · exact ⟨List.cons_ne_nil _ _, show 1 ≤ chunkCap by decide, List.pairwise_singleton _ v⟩
        · cases k <;> exact List.Perm.refl _
      · rename_i w' hfail
        exact ⟨rfl, ⟨_, grown_of_chunk_none ok hfail⟩, .inl ((AllocRun.refl w).failed_chunk hfail)⟩
  | some t =>
      obtain ⟨kept, wf⟩ := live
      obtain ⟨ks, leaf_eq⟩ := subtreeAt_pathLength v t
      have keptLeaf := kept.subtreeAt v (t.pathLength v)
      have wfLeaf := wf.subtreeAt v (t.pathLength v)
      rw [leaf_eq] at keptLeaf wfLeaf
      obtain ⟨-, count, elems⟩ := keptLeaf.stored
      have member : v ∈ t.elems ↔ v ∈ ks := by
        rw [mem_elems_iff_subtreeAt wf v (t.pathLength v), leaf_eq]
        rfl
      unfold CTree.insertWithScratch
      rw [if_neg (show (CTree.mk (Adj.root (some t))).root ≠ null from kept.stored.offset_lt.ne)]
      rw [show (CTree.mk (Adj.root (some t))).root = offset t from rfl, descend_stored kept.stored]
      by_cases deep : maxDepth < t.pathLength v
      · rw [if_neg (by omega)]
        exact ⟨rfl, ⟨_, .refl ok⟩, .inr ⟨deep, rfl⟩⟩
      rw [if_pos (by omega)]
      dsimp only
      have outcome := leafInsert_spec ok (c := w.arena.chunks (targetSlot v t))
        (by rw [count]; exact wfLeaf.2.1) (by rw [elems]; exact wfLeaf.2.2) v
      rw [elems] at outcome
      split
      · rename_i hleaf
        rw [hleaf] at outcome
        exact ⟨member.mpr outcome, rfl, rfl⟩
      · rename_i w₁ hleaf
        rw [hleaf] at outcome
        exact ⟨rfl, outcome.1, .inl outcome.2⟩
      rename_i child splitLevels w₁ hleaf
      rw [hleaf] at outcome
      obtain ⟨sub, F, rfl, placed⟩ := outcome
      have bound : t.elems.length + 1 < 2 ^ 32 :=
        size.resolve_left fun hv => placed.fresh (member.mp hv)
      have whole : steps v t = (steps v t).take (t.pathLength v) := by
        rw [← steps_length, List.take_length]
      split
      · rename_i w₂ hcopy
        obtain ⟨⟨G, grown⟩, failed, -⟩ := copyPath_grown 1 placed.grown.ok
          (steps v t) (offset sub)
        rw [hcopy] at grown failed
        exact ⟨rfl, ⟨_, placed.grown.trans grown⟩, .inl (placed.run.failed (failed rfl))⟩
      rename_i newRoot newPath w₂ hcopy
      rw [whole] at hcopy
      obtain ⟨ss, hss, copied⟩ := copyPath_some placed.grown.ok (kept.grown placed.grown)
        placed.kept le_rfl (by rw [leaf_eq, placed.elems_eq, List.orderedInsert_length]; rfl)
        bound hcopy
      have done := placed_of_copied wf leaf_eq placed hss copied
      have grew : (t.graft v ss sub).elems.length < 2 ^ 32 := by
        rw [done.elems_eq, List.orderedInsert_length]
        exact bound
      have path_log : (steps v t).map (fun step => stripTag step.1) = t.pathSlots v ss.length := by
        rw [hss, ← kept.stored.map_steps, ← whole]
      rw [copied.root_eq, copied.newPath_eq, path_log, RetireLog.push_eq, RetireLog.foldl_push,
        RetireLog.append_append]
      split
      · exact insertRebalanced_spec done grew log rfl
      · refine ⟨t.graft v ss sub, _, fun _ => [], _, rfl, rfl, done.fresh, done.grown, done.kept,
          done.wellFormed, done.elems_eq, fun k => ?_, done.leftDepth_le⟩
        rw [List.append_nil]
        exact done.account k

namespace Adj

theorem Live.count {a : Arena} {t : Adj} (h : t.Live a) :
    (CTree.mk t.root).count a = t.elems.length := by
  cases t with
  | none => rfl
  | some t =>
      have proper : (CTree.mk (root (some t))).root ≠ null := h.1.stored.offset_lt.ne
      rw [CTree.count, if_neg proper]
      exact h.1.stored.subtreeSize

theorem Live.collect {a : Arena} {t : Adj} (h : t.Live a)
    (shallow : ∀ s, t = some s → s.leftDepth ≤ maxDepth) :
    (CTree.mk t.root).collect a = some t.elems := by
  cases t with
  | none => rfl
  | some t =>
      obtain ⟨kept, wf⟩ := h
      have proper : (CTree.mk (root (some t))).root ≠ null := kept.stored.offset_lt.ne
      have walk := visitChunks_stored kept.stored wf kept.below
      rw [if_pos (shallow t rfl)] at walk
      rw [CTree.collect, CTree.chunks, if_neg proper]
      rw [show (CTree.mk (root (some t))).root = offset t from rfl, walk, Option.map_some,
        kept.stored.flatMap_asSlice]
      rfl

theorem Live.contains {a : Arena} {t : Adj} (h : t.Live a) (x : Nat) :
    (CTree.mk t.root).contains a x = some (decide (x ∈ t.elems)) := by
  cases t with
  | none => rfl
  | some t =>
      obtain ⟨kept, wf⟩ := h
      have proper : (CTree.mk (root (some t))).root ≠ null := kept.stored.offset_lt.ne
      have fuel := nodeCount_le (kept.stored.slots_nodup wf) kept.below
      have short := pathLength_le_nodeSlots x t
      rw [CTree.contains, if_neg proper]
      refine containsLoop_stored kept.stored wf x ?_
      simp only [nodeCount] at fuel
      omega

end Adj

/-- What the caller sees of one insert: the answer agrees with the old keys, and both
the old root and a new one read back exactly their keys. -/
structure SetInserted (w w' : ArenaWriter) (t : Adj) (v : Nat) (res : InsertResult) : Prop where
  ok : w'.arena.Ok
  live : t.Live w'.arena
  old_collect : (CTree.mk t.root).collect w'.arena = some t.elems
  duplicate : res = .duplicate → v ∈ t.elems
  arenaFull : res = .arenaFull → AllocFailed w w' ∨ maxDepth < t.pathLength v
  inserted : ∀ tree, res = .inserted tree → v ∉ t.elems ∧
    (∃ t' : Tree, tree.root = offset t' ∧ Adj.Live w'.arena (some t') ∧
      t'.elems = t.elems.orderedInsert (· ≤ ·) v) ∧
    tree.collect w'.arena = some (t.elems.orderedInsert (· ≤ ·) v) ∧
    tree.count w'.arena = t.elems.length + 1 ∧
    ∀ x, tree.contains w'.arena x = some (decide (x = v ∨ x ∈ t.elems))

/-- A left spine: the leftmost leaf is full, every right leaf holds one key. -/
def leftComb : Nat → Tree
  | 0 => leaf 0 (List.range' 1 15)
  | n + 1 => node n (16 + n) (leftComb n) (leaf (n + 1) [16 + n])

/-- An arena holding `leftComb 64`. -/
def combArena : Arena where
  capacity := 8192
  gate := .new
  pins := .new
  low := 65 * chunkSlot
  high := 8192 - 64 * interiorSlot
  recycler := .new
  chunks i := if i = 0 then Chunk.fromSorted (List.range' 1 15) else Chunk.fromSorted [15 + i]
  interiors i := ⟨if i = 0 then 0 else tagInterior (i - 1), i + 1, 16 + i, 16 + i⟩

theorem combArena_ok : combArena.Ok where
  capacity_mod := by decide
  capacity_le := by decide
  low_mod := by decide
  high_mod := by decide
  low_le_high := by decide
  high_le := by decide
  interior_lt := by decide
  threaded k := rfl
  nodup k := List.nodup_nil
  below k i hi := absurd hi List.not_mem_nil

theorem combArena_held {k : SlotClass} {i : Nat} (hi : i < 64) : combArena.Held k i := by
  refine ⟨?_, List.not_mem_nil, List.not_mem_nil⟩
  cases k with
  | chunk => exact hi.trans (by decide)
  | interior => exact hi

theorem leftComb_length (n : Nat) : (leftComb n).elems.length = 15 + n := by
  induction n with
  | zero => rfl
  | succ n ih =>
      simp only [leftComb, elems, List.length_append, ih, List.length_singleton]
      omega

theorem mem_leftComb {n x : Nat} (hx : x ∈ (leftComb n).elems) : x < 16 + n := by
  induction n with
  | zero =>
      simp only [leftComb, elems, List.mem_range'_1] at hx
      omega
  | succ n ih =>
      rcases List.mem_append.mp hx with hx | hx
      · have := ih hx
        omega
      · simp only [elems, List.mem_singleton] at hx
        omega

theorem leftComb_wellFormed (n : Nat) : (leftComb n).WellFormed chunkCap := by
  induction n with
  | zero => exact ⟨by decide, by decide, List.pairwise_lt_range'⟩
  | succ n ih =>
      refine ⟨ih, ⟨List.cons_ne_nil _ _, (by decide : 1 ≤ chunkCap), List.pairwise_singleton _ _⟩,
        fun x hx => mem_leftComb hx, fun x hx => ?_⟩
      exact (List.mem_singleton.mp hx).ge

theorem leftComb_kept {n : Nat} (hn : n ≤ 64) : Kept combArena (leftComb n) := by
  induction n with
  | zero =>
      refine ⟨⟨by decide, rfl, Chunk.asSlice_fromSorted (by decide)⟩, fun k i hi => ?_⟩
      cases k with
      | chunk =>
          obtain rfl := List.mem_singleton.mp hi
          exact combArena_held (by decide)
      | interior => exact absurd hi List.not_mem_nil
  | succ n ih =>
      have left := ih (by omega)
      have own : combArena.Held .chunk (n + 1) :=
        ⟨show n + 1 < 65 by omega, List.not_mem_nil, List.not_mem_nil⟩
      have right : Kept combArena (leaf (n + 1) [16 + n]) := by
        have chunk : combArena.chunks (n + 1) = Chunk.fromSorted [16 + n] := by
          simp only [combArena, Nat.succ_ne_zero, if_false]
          congr 2
          omega
        refine ⟨⟨by omega, by rw [chunk]; rfl, ?_⟩, fun k i hi => ?_⟩
        · rw [chunk]
          exact Chunk.asSlice_fromSorted (show 1 ≤ chunkCap by decide)
        · cases k with
          | chunk =>
              obtain rfl := List.mem_singleton.mp hi
              exact own
          | interior => exact absurd hi List.not_mem_nil
      refine Kept.node left right (combArena_held (by omega)) combArena_ok ?_
      have spine : (if n = 0 then 0 else tagInterior (n - 1)) = offset (leftComb n) := by
        cases n <;> rfl
      simp only [combArena, spine, leftComb_length, elems, List.length_singleton, offset]
      congr 1
      omega

end AetherGraph
