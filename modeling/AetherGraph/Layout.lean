import AetherGraph.DepthBound
import AetherGraph.Reach

/-! What an insert does to slots and to depth, read off the links alone.  Nothing here looks at
the keys of a leaf or at a count, so it also holds where a `u32` count wraps. -/

namespace Foundation.LeafTree

variable {α ι : Type}

theorem leafSlots_length_le (t : LeafTree α ι) : t.leafSlots.length ≤ 2 ^ t.depth := by
  induction t with
  | leaf => exact Nat.le_refl 1
  | node s key l r ihl ihr =>
      have left := ihl.trans (Nat.pow_le_pow_right (by decide) (Nat.le_max_left l.depth r.depth))
      have right := ihr.trans (Nat.pow_le_pow_right (by decide) (Nat.le_max_right l.depth r.depth))
      simp only [leafSlots, depth, List.length_append, Nat.pow_succ]
      omega

theorem depth_subtreeAt_le [LinearOrder α] {v : α} {n : Nat} {t : LeafTree α ι}
    (within : n ≤ t.pathLength v) : n + (t.subtreeAt v n).depth ≤ t.depth := by
  induction t generalizing n with
  | leaf s ks =>
      obtain rfl := Nat.le_zero.mp within
      simp [subtreeAt]
  | node s key l r ihl ihr =>
      cases n with
      | zero => simp
      | succ n =>
          simp only [pathLength] at within
          simp only [subtreeAt, depth]
          split <;> rename_i below
          · rw [if_pos below] at within
            have := ihl (n := n) (by omega)
            omega
          · rw [if_neg below] at within
            have := ihr (n := n) (by omega)
            omega

end Foundation.LeafTree

namespace AetherGraph

open Foundation Foundation.LeafTree Arena ArenaWriter Tree

namespace Tree

/-- The arena links the nodes of `t` in slots nobody can be handed. -/
structure Housed (a : Arena) (t : Tree) : Prop where
  laid : Laid a t
  held : ∀ k, ∀ i ∈ slots t k, a.Held k i

theorem Kept.housed {a : Arena} {t : Tree} (h : Kept a t) : Housed a t :=
  ⟨h.stored.laid, h.held⟩

theorem Housed.grown {w w' : ArenaWriter} {t : Tree} (h : Housed w.arena t)
    {F : SlotClass → List Nat} (g : Grown w w' F) : Housed w'.arena t :=
  ⟨h.laid.congr fun k i hi => g.grows.node (h.held k i hi),
    fun k i hi => g.grows.heldOld (h.held k i hi)⟩

theorem Housed.below {a : Arena} {t : Tree} (h : Housed a t) (k : SlotClass) (i : Nat)
    (hi : i ∈ slots t k) : i < a.bumped k := (h.held k i hi).1

theorem Housed.left {a : Arena} {s key : Nat} {l r : Tree} (h : Housed a (node s key l r)) :
    Housed a l := ⟨h.laid.2.2.2.2.1, fun k i hi => h.held k i (mem_slots_left hi)⟩

theorem Housed.right {a : Arena} {s key : Nat} {l r : Tree} (h : Housed a (node s key l r)) :
    Housed a r := ⟨h.laid.2.2.2.2.2, fun k i hi => h.held k i (mem_slots_right hi)⟩

theorem Housed.subtreeAt {a : Arena} {t : Tree} (h : Housed a t) (v n : Nat) :
    Housed a (t.subtreeAt v n) := by
  induction t generalizing n with
  | leaf s ks => cases n <;> exact h
  | node s key l r ihl ihr =>
      cases n with
      | zero => exact h
      | succ n =>
          simp only [LeafTree.subtreeAt]
          split
          · exact ihl h.left n
          · exact ihr h.right n

theorem nodup_subtreeAt {t : Tree} (nodup : ∀ k, (slots t k).Nodup) (v n : Nat) (k : SlotClass) :
    (slots (t.subtreeAt v n) k).Nodup := by
  cases k with
  | chunk =>
      have whole := nodup .chunk
      simp only [slots] at whole ⊢
      rw [leafSlots_split v n t] at whole
      exact (List.nodup_append.mp (List.nodup_append.mp whole).1).2.1
  | interior =>
      have whole := (nodup .interior).perm (nodeSlots_split v n t)
      have rest := (List.nodup_append.mp whole).2.1
      exact (List.nodup_append.mp (List.nodup_append.mp rest).1).2.1

theorem Housed.node {a : Arena} {s key : Nat} {l r : Tree} (hl : Housed a l) (hr : Housed a r)
    (hs : a.Held .interior s) (ok : a.Ok) (left : (a.interiors s).left = offset l)
    (right : (a.interiors s).right = offset r) (split : (a.interiors s).splitKey = key) :
    Housed a (node s key l r) := by
  refine ⟨⟨hs.lt ok, left, right, split, hl.laid, hr.laid⟩, fun k i hi => ?_⟩
  cases k with
  | chunk => exact (List.mem_append.mp hi).elim (hl.held .chunk i) (hr.held .chunk i)
  | interior =>
      rcases List.mem_cons.mp hi with rfl | hi
      · exact hs
      · exact (List.mem_append.mp hi).elim (hl.held .interior i) (hr.held .interior i)

theorem housed_leaf {w w' : ArenaWriter} {idx : Nat} (ks : List Nat)
    (grown : Grown w w' (only .chunk [idx])) : Housed w'.arena (leaf idx ks) := by
  have own : w'.arena.Held .chunk idx := grown.grows.heldNew (by simp)
  refine ⟨(own.lt grown.ok).trans (by decide), fun k i hi => ?_⟩
  cases k with
  | chunk =>
      obtain rfl := List.mem_singleton.mp hi
      exact own
  | interior => exact absurd hi List.not_mem_nil

end Tree

/-- A full chunk that is split to take `val`. -/
def Chunk.splits (c : Chunk) (val : Nat) : Bool := c.isFull && (splitInsert c val).isSome

/-- `sub` was linked out of the slots `F` handed out between the two states. -/
structure Linked (w w' : ArenaWriter) (sub : Tree) (F : SlotClass → List Nat) : Prop where
  grown : Grown w w' F
  housed : Housed w'.arena sub
  slots_perm : ∀ k, (slots sub k).Perm (F k)

theorem leafInsert_linked {w w' : ArenaWriter} (ok : w.arena.Ok) {c : Chunk}
    {v child levels : Nat} (placed : leafInsert w c v = .placed child levels w') :
    ∃ sub F, child = offset sub ∧ Linked w w' sub F ∧ sub.depth = levels ∧
      levels = (c.splits v).toNat := by
  unfold leafInsert at placed
  split at placed
  · rename_i full
    split at placed
    · cases placed
    rename_i left right halves
    have splits : c.splits v = true := by
      rw [Chunk.splits, full, halves]
      rfl
    unfold allocSplit at placed
    split at placed
    · cases placed
    rename_i lo w₁ hlo
    split at placed
    · cases placed
    rename_i hi w₂ hhi
    split at placed
    · cases placed
    rename_i idx w₃ hidx
    obtain ⟨rfl, rfl, rfl⟩ := LeafInsert.placed.inj placed
    obtain ⟨g₁, -⟩ := grown_of_chunk ok hlo
    obtain ⟨g₂, -⟩ := grown_of_chunk g₁.ok hhi
    obtain ⟨g₃, record⟩ := grown_of_interior g₂.ok hidx
    refine ⟨node idx c.split.2.min (leaf lo []) (leaf hi []), _, rfl,
      ⟨(g₁.trans g₂).trans g₃, ?_, fun k => ?_⟩, rfl, by rw [splits]; rfl⟩
    · refine Housed.node (((housed_leaf [] g₁).grown g₂).grown g₃) ((housed_leaf [] g₂).grown g₃)
        (g₃.grows.heldNew (by simp)) g₃.ok ?_ ?_ ?_ <;> rw [record] <;> rfl
    · cases k <;> exact List.Perm.refl _
  · rename_i full
    split at placed
    · cases placed
    split at placed
    · cases placed
    rename_i idx w₁ hidx
    obtain ⟨rfl, rfl, rfl⟩ := LeafInsert.placed.inj placed
    obtain ⟨grown, -⟩ := grown_of_chunk ok hidx
    have stays : c.splits v = false := by
      rw [Chunk.splits, (Bool.not_eq_true _).mp full, Bool.false_and]
    refine ⟨leaf idx [], _, rfl, ⟨grown, housed_leaf [] grown, fun k => ?_⟩, rfl, ?_⟩
    · cases k <;> exact List.Perm.refl _
    · rw [stays]
      rfl

/-- The copied path comes back as a graft of `sub` onto the tree copied. -/
structure Regrafted (w w' : ArenaWriter) (v : Nat) (t sub : Tree) (ss : List Nat) (root : Nat)
    (newPath : List Nat) : Prop where
  newPath_eq : newPath = ss.map tagInterior
  root_eq : root = offset (t.graft v ss sub)
  grown : Grown w w' (only .interior ss)
  housed : Housed w'.arena (t.graft v ss sub)

theorem copyPath_regrafted {bump v : Nat} {w w' : ArenaWriter} (ok : w.arena.Ok) {t sub : Tree}
    (housed : Housed w.arena t) (housedSub : Housed w.arena sub) {n : Nat}
    (hn : n ≤ t.pathLength v) {root : Nat} {newPath : List Nat}
    (h : copyPath bump w ((steps v t).take n) (offset sub) = (some (root, newPath), w')) :
    ∃ ss, ss.length = n ∧ Regrafted w w' v t sub ss root newPath := by
  have here : ∀ {t : Tree} {root newPath w'},
      copyPath bump w [] (offset sub) = (some (root, newPath), w') →
      ∃ ss, ss.length = 0 ∧ Regrafted w w' v t sub ss root newPath := by
    intro t root newPath w' h
    simp only [copyPath, Prod.mk.injEq, Option.some.injEq] at h
    obtain ⟨⟨rfl, rfl⟩, rfl⟩ := h
    refine ⟨[], rfl, rfl, by rw [graft_nil], ?_, by rwa [graft_nil]⟩
    rw [only_nil]
    exact .refl ok
  induction t generalizing n root newPath w' with
  | leaf s ks =>
      obtain rfl := Nat.le_zero.mp hn
      exact here h
  | node s key l r ihl ihr =>
      cases n with
      | zero => exact here h
      | succ n =>
          simp only [steps, List.take_succ_cons, copyPath] at h
          simp only [pathLength] at hn
          split at h
          · cases h
          rename_i child path w₁ hrec
          split at h
          · cases h
          rename_i idx w₂ halloc
          simp only [Prod.mk.injEq, Option.some.injEq] at h
          obtain ⟨⟨rfl, rfl⟩, rfl⟩ := h
          by_cases hv : v < key
          · rw [if_pos hv] at hn hrec
            obtain ⟨ss, hlen, copied⟩ := ihl housed.left (by omega) hrec
            obtain ⟨-, -, right, split, -⟩ := (housed.grown copied.grown).laid
            rw [(housed.grown copied.grown).laid.interiorAt, decide_eq_true hv, if_pos rfl,
              if_pos rfl, right, split] at halloc
            obtain ⟨one, grown, held, record⟩ := grown_cons copied.grown halloc
            have shape : (node s key l r).graft v (idx :: ss) sub =
                node idx key (l.graft v ss sub) r := by
              rw [LeafTree.graft, if_pos hv]
            refine ⟨idx :: ss, congrArg (· + 1) hlen, congrArg _ copied.newPath_eq, ?_, grown, ?_⟩
            · rw [shape, offset]
            · rw [shape]
              refine Housed.node (copied.housed.grown one) (housed.right.grown grown) held grown.ok
                ?_ ?_ ?_ <;> rw [record]
              exact copied.root_eq
          · rw [if_neg hv] at hn hrec
            obtain ⟨ss, hlen, copied⟩ := ihr housed.right (by omega) hrec
            obtain ⟨-, left, -, split, -⟩ := (housed.grown copied.grown).laid
            rw [(housed.grown copied.grown).laid.interiorAt, decide_eq_false hv,
              if_neg Bool.false_ne_true, if_neg Bool.false_ne_true, left, split] at halloc
            obtain ⟨one, grown, held, record⟩ := grown_cons copied.grown halloc
            have shape : (node s key l r).graft v (idx :: ss) sub =
                node idx key l (r.graft v ss sub) := by
              rw [LeafTree.graft, if_neg hv]
            refine ⟨idx :: ss, congrArg (· + 1) hlen, congrArg _ copied.newPath_eq, ?_, grown, ?_⟩
            · rw [shape, offset]
            · rw [shape]
              refine Housed.node (housed.left.grown grown) (copied.housed.grown one) held grown.ok
                ?_ ?_ ?_ <;> rw [record]
              exact copied.root_eq

/-- A balanced build links its slots into a tree no deeper than its leaves need. -/
def BuildOutcome (w : ArenaWriter) (vals : List Nat) : Option Nat × ArenaWriter → Prop
  | (none, w') => ∃ F, Grown w w' F
  | (some root, w') => ∃ t F, root = offset t ∧ Linked w w' t F ∧
      ∀ c, leavesFor vals.length ≤ 2 ^ c → t.depth ≤ c

theorem buildBalanced_linked {w : ArenaWriter} (ok : w.arena.Ok) (vals : List Nat) :
    BuildOutcome w vals (buildBalanced w vals) := by
  induction hn : vals.length using Nat.strong_induction_on generalizing w vals with
  | _ n ih =>
      subst hn
      rw [buildBalanced]
      split
      · change BuildOutcome w vals (w.allocWriteChunk _)
        cases h : w.allocWriteChunk (Chunk.fromSorted vals) with
        | mk found w' =>
            cases found with
            | none => exact ⟨_, grown_of_chunk_none ok h⟩
            | some idx =>
                obtain ⟨grown, -⟩ := grown_of_chunk ok h
                refine ⟨leaf idx [], _, rfl, ⟨grown, housed_leaf [] grown, fun k => ?_⟩,
                  fun c _ => Nat.zero_le c⟩
                cases k <;> exact List.Perm.refl _
      · rename_i big
        have big := Nat.lt_of_not_le big
        have mid := balancedMid_lt big
        have hlen : (vals.take (balancedMid vals.length)).length = balancedMid vals.length := by
          rw [List.length_take]
          omega
        have hlen' : (vals.drop (balancedMid vals.length)).length =
            vals.length - balancedMid vals.length := List.length_drop
        have lower := ih _ (by omega) ok (vals.take (balancedMid vals.length)) rfl
        split
        · rename_i w₁ hl
          rw [hl] at lower
          exact lower
        rename_i left w₁ hl
        rw [hl] at lower
        obtain ⟨l, F, rfl, linkedL, depthL⟩ := lower
        have upper := ih _ (by omega) linkedL.grown.ok (vals.drop (balancedMid vals.length)) rfl
        split
        · rename_i w₂ hr
          rw [hr] at upper
          obtain ⟨G, grown⟩ := upper
          exact ⟨_, linkedL.grown.trans grown⟩
        rename_i right w₂ hr
        rw [hr] at upper
        obtain ⟨r, G, rfl, linkedR, depthR⟩ := upper
        have grown := linkedL.grown.trans linkedR.grown
        split
        · rename_i w₃ hput
          exact ⟨_, grown.trans (grown_of_interior_none grown.ok hput)⟩
        rename_i idx w₃ hput
        obtain ⟨one, record⟩ := grown_of_interior grown.ok hput
        refine ⟨node idx ((vals.drop (balancedMid vals.length)).headD 0) l r, _, rfl,
          ⟨grown.trans one, ?_, fun k => ?_⟩, fun c fits => ?_⟩
        · refine Housed.node ((linkedL.housed.grown linkedR.grown).grown one)
            (linkedR.housed.grown one) (one.grows.heldNew (by simp)) one.ok ?_ ?_ ?_ <;> rw [record]
        · cases k with
          | chunk =>
              simp only [only_of_ne (show SlotClass.chunk ≠ .interior by decide), List.append_nil]
              exact (linkedL.slots_perm .chunk).append (linkedR.slots_perm .chunk)
          | interior =>
              rw [only_self]
              refine List.Perm.trans ?_ List.perm_append_comm
              exact ((linkedL.slots_perm .interior).append (linkedR.slots_perm .interior)).cons idx
        · cases c with
          | zero =>
              simp only [leavesFor, chunkCap, Nat.pow_zero] at fits big
              omega
          | succ c =>
              rw [Nat.pow_succ] at fits
              rw [hlen] at depthL
              rw [hlen'] at depthR
              have left := depthL c (by
                simp only [leavesFor, balancedMid, chunkCap] at fits ⊢
                omega)
              have right := depthR c (by
                simp only [leavesFor, balancedMid, chunkCap] at fits ⊢
                omega)
              simp only [depth]
              omega

/-- Chunks hold at most fifteen keys, so their keys never need more leaves than they had. -/
theorem leavesFor_flatMap_le (chunks : List Chunk) :
    leavesFor (chunks.flatMap Chunk.asSlice).length ≤ chunks.length := by
  have held : (chunks.flatMap Chunk.asSlice).length ≤ chunkCap * chunks.length := by
    induction chunks with
    | nil => exact Nat.le_refl 0
    | cons c chunks ih =>
        have one : c.asSlice.length ≤ chunkCap := by
          simp only [Chunk.asSlice, List.length_take, Vector.length_toList]
          exact Nat.min_le_right ..
        simp only [List.flatMap_cons, List.length_append, List.length_cons, chunkCap] at *
        omega
  simp only [leavesFor, chunkCap] at *
  omega

/-- `error` is the panic: the walk over the target ran off its stack. -/
def RelinkOutcome (w : ArenaWriter) (t : Tree) (log : RetireLog) :
    Except (ArenaWriter × RetireLog) (Option Nat × ArenaWriter × RetireLog) → Prop
  | .error _ => maxDepth < t.leftDepth
  | .ok (none, w', log') => log' = log ∧ ∃ F, Grown w w' F
  | .ok (some root, w', log') => ∃ t' logged F, root = offset t' ∧ log' = log.append logged ∧
      Grown w w' F ∧ Housed w'.arena t' ∧
      (∀ k, (slots t' k ++ logged k).Perm (slots t k ++ F k)) ∧ t'.depth ≤ t.depth

theorem rebalance_relinked {w : ArenaWriter} (ok : w.arena.Ok) {t : Tree}
    (housed : Housed w.arena t) (nodup : ∀ k, (slots t k).Nodup) {v : Nat} {newPath : List Nat}
    {wentLeft : List Bool} (path : OnPath t v newPath wentLeft) (log : RetireLog) :
    RelinkOutcome w t log (rebalance w (offset t) newPath wentLeft log) := by
  obtain ⟨inside, -⟩ := findScapegoat_spec w.arena newPath
  unfold rebalance
  dsimp only
  generalize findScapegoat w.arena newPath = sc at *
  have sc_le : sc ≤ newPath.length := by omega
  have scl : sc ≤ t.pathLength v := sc_le.trans path.le
  have target : newPath.getD sc (offset t) = offset (t.subtreeAt v sc) := by
    rw [List.getD_eq_getElem?_getD]
    rcases Nat.lt_or_ge sc newPath.length with lt | ge
    · rw [path.getElem? lt, Option.getD_some]
    · obtain rfl : sc = 0 := by omega
      rw [List.getElem?_eq_none ge, Option.getD_none, subtreeAt_zero]
  have housedT := housed.subtreeAt v sc
  have nodupT := nodup_subtreeAt nodup v sc
  rw [target, visitChunks_laid housedT.laid nodupT housedT.below]
  by_cases room : (t.subtreeAt v sc).leftDepth ≤ maxDepth
  · rw [if_pos room]
    dsimp only
    have build := buildBalanced_linked ok
      (((t.subtreeAt v sc).leafSlots.map w.arena.chunks).flatMap Chunk.asSlice)
    split
    · rename_i w₁ hbuild
      rw [hbuild] at build
      exact ⟨rfl, build⟩
    rename_i child w₁ hbuild
    rw [hbuild] at build
    obtain ⟨sub, F, rfl, linked, shallow⟩ := build
    rw [path.take sc_le]
    split
    · rename_i w₂ hcopy
      obtain ⟨⟨G, grown⟩, -, -⟩ := copyPath_grown 0 linked.grown.ok ((steps v t).take sc) (offset sub)
      rw [hcopy] at grown
      exact ⟨rfl, _, linked.grown.trans grown⟩
    rename_i root path₂ w₂ hcopy
    obtain ⟨ss, hlen, copied⟩ :=
      copyPath_regrafted linked.grown.ok (housed.grown linked.grown) linked.housed scl hcopy
    have housedT₂ := (housedT.grown linked.grown).grown copied.grown
    rw [retireSubtree_laid housedT₂.laid nodupT housedT₂.below room]
    dsimp only
    have logPath : (newPath.take sc).map stripTag = t.pathSlots v sc := by
      have firsts : ((newPath.zip wentLeft).take sc).map Prod.fst = newPath.take sc := by
        rw [List.map_take, List.map_fst_zip path.turns]
      rw [← firsts, path.take sc_le, ← housed.laid.map_steps v sc, List.map_map]
      rfl
    rw [logPath, RetireLog.foldl_push, RetireLog.append_append]
    refine ⟨t.graft v ss sub, _, _, copied.root_eq, rfl, linked.grown.trans copied.grown,
      copied.housed, fun k => ?_, ?_⟩
    · have account := slots_graft sub (t := t) (show ss.length ≤ t.pathLength v by omega) k
      have handed := linked.slots_perm k
      rw [hlen] at account
      refine List.perm_iff_count.mpr fun x => ?_
      have h₁ := List.perm_iff_count.mp account x
      have h₂ := List.perm_iff_count.mp handed x
      simp only [List.count_append] at h₁ h₂ ⊢
      omega
    · -- the rebuilt subtree needs no more leaves than the one it replaces
      have leaves := leavesFor_flatMap_le ((t.subtreeAt v sc).leafSlots.map w.arena.chunks)
      rw [List.length_map] at leaves
      have rebuilt := shallow _ (leaves.trans (leafSlots_length_le _))
      have grafted := depth_graft_le v sub ss t
      have sides := sideDepth_le_depth v ss.length t
      have along := depth_subtreeAt_le scl
      omega
  · rw [if_neg room]
    exact (Nat.lt_of_not_le room).trans_le (leftDepth_subtreeAt_le v sc t)

namespace Adj

def Housed (a : Arena) : Adj → Prop
  | none => True
  | some t => Tree.Housed a t ∧ ∀ k, (Tree.slots t k).Nodup

theorem Live.housed {a : Arena} {t : Adj} (h : t.Live a) : t.Housed a := by
  cases t with
  | none => trivial
  | some t => exact ⟨h.1.housed, h.1.stored.slots_nodup h.2⟩

theorem Housed.nodup {a : Arena} {t : Adj} (h : t.Housed a) (k : SlotClass) :
    (t.slots k).Nodup := by
  cases t with
  | none => exact List.nodup_nil
  | some t => exact h.2 k

theorem Housed.held {a : Arena} {t : Adj} (h : t.Housed a) (k : SlotClass) (i : Nat)
    (hi : i ∈ t.slots k) : a.Held k i := by
  cases t with
  | none => exact absurd hi List.not_mem_nil
  | some t => exact h.1.held k i hi

theorem Housed.reach_iff {a : Arena} {t : Adj} (h : t.Housed a) {k : SlotClass} {i : Nat} :
    a.Reach t.root k i ↔ i ∈ t.slots k := by
  cases t with
  | none => exact ⟨fun hr => absurd hr (a.not_reach_null k i), fun hi => absurd hi List.not_mem_nil⟩
  | some t => exact h.1.laid.reach_iff

end Adj

/-- The nodes `root` reaches are held and unwritten in `a'`, whatever else became of `a`. -/
structure Arena.Preserves (a a' : Arena) (root : Nat) : Prop where
  ok : a'.Ok
  node : ∀ k i, a.Reach root k i → a'.Held k i ∧ SameNode a a' k i

namespace Adj

theorem Housed.preserved {a a' : Arena} {t : Adj} (h : t.Housed a)
    (same : a.Preserves a' t.root) : t.Housed a' := by
  cases t with
  | none => trivial
  | some t =>
      have reach : ∀ k, ∀ i ∈ Tree.slots t k, a.Reach (offset t) k i := fun k i => h.1.laid.reach
      exact ⟨⟨h.1.laid.congr fun k i hi => (same.node k i (reach k i hi)).2,
        fun k i hi => (same.node k i (reach k i hi)).1⟩, h.2⟩

theorem Live.preserved {a a' : Arena} {t : Adj} (h : t.Live a)
    (same : a.Preserves a' t.root) : t.Live a' := by
  cases t with
  | none => trivial
  | some t =>
      have reach : ∀ k, ∀ i ∈ Tree.slots t k, a.Reach (offset t) k i := fun k i =>
        h.1.stored.laid.reach
      exact ⟨⟨h.1.stored.congr fun k i hi => (same.node k i (reach k i hi)).2,
        fun k i hi => (same.node k i (reach k i hi)).1⟩, h.2⟩

/-- Depth once `v` is placed in the leaf its search ends at. -/
def placedDepth (a : Arena) (v : Nat) : Adj → Nat
  | none => 0
  | some t => max t.depth (t.pathLength v + ((a.chunks (targetSlot v t)).splits v).toNat)

end Adj

/-- The slots of an insert: `leak` is what a failed rebuild left behind. -/
structure Relinked (w w' : ArenaWriter) (t : Adj) (v : Nat) (t' : Tree)
    (logged leak F : SlotClass → List Nat) : Prop where
  grown : Grown w w' F
  housed : Tree.Housed w'.arena t'
  account : ∀ k, (slots t' k ++ (logged k ++ leak k)).Perm (t.slots k ++ F k)
  depth_le : t'.depth ≤ t.placedDepth w.arena v
  settled : CTree.RebuildAllocates ⟨t.root⟩ w v → ∀ k, leak k = []

/-- Old slots and new ones, each once: what the account shares out. -/
theorem Relinked.whole_nodup {w w' : ArenaWriter} {t : Adj} {v : Nat} {t' : Tree}
    {logged leak F : SlotClass → List Nat} (h : Relinked w w' t v t' logged leak F)
    (housed : t.Housed w.arena) (k : SlotClass) : (t'.slots k ++ (logged k ++ leak k)).Nodup := by
  refine List.Nodup.perm ?_ (h.account k).symm
  refine List.nodup_append.mpr ⟨housed.nodup k, h.grown.grows.nodup k, fun i hi j hj same => ?_⟩
  exact h.grown.grows.fresh (same ▸ hj) (housed.held k i hi)

/-- `error` is the panic of a traversal stack. -/
def LinkOutcome (w : ArenaWriter) (t : Adj) (v : Nat) (log : RetireLog) :
    Except (ArenaWriter × RetireLog) (InsertResult × ArenaWriter × RetireLog) → Prop
  | .error _ => maxDepth < t.placedDepth w.arena v
  | .ok (.duplicate, _, log') => log' = log
  | .ok (.arenaFull, _, log') => log' = log
  | .ok (.inserted tree, w', log') => ∃ t' logged leak F, tree.root = offset t' ∧
      log' = log.append logged ∧ Relinked w w' t v t' logged leak F

/-- What a freshly grafted tree reaches, and how deep it is. -/
structure Replanted (w w' : ArenaWriter) (t : Tree) (v : Nat) (ss : List Nat) (sub : Tree)
    (F : SlotClass → List Nat) : Prop where
  length_eq : ss.length = t.pathLength v
  grown : Grown w w' F
  housed : Tree.Housed w'.arena (t.graft v ss sub)
  account : ∀ k, (slots (t.graft v ss sub) k ++
    (only .chunk [targetSlot v t] k ++ only .interior (t.pathSlots v ss.length) k)).Perm
      (slots t k ++ F k)
  depth_le : (t.graft v ss sub).depth ≤ Adj.placedDepth w.arena v (some t)

theorem replanted_of_regrafted {w w₁ w₂ : ArenaWriter} {t sub : Tree} {v : Nat}
    {ss newPath : List Nat} {root : Nat} {F : SlotClass → List Nat}
    (linked : Linked w w₁ sub F)
    (levels : sub.depth = ((w.arena.chunks (targetSlot v t)).splits v).toNat)
    (hss : ss.length = t.pathLength v) (copied : Regrafted w₁ w₂ v t sub ss root newPath) :
    Replanted w w₂ t v ss sub fun k => F k ++ only .interior ss k := by
  refine ⟨hss, linked.grown.trans copied.grown, copied.housed, fun k => ?_, ?_⟩
  · have account := slots_graft sub hss.le k
    have handed := linked.slots_perm k
    have target : slots (t.subtreeAt v ss.length) k = only .chunk [targetSlot v t] k := by
      obtain ⟨ks, leaf_eq⟩ := subtreeAt_pathLength v t
      rw [hss, leaf_eq]
      cases k <;> rfl
    rw [target] at account
    refine List.perm_iff_count.mpr fun x => ?_
    have h₁ := List.perm_iff_count.mp account x
    have h₂ := List.perm_iff_count.mp handed x
    simp only [List.count_append] at h₁ h₂ ⊢
    omega
  · have grafted := depth_graft_le v sub ss t
    have sides := sideDepth_le_depth v ss.length t
    rw [levels] at grafted
    simp only [Adj.placedDepth]
    omega

theorem insertRebalanced_linked {w w₁ : ArenaWriter} {t sub : Tree} {v : Nat} {ss : List Nat}
    {F : SlotClass → List Nat} (placed : Replanted w w₁ t v ss sub F)
    (nodup : ∀ k, (slots t k).Nodup) (fresh : ∀ k, ∀ i ∈ F k, i ∉ slots t k)
    (log : RetireLog) {logged : SlotClass → List Nat}
    (hlog : logged = fun k =>
      only .chunk [targetSlot v t] k ++ only .interior (t.pathSlots v ss.length) k)
    (settled : CTree.RebuildAllocates ⟨offset t⟩ w v → ∀ log w' log',
      rebalance w₁ (offset (t.graft v ss sub)) (ss.map tagInterior) ((steps v t).map Prod.snd) log ≠
        .ok (none, w', log')) :
    LinkOutcome w (some t) v log (CTree.insertRebalanced w₁ (offset (t.graft v ss sub))
      (ss.map tagInterior) ((steps v t).map Prod.snd) (log.append logged)) := by
  have path : OnPath (t.graft v ss sub) v (ss.map tagInterior) ((steps v t).map Prod.snd) := by
    refine ⟨?_, ?_, ?_⟩
    · rw [List.length_map, steps_graft placed.length_eq.le]
    · rw [List.length_map, List.length_map, steps_length, placed.length_eq]
    · rw [List.length_map]
      exact length_le_pathLength_graft placed.length_eq.le
  have whole : ∀ k, (slots (t.graft v ss sub) k).Nodup := fun k => by
    have all : (slots t k ++ F k).Nodup := List.nodup_append.mpr
      ⟨nodup k, placed.grown.grows.nodup k, fun i hi j hj same => fresh k j hj (same ▸ hi)⟩
    exact (List.nodup_append.mp (all.perm (placed.account k).symm)).1
  have outcome := rebalance_relinked placed.grown.ok placed.housed whole path (log.append logged)
  unfold CTree.insertRebalanced
  split
  · rename_i left panic
    rw [panic] at outcome
    exact (Nat.lt_of_lt_of_le outcome (leftDepth_le_depth _)).trans_le placed.depth_le
  · rename_i root w₂ log₂ done
    rw [done] at outcome
    obtain ⟨t', logged', G, rfl, rfl, grown, housed, account, depth⟩ := outcome
    rw [RetireLog.append_append]
    refine ⟨t', _, fun _ => [], _, rfl, rfl, placed.grown.trans grown, housed, fun k => ?_,
      depth.trans placed.depth_le, fun _ _ => rfl⟩
    refine List.perm_iff_count.mpr fun x => ?_
    have h₁ := List.perm_iff_count.mp (placed.account k) x
    have h₂ := List.perm_iff_count.mp (account k) x
    simp only [hlog, Adj.slots, List.count_append, List.count_nil] at h₁ h₂ ⊢
    omega
  · rename_i w₂ log₂ done
    rw [done] at outcome
    obtain ⟨rfl, G, grown⟩ := outcome
    refine ⟨t.graft v ss sub, logged, G, _, rfl, rfl, placed.grown.trans grown,
      placed.housed.grown grown, fun k => ?_, placed.depth_le,
      fun allocates => absurd done (settled allocates _ _ _)⟩
    refine List.perm_iff_count.mpr fun x => ?_
    have h₁ := List.perm_iff_count.mp (placed.account k) x
    simp only [hlog, Adj.slots, List.count_append] at h₁ ⊢
    omega

/-- Every outcome of an insert, by links alone. -/
theorem insertWithScratch_linked {w : ArenaWriter} (ok : w.arena.Ok) {t : Adj}
    (housed : t.Housed w.arena) (v : Nat) (log : RetireLog) :
    LinkOutcome w t v log (CTree.insertWithScratch ⟨t.root⟩ w v log) := by
  cases t with
  | none =>
      unfold CTree.insertWithScratch
      rw [if_pos (show (CTree.mk (Adj.root none)).root = null from rfl)]
      split
      · rename_i off w' halloc
        obtain ⟨grown, -⟩ := grown_of_chunk ok halloc
        refine ⟨leaf off [], fun _ => [], fun _ => [], _, rfl, (log.append_nil).symm, grown,
          housed_leaf [] grown, fun k => ?_, Nat.zero_le _, fun _ _ => rfl⟩
        cases k <;> exact List.Perm.refl _
      · exact rfl
  | some t =>
      obtain ⟨housed, nodup⟩ := housed
      have proper : (CTree.mk (offset t)).root ≠ null := housed.laid.offset_lt.ne
      -- the same descent and copy loop, as `copiedPath` reports them
      have copied_eq : CTree.copiedPath ⟨offset t⟩ w v = CTree.copiedPath ⟨offset t⟩ w v := rfl
      conv_rhs at copied_eq => rw [CTree.copiedPath, if_neg proper]
      unfold CTree.insertWithScratch
      rw [show Adj.root (some t) = offset t from rfl, if_neg proper]
      dsimp only at copied_eq ⊢
      rw [descend_laid housed.laid] at copied_eq ⊢
      by_cases deep : maxDepth < t.pathLength v
      · rw [if_neg (by omega)]
        exact rfl
      rw [if_pos (by omega)] at copied_eq ⊢
      dsimp only at copied_eq ⊢
      split
      · exact rfl
      · exact rfl
      rename_i child splitLevels w₁ hleaf
      rw [hleaf] at copied_eq
      dsimp only at copied_eq
      obtain ⟨sub, F, rfl, linked, depth_eq, levels⟩ := leafInsert_linked ok hleaf
      have whole : steps v t = (steps v t).take (t.pathLength v) := by
        rw [← steps_length, List.take_length]
      split
      · exact rfl
      rename_i newRoot newPath w₂ hcopy
      rw [hcopy] at copied_eq
      rw [whole] at hcopy
      obtain ⟨ss, hss, copied⟩ := copyPath_regrafted linked.grown.ok (housed.grown linked.grown)
        linked.housed le_rfl hcopy
      have done := replanted_of_regrafted linked (depth_eq.trans levels) hss copied
      have path_log : (steps v t).map (fun step => stripTag step.1) = t.pathSlots v ss.length := by
        rw [hss, ← housed.laid.map_steps, ← whole]
      rw [copied.root_eq, copied.newPath_eq] at copied_eq
      rw [copied.root_eq, copied.newPath_eq, path_log, RetireLog.push_eq, RetireLog.foldl_push,
        RetireLog.append_append]
      split
      · rename_i need
        refine insertRebalanced_linked done nodup (fun k i hi mem => ?_) log rfl
          fun allocates => allocates _ copied_eq need
        exact done.grown.grows.fresh hi (housed.held k i mem)
      · refine ⟨t.graft v ss sub, _, fun _ => [], _, rfl, rfl, done.grown, done.housed,
          fun k => ?_, done.depth_le, fun _ _ => rfl⟩
        rw [List.append_nil]
        exact done.account k

end AetherGraph
