import AetherGraph.PathCopy
import Mathlib.Tactic.Ring

/-! Set insertion by path copy: leaf split, count bumps and scapegoat rebuild on a kept
tree, with the account of every slot handed out or logged on the way. -/

namespace AetherGraph

open Foundation Foundation.LeafTree Arena ArenaWriter Tree

/-- The halves of a full chunk with `v` placed in its own half. -/
structure SplitInserted (ks : List Nat) (v key : Nat) (l r : Chunk) : Prop where
  left_cap : l.count ≤ chunkCap
  right_cap : r.count ≤ chunkCap
  left_ne : l.asSlice ≠ []
  right_ne : r.asSlice ≠ []
  joined : l.asSlice ++ r.asSlice = ks.orderedInsert (· ≤ ·) v
  below : ∀ x ∈ l.asSlice, x < key
  above : ∀ x ∈ r.asSlice, key ≤ x

theorem splitInsert_spec {c : Chunk} (full : c.count = chunkCap)
    (sorted : c.asSlice.Pairwise (· < ·)) (v : Nat) :
    (v ∈ c.asSlice ∧ splitInsert c v = none) ∨
      v ∉ c.asSlice ∧ ∃ l r, splitInsert c v = some (l, r) ∧
        SplitInserted c.asSlice v c.split.2.min l r := by
  have size : c.asSlice.length = chunkCap := (Chunk.asSlice_length full.le).trans full
  obtain ⟨hl, hr⟩ := Chunk.split_asSlice full.le
  have joined : c.split.1.asSlice ++ c.split.2.asSlice = c.asSlice := by
    rw [hl, hr, List.take_append_drop]
  have lcount : c.split.1.count = 7 := by
    simp only [Chunk.split, Chunk.fromSorted, List.length_take, Vector.length_toList, full]
    decide
  have rcount : c.split.2.count = 8 := by
    simp only [Chunk.split, Chunk.fromSorted, List.length_drop, List.length_take,
      Vector.length_toList, full]
    decide
  have llen : c.split.1.asSlice.length = 7 := by
    rw [Chunk.asSlice_length (by rw [lcount]; decide), lcount]
  have rlen : c.split.2.asSlice.length = 8 := by
    rw [Chunk.asSlice_length (by rw [rcount]; decide), rcount]
  generalize hL : c.split.1 = L at *
  generalize hR : c.split.2 = R at *
  obtain ⟨x, rest, hx⟩ : ∃ x rest, R.asSlice = x :: rest :=
    List.exists_cons_of_ne_nil (List.ne_nil_of_length_pos (by omega))
  have hmin : R.min = x := Chunk.min_eq hx
  have order := joined ▸ sorted
  rw [List.pairwise_append] at order
  obtain ⟨lsorted, rsorted, across⟩ := order
  have below : ∀ y ∈ L.asSlice, y < x := fun y hy =>
    across y hy x (hx ▸ List.mem_cons_self ..)
  have above : ∀ y ∈ R.asSlice, x ≤ y := fun y hy => by
    have rs := rsorted
    rw [hx] at hy rs
    rcases List.mem_cons.mp hy with rfl | hy
    · exact Nat.le_refl y
    · exact ((List.pairwise_cons.mp rs).1 y hy).le
  have unfolded : splitInsert c v =
      if v < x then (L.insert v).map fun left => (left, R)
      else (R.insert v).map fun right => (L, right) := by
    rw [splitInsert, ← hmin, ← hL, ← hR]
  have side : v ∈ c.asSlice ↔ if v < x then v ∈ L.asSlice else v ∈ R.asSlice := by
    rw [← joined, List.mem_append]
    split
    · rename_i lt
      have : v ∉ R.asSlice := fun hv => absurd (above v hv) (by omega)
      simp only [this, or_false]
    · rename_i ge
      have : v ∉ L.asSlice := fun hv => ge (below v hv)
      simp only [this, false_or]
  rw [unfolded, side, hmin]
  by_cases hv : v < x
  · simp only [if_pos hv]
    by_cases dup : v ∈ L.asSlice
    · exact .inl ⟨dup, by rw [Chunk.insert_duplicate dup]; rfl⟩
    · obtain ⟨l, hins, count, elems⟩ := Chunk.insert_eq (by rw [lcount]; decide) lsorted dup
      refine .inr ⟨dup, l, R, by rw [hins]; rfl, ⟨?_, ?_, ?_, ?_, ?_, ?_, above⟩⟩
      · rw [count, lcount]
        decide
      · rw [rcount]
        decide
      · rw [elems]
        exact List.ne_nil_of_length_pos (by rw [List.orderedInsert_length]; omega)
      · rw [hx]
        exact List.cons_ne_nil _ _
      · have placed := orderedInsert_between L.asSlice (List.forall_mem_nil (· < v))
          (fun y (hy : y ∈ R.asSlice) => hv.trans_le (above y hy))
        rw [elems, ← joined, ← List.nil_append L.asSlice, placed]
        rfl
      · intro y hy
        rw [elems, List.mem_orderedInsert] at hy
        rcases hy with rfl | hy
        · exact hv
        · exact below y hy
  · simp only [if_neg hv]
    by_cases dup : v ∈ R.asSlice
    · exact .inl ⟨dup, by rw [Chunk.insert_duplicate dup]; rfl⟩
    · obtain ⟨r, hins, count, elems⟩ := Chunk.insert_eq (by rw [rcount]; decide) rsorted dup
      refine .inr ⟨dup, L, r, by rw [hins]; rfl, ⟨?_, ?_, ?_, ?_, ?_, below, ?_⟩⟩
      · rw [lcount]
        decide
      · rw [count, rcount]
        decide
      · exact List.ne_nil_of_length_pos (by omega)
      · rw [elems]
        exact List.ne_nil_of_length_pos (by rw [List.orderedInsert_length]; omega)
      · have placed := orderedInsert_between R.asSlice
          (fun y (hy : y ∈ L.asSlice) => (below y hy).trans_le (Nat.le_of_not_lt hv))
          (List.forall_mem_nil _)
        rw [elems, ← joined, ← List.append_nil (L.asSlice ++ R.asSlice), placed, List.append_nil]
      · intro y hy
        rw [elems, List.mem_orderedInsert] at hy
        rcases hy with rfl | hy
        · exact Nat.le_of_not_lt hv
        · exact above y hy

/-- What the leaf insert hands up: a subtree over the leaf's keys and `v`, built from
slots of its own. -/
structure LeafPlaced (w w' : ArenaWriter) (ks : List Nat) (v : Nat) (sub : Tree)
    (splitLevels : Nat) (F : SlotClass → List Nat) : Prop where
  fresh : v ∉ ks
  grown : Grown w w' F
  kept : Kept w'.arena sub
  wellFormed : sub.WellFormed chunkCap
  elems_eq : sub.elems = ks.orderedInsert (· ≤ ·) v
  slots_perm : ∀ k, (slots sub k).Perm (F k)
  depth_eq : sub.depth = splitLevels
  leftDepth_eq : sub.leftDepth = splitLevels
  split_iff : splitLevels = if ks.length = chunkCap then 1 else 0
  run : AllocRun w w'

def LeafOutcome (w : ArenaWriter) (ks : List Nat) (v : Nat) : LeafInsert → Prop
  | .placed child splitLevels w' =>
      ∃ sub F, child = offset sub ∧ LeafPlaced w w' ks v sub splitLevels F
  | .duplicate => v ∈ ks
  | .arenaFull w' => (∃ F, Grown w w' F) ∧ AllocFailed w w'

theorem kept_leaf {w w' : ArenaWriter} {ks : List Nat} {idx : Nat} {c : Chunk}
    (grown : Grown w w' (only .chunk [idx])) (held : w'.arena.chunks idx = c)
    (count : c.count = ks.length) (elems : c.asSlice = ks) : Kept w'.arena (leaf idx ks) := by
  have own : w'.arena.Held .chunk idx := grown.grows.heldNew (by simp)
  refine ⟨⟨?_, by rw [held, count], by rw [held, elems]⟩, fun k i hi => ?_⟩
  · have := own.lt grown.ok
    omega
  · cases k with
    | chunk =>
        obtain rfl := List.mem_singleton.mp hi
        exact own
    | interior => exact absurd hi List.not_mem_nil

theorem allocSplit_spec {w : ArenaWriter} (ok : w.arena.Ok) {ks : List Nat} {v key : Nat}
    {l r : Chunk} (full : ks.length = chunkCap) (sorted : ks.Pairwise (· < ·)) (fresh : v ∉ ks)
    (halves : SplitInserted ks v key l r) : LeafOutcome w ks v (allocSplit w l r key) := by
  have lc := Chunk.asSlice_length halves.left_cap
  have rc := Chunk.asSlice_length halves.right_cap
  have order := pairwise_orderedInsert sorted fresh
  rw [← halves.joined, List.pairwise_append] at order
  obtain ⟨lsorted, rsorted, _⟩ := order
  unfold allocSplit
  split
  · rename_i w' hfail
    exact ⟨⟨_, grown_of_chunk_none ok hfail⟩, (AllocRun.refl w).failed_chunk hfail⟩
  rename_i left w₁ hleft
  obtain ⟨g₁, held₁⟩ := grown_of_chunk ok hleft
  have keptL := kept_leaf g₁ held₁ lc.symm rfl
  have run₁ : AllocRun w w₁ := .chunk (.refl w) hleft
  split
  · rename_i w' hfail
    exact ⟨⟨_, g₁.trans (grown_of_chunk_none g₁.ok hfail)⟩, run₁.failed_chunk hfail⟩
  rename_i right w₂ hright
  obtain ⟨g₂, held₂⟩ := grown_of_chunk g₁.ok hright
  have keptR := kept_leaf g₂ held₂ rc.symm rfl
  have run₂ : AllocRun w w₂ := .chunk run₁ hright
  split
  · rename_i w' hfail
    exact ⟨⟨_, (g₁.trans g₂).trans (grown_of_interior_none g₂.ok hfail)⟩,
      run₂.failed_interior hfail⟩
  rename_i idx w₃ hnode
  obtain ⟨g₃, held₃⟩ := grown_of_interior g₂.ok hnode
  refine ⟨node idx key (leaf left l.asSlice) (leaf right r.asSlice), _, rfl,
    fresh, (g₁.trans g₂).trans g₃, ?_, ?_, halves.joined, fun k => ?_, rfl, rfl, ?_,
    .interior run₂ hnode⟩
  · refine Kept.node ((keptL.grown g₂).grown g₃) (keptR.grown g₃)
      (g₃.grows.heldNew (by simp)) g₃.ok ?_
    rw [held₃]
    simp only [offset, elems, lc, rc]
  · exact ⟨⟨halves.left_ne, lc.trans_le halves.left_cap, lsorted⟩,
      ⟨halves.right_ne, rc.trans_le halves.right_cap, rsorted⟩, halves.below, halves.above⟩
  · cases k <;> exact List.Perm.refl _
  · rw [full, if_pos rfl]

theorem leafInsert_split {w : ArenaWriter} (ok : w.arena.Ok) {c : Chunk}
    (full : c.count = chunkCap) (sorted : c.asSlice.Pairwise (· < ·)) (v : Nat) :
    LeafOutcome w c.asSlice v (leafInsert w c v) := by
  have isFull : c.isFull = true := by simp [Chunk.isFull, full]
  have len := (Chunk.asSlice_length full.le).trans full
  rcases splitInsert_spec full sorted v with ⟨dup, eq⟩ | ⟨fresh, l, r, eq, halves⟩
  · have done : leafInsert w c v = .duplicate := by
      simp only [leafInsert, isFull, if_true, eq]
    rw [done]
    exact dup
  · have done : leafInsert w c v = allocSplit w l r c.split.2.min := by
      simp only [leafInsert, isFull, if_true, eq]
    rw [done]
    exact allocSplit_spec ok len sorted fresh halves

theorem leafInsert_room {w : ArenaWriter} (ok : w.arena.Ok) {c : Chunk}
    (room : c.count < chunkCap) (sorted : c.asSlice.Pairwise (· < ·)) (v : Nat) :
    LeafOutcome w c.asSlice v (leafInsert w c v) := by
  have len : c.asSlice.length = c.count := Chunk.asSlice_length room.le
  rw [leafInsert, if_neg (by simp [Chunk.isFull]; omega)]
  by_cases dup : v ∈ c.asSlice
  · rw [Chunk.insert_duplicate dup]
    exact dup
  obtain ⟨c', hins, count, elems⟩ := Chunk.insert_eq room sorted dup
  rw [hins]
  dsimp only
  split
  · rename_i w' hfail
    exact ⟨⟨_, grown_of_chunk_none ok hfail⟩, (AllocRun.refl w).failed_chunk hfail⟩
  rename_i idx w' halloc
  obtain ⟨grown, held⟩ := grown_of_chunk ok halloc
  have size : c'.count = (c.asSlice.orderedInsert (· ≤ ·) v).length := by
    rw [List.orderedInsert_length, len, count]
  refine ⟨leaf idx (c.asSlice.orderedInsert (· ≤ ·) v), _, rfl, dup, grown,
    kept_leaf grown held size elems, ⟨?_, ?_, pairwise_orderedInsert sorted dup⟩, rfl,
    fun k => ?_, rfl, rfl, ?_, .chunk (.refl w) halloc⟩
  · exact List.ne_nil_of_length_pos (by omega)
  · omega
  · cases k <;> exact List.Perm.refl _
  · rw [len, if_neg (by omega)]

/-- The leaf insert on a well-formed leaf. -/
theorem leafInsert_spec {w : ArenaWriter} (ok : w.arena.Ok) {c : Chunk} (cap : c.count ≤ chunkCap)
    (sorted : c.asSlice.Pairwise (· < ·)) (v : Nat) :
    LeafOutcome w c.asSlice v (leafInsert w c v) := by
  rcases Nat.lt_or_eq_of_le cap with room | full
  · exact leafInsert_room ok room sorted v
  · exact leafInsert_split ok full sorted v

/-- The freshly copied path: offsets and turns of the search for `v` in `t`. -/
structure OnPath (t : Tree) (v : Nat) (newPath : List Nat) (wentLeft : List Bool) : Prop where
  steps_eq : newPath.zip wentLeft = (steps v t).take newPath.length
  turns : newPath.length ≤ wentLeft.length
  le : newPath.length ≤ t.pathLength v

theorem OnPath.getElem? {t : Tree} {v : Nat} {newPath : List Nat} {wentLeft : List Bool}
    (h : OnPath t v newPath wentLeft) {i : Nat} (hi : i < newPath.length) :
    newPath[i]? = some (offset (t.subtreeAt v i)) := by
  have firsts : (newPath.zip wentLeft).map Prod.fst = newPath :=
    List.map_fst_zip h.turns
  rw [h.steps_eq] at firsts
  conv_lhs => rw [← firsts]
  rw [List.getElem?_map, List.getElem?_take, if_pos hi]
  exact getElem?_steps (hi.trans_le h.le)

theorem OnPath.take {t : Tree} {v : Nat} {newPath : List Nat} {wentLeft : List Bool}
    (h : OnPath t v newPath wentLeft) {i : Nat} (hi : i ≤ newPath.length) :
    (newPath.zip wentLeft).take i = (steps v t).take i := by
  rw [h.steps_eq, List.take_take, Nat.min_eq_left hi]

/-- The node `n` steps down the search path of `v` weighs at most `(2 / 3) ^ n` of the
tree, because no node above it is alpha-unbalanced. -/
theorem weight_of_balanced_above {a : Arena} {t : Tree} (h : Stored a t) {v n : Nat}
    (hn : n ≤ t.pathLength v)
    (balanced : ∀ i < n, a.alphaUnbalanced (a.interiorAt (offset (t.subtreeAt v i))) = false) :
    3 ^ n * (t.subtreeAt v n).elems.length ≤ 2 ^ n * t.elems.length := by
  induction t generalizing n with
  | leaf s ks =>
      obtain rfl := Nat.le_zero.mp hn
      simp
  | node s key l r ihl ihr =>
      cases n with
      | zero => simp
      | succ n =>
          have top := balanced 0 (Nat.succ_pos n)
          rw [subtreeAt_zero, offset, h.interiorAt, alphaUnbalanced] at top
          rw [h.2.2.1.subtreeSize, h.2.2.2.subtreeSize] at top
          simp only [Bool.or_eq_false_iff, decide_eq_false_iff_not] at top
          have rest := fun i hi => balanced (i + 1) (Nat.succ_lt_succ hi)
          simp only [LeafTree.subtreeAt, pathLength, elems, List.length_append] at rest hn ⊢
          split <;> rename_i hv
          · simp only [if_pos hv] at rest hn
            have sub := ihl h.2.2.1 (by omega) rest
            calc 3 ^ (n + 1) * (l.subtreeAt v n).elems.length
                _ = 3 * (3 ^ n * (l.subtreeAt v n).elems.length) := by ring
                _ ≤ 3 * (2 ^ n * l.elems.length) := Nat.mul_le_mul_left 3 sub
                _ = 2 ^ n * (3 * l.elems.length) := by ring
                _ ≤ 2 ^ n * (2 * (l.elems.length + r.elems.length)) :=
                  Nat.mul_le_mul_left _ (by omega)
                _ = 2 ^ (n + 1) * (l.elems.length + r.elems.length) := by ring
          · simp only [if_neg hv] at rest hn
            have sub := ihr h.2.2.2 (by omega) rest
            calc 3 ^ (n + 1) * (r.subtreeAt v n).elems.length
                _ = 3 * (3 ^ n * (r.subtreeAt v n).elems.length) := by ring
                _ ≤ 3 * (2 ^ n * r.elems.length) := Nat.mul_le_mul_left 3 sub
                _ = 2 ^ n * (3 * r.elems.length) := by ring
                _ ≤ 2 ^ n * (2 * (l.elems.length + r.elems.length)) :=
                  Nat.mul_le_mul_left _ (by omega)
                _ = 2 ^ (n + 1) * (l.elems.length + r.elems.length) := by ring

theorem findScapegoat_spec (a : Arena) (newPath : List Nat) :
    (findScapegoat a newPath = 0 ∨ findScapegoat a newPath < newPath.length) ∧
      ∀ i < findScapegoat a newPath, ∀ off, newPath[i]? = some off →
        a.alphaUnbalanced (a.interiorAt off) = false := by
  unfold findScapegoat
  cases found : newPath.findIdx? fun offset => a.alphaUnbalanced (a.interiorAt offset) with
  | none =>
      refine ⟨.inl rfl, fun i hi => ?_⟩
      rw [Option.getD_none] at hi
      exact absurd hi (Nat.not_lt_zero i)
  | some sc =>
      rw [List.findIdx?_eq_some_iff_getElem] at found
      obtain ⟨lt, _, before⟩ := found
      refine ⟨.inr lt, fun i hi off hoff => ?_⟩
      rw [Option.getD_some] at hi
      rw [List.getElem?_eq_getElem (hi.trans lt), Option.some.injEq] at hoff
      simpa [hoff] using before i hi

/-- A rebuilt subtree grafted back: same keys, and every slot superseded is logged. -/
structure Rebalanced (w w' : ArenaWriter) (v : Nat) (t t' : Tree)
    (logged F : SlotClass → List Nat) : Prop where
  grown : Grown w w' F
  kept : Kept w'.arena t'
  wellFormed : t'.WellFormed chunkCap
  elems_eq : t'.elems = t.elems
  account : ∀ k, (slots t' k ++ logged k).Perm (slots t k ++ F k)
  shape : ∃ ss sub, ss.length ≤ t.pathLength v ∧ t' = t.graft v ss sub ∧ Balanced sub ∧
    sub.WellFormed chunkCap ∧
    3 ^ ss.length * sub.elems.length ≤ 2 ^ ss.length * t.elems.length

/-- `error` is the panic: the walk over the target ran off its stack. -/
def RebalanceOutcome (w : ArenaWriter) (v : Nat) (t : Tree) (log : RetireLog) :
    Except (ArenaWriter × RetireLog) (Option Nat × ArenaWriter × RetireLog) → Prop
  | .error (w', _) => maxDepth < t.leftDepth ∧ w' = w
  | .ok (none, w', log') => log' = log ∧ ∃ F, Grown w w' F
  | .ok (some root, w', log') => ∃ t' logged F, root = offset t' ∧
      log' = log.append logged ∧ Rebalanced w w' v t t' logged F

theorem rebalance_spec {w : ArenaWriter} (ok : w.arena.Ok) {t : Tree} (kept : Kept w.arena t)
    (wf : t.WellFormed chunkCap) (size : t.elems.length < 2 ^ 32) {v : Nat} {newPath : List Nat}
    {wentLeft : List Bool} (path : OnPath t v newPath wentLeft) (log : RetireLog) :
    RebalanceOutcome w v t log (rebalance w (offset t) newPath wentLeft log) := by
  obtain ⟨inside, above⟩ := findScapegoat_spec w.arena newPath
  unfold rebalance
  dsimp only
  generalize findScapegoat w.arena newPath = sc at *
  have sc_le : sc ≤ newPath.length := by omega
  have scl : sc ≤ t.pathLength v := sc_le.trans path.le
  have target : newPath.getD sc (offset t) = offset (t.subtreeAt v sc) := by
    rw [List.getD_eq_getElem?_getD]
    rcases Nat.lt_or_ge sc newPath.length with lt | ge
    · rw [path.getElem? lt, Option.getD_some]
    · obtain rfl : sc = 0 := by omega
      rw [List.getElem?_eq_none ge, Option.getD_none, subtreeAt_zero]
  have weight := weight_of_balanced_above kept.stored scl fun i hi =>
    above i hi _ (path.getElem? (by omega))
  have keptT := kept.subtreeAt v sc
  have wfT := wf.subtreeAt v sc
  have lenT : (t.subtreeAt v sc).elems.length ≤ t.elems.length := by
    conv_rhs => rw [elems_split v sc t]
    simp only [List.length_append]
    omega
  rw [target, visitChunks_stored keptT.stored wfT keptT.below]
  by_cases room : (t.subtreeAt v sc).leftDepth ≤ maxDepth
  · rw [if_pos room]
    dsimp only
    rw [keptT.stored.flatMap_asSlice]
    have ne := wfT.elems_ne_nil
    have sorted := wfT.elems_sorted
    split
    · rename_i w₁ hbuild
      exact ⟨rfl, buildBalanced_none ok ne sorted (by omega) hbuild⟩
    rename_i child w₁ hbuild
    obtain ⟨sub, F, built⟩ := buildBalanced_some ok ne sorted (by omega) hbuild
    have grown₁ : Grown w w₁ F := built.wrote
    rw [path.take sc_le, built.root_eq]
    split
    · rename_i w₂ hcopy
      obtain ⟨⟨G, grown₂⟩, -, -⟩ :=
        copyPath_grown 0 grown₁.ok ((steps v t).take sc) (offset sub)
      rw [hcopy] at grown₂
      exact ⟨rfl, _, grown₁.trans grown₂⟩
    rename_i root path₂ w₂ hcopy
    obtain ⟨ss, hlen, copied⟩ := copyPath_some grown₁.ok (kept.grown grown₁)
      (kept_of_built built) scl (by rw [built.elems_eq, Nat.add_zero]) (by omega) hcopy
    have keptT₂ := (keptT.grown grown₁).grown copied.grown
    rw [retireSubtree_stored keptT₂.stored wfT keptT₂.below room]
    dsimp only
    have logPath : (newPath.take sc).map stripTag = t.pathSlots v sc := by
      have firsts : ((newPath.zip wentLeft).take sc).map Prod.fst = newPath.take sc := by
        rw [List.map_take, List.map_fst_zip path.turns]
      rw [← firsts, path.take sc_le, ← kept.stored.map_steps v sc, List.map_map]
      rfl
    rw [logPath, RetireLog.foldl_push, RetireLog.append_append]
    refine ⟨t.graft v ss sub, _, _, copied.root_eq, rfl, grown₁.trans copied.grown, copied.kept,
      ?_, ?_, fun k => ?_, ss, sub, ?_, rfl, built.balanced, built.wellFormed, ?_⟩
    · refine wf.graft built.wellFormed fun x hx => .inr ?_
      rwa [hlen, ← built.elems_eq]
    · exact elems_graft_same (by rw [hlen, built.elems_eq])
    · have account := slots_graft sub (t := t) (show ss.length ≤ t.pathLength v by omega) k
      have handed := (built.slots_perm k)
      rw [hlen] at account
      refine List.perm_iff_count.mpr fun x => ?_
      have h₁ := List.perm_iff_count.mp account x
      have h₂ := List.perm_iff_count.mp handed x
      simp only [List.count_append] at h₁ h₂ ⊢
      omega
    · omega
    · rw [hlen, built.elems_eq]
      exact weight
  · rw [if_neg room]
    exact ⟨(Nat.lt_of_not_le room).trans_le (leftDepth_subtreeAt_le v sc t), rfl⟩

end AetherGraph
