import AetherGraph.SetInsert

/-! The height bound of the scapegoat tree: a tree of `n` elements is at most `depthLimit n` deep.
Leaves hold up to fifteen elements, so the classical weights leave room for a freshly split leaf
and for a rebuild that balances leaves rather than elements. -/

namespace Foundation.LeafTree

variable {α ι : Type} [LinearOrder α]

/-- Deepest path that leaves the search for `v` within its first `n` steps. -/
def sideDepth (v : α) : Nat → LeafTree α ι → Nat
  | 0, _ => 0
  | _ + 1, leaf _ _ => 0
  | n + 1, node _ key l r =>
      if v < key then max (l.sideDepth v n) r.depth + 1 else max l.depth (r.sideDepth v n) + 1

theorem sideDepth_le_depth (v : α) (n : Nat) (t : LeafTree α ι) : t.sideDepth v n ≤ t.depth := by
  induction t generalizing n with
  | leaf s ks => cases n <;> exact Nat.zero_le _
  | node s key l r ihl ihr =>
      cases n with
      | zero => exact Nat.zero_le _
      | succ n =>
          have left := ihl n
          have right := ihr n
          simp only [sideDepth, depth]
          split <;> omega

theorem depth_graft_le (v : α) (sub : LeafTree α ι) (ss : List ι) (t : LeafTree α ι) :
    (t.graft v ss sub).depth ≤ max (t.sideDepth v ss.length) (ss.length + sub.depth) := by
  induction t generalizing ss with
  | leaf s ks => cases ss <;> simp [graft, sideDepth]
  | node s key l r ihl ihr =>
      cases ss with
      | nil => simp [sideDepth]
      | cons s' ss =>
          have left := ihl ss
          have right := ihr ss
          simp only [graft, sideDepth, List.length_cons]
          split <;> simp only [depth] <;> omega

/-- A graft leaves what branches off its path alone. -/
theorem sideDepth_graft (v : α) (sub : LeafTree α ι) {ss : List ι} {t : LeafTree α ι} {n : Nat}
    (within : n ≤ ss.length) (inside : ss.length ≤ t.pathLength v) :
    (t.graft v ss sub).sideDepth v n = t.sideDepth v n := by
  induction t generalizing ss n with
  | leaf s ks =>
      obtain rfl : n = 0 := Nat.le_zero.mp (within.trans inside)
      simp only [sideDepth]
  | node s key l r ihl ihr =>
      cases n with
      | zero => simp only [sideDepth]
      | succ n =>
          cases ss with
          | nil => exact absurd within (Nat.not_succ_le_zero n)
          | cons s' ss =>
              simp only [List.length_cons, pathLength] at within inside
              by_cases below : v < key
              · rw [if_pos below] at inside
                simp only [graft, if_pos below, sideDepth]
                rw [ihl (by omega) (by omega)]
              · rw [if_neg below] at inside
                simp only [graft, if_neg below, sideDepth]
                rw [ihr (by omega) (by omega)]

theorem subtreeAt_graft {v : α} {ss : List ι} {t sub : LeafTree α ι}
    (inside : ss.length ≤ t.pathLength v) : (t.graft v ss sub).subtreeAt v ss.length = sub := by
  induction t generalizing ss with
  | leaf s ks =>
      obtain rfl : ss = [] := List.eq_nil_of_length_eq_zero (Nat.le_zero.mp inside)
      exact subtreeAt_zero v sub
  | node s key l r ihl ihr =>
      cases ss with
      | nil => exact subtreeAt_zero v _
      | cons s' ss =>
          simp only [List.length_cons, pathLength] at inside
          by_cases below : v < key
          · rw [if_pos below] at inside
            simp only [graft, if_pos below, List.length_cons, subtreeAt]
            exact ihl (by omega)
          · rw [if_neg below] at inside
            simp only [graft, if_neg below, List.length_cons, subtreeAt]
            exact ihr (by omega)

end Foundation.LeafTree

namespace AetherGraph

open Foundation Foundation.LeafTree Arena ArenaWriter Tree

/-! `depthLimit n` is the largest `k` with `(3 / 2) ^ k ≤ max n 2`. -/

theorem pow_le_of_le {n k j : Nat} (le : j ≤ k) (fits : 3 ^ k ≤ n * 2 ^ k) :
    3 ^ j ≤ n * 2 ^ j := by
  obtain ⟨d, rfl⟩ := Nat.exists_eq_add_of_le le
  have grow : 2 ^ d ≤ 3 ^ d := Nat.pow_le_pow_left (by decide) d
  refine Nat.le_of_mul_le_mul_right ?_ (Nat.two_pow_pos d)
  calc 3 ^ j * 2 ^ d ≤ 3 ^ j * 3 ^ d := Nat.mul_le_mul_left _ grow
    _ = 3 ^ (j + d) := (Nat.pow_add ..).symm
    _ ≤ n * 2 ^ (j + d) := fits
    _ = n * 2 ^ j * 2 ^ d := by rw [Nat.pow_add, Nat.mul_assoc]

theorem le_depthLimit_iff {n k : Nat} : k ≤ depthLimit n ↔ 3 ^ k ≤ max n 2 * 2 ^ k := by
  constructor
  · intro le
    have spec : 3 ^ depthLimit n ≤ max n 2 * 2 ^ depthLimit n :=
      Nat.findGreatest_spec (P := fun k => 3 ^ k ≤ max n 2 * 2 ^ k) (Nat.zero_le _)
        (by rw [Nat.pow_zero, Nat.pow_zero]; omega)
    exact pow_le_of_le le spec
  · intro fits
    refine Nat.le_findGreatest ?_ fits
    by_contra long
    -- two levels at the bound more than double the weight
    have early := pow_le_of_le (Nat.le_of_not_le long) fits
    have upper : max n 2 < 2 ^ (Nat.log2 (max n 2) + 1) := Nat.lt_log2_self
    generalize Nat.log2 (max n 2) + 1 = level at early upper
    rw [Nat.pow_mul, Nat.pow_mul] at early
    have lower : 8 ^ level ≤ 9 ^ level := Nat.pow_le_pow_left (by decide) level
    have split : 8 ^ level = 2 ^ level * 4 ^ level := by rw [← Nat.mul_pow]
    have strict : max n 2 * 4 ^ level < 2 ^ level * 4 ^ level :=
      Nat.mul_lt_mul_of_pos_right upper (Nat.pow_pos (by decide))
    norm_num at early
    omega

theorem depthLimit_mono {m n : Nat} (le : m ≤ n) : depthLimit m ≤ depthLimit n := by
  have fits := le_depthLimit_iff.mp (Nat.le_refl (depthLimit m))
  refine le_depthLimit_iff.mpr (fits.trans (Nat.mul_le_mul_right _ ?_))
  omega

/-- The integer prefilter passes only paths within the limit. -/
theorem log2_le_depthLimit (n : Nat) : Nat.log2 (max n 2) ≤ depthLimit n := by
  refine le_depthLimit_iff.mpr ?_
  generalize level : Nat.log2 (max n 2) = k
  have low : 2 ^ k ≤ max n 2 := level ▸ Nat.log2_self_le (by omega)
  calc 3 ^ k ≤ 4 ^ k := Nat.pow_le_pow_left (by decide) k
    _ = 2 ^ k * 2 ^ k := by rw [← Nat.mul_pow]
    _ ≤ max n 2 * 2 ^ k := Nat.mul_le_mul_right _ low

/-- A balanced subtree over a fair share of the elements stays within the limit. -/
theorem rebuilt_le_depthLimit {sub : Tree} (balanced : Balanced sub) (wf : sub.WellFormed chunkCap)
    {steps n : Nat} (share : 3 ^ steps * sub.elems.length ≤ 2 ^ steps * n) :
    steps + sub.depth ≤ depthLimit n := by
  have pos : 0 < sub.elems.length := List.length_pos_of_ne_nil wf.elems_ne_nil
  have fits : leavesFor sub.elems.length ≤ 2 ^ Nat.clog 2 (leavesFor sub.elems.length) :=
    Nat.le_pow_clog (by decide) _
  have shallow := balanced.depth_le fits
  generalize level : Nat.clog 2 (leavesFor sub.elems.length) = c at shallow
  -- all leaves but one are full
  have heavy : 3 ^ c ≤ sub.elems.length * 2 ^ c := by
    cases c with
    | zero => omega
    | succ c =>
        have many : 2 ^ c < leavesFor sub.elems.length := by
          refine (Nat.lt_clog_iff_pow_lt (by decide)).mp ?_
          omega
        have large : 2 ^ (c + 1) ≤ sub.elems.length := by
          rw [Nat.pow_succ]
          simp only [leavesFor, chunkCap] at many
          omega
        calc 3 ^ (c + 1) ≤ 4 ^ (c + 1) := Nat.pow_le_pow_left (by decide) _
          _ = 2 ^ (c + 1) * 2 ^ (c + 1) := by rw [← Nat.mul_pow]
          _ ≤ sub.elems.length * 2 ^ (c + 1) := Nat.mul_le_mul_right _ large
  have within : steps + c ≤ depthLimit n := by
    refine le_depthLimit_iff.mpr ?_
    calc 3 ^ (steps + c) = 3 ^ steps * 3 ^ c := Nat.pow_add ..
      _ ≤ 3 ^ steps * (sub.elems.length * 2 ^ c) := Nat.mul_le_mul_left _ heavy
      _ = 3 ^ steps * sub.elems.length * 2 ^ c := (Nat.mul_assoc ..).symm
      _ ≤ 2 ^ steps * n * 2 ^ c := Nat.mul_le_mul_right _ share
      _ = n * 2 ^ (steps + c) := by rw [Nat.pow_add]; ring
      _ ≤ max n 2 * 2 ^ (steps + c) := Nat.mul_le_mul_right _ (Nat.le_max_left ..)
  omega

/-- A copied path past the limit runs through an unbalanced node.  A leaf that was just split
weighs sixteen, which pays for the level it added. -/
theorem exists_unbalanced {a : Arena} {t : Tree} (h : Stored a t) {v n levels : Nat}
    (within : n ≤ t.pathLength v) (one : 0 < (t.subtreeAt v n).elems.length)
    (split : levels = 0 ∨ levels = 1 ∧ chunkCap < (t.subtreeAt v n).elems.length)
    (deep : depthLimit t.elems.length < n + levels) :
    ∃ i < n, a.alphaUnbalanced (a.interiorAt (offset (t.subtreeAt v i))) = true := by
  by_contra none
  have balanced : ∀ i < n, a.alphaUnbalanced (a.interiorAt (offset (t.subtreeAt v i))) = false := by
    intro i hi
    by_contra bad
    exact none ⟨i, hi, Bool.not_eq_false _ ▸ bad⟩
  have weight := weight_of_balanced_above h within balanced
  have past := mt le_depthLimit_iff.mpr (Nat.not_le_of_lt deep)
  rw [Nat.not_le] at past
  have limit : t.elems.length * 2 ^ (n + levels) < 3 ^ (n + levels) :=
    (Nat.mul_le_mul_right _ (Nat.le_max_left ..)).trans_lt past
  rcases split with rfl | ⟨rfl, big⟩
  · have : 3 ^ n * 1 ≤ 3 ^ n * (t.subtreeAt v n).elems.length := Nat.mul_le_mul_left _ one
    rw [Nat.add_zero, Nat.mul_comm] at limit
    omega
  · have : 3 ^ n * 2 ≤ 3 ^ n * (t.subtreeAt v n).elems.length := by
      simp only [chunkCap] at big
      exact Nat.mul_le_mul_left _ (by omega)
    rw [Nat.pow_succ, Nat.pow_succ, ← Nat.mul_assoc, Nat.mul_comm t.elems.length] at limit
    omega

/-- The state of an insert after its copy loop. -/
structure CopiedPath where
  newRoot : Nat
  newPath : List Nat
  wentLeft : List Bool
  depth : Nat
  total : Nat
  writer : ArenaWriter

namespace CopiedPath

def needRebalance (c : CopiedPath) : Bool :=
  decide (Nat.log2 (max c.total 2) < c.depth) && decide (depthLimit c.total < c.depth)

theorem depth_le_of_not_needRebalance {c : CopiedPath} (no : c.needRebalance = false) :
    c.depth ≤ depthLimit c.total := by
  have prefilter := log2_le_depthLimit c.total
  rw [needRebalance, Bool.and_eq_false_iff, decide_eq_false_iff_not, decide_eq_false_iff_not] at no
  omega

end CopiedPath

namespace CTree

/-- `insert_with_scratch` up to its copy loop; `none` for an empty tree, a duplicate and a failed
allocation. -/
def copiedPath (tree : CTree) (w : ArenaWriter) (val : Nat) : Option CopiedPath :=
  if tree.root = null then none
  else
    match w.arena.descend val maxDepth tree.root with
    | none => none
    | some (path, cur) =>
        match leafInsert w (w.arena.chunks cur) val with
        | .duplicate => none
        | .arenaFull _ => none
        | .placed child splitLevels w₁ =>
            match copyPath 1 w₁ path child with
            | (none, _) => none
            | (some (newRoot, newPath), w₂) =>
                some ⟨newRoot, newPath, path.map Prod.snd, path.length + splitLevels,
                  w.arena.subtreeSize tree.root + 1, w₂⟩

/-- No allocation of the rebuild an insert asks for fails. -/
def RebuildAllocates (tree : CTree) (w : ArenaWriter) (val : Nat) : Prop :=
  ∀ c, tree.copiedPath w val = some c → c.needRebalance = true → ∀ log w' log',
    rebalance c.writer c.newRoot c.newPath c.wentLeft log ≠ .ok (none, w', log')

/-- An insert into a tree that returns one has copied a path. -/
theorem insertWithScratch_copied {tree tree' : CTree} {w w' : ArenaWriter} {val : Nat}
    {log log' : RetireLog} (proper : tree.root ≠ null)
    (done : tree.insertWithScratch w val log = .ok (.inserted tree', w', log')) :
    ∃ c log₁, tree.copiedPath w val = some c ∧
      (if c.needRebalance then insertRebalanced c.writer c.newRoot c.newPath c.wentLeft log₁
        else .ok (.inserted ⟨c.newRoot⟩, c.writer, log₁)) = .ok (.inserted tree', w', log') := by
  rw [insertWithScratch, if_neg proper] at done
  rw [copiedPath, if_neg proper]
  revert done
  cases w.arena.descend val maxDepth tree.root with
  | none => nofun
  | some found =>
      obtain ⟨path, cur⟩ := found
      dsimp only
      cases leafInsert w (w.arena.chunks cur) val with
      | duplicate => nofun
      | arenaFull w₁ => nofun
      | placed child splitLevels w₁ =>
          dsimp only
          cases copyPath 1 w₁ path child with
          | mk copied w₂ =>
              cases copied with
              | none => nofun
              | some root => exact fun done => ⟨_, _, rfl, done⟩

end CTree

/-- What the copy loop leaves behind: the tree with `v` placed in its leaf. -/
structure CopiedOnto (w : ArenaWriter) (t : Tree) (v : Nat) (c : CopiedPath) (ss : List Nat)
    (sub : Tree) : Prop where
  newRoot_eq : c.newRoot = offset (t.graft v ss sub)
  newPath_eq : c.newPath = ss.map tagInterior
  wentLeft_eq : c.wentLeft = (steps v t).map Prod.snd
  depth_eq : c.depth = ss.length + sub.depth
  total_eq : c.total = (t.graft v ss sub).elems.length
  length_eq : ss.length = t.pathLength v
  ok : c.writer.arena.Ok
  kept : Kept c.writer.arena (t.graft v ss sub)
  wellFormed : (t.graft v ss sub).WellFormed chunkCap
  grew : c.total = t.elems.length + 1
  sub_ne : 0 < sub.elems.length
  sub_depth : sub.depth = 0 ∨ sub.depth = 1 ∧ chunkCap < sub.elems.length

theorem copiedPath_spec {w : ArenaWriter} (ok : w.arena.Ok) {t : Tree} (kept : Kept w.arena t)
    (wf : t.WellFormed chunkCap) {v : Nat} (size : t.elems.length + 1 < 2 ^ 32) {c : CopiedPath}
    (copied : (CTree.mk (offset t)).copiedPath w v = some c) :
    ∃ ss sub, CopiedOnto w t v c ss sub := by
  obtain ⟨ks, leaf_eq⟩ := subtreeAt_pathLength v t
  have keptLeaf := kept.subtreeAt v (t.pathLength v)
  have wfLeaf := wf.subtreeAt v (t.pathLength v)
  rw [leaf_eq] at keptLeaf wfLeaf
  obtain ⟨-, count, elems⟩ := keptLeaf.stored
  rw [CTree.copiedPath, if_neg kept.stored.offset_lt.ne, descend_stored kept.stored] at copied
  split at copied
  · cases copied
  rename_i path cur descended
  split at descended
  case isFalse => cases descended
  obtain ⟨rfl, rfl⟩ := Prod.mk.inj (Option.some.inj descended)
  have outcome := leafInsert_spec ok (c := w.arena.chunks (targetSlot v t))
    (by rw [count]; exact wfLeaf.2.1) (by rw [elems]; exact wfLeaf.2.2) v
  rw [elems] at outcome
  split at copied
  · cases copied
  · cases copied
  rename_i child splitLevels w₁ hleaf
  rw [hleaf] at outcome
  obtain ⟨sub, F, rfl, placed⟩ := outcome
  split at copied
  · cases copied
  rename_i newRoot newPath w₂ hcopy
  obtain rfl := Option.some.inj copied
  have whole : steps v t = (steps v t).take (t.pathLength v) := by
    rw [← steps_length, List.take_length]
  rw [whole] at hcopy
  obtain ⟨ss, hss, onto⟩ := copyPath_some placed.grown.ok (kept.grown placed.grown)
    placed.kept le_rfl (by rw [leaf_eq, placed.elems_eq, List.orderedInsert_length]; rfl)
    size hcopy
  have done := placed_of_copied wf leaf_eq placed hss onto
  have levels := placed.split_iff
  exact ⟨ss, sub, {
    newRoot_eq := onto.root_eq
    newPath_eq := onto.newPath_eq
    wentLeft_eq := rfl
    depth_eq := by rw [placed.depth_eq, steps_length, hss]
    total_eq := by
      dsimp only
      rw [kept.stored.subtreeSize, onto.count]
    length_eq := hss
    ok := done.grown.ok
    kept := done.kept
    wellFormed := done.wellFormed
    grew := by
      dsimp only
      rw [kept.stored.subtreeSize]
    sub_ne := List.length_pos_of_ne_nil placed.wellFormed.elems_ne_nil
    sub_depth := by
      rw [placed.depth_eq, placed.elems_eq, List.orderedInsert_length]
      split at levels
      · rename_i full
        exact .inr ⟨levels, full ▸ Nat.lt_succ_self _⟩
      · exact .inl levels }⟩

namespace CopiedOnto

variable {w : ArenaWriter} {t sub : Tree} {v : Nat} {c : CopiedPath} {ss : List Nat}

theorem onPath (h : CopiedOnto w t v c ss sub) :
    OnPath (t.graft v ss sub) v c.newPath c.wentLeft := by
  rw [h.newPath_eq, h.wentLeft_eq]
  refine ⟨?_, ?_, ?_⟩
  · rw [List.length_map, steps_graft h.length_eq.le]
  · rw [List.length_map, List.length_map, steps_length, h.length_eq]
  · rw [List.length_map]
    exact length_le_pathLength_graft h.length_eq.le

theorem depth_le (h : CopiedOnto w t v c ss sub) :
    (t.graft v ss sub).depth ≤ max t.depth c.depth := by
  have grafted := depth_graft_le v sub ss t
  have sides := sideDepth_le_depth v ss.length t
  have path := h.depth_eq
  omega

/-- Past the limit the first unbalanced node of the copied path is the scapegoat. -/
theorem scapegoat (h : CopiedOnto w t v c ss sub) (deep : depthLimit c.total < c.depth) :
    ∃ off, c.newPath[findScapegoat c.writer.arena c.newPath]? = some off ∧
      c.writer.arena.alphaUnbalanced (c.writer.arena.interiorAt off) = true := by
  have within : ss.length ≤ (t.graft v ss sub).pathLength v :=
    length_le_pathLength_graft h.length_eq.le
  have reached : (t.graft v ss sub).subtreeAt v ss.length = sub := subtreeAt_graft h.length_eq.le
  rw [h.depth_eq, h.total_eq] at deep
  obtain ⟨i, hi, unbalanced⟩ := exists_unbalanced h.kept.stored within
    (reached.symm ▸ h.sub_ne) (reached.symm ▸ h.sub_depth) deep
  have length : c.newPath.length = ss.length := by rw [h.newPath_eq, List.length_map]
  have at_ := h.onPath.getElem? (length ▸ hi)
  rw [findScapegoat]
  cases found : c.newPath.findIdx? fun offset =>
      c.writer.arena.alphaUnbalanced (c.writer.arena.interiorAt offset) with
  | none =>
      rw [List.findIdx?_eq_none_iff] at found
      have := found _ (List.mem_of_getElem? at_)
      rw [unbalanced] at this
      cases this
  | some sc =>
      rw [List.findIdx?_eq_some_iff_getElem] at found
      obtain ⟨lt, bad, -⟩ := found
      exact ⟨_, List.getElem?_eq_getElem lt, bad⟩

/-- Rebuilding the scapegoat brings every copied path back under the limit. -/
theorem rebalanced_depth_le (h : CopiedOnto w t v c ss sub) (size : t.elems.length + 1 < 2 ^ 32)
    (deep : depthLimit c.total < c.depth) {log log' : RetireLog} {root : Nat} {w' : ArenaWriter}
    (done : rebalance c.writer c.newRoot c.newPath c.wentLeft log = .ok (some root, w', log'))
    {t' : Tree} (kept' : Kept w'.arena t') (root_eq : root = offset t') :
    t'.elems.length = t.elems.length + 1 ∧ t'.depth ≤ max t.depth (depthLimit t'.elems.length) := by
  have outcome := rebalance_spec h.ok h.kept h.wellFormed
    (h.total_eq ▸ h.grew ▸ size) h.onPath log
  rw [h.newRoot_eq] at done
  rw [done] at outcome
  obtain ⟨t'', logged, F, rfl, -, rebuilt⟩ := outcome
  obtain rfl := kept'.stored.unique rebuilt.kept.stored root_eq.symm
  obtain ⟨ss', sub', -, shape, balanced, wf, weight⟩ := rebuilt.shape
  rw [rebuilt.elems_eq, ← h.total_eq]
  rw [← h.total_eq] at weight
  have rebuiltDepth := rebuilt_le_depthLimit balanced wf weight
  -- the scapegoat lies above the level a split added
  have above : ss'.length ≤ ss.length := by
    have := h.depth_eq
    have := h.sub_depth
    omega
  have grafted := depth_graft_le v sub' ss' (t.graft v ss sub)
  rw [← shape, sideDepth_graft v sub above h.length_eq.le] at grafted
  have sides := sideDepth_le_depth v ss'.length t
  exact ⟨h.grew, by omega⟩

end CopiedOnto

namespace Adj

def depth : Adj → Nat
  | none => 0
  | some t => t.depth

/-- Trees made by `from_sorted` and inserts of which no allocation fails.  The arena may change
between two inserts as long as it keeps the tree. -/
inductive Obtained : Adj → Prop where
  | empty : Obtained none
  | fromSorted {w w' : ArenaWriter} {vals : List Nat} {t : Adj} (ok : w.arena.Ok)
      (sorted : vals.Pairwise (· < ·)) (size : vals.length < 2 ^ 32)
      (made : CTree.fromSorted w vals = (some ⟨t.root⟩, w')) (live : t.Live w'.arena) : Obtained t
  | insert {w w' : ArenaWriter} {t : Adj} {t' : Tree} {val : Nat} {log log' : RetireLog}
      (before : Obtained t) (ok : w.arena.Ok) (live : t.Live w.arena)
      (size : t.elems.length + 1 < 2 ^ 32)
      (done : CTree.insertWithScratch ⟨t.root⟩ w val log = .ok (.inserted ⟨offset t'⟩, w', log'))
      (allocates : CTree.RebuildAllocates ⟨t.root⟩ w val)
      (live' : Adj.Live w'.arena (some t')) : Obtained (some t')

theorem fromSorted_depth_le {w w' : ArenaWriter} {vals : List Nat} {t : Adj} (ok : w.arena.Ok)
    (sorted : vals.Pairwise (· < ·)) (size : vals.length < 2 ^ 32)
    (made : CTree.fromSorted w vals = (some ⟨t.root⟩, w')) (live : t.Live w'.arena) :
    t.depth ≤ depthLimit t.elems.length := by
  cases t with
  | none => exact Nat.zero_le _
  | some t =>
      rw [CTree.fromSorted] at made
      split at made
      · obtain ⟨root, -⟩ := Prod.mk.inj made
        exact absurd (congrArg CTree.root (Option.some.inj root)).symm live.1.stored.offset_lt.ne
      rename_i nonempty
      split at made
      · cases made
      rename_i root w₁ built
      obtain ⟨root_eq, rfl⟩ := Prod.mk.inj made
      obtain rfl : root = offset t := congrArg CTree.root (Option.some.inj root_eq)
      have ne : vals ≠ [] := fun empty => nonempty (empty ▸ rfl)
      obtain ⟨t₁, F, whole⟩ := buildBalanced_some ok ne sorted size built
      obtain rfl := live.1.stored.unique (kept_of_built whole).stored whole.root_eq
      have share : 3 ^ 0 * t.elems.length ≤ 2 ^ 0 * t.elems.length := by
        rw [Nat.pow_zero, Nat.pow_zero]
      have shallow := rebuilt_le_depthLimit whole.balanced whole.wellFormed share
      rwa [Nat.zero_add] at shallow

/-- An insert whose rebuild finds its slots deepens no tree past the limit. -/
theorem insert_depth_le {w w' : ArenaWriter} {t : Adj} {t' : Tree} {val : Nat}
    {log log' : RetireLog} (ok : w.arena.Ok)
    (live : t.Live w.arena) (size : t.elems.length + 1 < 2 ^ 32)
    (done : CTree.insertWithScratch ⟨t.root⟩ w val log = .ok (.inserted ⟨offset t'⟩, w', log'))
    (allocates : CTree.RebuildAllocates ⟨t.root⟩ w val) (live' : Adj.Live w'.arena (some t')) :
    t'.elems.length = t.elems.length + 1 ∧ t'.depth ≤ max t.depth (depthLimit t'.elems.length) := by
  cases t with
  | none =>
      rw [CTree.insertWithScratch, if_pos (show (CTree.mk (Adj.root none)).root = null from rfl)]
        at done
      split at done
      · rename_i off w₁ alloc
        simp only [Except.ok.injEq, Prod.mk.injEq, InsertResult.inserted.injEq,
          CTree.mk.injEq] at done
        obtain ⟨root_eq, rfl, -⟩ := done
        obtain ⟨grown, held⟩ := grown_of_chunk ok alloc
        have single : Kept w₁.arena (leaf off [val]) := kept_leaf grown held rfl
          (Chunk.asSlice_fromSorted (show 1 ≤ chunkCap by decide))
        obtain rfl := live'.1.stored.unique single.stored root_eq.symm
        exact ⟨rfl, Nat.zero_le _⟩
      · cases done
  | some t =>
      obtain ⟨c, log₁, copied, rest⟩ := CTree.insertWithScratch_copied live.1.stored.offset_lt.ne done
      obtain ⟨ss, sub, onto⟩ := copiedPath_spec ok live.1 live.2 size copied
      cases need : c.needRebalance with
      | false =>
          rw [need, if_neg Bool.false_ne_true] at rest
          simp only [Except.ok.injEq, Prod.mk.injEq, InsertResult.inserted.injEq,
            CTree.mk.injEq] at rest
          obtain ⟨root_eq, rfl, -⟩ := rest
          obtain rfl := live'.1.stored.unique onto.kept.stored
            (root_eq.symm.trans onto.newRoot_eq)
          have path := onto.depth_le
          have short := CopiedPath.depth_le_of_not_needRebalance need
          rw [← onto.total_eq]
          refine ⟨onto.grew, path.trans ?_⟩
          exact max_le_max (Nat.le_refl _) short
      | true =>
          rw [need, if_pos rfl, CTree.insertRebalanced] at rest
          have deep : depthLimit c.total < c.depth := by
            rw [CopiedPath.needRebalance, Bool.and_eq_true, decide_eq_true_eq,
              decide_eq_true_eq] at need
            exact need.2
          split at rest
          · cases rest
          · rename_i root w₁ log₂ rebuilt
            simp only [Except.ok.injEq, Prod.mk.injEq, InsertResult.inserted.injEq,
              CTree.mk.injEq] at rest
            obtain ⟨root_eq, rfl, -⟩ := rest
            exact onto.rebalanced_depth_le size deep rebuilt live'.1 root_eq
          · rename_i w₁ log₂ failed
            exact absurd failed (allocates c copied need _ _ _)

theorem Obtained.depth_le {t : Adj} (h : Obtained t) : t.depth ≤ depthLimit t.elems.length := by
  induction h with
  | empty => exact Nat.zero_le _
  | fromSorted ok sorted size made live => exact fromSorted_depth_le ok sorted size made live
  | insert _ ok live size done allocates live' ih =>
      obtain ⟨grew, depth⟩ := insert_depth_le ok live size done allocates live'
      have limit := depthLimit_mono ((Nat.le_succ _).trans grew.ge)
      exact depth.trans (max_le (ih.trans limit) (Nat.le_refl _))

end Adj

end AetherGraph
