import AetherGraph.DepthBound
import AetherGraph.GuardCalls

/-! The two strategies of a sorted batch publish the same neighbours, records and marks, and so
does inserting the destinations one by one.  A batch whose allocations succeed comes back, given
that the vertex's tree leaves a level of the fixed stacks to spare. -/

namespace AetherGraph

open Foundation Foundation.LeafTree ArenaWriter Tree
open Arena (Grows)

theorem depthLimit_lt_maxDepth {n : Nat} (size : n < 2 ^ 32) : depthLimit n < maxDepth := by
  refine (depthLimit_mono size.le).trans_lt ?_
  by_contra deep
  have fits := le_depthLimit_iff.mp (Nat.le_of_not_lt deep)
  simp only [maxDepth] at fits
  norm_num at fits

theorem Adj.room_of_depth {t : Adj} (shallow : t.depth < maxDepth) (v : Nat) : t.Room v := by
  cases t with
  | none => trivial
  | some t =>
      have left := leftDepth_le_depth t
      have turns := leftTurns_le_leftDepth v (t.pathLength v) t
      have shallow : LeafTree.depth t < maxDepth := shallow
      exact ⟨by omega, fun _ => by omega⟩

namespace Writer

/-- No insert of a chain of path copies runs out of slots, its rebuilds included. -/
def ChainAllocates (w : Writer) (cur : CTree) : List Nat → Prop
  | [] => True
  | d :: dsts => cur.RebuildAllocates w.aw d ∧
      match cur.insertWithScratch w.aw d w.retireLog with
      | .error _ => True
      | .ok (.inserted tree, aw, log) => (w.withLog aw log).ChainAllocates tree dsts
      | .ok (.duplicate, aw, log) => (w.withLog aw log).ChainAllocates cur dsts
      | .ok (.arenaFull, _, _) => False

/-- The chain of path copies finds its slots, at the latest when it is retried. -/
def PathCopyAllocates (w : Writer) (tree : CTree) (dsts : List Nat) : Prop :=
  w.ChainAllocates tree dsts ∨ ∃ w₁, w.chain tree [] dsts = .full w₁ ∧
    (w₁.restamp w.retireLog.marks).ChainAllocates tree dsts

/-- The merged tree finds its slots, at the latest when its build is retried. -/
def MergeAllocates (w : Writer) (tree : CTree) (dsts : List Nat) : Prop :=
  ∀ existing, tree.collect w.graph.arena = some existing → (mergeSorted existing dsts).2 ≠ [] →
    ∀ aw, CTree.fromSorted w.aw (mergeSorted existing dsts).1 = (none, aw) →
      (CTree.fromSorted (w.withArena aw).stampRetired.aw (mergeSorted existing dsts).1).1 ≠ none

/-- The strategy chosen for a batch finds its slots. -/
def BatchAllocates (w : Writer) (src : Nat) (dsts : List Nat) : Prop :=
  if preferPathCopy (w.graph.degree src) dsts.length then
    w.PathCopyAllocates (w.graph.treeFor src) dsts
  else w.MergeAllocates (w.graph.treeFor src) dsts

/-- The log takes the records of the new destinations. -/
def Logs (w : Writer) (src : Nat) (new : List Nat) : Prop :=
  new ≠ [] → (w.appendBatch src new).1 = true

/-- What publishing `new` leaves in the log, the marks and the edge count. -/
structure Booked (w w' : Writer) (src : Nat) (new : List Nat) : Prop where
  wal_eq : w'.graph.wal =
    if new = [] then w.graph.wal else (w.appendBatch src new).2.graph.wal
  marks_eq : w'.marks = if new = [] then w.marks else (new ++ [src]).foldl Marks.note w.marks
  pending_eq : w'.pendingEdges = w.pendingEdges + new.length

theorem appendBatch_congr {w w' : Writer} (same : w'.graph.wal = w.graph.wal) (src : Nat)
    (dsts : List Nat) : (w'.appendBatch src dsts).1 = (w.appendBatch src dsts).1 ∧
      (w'.appendBatch src dsts).2.graph.wal = (w.appendBatch src dsts).2.graph.wal := by
  unfold appendBatch
  rw [same]
  split
  · rename_i none
    exact ⟨rfl, same⟩
  · exact ⟨rfl, rfl⟩

theorem Booked.of_quiet {w w₁ w' : Writer} {src : Nat} {new : List Nat}
    (h : Booked w₁ w' src new) (wal : w₁.graph.wal = w.graph.wal) (marks : w₁.marks = w.marks)
    (pending : w₁.pendingEdges = w.pendingEdges) : Booked w w' src new where
  wal_eq := by rw [h.wal_eq, wal, (appendBatch_congr wal src new).2]
  marks_eq := by rw [h.marks_eq, marks]
  pending_eq := by rw [h.pending_eq, pending]

theorem booked_publish {w w₁ : Writer} {src : Nat} {new : List Nat} (ne : new ≠ [])
    (append : w.appendBatch src new = (true, w₁)) (tree : CTree) (log : RetireLog) :
    Booked w { w₁.publishBatch src tree new with retireLog := log }.maybeStampRetired src new := by
  obtain ⟨touched, limit, eq, -⟩ := w₁.publishBatch_eq src tree new
  obtain ⟨wal, rfl, -⟩ := appendBatch_true append
  rw [eq]
  have plain : ∀ w' : Writer, w'.maybeStampRetired.graph.wal = w'.graph.wal ∧
      w'.maybeStampRetired.marks = w'.marks ∧
      w'.maybeStampRetired.pendingEdges = w'.pendingEdges := by
    intro w'
    unfold maybeStampRetired
    split <;> exact ⟨rfl, rfl, rfl⟩
  refine ⟨?_, ?_, ?_⟩
  · rw [(plain _).1, if_neg ne, append]
    rfl
  · rw [(plain _).2.1, if_neg ne]
    rfl
  · rw [(plain _).2.2]
    rfl

/-- A chain whose inserts find their slots is built. -/
theorem chain_built {w : Writer} (ok : w.graph.arena.Ok) {t : Adj} (live : t.Live w.graph.arena)
    {n : Nat} (small : n ≤ DynamicGraph.u32Max) (keys : ∀ x ∈ t.elems, x < n)
    (shallow : t.depth < maxDepth)
    {dsts : List Nat} (inRange : ∀ d ∈ dsts, d < n)
    (allocates : w.ChainAllocates ⟨t.root⟩ dsts) (acc : List Nat) :
    ∃ tree new w', w.chain ⟨t.root⟩ acc dsts = .built tree new w' := by
  induction dsts generalizing w t acc with
  | nil => exact ⟨_, _, _, rfl⟩
  | cons d dsts ih =>
      obtain ⟨hd, inRange⟩ := List.forall_mem_cons.mp inRange
      obtain ⟨rebuilds, rest⟩ := allocates
      have size := size_of_keys live keys small hd
      have outcome := insertWithScratch_spec (w := w.aw) ok live size w.retireLog
      rw [chain]
      split
      · rename_i aw log result
        rw [result] at outcome
        exact absurd (Adj.room_of_depth shallow d) outcome.1
      · rename_i tree aw log result
        rw [result] at outcome rest
        obtain ⟨t₁, logged, leak, F, hroot, rfl, done⟩ := outcome
        obtain rfl : tree = ⟨Adj.root (some t₁)⟩ := congrArg CTree.mk hroot
        have first := done.replaced
        have grown := size.resolve_left done.fresh
        obtain ⟨length, depth⟩ := Adj.insert_depth_le ok live grown result rebuilds first.live
        have deep : Adj.depth (some t₁) < maxDepth := depth.trans_lt
          (max_lt shallow (depthLimit_lt_maxDepth (length ▸ grown)))
        have keys₁ : ∀ x ∈ t₁.elems, x < n := fun x hx =>
          ((first.mem_elems x).mp hx).elim (keys x) fun hx => List.mem_singleton.mp hx ▸ hd
        exact ih (w := w.withLog aw (w.retireLog.append logged)) (t := some t₁) done.grown.ok
          first.live keys₁ deep inRange rest (acc ++ [d])
      · rename_i aw log result
        rw [result] at outcome rest
        obtain ⟨dup, rfl, rfl⟩ := outcome
        exact ih (w := w) ok live keys shallow inRange rest acc
      · rename_i aw log result
        rw [result] at rest
        exact rest.elim

/-- A built chain is published once the log takes its records. -/
theorem finishChain_ok {w w₁ : Writer} {t : Adj} {src : Nat} {dsts newDsts : List Nat}
    {tree : CTree} (built : ChainOutcome w t [] dsts (.built tree newDsts w₁))
    (logs : w.Logs src newDsts) (mark : SlotClass → Nat) :
    ∃ w', w₁.finishChain mark src tree newDsts = .done (.ok newDsts.length) w' ∧
      Booked w w' src newDsts := by
  obtain ⟨t', _, aw, logged, leak, F, rfl, grown, root, rfl, filter, r, idle⟩ := built
  unfold finishChain
  split
  · rename_i nothing
    have nothing := List.isEmpty_iff.mp nothing
    refine ⟨_, by rw [nothing]; rfl, ?_⟩
    rw [idle nothing]
    exact ⟨by rw [if_pos nothing], by rw [if_pos nothing], by rw [nothing]; rfl⟩
  rename_i ne
  have ne := mt List.isEmpty_iff.mpr ne
  have taken : ((w.withLog aw (w.retireLog.append logged)).appendBatch src newDsts).1 = true :=
    (appendBatch_congr (w := w) (by rfl) src _).1.trans (logs ne)
  split
  · rename_i w₂ append
    rw [append] at taken
    cases taken
  · rename_i w₂ append
    refine ⟨_, rfl, ?_⟩
    have booked := booked_publish ne append tree w₂.retireLog
    rw [← w₂.publishBatch_retireLog src tree newDsts] at booked
    exact booked.of_quiet rfl rfl rfl

/-- Stamping between the two chains keeps the trees and the books. -/
theorem restamp_effect {w w₁ : Writer} {T : Nat → Adj} {src : Nat} {acc dsts : List Nat}
    (full : ChainOutcome w (T src) acc dsts (.full w₁)) :
    Effect True w (w₁.restamp w.retireLog.marks) T T [] ∧
      (w₁.restamp w.retireLog.marks).graph.wal = w.graph.wal ∧
      (w₁.restamp w.retireLog.marks).marks = w.marks ∧
      (w₁.restamp w.retireLog.marks).pendingEdges = w.pendingEdges := by
  obtain ⟨aw, logged, F, rfl, grown⟩ := full
  have log : (w.withLog aw (w.retireLog.append logged)).retireLog.truncate w.retireLog.marks =
      w.retireLog := RetireLog.truncate_append_marks ..
  have restamped : (w.withLog aw (w.retireLog.append logged)).restamp w.retireLog.marks =
      (w.withLog aw w.retireLog).stampRetired := by
    rw [restamp, log]
    rfl
  rw [restamped]
  have idle : Effect True w (w.withLog aw w.retireLog) T T [] :=
    effect_quiet _ T (.withLog w aw _) grown.grows fun _ => rfl
  exact ⟨idle.trans trivial (effect_stampRetired True _ T), rfl, rfl, rfl⟩

theorem insertSortedByPathCopy_ok {w : Writer} {T : Nat → Adj}
    (good : Core.Good w.graph.numVertices (w.core T)) {src : Nat} {dsts : List Nat}
    (sorted : dsts.Pairwise (· < ·)) (inRange : ∀ d ∈ dsts, d < w.graph.numVertices)
    (shallow : (T src).depth < maxDepth)
    (allocates : w.PathCopyAllocates (w.graph.treeFor src) dsts)
    (logs : w.Logs src (dsts.filter fun d => decide (d ∉ (T src).elems))) :
    w.pathCopyStale src dsts = false ∧
    ∃ w', w.insertSortedByPathCopy src (w.graph.treeFor src) dsts =
        .done (.ok (dsts.filter fun d => decide (d ∉ (T src).elems)).length) w' ∧
      Booked w w' src (dsts.filter fun d => decide (d ∉ (T src).elems)) := by
  have forest : Forest w.graph.arena w.graph.numVertices w.graph.roots T := good.forest
  have first := chain_outcome forest.ok (forest.live src) forest.small (forest.keys src) sorted
    inRange []
  rw [← forest.treeFor src] at first
  unfold pathCopyStale insertSortedByPathCopy
  dsimp only
  rcases allocates with once | ⟨w₁, full, again⟩
  · obtain ⟨tree, new, w₁, built⟩ := chain_built forest.ok (forest.live src) forest.small
      (forest.keys src) shallow inRange (forest.treeFor src ▸ once) []
    rw [← forest.treeFor src] at built
    rw [built] at first ⊢
    obtain ⟨t', _, aw, logged, leak, F, rfl, grown, root, eq, filter, r, idle⟩ := id first
    rw [List.nil_append, filter] at eq
    rw [← eq] at logs ⊢
    exact ⟨rfl, finishChain_ok first logs _⟩
  · rw [full] at first ⊢
    dsimp only
    obtain ⟨stamped, wal, marks, pending⟩ := restamp_effect first
    generalize w₁.restamp w.retireLog.marks = ws at again stamped wal marks pending ⊢
    have good₁ := stamped.good trivial good
    have forest₁ : Forest ws.graph.arena ws.graph.numVertices ws.graph.roots T := good₁.forest
    have inRange₁ : ∀ d ∈ dsts, d < ws.graph.numVertices :=
      stamped.frame.numVertices.symm ▸ inRange
    have same : ws.graph.treeFor src = w.graph.treeFor src := by
      rw [forest.treeFor src, forest₁.treeFor src]
    have second := chain_outcome forest₁.ok (forest₁.live src) forest₁.small (forest₁.keys src)
      sorted inRange₁ []
    obtain ⟨tree, new, w₂, built⟩ := chain_built forest₁.ok (forest₁.live src) forest₁.small
      (forest₁.keys src) shallow inRange₁ (forest.treeFor src ▸ again) []
    rw [← forest₁.treeFor src, same] at built second
    rw [built] at second ⊢
    obtain ⟨t', _, aw, logged, leak, F, rfl, grown, root, eq, filter, r, idle⟩ := id second
    rw [List.nil_append, filter] at eq
    rw [← eq] at logs ⊢
    have logs₁ : ws.Logs src new := fun ne => (appendBatch_congr wal src new).1.trans (logs ne)
    obtain ⟨w', done, booked⟩ := finishChain_ok second logs₁ w.retireLog.marks
    exact ⟨rfl, w', done, booked.of_quiet wal marks pending⟩

/-- A merged tree that finds its slots is published once the log takes its records. -/
theorem finishRebuild_ok {w : Writer} {T : Nat → Adj}
    (good : Core.Good w.graph.numVertices (w.core T)) {src : Nat} {newDsts : List Nat}
    (ne : newDsts ≠ []) (logs : w.Logs src newDsts) {aw : ArenaWriter}
    {F : SlotClass → List Nat} (grown : Grown w.aw aw F) (newTree : CTree)
    (shallow : ∀ t, T src = some t → t.leftDepth ≤ maxDepth) :
    ∃ w', (w.withArena aw).finishRebuild src (w.graph.treeFor src) newTree newDsts =
      .done (.ok newDsts.length) w' ∧ Booked w w' src newDsts := by
  have forest : Forest w.graph.arena w.graph.numVertices w.graph.roots T := good.forest
  have taken : ((w.withArena aw).appendBatch src newDsts).1 = true :=
    (appendBatch_congr (w := w) (by rfl) src _).1.trans (logs ne)
  unfold finishRebuild
  split
  · rename_i w₁ append
    rw [append] at taken
    cases taken
  rename_i w₁ append
  have booked := booked_publish ne append newTree
  dsimp only
  split
  · have plain := booked w₁.retireLog
    rw [← w₁.publishBatch_retireLog src newTree newDsts] at plain
    exact ⟨_, rfl, plain.of_quiet rfl rfl rfl⟩
  · rename_i proper
    obtain ⟨t, ht⟩ : ∃ t, T src = some t := by
      cases ht : T src with
      | none => exact absurd ((congrArg CTree.root (forest.treeFor src)).trans
          (congrArg Adj.root ht)) proper
      | some t => exact ⟨t, rfl⟩
    have live := (forest.live src).grows grown.grows
    rw [ht] at live
    have arena : w₁.graph.arena = aw.arena := (appendBatch_staged_true append).2.1
    have retired := retireSubtree_stored live.1.stored live.2 live.1.below (shallow t ht)
      (w₁.publishBatch src newTree newDsts).retireLog
    rw [publishBatch_arena, arena, forest.treeFor src, ht,
      show Adj.root (some t) = offset t from rfl, retired]
    exact ⟨_, rfl, (booked _).of_quiet rfl rfl rfl⟩

theorem insertSortedByRebuild_ok {w : Writer} {T : Nat → Adj}
    (good : Core.Good w.graph.numVertices (w.core T)) {src : Nat} {dsts : List Nat}
    (sorted : dsts.Pairwise (· < ·)) (inRange : ∀ d ∈ dsts, d < w.graph.numVertices)
    (shallow : (T src).depth < maxDepth)
    (allocates : w.MergeAllocates (w.graph.treeFor src) dsts)
    (logs : w.Logs src (dsts.filter fun d => decide (d ∉ (T src).elems))) :
    ∃ w', w.insertSortedByRebuild src (w.graph.treeFor src) dsts =
        .done (.ok (dsts.filter fun d => decide (d ∉ (T src).elems)).length) w' ∧
      Booked w w' src (dsts.filter fun d => decide (d ∉ (T src).elems)) := by
  have forest : Forest w.graph.arena w.graph.numVertices w.graph.roots T := good.forest
  have spine : ∀ t, T src = some t → t.leftDepth ≤ maxDepth := by
    intro t ht
    rw [ht] at shallow
    exact (leftDepth_le_depth t).trans (Nat.le_of_lt shallow)
  have collected : (w.graph.treeFor src).collect w.graph.arena = some (T src).elems := by
    rw [forest.treeFor src]
    exact (forest.live src).collect spine
  have found := allocates _ collected
  have merged := mergeSorted_merged (forest.live src).elems_sorted sorted
  unfold insertSortedByRebuild
  rw [collected]
  dsimp only
  rcases hm : mergeSorted (T src).elems dsts with ⟨vals, newDsts⟩
  rw [hm] at merged found
  have filter : newDsts = dsts.filter fun d => decide (d ∉ (T src).elems) := merged.new_eq
  rw [← filter] at logs ⊢
  dsimp only at found ⊢
  split
  · rename_i nothing
    have nothing := List.isEmpty_iff.mp nothing
    refine ⟨w, by rw [nothing]; rfl, ?_, ?_, ?_⟩
    · rw [if_pos nothing]
    · rw [if_pos nothing]
    · rw [nothing]
      rfl
  rename_i nonempty
  have ne := mt List.isEmpty_iff.mpr nonempty
  have hvals : vals ≠ [] := by
    obtain ⟨x, hx⟩ := List.exists_mem_of_ne_nil newDsts ne
    exact List.ne_nil_of_mem ((merged.mem_or_new x).mpr (.inr hx))
  have size : vals.length < 2 ^ 32 := by
    have keys : ∀ x ∈ vals, x < w.graph.numVertices := fun x hx =>
      ((merged.mem x).mp hx).elim (forest.keys src x) (inRange x)
    have := length_le_of_keys (l := vals) (merged.sorted.imp Nat.ne_of_lt) keys
    have := forest.small
    simp only [DynamicGraph.u32Max] at this
    omega
  split
  · rename_i newTree aw built
    obtain ⟨t', F, root, built⟩ := fromSorted_some forest.ok hvals merged.sorted size built
    exact finishRebuild_ok good ne logs (show Grown w.aw aw F from built.wrote) newTree spine
  · rename_i aw failed
    obtain ⟨F, grown⟩ := fromSorted_none forest.ok hvals merged.sorted size failed
    have again := found ne aw failed
    have quiet : Effect True w (w.withArena aw) T T [] :=
      effect_quiet _ T (.withLog w aw w.retireLog) grown.grows fun _ => rfl
    have stamped := quiet.trans trivial (effect_stampRetired True (w.withArena aw) T)
    have good₁ := stamped.good trivial good
    have wal : (w.withArena aw).stampRetired.graph.wal = w.graph.wal := rfl
    have marks : (w.withArena aw).stampRetired.marks = w.marks := rfl
    have pending : (w.withArena aw).stampRetired.pendingEdges = w.pendingEdges := rfl
    have same : (w.withArena aw).stampRetired.graph.treeFor src = w.graph.treeFor src := rfl
    generalize (w.withArena aw).stampRetired = ws at stamped good₁ wal marks pending same again ⊢
    split
    · rename_i newTree aw' built
      obtain ⟨t', F', root, built⟩ := fromSorted_some good₁.forest.ok hvals merged.sorted size built
      have logs₁ : ws.Logs src newDsts := fun ne =>
        (appendBatch_congr wal src newDsts).1.trans (logs ne)
      obtain ⟨w', done, booked⟩ := finishRebuild_ok good₁ ne logs₁
        (show Grown ws.aw aw' F' from built.wrote) newTree spine
      rw [same] at done
      exact ⟨w', done, booked.of_quiet wal marks pending⟩
    · rename_i aw' failed
      rw [failed] at again
      exact absurd rfl again

/-- A batch for `src` was published: `new` are its new destinations in order. -/
structure BatchInserted (w w' : Writer) (T T' : Nat → Adj) (src : Nat) (dsts new : List Nat) :
    Prop where
  new_eq : new = dsts.filter fun d => decide (d ∉ (T src).elems)
  sound : w'.Sound T'
  up : w'.walFailed = false
  published : w'.graph.treeFor src = ⟨(T' src).root⟩
  elems_eq : (T' src).elems = sortDedup ((T src).elems ++ dsts)
  others : ∀ v, v ≠ src → (T' v).elems = (T v).elems
  effect : Effect (w'.walFailed = false) w w' T T' (new.map (src, ·))

theorem Sound.forest {w : Writer} {T : Nat → Adj} (h : w.Sound T) :
    Forest w.graph.arena w.graph.numVertices w.graph.roots T := by
  obtain ⟨log, good, -⟩ := h
  exact good.forest

theorem Effect.batchInserted {w w' : Writer} {T T' : Nat → Adj} {src : Nat} {dsts : List Nat}
    (good : Core.Good w.graph.numVertices (w.core T)) (up : w'.walFailed = false)
    (effect : Effect (w'.walFailed = false) w w' T T'
      ((dsts.filter fun d => decide (d ∉ (T src).elems)).map (src, ·))) :
    BatchInserted w w' T T' src dsts (dsts.filter fun d => decide (d ∉ (T src).elems)) := by
  have sound := effect.sound good
  have before : Forest w.graph.arena w.graph.numVertices w.graph.roots T := good.forest
  refine ⟨rfl, sound, up, sound.forest.treeFor src, ?_, fun v hv => ?_, effect⟩
  · refine eq_of_mem_iff (sound.forest.live src).elems_sorted (sortDedup_sorted _) fun x => ?_
    rw [effect.added.mem_elems src x, List.mem_map, mem_sortDedup, List.mem_append]
    constructor
    · rintro (old | ⟨y, hy, same⟩)
      · exact .inl old
      · obtain rfl : y = x := congrArg Prod.snd same
        exact .inr (List.mem_filter.mp hy).1
    · rintro (old | asked)
      · exact .inl old
      · by_cases old : x ∈ (T src).elems
        · exact .inl old
        · exact .inr ⟨x, List.mem_filter.mpr ⟨asked, decide_eq_true old⟩, rfl⟩
  · refine eq_of_mem_iff (sound.forest.live v).elems_sorted (before.live v).elems_sorted fun x => ?_
    rw [effect.added.mem_elems v x, List.mem_map]
    constructor
    · rintro (old | ⟨y, -, same⟩)
      · exact old
      · exact absurd (congrArg Prod.fst same).symm hv
    · exact .inl

theorem Outcome.batchInserted {w w' : Writer} {T : Nat → Adj} {src k : Nat} {dsts : List Nat}
    (good : Core.Good w.graph.numVertices (w.core T)) (up : w.walFailed = false)
    (outcome : Outcome w T (batchPost T src dsts) (.done (.ok k) w')) :
    ∃ T', BatchInserted w w' T T' src dsts (dsts.filter fun d => decide (d ∉ (T src).elems)) := by
  obtain ⟨T', added, effect, ⟨rfl, rfl⟩, failed⟩ := outcome
  exact ⟨T', effect.batchInserted good ((failed fun no => nomatch no).trans up)⟩

/-- A batch whose allocations succeed comes back. -/
theorem insertEdgesSorted_ok {w : Writer} {T : Nat → Adj}
    (good : Core.Good w.graph.numVertices (w.core T)) (up : w.walFailed = false) {src : Nat}
    {dsts : List Nat} (sorted : dsts.Pairwise (· < ·)) (hsrc : src < w.graph.numVertices)
    (inRange : ∀ d ∈ dsts, d < w.graph.numVertices) (shallow : (T src).depth < maxDepth)
    (allocates : w.BatchAllocates src dsts)
    (logs : w.Logs src (dsts.filter fun d => decide (d ∉ (T src).elems))) :
    w.sortedStale src dsts = false ∧
    ∃ w', w.insertEdgesSorted src dsts =
        .done (.ok (dsts.filter fun d => decide (d ∉ (T src).elems)).length) w' ∧
      Booked w w' src (dsts.filter fun d => decide (d ∉ (T src).elems)) := by
  unfold sortedStale insertEdgesSorted
  cases dsts with
  | nil => exact ⟨rfl, w, rfl, rfl, rfl, rfl⟩
  | cons first rest =>
      have none : (first :: rest).find? (fun d => decide (w.graph.numVertices ≤ d)) = .none := by
        rw [List.find?_eq_none]
        intro d hd
        rw [decide_eq_true_eq, Nat.not_le]
        exact inRange d hd
      have refuses : ¬ w.walRefuses = true := by
        rw [walRefuses, up]
        exact Bool.false_ne_true
      dsimp only
      rw [if_neg (Nat.not_le_of_lt hsrc), none]
      dsimp only
      rw [if_neg refuses]
      rw [BatchAllocates] at allocates
      split at allocates
      · rename_i prefers
        obtain ⟨fresh, done⟩ := insertSortedByPathCopy_ok good sorted inRange shallow allocates logs
        rw [fresh, Bool.and_false]
        refine ⟨rfl, ?_⟩
        rw [if_pos (show preferPathCopy ((w.graph.treeFor src).count w.graph.arena)
          (first :: rest).length = true from prefers)]
        exact done
      · rename_i prefers
        rw [Bool.eq_false_of_not_eq_true prefers, Bool.and_false, Bool.false_and]
        refine ⟨rfl, ?_⟩
        rw [if_neg (show ¬ preferPathCopy ((w.graph.treeFor src).count w.graph.arena)
          (first :: rest).length = true from prefers)]
        exact insertSortedByRebuild_ok good sorted inRange shallow allocates logs

/-- Insert the destinations one by one; the answer lists the new ones. -/
def insertEach (w : Writer) (src : Nat) (new : List Nat) : List Nat → Call (List Nat)
  | [] => .done (.ok new) w
  | d :: dsts =>
      match w.insertEdge src d with
      | .panic w => .panic w
      | .done (.error e) w => .done (.error e) w
      | .done (.ok inserted) w => w.insertEach src (if inserted then new ++ [d] else new) dsts

theorem insertEach_ok {w w' : Writer} {T : Nat → Adj}
    (good : Core.Good w.graph.numVertices (w.core T)) (up : w.walFailed = false) {src : Nat}
    {dsts acc new : List Nat} (sorted : dsts.Pairwise (· < ·))
    (done : w.insertEach src acc dsts = .done (.ok new) w') :
    new = acc ++ (dsts.filter fun d => decide (d ∉ (T src).elems)) ∧ w'.walFailed = false ∧
    ∃ T', Effect (w'.walFailed = false) w w' T T'
      ((dsts.filter fun d => decide (d ∉ (T src).elems)).map (src, ·)) := by
  induction dsts generalizing w T acc with
  | nil =>
      rw [insertEach] at done
      simp only [Call.done.injEq, Except.ok.injEq] at done
      obtain ⟨rfl, rfl⟩ := done
      exact ⟨(List.append_nil _).symm, up, T, .refl _ w T⟩
  | cons d dsts ih =>
      obtain ⟨later, sorted⟩ := List.pairwise_cons.mp sorted
      have outcome := insertEdge_outcome ⟨w.retireLog, good, fun _ => rfl⟩ src d
      rw [insertEach] at done
      split at done
      · cases done
      · cases done
      rename_i inserted w₁ result
      rw [result] at outcome
      obtain ⟨T₁, added, effect, post, failed⟩ := outcome
      have up₁ : w₁.walFailed = false := (failed fun no => nomatch no).trans up
      have rest := ih (effect.good up₁ good) up₁ sorted done
      have same : ∀ y ∈ dsts, (y ∈ (T₁ src).elems ↔ y ∈ (T src).elems ∨ (src, y) ∈ added) :=
        fun y _ => effect.added.mem_elems src y
      cases inserted with
      | true =>
          obtain rfl := post
          have kept : dsts.filter (fun y => decide (y ∉ (T₁ src).elems)) =
              dsts.filter fun y => decide (y ∉ (T src).elems) := by
            refine List.filter_congr fun y hy => ?_
            have differ : y ≠ d := (later y hy).ne'
            rw [decide_eq_decide, same y hy]
            simp only [List.mem_singleton, Prod.mk.injEq, differ, and_false, or_false]
          have fresh : d ∉ (T src).elems := effect.added.fresh _ (List.mem_singleton_self _)
          rw [kept, if_pos rfl] at rest
          obtain ⟨rfl, up', T', effect'⟩ := rest
          rw [List.filter_cons_of_pos (by rw [decide_eq_true_eq]; exact fresh)]
          exact ⟨List.append_assoc .., up', T', effect.trans up₁ effect'⟩
      | false =>
          obtain ⟨rfl, dup⟩ := post
          have kept : dsts.filter (fun y => decide (y ∉ (T₁ src).elems)) =
              dsts.filter fun y => decide (y ∉ (T src).elems) := by
            refine List.filter_congr fun y hy => ?_
            rw [decide_eq_decide, same y hy]
            simp only [List.not_mem_nil, or_false]
          rw [kept, if_neg Bool.false_ne_true] at rest
          obtain ⟨rfl, up', T', effect'⟩ := rest
          rw [List.filter_cons_of_neg (by rw [decide_eq_true_eq]; exact not_not.mpr dup)]
          exact ⟨rfl, up', T', effect.trans up₁ effect'⟩

/-- Every batch of a run finds its slots in a tree that leaves a level to spare, and the log takes
its records. -/
def RunsAllocate (w : Writer) : List (Nat × List Nat) → Prop
  | [] => True
  | (src, dsts) :: runs => w.BatchAllocates src dsts ∧
      (∀ T, w.Sound T → (T src).depth < maxDepth ∧
        w.Logs src (dsts.filter fun d => decide (d ∉ (T src).elems))) ∧
      ∀ k w', w.insertEdgesSorted src dsts = .done (.ok k) w' → w'.RunsAllocate runs

theorem insertRuns_ok {w : Writer} {T : Nat → Adj}
    (good : Core.Good w.graph.numVertices (w.core T)) (up : w.walFailed = false)
    {runs : List (Nat × List Nat)} (sorted : ∀ run ∈ runs, run.2.Pairwise (· < ·))
    (inRange : ∀ run ∈ runs, run.1 < w.graph.numVertices ∧ ∀ d ∈ run.2, d < w.graph.numVertices)
    (allocates : w.RunsAllocate runs) (before : Nat) :
    w.runsStale runs = false ∧ ∃ k w', w.insertRuns before runs = .done (.ok k) w' := by
  induction runs generalizing w T before with
  | nil => exact ⟨rfl, before, w, rfl⟩
  | cons run runs ih =>
      obtain ⟨src, dsts⟩ := run
      obtain ⟨first, sorted⟩ := List.forall_mem_cons.mp sorted
      obtain ⟨⟨hsrc, hdsts⟩, inRange⟩ := List.forall_mem_cons.mp inRange
      obtain ⟨slots, state, rest⟩ := allocates
      have sound : w.Sound T := ⟨w.retireLog, good, fun _ => rfl⟩
      obtain ⟨shallow, logs⟩ := state T sound
      obtain ⟨fresh, w₁, done, -⟩ :=
        insertEdgesSorted_ok good up first hsrc hdsts shallow slots logs
      have outcome := insertEdgesSorted_outcome sound first fresh
      rw [done] at outcome
      obtain ⟨T₁, inserted⟩ := outcome.batchInserted good up
      have nv := inserted.effect.frame.numVertices
      obtain ⟨fresh', k, w', ran⟩ := ih (inserted.sound.good inserted.up) inserted.up sorted
        (nv.symm ▸ inRange) (rest _ w₁ done) (before + _)
      rw [runsStale, insertRuns, fresh, done]
      exact ⟨fresh', k, w', ran⟩

/-- Neighbours of `v` asked for by a list of edges. -/
def asked (edges : List (Nat × Nat)) (v : Nat) : List Nat :=
  (edges.filter fun e => e.1 == v).map Prod.snd

theorem mem_asked {edges : List (Nat × Nat)} {v x : Nat} :
    x ∈ asked edges v ↔ (v, x) ∈ edges := by
  rw [asked, List.mem_map]
  constructor
  · rintro ⟨e, he, rfl⟩
    obtain ⟨he, source⟩ := List.mem_filter.mp he
    rw [beq_iff_eq] at source
    rwa [← source]
  · intro he
    exact ⟨_, List.mem_filter.mpr ⟨he, beq_self_eq_true v⟩, rfl⟩

theorem insertEdges_ok {w : Writer} {T : Nat → Adj}
    (good : Core.Good w.graph.numVertices (w.core T)) (up : w.walFailed = false)
    {edges : List (Nat × Nat)}
    (inRange : ∀ e ∈ edges, e.1 < w.graph.numVertices ∧ e.2 < w.graph.numVertices)
    (allocates : w.RunsAllocate (groupRuns edges)) :
    ∃ (added : List (Nat × Nat)) (w' : Writer) (T' : Nat → Adj), w.insertEdges edges = .done (.ok added.length) w' ∧ w'.Sound T' ∧
      added.Nodup ∧ (∀ e, e ∈ added ↔ e ∈ edges ∧ e.2 ∉ (T e.1).elems) ∧
      ∀ v, (T' v).elems = sortDedup ((T v).elems ++ asked edges v) := by
  have sound : w.Sound T := ⟨w.retireLog, good, fun _ => rfl⟩
  have none : edges.find? (fun e => decide (w.graph.numVertices ≤ e.1) ||
      decide (w.graph.numVertices ≤ e.2)) = .none := by
    rw [List.find?_eq_none]
    intro e he
    have := inRange e he
    rw [Bool.or_eq_true, decide_eq_true_eq, decide_eq_true_eq]
    omega
  have bounds : ∀ run ∈ groupRuns edges, run.1 < w.graph.numVertices ∧
      ∀ d ∈ run.2, d < w.graph.numVertices := by
    intro run hrun
    have here : ∀ d ∈ run.2, (run.1, d) ∈ edges := fun d hd =>
      mem_groupRuns.mpr ⟨run, hrun, rfl, hd⟩
    obtain ⟨d, hd⟩ := groupRuns_ne hrun
    exact ⟨(inRange _ (here d hd)).1, fun d hd => (inRange _ (here d hd)).2⟩
  obtain ⟨fresh, k, w', ran⟩ := insertRuns_ok good up (fun run => groupRuns_sorted) bounds
    allocates 0
  have done : w.insertEdges edges = .done (.ok k) w' := by
    rw [insertEdges, none]
    exact ran
  have outcome := insertEdges_outcome sound edges (by rw [batchStale, none, fresh]; rfl)
  rw [done] at outcome
  obtain ⟨T', added, effect, ⟨subset, all⟩, failed⟩ := outcome
  obtain ⟨rfl, present⟩ := all k rfl
  have sound' := effect.sound good
  refine ⟨added, w', T', done, sound', effect.added.nodup, fun e => ?_, fun v => ?_⟩
  · constructor
    · exact fun he => ⟨subset e he, effect.added.fresh e he⟩
    · exact fun ⟨he, fresh⟩ => (present e he).resolve_left fresh
  · refine eq_of_mem_iff (sound'.forest.live v).elems_sorted (sortDedup_sorted _) fun x => ?_
    rw [effect.added.mem_elems v x, mem_sortDedup, List.mem_append, mem_asked]
    constructor
    · rintro (old | new)
      · exact .inl old
      · exact .inr (subset _ new)
    · rintro (old | new)
      · exact .inl old
      · exact present _ new

end Writer

/-- A graph whose only tree is `leftComb 64`, at vertex 0. -/
def combTrees (v : Nat) : Adj := if v = 0 then some (leftComb 64) else none

def combWriter : Writer where
  graph :=
    { roots := offset (leftComb 64) :: List.replicate 79 null
      arena := combArena
      numVertices := 80
      numEdges := 79
      dirty := .new 80
      writerLocked := true
      poisoned := false
      epoch := 0
      latest := ⟨0, 80, 0, .empty 80⟩
      wal := none }
  youngStart := combArena.bumped
  retireStamp := 1
  dirty := []
  touchedLeaves := []
  retireLog := .new
  pendingEdges := 0
  touchedDedupLimit := touchedLeavesDedupStart
  walFailed := false

theorem combWriter_sound : combWriter.Sound combTrees := by
  refine ⟨.new, ⟨?_, .empty _ _ fun k => rfl⟩, fun _ => rfl⟩
  have live : ∀ v, (combTrees v).Live combArena := by
    intro v
    unfold combTrees
    split
    · exact ⟨leftComb_kept le_rfl, leftComb_wellFormed 64⟩
    · trivial
  refine ⟨combArena_ok, rfl, by decide, fun v => ?_, live, fun v x hx => ?_, fun u v huv k i hu hv => ?_⟩
  · cases v with
    | zero => rfl
    | succ v =>
        change (List.replicate 79 null).getD v null = null
        rw [List.getD_eq_getElem?_getD, List.getElem?_replicate]
        split <;> rfl
  · change x ∈ (combTrees v).elems at hx
    unfold combTrees at hx
    split at hx
    · exact mem_leftComb hx
    · exact absurd hx List.not_mem_nil
  · change i ∈ (combTrees u).slots k at hu
    change i ∈ (combTrees v).slots k at hv
    unfold combTrees at hu hv
    by_cases first : u = 0
    · rw [if_neg (fun second => huv (first.trans second.symm))] at hv
      exact absurd hv List.not_mem_nil
    · rw [if_neg first] at hu
      exact absurd hu List.not_mem_nil

def Call.panics {α : Type} : Call α → Bool
  | .panic _ => true
  | .done _ _ => false

end AetherGraph
