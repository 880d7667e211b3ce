import AetherGraph.SamplerPass

/-! The sampler does what the pass without scratch does, whatever earlier calls left in its
scratch: a pass depends on the generator and the inputs alone. -/

namespace AetherGraph

open Foundation

namespace NeighborSampler

variable {σ : Type} [Rng σ] {Time : Type}

/-- The live part of the sampler is the pass, and its dedup table answers for the nodes of
the pass. -/
structure Tracks (numNodes : Nat) (cfg : SamplingConfig) (s : NeighborSampler σ Time)
    (p : Pass Time) : Prop where
  nodes : s.nodeVec = p.nodes
  times : s.nodeTimes = p.times
  trackTimes : s.trackTimes = p.trackTimes
  hop : s.hop = p.hop
  src : s.edgeSrcBuf = p.edges.map SampledEdge.src
  dst : s.edgeDstBuf = p.edges.map SampledEdge.dst
  ids : s.edgeIdsBuf = p.edgeIds cfg
  srcLocal : s.srcLocalBuf = p.edges.map SampledEdge.srcLocal
  dstLocal : s.dstLocalBuf = p.edges.map SampledEdge.dstLocal
  seedLocals : s.seedLocalsBuf = p.seedLocals
  frontier : s.frontier = p.frontier
  next : s.nextFrontier = p.next
  emittedAt : s.emittedAt = p.emittedAt
  dedup : s.dedup.Indexes numNodes p.nodes
  nodup : p.nodes.Nodup
  inRange : ∀ n ∈ p.nodes, n < numNodes

omit [Rng σ] in
/-- Scratch of the draws can change under the pass. -/
theorem Tracks.redraw {numNodes : Nat} {cfg : SamplingConfig} {s : NeighborSampler σ Time}
    {p : Pass Time} (h : Tracks numNodes cfg s p) (rng : σ) (floyd : FloydStamps)
    (seen : List Nat) :
    Tracks numNodes cfg { s with rng := rng, floyd := floyd, seenSet := seen } p := { h with }

/-- Scratch that registering nodes and pushing edges leaves alone. -/
structure Kept (s s' : NeighborSampler σ Time) : Prop where
  rng : s'.rng = s.rng
  floyd : s'.floyd = s.floyd
  seenSet : s'.seenSet = s.seenSet

omit [Rng σ] in
theorem Kept.refl (s : NeighborSampler σ Time) : Kept s s := ⟨rfl, rfl, rfl⟩

omit [Rng σ] in
theorem Kept.trans {s s' s'' : NeighborSampler σ Time} (h : Kept s s') (h' : Kept s' s'') :
    Kept s s'' :=
  ⟨h'.rng.trans h.rng, h'.floyd.trans h.floyd, h'.seenSet.trans h.seenSet⟩

/-- Between draws: the pass, a stamp block no later sample has marked, and the generator. -/
structure Sim (numNodes : Nat) (cfg : SamplingConfig) (s : NeighborSampler σ Time)
    (p : Pass Time) (r : σ) : Prop where
  tracks : Tracks numNodes cfg s p
  floyd : s.floyd.Ready
  rng : s.rng = r

/-- Between calls. -/
structure Ready (numNodes : Nat) (s : NeighborSampler σ Time) : Prop where
  dedup : s.dedup.Ready numNodes
  floyd : s.floyd.Ready
  seedLocals : s.seedLocalsBuf = []

variable {g : Csr Time} {cfg : SamplingConfig} {s : NeighborSampler σ Time} {p : Pass Time}

section Emit

variable [LT Time] [DecidableLT Time]

omit [Rng σ] in
theorem Tracks.register (h : Tracks g.numNodes cfg s p) {id : Nat} (inRange : id < g.numNodes)
    (time : Time) :
    (s.register id time).1 = (p.nodes.idxOf id, decide (id ∉ p.nodes)) ∧
      Tracks g.numNodes cfg (s.register id time).2 (p.register id time) := by
  have length := GenDedup.length_le_of_nodup h.nodup h.inRange
  have small : p.nodes.length < 2 ^ 32 := by
    have := g.numNodes_le
    unfold maxNodes at this
    omega
  obtain ⟨found, indexes⟩ := h.dedup.probe inRange small
  have next : s.nodeVec.length % 2 ^ 32 = p.nodes.length := by
    rw [h.nodes, Nat.mod_eq_of_lt small]
  unfold NeighborSampler.register Pass.register
  simp only [next, found, decide_eq_true_eq]
  refine ⟨trivial, ?_⟩
  by_cases known : id ∈ p.nodes
  · rw [if_pos known] at indexes
    rw [if_neg (not_not_intro known), if_pos known]
    split
    · rename_i track
      rw [h.trackTimes] at track
      refine { h with dedup := indexes, times := ?_ }
      simp only [h.times, track, if_true]
    · rename_i track
      rw [h.trackTimes] at track
      refine { h with dedup := indexes, times := ?_ }
      rw [if_neg track]
      exact h.times
  · rw [if_neg known] at indexes
    rw [if_pos known, if_neg known]
    refine { h with
      nodes := congrArg (· ++ [id]) h.nodes
      times := ?_
      dedup := indexes
      nodup := ?_
      inRange := ?_ }
    · simp only [h.trackTimes, h.times]
    · exact List.nodup_append.mpr ⟨h.nodup, List.nodup_singleton id, fun a ha b hb same =>
        known (List.mem_singleton.mp hb ▸ same ▸ ha)⟩
    · intro n hn
      rcases List.mem_append.mp hn with hn | hn
      · exact h.inRange n hn
      · rwa [List.mem_singleton.mp hn]

omit [Rng σ] [LT Time] [DecidableLT Time] in
theorem Tracks.freshEdge (h : Tracks g.numNodes cfg s p) (eid : Nat) :
    (s.freshEdge eid).1 = p.fresh eid ∧
      Tracks g.numNodes cfg (s.freshEdge eid).2 (p.noteEmitted eid) := by
  unfold NeighborSampler.freshEdge Pass.fresh Pass.noteEmitted
  rw [h.emittedAt]
  cases found : p.emittedAt.lookup eid with
  | none =>
      refine ⟨rfl, { h with emittedAt := ?_ }⟩
      rw [h.hop]
  | some hop =>
      refine ⟨?_, h⟩
      rw [h.hop]

omit [Rng σ] [LT Time] [DecidableLT Time] in
theorem Tracks.pushEdge (h : Tracks g.numNodes cfg s p) (src srcLocal dst dstLocal eid : Nat) :
    Tracks g.numNodes cfg (s.pushEdge cfg src srcLocal dst dstLocal eid)
      (p.addEdge ⟨src, srcLocal, dst, dstLocal, eid⟩) where
  nodes := h.nodes
  times := h.times
  trackTimes := h.trackTimes
  hop := h.hop
  src := by simp only [NeighborSampler.pushEdge, Pass.addEdge, List.map_append, h.src]; rfl
  dst := by simp only [NeighborSampler.pushEdge, Pass.addEdge, List.map_append, h.dst]; rfl
  ids := by
    simp only [NeighborSampler.pushEdge, Pass.addEdge, h.ids, Pass.edgeIds]
    split <;> simp
  srcLocal := by
    simp only [NeighborSampler.pushEdge, Pass.addEdge, List.map_append, h.srcLocal]; rfl
  dstLocal := by
    simp only [NeighborSampler.pushEdge, Pass.addEdge, List.map_append, h.dstLocal]; rfl
  frontier := h.frontier
  next := h.next
  seedLocals := h.seedLocals
  emittedAt := h.emittedAt
  dedup := h.dedup
  nodup := h.nodup
  inRange := h.inRange

omit [Rng σ] in
theorem Tracks.reach (h : Tracks g.numNodes cfg s p) {id : Nat} (inRange : id < g.numNodes)
    (time : Time) :
    (s.insertNodeFrontier g id time).1 = some (p.nodes.idxOf id) ∧
      Tracks g.numNodes cfg (s.insertNodeFrontier g id time).2 (p.reach id time) := by
  obtain ⟨found, tracks⟩ := h.register inRange time
  have next : (p.register id time).next = p.next := by
    unfold Pass.register
    split <;> rfl
  unfold insertNodeFrontier Pass.reach
  rw [if_neg (Nat.not_le.mpr inRange)]
  simp only [found, decide_eq_true_eq]
  refine ⟨trivial, ?_⟩
  by_cases known : id ∈ p.nodes
  · rw [if_neg (not_not_intro known), if_pos known]
    exact { tracks with next := tracks.next.trans next }
  · rw [if_pos known, if_neg known]
    refine { tracks with next := ?_ }
    exact congrArg (· ++ _) (tracks.next.trans next)

omit [Rng σ] in
/-- Emitting an edge does to the sampler what it does to the pass. -/
theorem Tracks.emitEdge (h : Tracks g.numNodes cfg s p) (src srcLocal dst eid : Nat)
    (time : Time) :
    Tracks g.numNodes cfg (s.emitEdge g cfg src srcLocal dst eid time)
      (p.emit g cfg src srcLocal dst eid time) := by
  obtain ⟨allowed, noted⟩ := h.freshEdge eid
  have pushed : ∀ {s' : NeighborSampler σ Time} {p' : Pass Time}, Tracks g.numNodes cfg s' p' →
      Tracks g.numNodes cfg (s'.emitAllowed g cfg src srcLocal dst eid time)
        (if g.numNodes ≤ dst then p' else p'.push src srcLocal dst eid time) := by
    intro s' p' h'
    unfold emitAllowed
    by_cases outside : g.numNodes ≤ dst
    · rw [if_pos outside, insertNodeFrontier, if_pos outside]
      exact h'
    · obtain ⟨found, tracks⟩ := h'.reach (Nat.lt_of_not_le outside) time
      rw [if_neg outside]
      cases reached : s'.insertNodeFrontier g dst time with
      | mk idx t =>
          rw [reached] at found tracks
          obtain rfl : idx = some (p'.nodes.idxOf dst) := found
          exact tracks.pushEdge src srcLocal dst _ eid
  unfold NeighborSampler.emitEdge Pass.emit
  by_cases cumulative : cfg.cumulative = true
  · simp only [cumulative, if_true, true_and]
    by_cases refused : p.fresh eid = false
    · have same : p.noteEmitted eid = p := by
        unfold Pass.fresh at refused
        unfold Pass.noteEmitted
        split at refused
        · rfl
        · cases refused
      simp only [allowed, refused, if_true, Bool.false_eq_true, if_false]
      exact same ▸ noted
    · rw [Bool.not_eq_false] at refused
      simp only [allowed, refused, if_true, Bool.true_eq_false, if_false]
      exact pushed noted
  · simp only [cumulative, Bool.false_eq_true, if_false, false_and, if_true]
    exact pushed h

omit [Rng σ] in
theorem kept_register (s : NeighborSampler σ Time) (id : Nat) (time : Time) :
    Kept s (s.register id time).2 := by
  unfold NeighborSampler.register
  dsimp only
  split
  · exact ⟨rfl, rfl, rfl⟩
  · split <;> exact ⟨rfl, rfl, rfl⟩

omit [Rng σ] in
theorem kept_insertNodeFrontier (s : NeighborSampler σ Time) (id : Nat) (time : Time) :
    Kept s (s.insertNodeFrontier g id time).2 := by
  have kept := kept_register s id time
  unfold insertNodeFrontier
  split
  · exact .refl s
  · dsimp only
    split
    · exact ⟨kept.rng, kept.floyd, kept.seenSet⟩
    · exact kept

omit [Rng σ] in
theorem kept_emitEdge (s : NeighborSampler σ Time) (src srcLocal dst eid : Nat) (time : Time) :
    Kept s (s.emitEdge g cfg src srcLocal dst eid time) := by
  have pushed : ∀ s' : NeighborSampler σ Time,
      Kept s' (s'.emitAllowed g cfg src srcLocal dst eid time) := by
    intro s'
    have kept := kept_insertNodeFrontier (g := g) s' dst time
    unfold emitAllowed
    split
    · rename_i reached
      rw [reached] at kept
      exact ⟨kept.rng, kept.floyd, kept.seenSet⟩
    · rename_i reached
      rw [reached] at kept
      exact kept
  have fresh : Kept s (s.freshEdge eid).2 := by
    unfold NeighborSampler.freshEdge
    split <;> exact ⟨rfl, rfl, rfl⟩
  unfold NeighborSampler.emitEdge
  by_cases cumulative : cfg.cumulative = true
  · simp only [cumulative, if_true]
    split
    · exact fresh.trans (pushed _)
    · exact fresh
  · simp only [cumulative, Bool.false_eq_true, if_false, if_true]
    exact pushed s

omit [Rng σ] in
/-- Emitting the edges at `picks` in turn. -/
theorem Tracks.emitAll (h : Tracks g.numNodes cfg s p) (node nodeLocal : Nat)
    (neighbors : List Nat) (edgeOffset : Nat) (time : Nat → Time) (picks : List Nat) :
    Tracks g.numNodes cfg
        (picks.foldl (fun s i => s.emitEdge g cfg node nodeLocal (neighbors.getD i 0)
          (edgeOffset + i) (time i)) s)
        (p.emitAll g cfg node nodeLocal neighbors edgeOffset time picks) ∧
      Kept s (picks.foldl (fun s i => s.emitEdge g cfg node nodeLocal (neighbors.getD i 0)
        (edgeOffset + i) (time i)) s) := by
  induction picks generalizing s p with
  | nil => exact ⟨h, .refl s⟩
  | cons i picks ih =>
      obtain ⟨rest, kept⟩ :=
        ih (h.emitEdge node nodeLocal (neighbors.getD i 0) (edgeOffset + i) (time i))
      exact ⟨rest, (kept_emitEdge s _ _ _ _ _).trans kept⟩

end Emit

section Draw

/-- A draw on the reusable set is Floyd's pick, for the set of earlier picks. -/
theorem seenPick_eq {taken : List Nat} {i : Nat} (picked : Picked taken i)
    (seen : s.seenSet = taken) :
    s.seenPick i = (floydPick taken i (randBelow s.rng (i + 1)).1,
      { s with
        rng := (randBelow s.rng (i + 1)).2
        seenSet := taken ++ [floydPick taken i (randBelow s.rng (i + 1)).1] }) := by
  have fresh : i ∉ taken := fun hi => Nat.lt_irrefl i (picked.lt i hi)
  unfold seenPick floydPick seenInsert
  simp only [seen]
  by_cases old : (randBelow s.rng (i + 1)).1 ∈ taken
  · simp only [if_pos old, if_neg fresh]
  · simp only [if_neg old]

/-- Floyd's sampling on the reusable set, acting on each pick in turn. -/
theorem foldl_seenPick {R : NeighborSampler σ Time → List Nat → Prop}
    {f : NeighborSampler σ Time → Nat → NeighborSampler σ Time}
    (step : ∀ s taken pick rng, R s taken →
      R (f { s with rng := rng, seenSet := taken ++ [pick] } pick) (taken ++ [pick]))
    (keeps : ∀ s pick, (f s pick).rng = s.rng ∧ (f s pick).seenSet = s.seenSet) (k : Nat)
    {s : NeighborSampler σ Time} {taken : List Nat} {lo : Nat} (picked : Picked taken lo)
    (seen : s.seenSet = taken) (start : R s taken) :
    R ((List.range' lo k).foldl (fun s i => f (s.seenPick i).2 (s.seenPick i).1) s)
        (floydFrom randBelow s.rng taken (List.range' lo k)).1 ∧
      ((List.range' lo k).foldl (fun s i => f (s.seenPick i).2 (s.seenPick i).1) s).rng =
        (floydFrom randBelow s.rng taken (List.range' lo k)).2 := by
  induction k generalizing s taken lo with
  | zero => exact ⟨start, rfl⟩
  | succ k ih =>
      have drawn := seenPick_eq picked seen
      have next := picked.snoc (randBelow_lt s.rng (Nat.succ_pos lo))
      have rel := step s taken (floydPick taken lo (randBelow s.rng (lo + 1)).1)
        (randBelow s.rng (lo + 1)).2 start
      obtain ⟨rng, set⟩ := keeps { s with
        rng := (randBelow s.rng (lo + 1)).2
        seenSet := taken ++ [floydPick taken lo (randBelow s.rng (lo + 1)).1] }
        (floydPick taken lo (randBelow s.rng (lo + 1)).1)
      have rest := ih next set rel
      rw [List.range'_succ, List.foldl_cons, drawn, floydFrom]
      rw [rng] at rest
      exact rest

/-- A draw on the stamp block is Floyd's pick, for the block marking the earlier picks. -/
theorem stampPick_eq {taken : List Nat} {i : Nat} (small : i < 256) (picked : Picked taken i)
    (marks : s.floyd.Marks taken) :
    ∃ floyd : FloydStamps, s.stampPick i = (floydPick taken i (randBelow s.rng (i + 1)).1,
        { s with rng := (randBelow s.rng (i + 1)).2, floyd := floyd }) ∧
      floyd.Marks (taken ++ [floydPick taken i (randBelow s.rng (i + 1)).1]) := by
  have fresh : i ∉ taken := fun hi => Nat.lt_irrefl i (picked.lt i hi)
  have drawn := randBelow_lt s.rng (Nat.succ_pos i)
  obtain ⟨untaken, marked⟩ :=
    marks.testAndSet (Nat.lt_of_lt_of_le drawn (Nat.succ_le_of_lt small))
  unfold stampPick floydPick
  cases tested : s.floyd.testAndSet (randBelow s.rng (i + 1)).1 with
  | mk first floyd =>
      rw [tested] at untaken marked
      by_cases old : (randBelow s.rng (i + 1)).1 ∈ taken
      · rw [if_pos old] at marked
        obtain rfl : first = false := untaken.trans (decide_eq_false (not_not_intro old))
        obtain ⟨-, set⟩ := marked.testAndSet small
        rw [if_neg fresh] at set
        refine ⟨(floyd.testAndSet i).2, ?_, ?_⟩
        · simp only [tested, if_pos old]
        · rwa [if_pos old]
      · rw [if_neg old] at marked
        obtain rfl : first = true := untaken.trans (decide_eq_true old)
        refine ⟨floyd, ?_, ?_⟩
        · simp only [tested, if_neg old]
        · rwa [if_neg old]

/-- Floyd's sampling on the stamp block, acting on each pick in turn. -/
theorem foldl_stampPick {R : NeighborSampler σ Time → List Nat → Prop}
    {f : NeighborSampler σ Time → Nat → NeighborSampler σ Time}
    (step : ∀ s taken pick rng floyd, R s taken →
      R (f { s with rng := rng, floyd := floyd } pick) (taken ++ [pick]))
    (keeps : ∀ s pick, (f s pick).rng = s.rng ∧ (f s pick).floyd = s.floyd) (k : Nat)
    {s : NeighborSampler σ Time} {taken : List Nat} {lo : Nat} (small : lo + k ≤ 256)
    (picked : Picked taken lo) (marks : s.floyd.Marks taken) (start : R s taken) :
    R ((List.range' lo k).foldl (fun s i => f (s.stampPick i).2 (s.stampPick i).1) s)
        (floydFrom randBelow s.rng taken (List.range' lo k)).1 ∧
      ((List.range' lo k).foldl (fun s i => f (s.stampPick i).2 (s.stampPick i).1) s).rng =
        (floydFrom randBelow s.rng taken (List.range' lo k)).2 ∧
      ((List.range' lo k).foldl (fun s i => f (s.stampPick i).2 (s.stampPick i).1) s).floyd.Ready := by
  induction k generalizing s taken lo with
  | zero => exact ⟨start, rfl, marks.ready⟩
  | succ k ih =>
      obtain ⟨stamps, drawn, marked⟩ := stampPick_eq (by omega) picked marks
      have next := picked.snoc (randBelow_lt s.rng (Nat.succ_pos lo))
      have rel := step s taken (floydPick taken lo (randBelow s.rng (lo + 1)).1)
        (randBelow s.rng (lo + 1)).2 stamps start
      obtain ⟨rng, set⟩ := keeps { s with rng := (randBelow s.rng (lo + 1)).2, floyd := stamps }
        (floydPick taken lo (randBelow s.rng (lo + 1)).1)
      have rest := ih (by omega) next (set ▸ marked) rel
      rw [List.range'_succ, List.foldl_cons, drawn, floydFrom]
      rw [rng] at rest
      exact rest

/-- `sample_buf` for the picks of a row. -/
def samplesOf (neighbors picks : List Nat) : List (Nat × Nat) :=
  picks.map fun i => (neighbors.getD i 0, i)

omit [Rng σ] in
theorem foldl_pushSample (neighbors : List Nat) (picks : List Nat) (s : NeighborSampler σ Time) :
    picks.foldl (pushSample neighbors) s =
      { s with sampleBuf := s.sampleBuf ++ samplesOf neighbors picks } := by
  induction picks generalizing s with
  | nil => simp [samplesOf]
  | cons i picks ih =>
      rw [List.foldl_cons, ih]
      simp only [pushSample, samplesOf, List.map_cons, List.append_assoc, List.singleton_append]

omit [Rng σ] in
theorem foldl_filterTime [LT Time] [DecidableLT Time] (nodeTime : Time)
    (entries : List (Nat × Time)) (s : NeighborSampler σ Time) :
    entries.foldl (filterTime nodeTime) s =
      { s with temporalFiltered :=
          s.temporalFiltered ++ entries.filter fun e => decide (e.2 < nodeTime) } := by
  induction entries generalizing s with
  | nil => simp
  | cons e entries ih =>
      rw [List.foldl_cons, ih, filterTime, List.filter_cons]
      by_cases before : e.2 < nodeTime
      · simp only [if_pos before, decide_eq_true before, if_true, List.append_assoc,
          List.singleton_append]
      · simp only [if_neg before, decide_eq_false before, Bool.false_eq_true, if_false]

omit [Rng σ] in
/-- Scratch outside the live state can change freely. -/
theorem Sim.scratch {r r' : σ} (h : Sim g.numNodes cfg s p r) {s' : NeighborSampler σ Time}
    (live : s' = { s with
      rng := r'
      sampleBuf := s'.sampleBuf
      seenSet := s'.seenSet
      temporalFiltered := s'.temporalFiltered
      weightedKeys := s'.weightedKeys
      cumsumBuf := s'.cumsumBuf
      capIdx := s'.capIdx
      capNbrs := s'.capNbrs
      capW := s'.capW }) : Sim g.numNodes cfg s' p r' := by
  obtain ⟨tracks, floyd, -⟩ := h
  rw [live]
  exact ⟨{ tracks with }, floyd, rfl⟩

theorem Sim.drawPositions {r : σ} (h : Sim g.numNodes cfg s p r) (n k : Nat) :
    Sim g.numNodes cfg (s.drawPositions n k) p (Pass.cappedPositions r n k).2 ∧
      (s.drawPositions n k).capIdx = (Pass.cappedPositions r n k).1 ∧
      (s.drawPositions n k).sampleBuf = s.sampleBuf ∧
      (s.drawPositions n k).temporalFiltered = s.temporalFiltered := by
  obtain ⟨rel, rng⟩ := foldl_seenPick
    (R := fun s' taken => Tracks g.numNodes cfg s' p ∧ s'.floyd.Ready ∧ s'.capIdx = taken ∧
      s'.sampleBuf = s.sampleBuf ∧ s'.temporalFiltered = s.temporalFiltered)
    (f := fun s pick => { s with capIdx := s.capIdx ++ [pick] })
    (fun s' taken pick rng ⟨tracks, floyd, idx, rest⟩ =>
      ⟨{ tracks with }, floyd, congrArg (· ++ [pick]) idx, rest⟩)
    (fun s' pick => ⟨rfl, rfl⟩) (n - (n - k)) (s := { s with capIdx := [], seenSet := [] })
    (Picked.nil (n - k)) rfl ⟨{ h.tracks with }, h.floyd, rfl, rfl, rfl⟩
  obtain ⟨tracks, floyd, idx, rest⟩ := rel
  refine ⟨⟨{ tracks with }, floyd, ?_⟩, ?_, rest⟩
  · refine rng.trans ?_
    rw [h.rng]
    rfl
  · have : (s.drawPositions n k).capIdx = (_ : List Nat).insertionSort (· ≤ ·) :=
      congrArg (List.insertionSort (· ≤ ·)) idx
    rw [this, h.rng]
    rfl

variable [LT Time] [DecidableLT Time] [Top Time] {ops : SliceOps}

omit [Top Time] in
/-- The samples a temporal draw leaves. -/
theorem Sim.selectTemporal {r : σ} (h : Sim g.numNodes cfg s p r) (strategy : TemporalStrategy)
    (neighbors : List Nat) (sampleSize : Nat) (empty : s.sampleBuf = []) :
    Sim g.numNodes cfg (s.selectTemporal ops strategy neighbors sampleSize) p
        (Pass.temporalPicks ops strategy sampleSize s.temporalFiltered r).2 ∧
      (s.selectTemporal ops strategy neighbors sampleSize).sampleBuf =
        samplesOf neighbors (Pass.temporalPicks ops strategy sampleSize s.temporalFiltered r).1 := by
  have pushed : ∀ (s' : NeighborSampler σ Time) (entries : List (Nat × Time)),
      entries.foldl (fun s entry => s.pushSample neighbors entry.1) s' =
        { s' with sampleBuf := s'.sampleBuf ++ samplesOf neighbors (entries.map Prod.fst) } :=
    fun s' entries => by rw [← foldl_pushSample, List.foldl_map]
  obtain rfl := h.rng
  unfold NeighborSampler.selectTemporal Pass.temporalPicks
  cases strategy with
  | uniform =>
      dsimp only
      split
      · rw [pushed, empty]
        exact ⟨h.scratch rfl, rfl⟩
      · obtain ⟨rel, rng⟩ := foldl_seenPick
          (R := fun s' taken => Tracks g.numNodes cfg s' p ∧ s'.floyd.Ready ∧
            s'.temporalFiltered = s.temporalFiltered ∧
            s'.sampleBuf = samplesOf neighbors
              (taken.map fun i => (s.temporalFiltered.map Prod.fst).getD i 0))
          (f := fun s' pick => s'.pushSample neighbors
            ((s'.temporalFiltered.map Prod.fst).getD pick 0))
          (fun s' taken pick rng ⟨tracks, floyd, same, buf⟩ =>
            ⟨{ tracks with }, floyd, same, by
              simp only [pushSample, same, buf, samplesOf, List.map_append, List.map_cons,
                List.map_nil]⟩)
          (fun s' pick => ⟨rfl, rfl⟩)
          (s.temporalFiltered.length - (s.temporalFiltered.length - sampleSize))
          (s := { s with seenSet := [] }) (Picked.nil (s.temporalFiltered.length - sampleSize)) rfl
          ⟨{ h.tracks with }, h.floyd, rfl, empty⟩
        obtain ⟨tracks, floyd, -, buf⟩ := rel
        exact ⟨⟨tracks, floyd, rng⟩, buf⟩
  | last =>
      dsimp only
      split
      · rename_i none
        rw [none, List.take_zero, empty]
        exact ⟨h, rfl⟩
      · rw [pushed]
        split
        · exact ⟨h.scratch rfl, congrArg (· ++ _) empty⟩
        · exact ⟨h.scratch rfl, congrArg (· ++ _) empty⟩

omit [Rng σ] [Top Time] in
/-- Emitting `sample_buf` emits the picked edges. -/
theorem Sim.emitSamples {r : σ} (h : Sim g.numNodes cfg s p r) (node nodeLocal edgeOffset : Nat)
    (time : Nat → Time) {neighbors picks : List Nat} (buf : s.sampleBuf = samplesOf neighbors picks) :
    Sim g.numNodes cfg (s.emitSamples g cfg node nodeLocal edgeOffset time)
      (p.emitAll g cfg node nodeLocal neighbors edgeOffset time picks) r := by
  obtain ⟨tracks, kept⟩ := h.tracks.emitAll node nodeLocal neighbors edgeOffset time picks
  unfold NeighborSampler.emitSamples
  rw [buf, samplesOf, List.foldl_map]
  exact ⟨tracks, kept.floyd ▸ h.floyd, kept.rng.trans h.rng⟩

theorem Sim.keepEligible {r : σ} (h : Sim g.numNodes cfg s p r) (strategy : TemporalStrategy)
    (n : Nat) (ts : List Time) (nodeTime : Time) (empty : s.temporalFiltered = []) :
    Sim g.numNodes cfg (s.keepEligible cfg strategy n ts nodeTime) p
        (Pass.eligible cfg strategy n ts nodeTime r).2 ∧
      (s.keepEligible cfg strategy n ts nodeTime).temporalFiltered =
        (Pass.eligible cfg strategy n ts nodeTime r).1 ∧
      (s.keepEligible cfg strategy n ts nodeTime).sampleBuf = s.sampleBuf := by
  have whole : Sim g.numNodes cfg ((ts.zipIdx.map Prod.swap).foldl (filterTime nodeTime) s) p r ∧
      ((ts.zipIdx.map Prod.swap).foldl (filterTime nodeTime) s).temporalFiltered =
        (ts.zipIdx.map Prod.swap).filter (fun e => decide (e.2 < nodeTime)) ∧
      ((ts.zipIdx.map Prod.swap).foldl (filterTime nodeTime) s).sampleBuf = s.sampleBuf := by
    obtain rfl := h.rng
    rw [foldl_filterTime, empty]
    exact ⟨h.scratch rfl, rfl, rfl⟩
  unfold NeighborSampler.keepEligible Pass.eligible
  cases strategy with
  | last => exact whole
  | uniform =>
      cases hubCap cfg n with
      | none => exact whole
      | some cap =>
          obtain ⟨drawn, idx, buf, filtered⟩ := h.drawPositions n cap
          dsimp only
          rw [foldl_filterTime, idx, filtered, empty, ← drawn.rng]
          exact ⟨drawn.scratch rfl, rfl, buf⟩

/-- A node's temporal expansion emits the picks of its row. -/
theorem Sim.sampleTemporal {r : σ} (h : Sim g.numNodes cfg s p r) {strategy : TemporalStrategy}
    (temporal : cfg.temporalStrategy = some strategy) (node nodeLocal : Nat) (neighbors : List Nat)
    (ts : List Time) (edgeOffset sampleSize : Nat) :
    Sim g.numNodes cfg (s.sampleTemporal ops g cfg node nodeLocal neighbors ts edgeOffset sampleSize)
      (p.emitAll g cfg node nodeLocal neighbors edgeOffset (fun i => ts.getD i ⊤)
        (Pass.temporalPicks ops strategy sampleSize
          (Pass.eligible cfg strategy neighbors.length ts (p.times.getD nodeLocal ⊤) r).1
          (Pass.eligible cfg strategy neighbors.length ts (p.times.getD nodeLocal ⊤) r).2).1)
      (Pass.temporalPicks ops strategy sampleSize
        (Pass.eligible cfg strategy neighbors.length ts (p.times.getD nodeLocal ⊤) r).1
        (Pass.eligible cfg strategy neighbors.length ts (p.times.getD nodeLocal ⊤) r).2).2 := by
  have cleared : Sim g.numNodes cfg { s with sampleBuf := [], temporalFiltered := [] } p r := by
    obtain rfl := h.rng
    exact h.scratch rfl
  rw [← h.tracks.times]
  obtain ⟨kept, filtered, buf⟩ := cleared.keepEligible strategy neighbors.length ts
    (s.nodeTimes.getD nodeLocal ⊤) rfl
  unfold NeighborSampler.sampleTemporal
  rw [temporal]
  dsimp only
  split
  · rename_i none
    rw [filtered, List.length_eq_zero_iff] at none
    rw [none]
    have nothing : (Pass.temporalPicks ops strategy sampleSize ([] : List (Nat × Time))
        (Pass.eligible cfg strategy neighbors.length ts (s.nodeTimes.getD nodeLocal ⊤) r).2) =
        ([], (Pass.eligible cfg strategy neighbors.length ts (s.nodeTimes.getD nodeLocal ⊤) r).2) := by
      cases strategy <;> simp [Pass.temporalPicks]
    rw [nothing]
    exact kept
  · obtain ⟨selected, samples⟩ := kept.selectTemporal strategy neighbors sampleSize buf
    rw [filtered] at selected samples
    exact selected.emitSamples node nodeLocal edgeOffset _ samples

omit [Rng σ] [LT Time] [DecidableLT Time] [Top Time] in
/-- Drawing for each item in turn, acting on each result. -/
theorem foldl_drawEach {ι α : Type} {d : σ → ι → α × σ}
    {f : NeighborSampler σ Time → α → NeighborSampler σ Time}
    {R : NeighborSampler σ Time → List α → Prop}
    (step : ∀ s l x rng, R s l → R (f { s with rng := rng } x) (l ++ [x]))
    (keeps : ∀ s x, (f s x).rng = s.rng) (items : List ι) {s : NeighborSampler σ Time}
    {l : List α} (start : R s l) :
    R (items.foldl (fun s i => f { s with rng := (d s.rng i).2 } (d s.rng i).1) s)
        (l ++ (drawEach d items s.rng).1) ∧
      (items.foldl (fun s i => f { s with rng := (d s.rng i).2 } (d s.rng i).1) s).rng =
        (drawEach d items s.rng).2 := by
  induction items generalizing s l with
  | nil => exact ⟨(List.append_nil l).symm ▸ start, rfl⟩
  | cons i items ih =>
      have rest := ih (step s l (d s.rng i).1 (d s.rng i).2 start)
      rw [keeps, List.append_assoc] at rest
      exact rest

omit [LT Time] [DecidableLT Time] [Top Time] in
theorem Sim.withReplacement {r : σ} (h : Sim g.numNodes cfg s p r) (neighbors : List Nat)
    (weights : List Float32) (k : Nat) (empty : s.sampleBuf = []) :
    Sim g.numNodes cfg (s.weightedSampleWithReplacement ops neighbors weights k) p
        (Pass.replacementPicks ops neighbors.length weights k r).2 ∧
      (s.weightedSampleWithReplacement ops neighbors weights k).sampleBuf =
        samplesOf neighbors (Pass.replacementPicks ops neighbors.length weights k r).1 ∧
      (s.weightedSampleWithReplacement ops neighbors weights k).capIdx = s.capIdx := by
  obtain rfl := h.rng
  unfold weightedSampleWithReplacement Pass.replacementPicks
  dsimp only
  split
  · exact ⟨h, empty, rfl⟩
  · obtain ⟨rel, rng⟩ := foldl_drawEach (d := fun r (_ : Nat) => Rng.nextU64 r)
      (f := fun s' word => s'.pushSample neighbors (Pass.cumulativePick ops neighbors.length
        ((Pass.cumulativeSums weights).1, s'.cumsumBuf) word))
      (R := fun s' words => Tracks g.numNodes cfg s' p ∧ s'.floyd.Ready ∧
        s'.cumsumBuf = (Pass.cumulativeSums weights).2 ∧ s'.capIdx = s.capIdx ∧
        s'.sampleBuf = samplesOf neighbors
          (words.map (Pass.cumulativePick ops neighbors.length (Pass.cumulativeSums weights))))
      (fun s' words word rng ⟨tracks, floyd, sums, idx, buf⟩ =>
        ⟨{ tracks with }, floyd, sums, idx, by
          simp only [pushSample, sums, buf, samplesOf, List.map_append, List.map_cons,
            List.map_nil]⟩)
      (fun s' word => rfl) (List.range k)
      (s := { s with cumsumBuf := (Pass.cumulativeSums weights).2 }) (l := [])
      ⟨{ h.tracks with }, h.floyd, rfl, rfl, empty⟩
    obtain ⟨tracks, floyd, -, idx, buf⟩ := rel
    exact ⟨⟨tracks, floyd, rng⟩, buf, idx⟩

omit [LT Time] [DecidableLT Time] [Top Time] in
theorem Sim.withoutReplacement {r : σ} (h : Sim g.numNodes cfg s p r) (neighbors : List Nat)
    (weights : List Float32) (k : Nat) (empty : s.sampleBuf = []) :
    Sim g.numNodes cfg (s.weightedSampleWithoutReplacement ops neighbors weights k) p
        (Pass.keyedPicks ops neighbors.length weights k r).2 ∧
      (s.weightedSampleWithoutReplacement ops neighbors weights k).sampleBuf =
        samplesOf neighbors (Pass.keyedPicks ops neighbors.length weights k r).1 ∧
      (s.weightedSampleWithoutReplacement ops neighbors weights k).capIdx = s.capIdx := by
  obtain rfl := h.rng
  unfold weightedSampleWithoutReplacement Pass.keyedPicks
  dsimp only
  split
  · exact ⟨h, empty, rfl⟩
  · split
    · rw [foldl_pushSample, empty]
      exact ⟨h.scratch rfl, rfl, rfl⟩
    · obtain ⟨rel, rng⟩ := foldl_drawEach
        (d := fun r (entry : Float32 × Nat) =>
          ((weightedKey (Rng.nextU64 r).1 entry.1, entry.2), (Rng.nextU64 r).2))
        (f := fun s' key => { s' with weightedKeys := s'.weightedKeys ++ [key] })
        (R := fun s' keys => Tracks g.numNodes cfg s' p ∧ s'.floyd.Ready ∧
          s'.weightedKeys = keys ∧ s'.capIdx = s.capIdx ∧ s'.sampleBuf = [])
        (fun s' keys key rng rel => by
          obtain ⟨tracks, floyd, same, idx, buf⟩ := rel
          exact ⟨{ tracks with }, floyd, congrArg (· ++ [key]) same, idx, buf⟩)
        (fun s' key => rfl) (weights.take neighbors.length).zipIdx
        (s := { s with weightedKeys := [] }) (l := [])
        ⟨{ h.tracks with }, h.floyd, rfl, rfl, empty⟩
      obtain ⟨tracks, floyd, keys, idx, buf⟩ := rel
      have pushed : ∀ (s' : NeighborSampler σ Time) (entries : List (Float × Nat)),
          entries.foldl (fun s entry => s.pushSample neighbors entry.2) s' =
            { s' with sampleBuf := s'.sampleBuf ++ samplesOf neighbors (entries.map Prod.snd) } :=
        fun s' entries => by rw [← foldl_pushSample, List.foldl_map]
      rw [pushed]
      refine ⟨⟨{ tracks with }, floyd, rng⟩, ?_, idx⟩
      dsimp only
      rw [buf, keys]
      rfl

omit [LT Time] [DecidableLT Time] [Top Time] in
variable (ops) in
theorem Sim.weightedInto {r : σ} (h : Sim g.numNodes cfg s p r) (neighbors : List Nat)
    (weights : List Float32) (k : Nat) (empty : s.sampleBuf = []) :
    Sim g.numNodes cfg (s.weightedInto ops cfg neighbors weights k) p
        (Pass.weightedPicks ops cfg neighbors.length weights k r).2 ∧
      (s.weightedInto ops cfg neighbors weights k).sampleBuf =
        samplesOf neighbors (Pass.weightedPicks ops cfg neighbors.length weights k r).1 ∧
      (s.weightedInto ops cfg neighbors weights k).capIdx = s.capIdx := by
  unfold NeighborSampler.weightedInto Pass.weightedPicks
  split
  · exact h.withReplacement neighbors weights k empty
  · exact h.withoutReplacement neighbors weights k empty

variable (ops) in
omit [Top Time] [LT Time] [DecidableLT Time] in
/-- The samples of a hub's drawn positions, mapped back to row positions. -/
theorem Sim.cappedWeighted {r : σ} (h : Sim g.numNodes cfg s p r) (neighbors : List Nat)
    (w : List Float32) {cap : Nat} (hub : hubCap cfg neighbors.length = some cap) (k : Nat)
    (empty : s.sampleBuf = []) {s₁ s₂ : NeighborSampler σ Time}
    (gathered : s₁ = { s.drawPositions neighbors.length cap with
      capNbrs := (s.drawPositions neighbors.length cap).capIdx.map fun i => neighbors.getD i 0
      capW := (s.drawPositions neighbors.length cap).capIdx.map fun i => w.getD i 0 })
    (sampled : s₂ = s₁.weightedInto ops cfg s₁.capNbrs s₁.capW k) :
    Sim g.numNodes cfg
        { s₂ with sampleBuf := s₂.sampleBuf.map fun pick => (pick.1, s₂.capIdx.getD pick.2 0) } p
        (Pass.normalPicks ops cfg neighbors.length (some w) k r).2 ∧
      (s₂.sampleBuf.map fun pick => (pick.1, s₂.capIdx.getD pick.2 0)) =
        samplesOf neighbors (Pass.normalPicks ops cfg neighbors.length (some w) k r).1 := by
  obtain ⟨drawn, idx, buf, -⟩ := h.drawPositions neighbors.length cap
  rw [idx] at gathered
  have start : Sim g.numNodes cfg s₁ p (Pass.cappedPositions r neighbors.length cap).2 := by
    rw [gathered, ← drawn.rng]
    exact drawn.scratch rfl
  have empty₁ : s₁.sampleBuf = [] := by
    rw [gathered]
    exact buf.trans empty
  have idx₁ : s₁.capIdx = (Pass.cappedPositions r neighbors.length cap).1 := by
    rw [gathered]
    exact idx
  have nbrs : s₁.capNbrs = (Pass.cappedPositions r neighbors.length cap).1.map
      fun i => neighbors.getD i 0 := by
    rw [gathered]
  have ws : s₁.capW = (Pass.cappedPositions r neighbors.length cap).1.map fun i => w.getD i 0 := by
    rw [gathered]
  obtain ⟨weighted, samples, same⟩ := start.weightedInto ops s₁.capNbrs s₁.capW k empty₁
  rw [← sampled] at weighted samples same
  rw [same, idx₁]
  rw [nbrs, ws, List.length_map] at weighted samples
  simp only [Pass.normalPicks, hub]
  refine ⟨?_, ?_⟩
  · exact ⟨{ weighted.tracks with }, weighted.floyd, weighted.rng⟩
  · rw [samples, samplesOf, samplesOf, List.map_map, List.map_map]
    refine List.map_congr_left fun i hi => ?_
    have inIdx := Pass.weightedPicks_lt (by rw [List.length_map]) _ i hi
    simp only [Function.comp_apply, List.getD_eq_getElem _ _ inIdx]
    rw [List.getD_eq_getElem _ _ (by rwa [List.length_map]), List.getElem_map]

omit [Rng σ] [Top Time] in
theorem Sim.emitEach {r : σ} (h : Sim g.numNodes cfg s p r) (node nodeLocal : Nat)
    (neighbors : List Nat) (edgeOffset : Nat) (time : Nat → Time) (picks : List Nat) :
    Sim g.numNodes cfg
      (picks.foldl (fun s i => s.emitEdge g cfg node nodeLocal (neighbors.getD i 0)
        (edgeOffset + i) (time i)) s)
      (p.emitAll g cfg node nodeLocal neighbors edgeOffset time picks) r := by
  obtain ⟨tracks, kept⟩ := h.tracks.emitAll node nodeLocal neighbors edgeOffset time picks
  exact ⟨tracks, kept.floyd ▸ h.floyd, kept.rng.trans h.rng⟩

/-- Emitting while drawing emits the picks drawn. -/
theorem Sim.emitSampleFloyd {r : σ} (h : Sim g.numNodes cfg s p r) (node nodeLocal : Nat)
    (neighbors : List Nat) (edgeOffset k : Nat) :
    Sim g.numNodes cfg (s.emitSampleFloyd g cfg node nodeLocal neighbors edgeOffset k)
      (p.emitAll g cfg node nodeLocal neighbors edgeOffset (fun _ => ⊤)
        (floydSample randBelow r neighbors.length k).1)
      (floydSample randBelow r neighbors.length k).2 := by
  obtain rfl := h.rng
  -- the invariant of both loops: the pass with the picks so far emitted
  have grow : ∀ {s' : NeighborSampler σ Time} {taken : List Nat},
      Tracks g.numNodes cfg s' (p.emitAll g cfg node nodeLocal neighbors edgeOffset (fun _ => ⊤) taken) →
      ∀ pick, Tracks g.numNodes cfg (s'.emitPick g cfg node nodeLocal neighbors edgeOffset pick)
          (p.emitAll g cfg node nodeLocal neighbors edgeOffset (fun _ => ⊤) (taken ++ [pick])) := by
    intro s' taken tracks pick
    rw [Pass.emitAll, List.foldl_append]
    exact tracks.emitEdge node nodeLocal _ _ ⊤
  have frame : ∀ (s' : NeighborSampler σ Time) (pick : Nat),
      Kept s' (s'.emitPick g cfg node nodeLocal neighbors edgeOffset pick) :=
    fun s' pick => kept_emitEdge s' _ _ _ _ _
  unfold NeighborSampler.emitSampleFloyd
  dsimp only
  split
  · rename_i few
    obtain ⟨tracks, rng, floyd⟩ := foldl_stampPick
      (R := fun s' taken => Tracks g.numNodes cfg s'
        (p.emitAll g cfg node nodeLocal neighbors edgeOffset (fun _ => ⊤) taken))
      (f := fun s' pick => s'.emitPick g cfg node nodeLocal neighbors edgeOffset pick)
      (fun s' taken pick rng floyd tracks => grow (tracks.redraw rng floyd s'.seenSet) pick)
      (fun s' pick => ⟨(frame s' pick).rng, (frame s' pick).floyd⟩)
      (neighbors.length - (neighbors.length - k)) (s := { s with floyd := s.floyd.begin })
      (by omega) (Picked.nil (neighbors.length - k)) h.floyd.begin { h.tracks with }
    exact ⟨tracks, floyd, rng⟩
  · obtain ⟨⟨tracks, floyd⟩, rng⟩ := foldl_seenPick
      (R := fun s' taken => Tracks g.numNodes cfg s'
        (p.emitAll g cfg node nodeLocal neighbors edgeOffset (fun _ => ⊤) taken) ∧ s'.floyd.Ready)
      (f := fun s' pick => s'.emitPick g cfg node nodeLocal neighbors edgeOffset pick)
      (fun s' taken pick rng ⟨tracks, floyd⟩ =>
        ⟨grow (tracks.redraw rng s'.floyd (taken ++ [pick])) pick, by
          rw [(frame _ pick).floyd]
          exact floyd⟩)
      (fun s' pick => ⟨(frame s' pick).rng, (frame s' pick).seenSet⟩)
      (neighbors.length - (neighbors.length - k)) (s := { s with seenSet := [] })
      (Picked.nil (neighbors.length - k)) rfl ⟨{ h.tracks with }, h.floyd⟩
    exact ⟨tracks, floyd, rng⟩

theorem Sim.emitSampleReplace {r : σ} (h : Sim g.numNodes cfg s p r) (node nodeLocal : Nat)
    (neighbors : List Nat) (edgeOffset k : Nat) :
    Sim g.numNodes cfg (s.emitSampleReplace g cfg node nodeLocal neighbors edgeOffset k)
      (p.emitAll g cfg node nodeLocal neighbors edgeOffset (fun _ => ⊤)
        (drawEach (fun r (_ : Nat) => randBelow r neighbors.length) (List.range k) r).1)
      (drawEach (fun r (_ : Nat) => randBelow r neighbors.length) (List.range k) r).2 := by
  obtain rfl := h.rng
  have frame : ∀ (s' : NeighborSampler σ Time) (pick : Nat),
      Kept s' (s'.emitPick g cfg node nodeLocal neighbors edgeOffset pick) :=
    fun s' pick => kept_emitEdge s' _ _ _ _ _
  obtain ⟨⟨tracks, floyd⟩, rng⟩ := foldl_drawEach
    (d := fun r (_ : Nat) => randBelow r neighbors.length)
    (R := fun s' taken => Tracks g.numNodes cfg s'
      (p.emitAll g cfg node nodeLocal neighbors edgeOffset (fun _ => ⊤) taken) ∧ s'.floyd.Ready)
    (f := fun s' pick => s'.emitPick g cfg node nodeLocal neighbors edgeOffset pick)
    (fun s' taken pick rng ⟨tracks, floyd⟩ => by
      refine ⟨?_, ?_⟩
      · rw [Pass.emitAll, List.foldl_append]
        exact (tracks.redraw rng s'.floyd s'.seenSet).emitEdge node nodeLocal _ _ ⊤
      · rw [(frame _ pick).floyd]
        exact floyd)
    (fun s' pick => (frame s' pick).rng) (List.range k) (l := [])
    ⟨h.tracks, h.floyd⟩
  exact ⟨tracks, floyd, rng⟩

/-- A node's normal expansion emits the picks of its row. -/
theorem Sim.sampleNormal {r : σ} (h : Sim g.numNodes cfg s p r) (node nodeLocal : Nat)
    (neighbors : List Nat) (weights : Option (List Float32)) (edgeOffset sampleSize : Nat) :
    Sim g.numNodes cfg
      (s.sampleNormal ops g cfg node nodeLocal neighbors weights edgeOffset sampleSize)
      (p.emitAll g cfg node nodeLocal neighbors edgeOffset (fun _ => ⊤)
        (Pass.normalPicks ops cfg neighbors.length weights sampleSize r).1)
      (Pass.normalPicks ops cfg neighbors.length weights sampleSize r).2 := by
  unfold NeighborSampler.sampleNormal
  cases weights with
  | some w =>
      have cleared : Sim g.numNodes cfg { s with sampleBuf := [] } p r := by
        obtain rfl := h.rng
        exact h.scratch rfl
      dsimp only
      split
      · rename_i cap hub
        obtain ⟨sampled, samples⟩ := cleared.cappedWeighted ops neighbors w hub sampleSize
          rfl rfl rfl
        exact sampled.emitSamples node nodeLocal edgeOffset _ samples
      · rename_i hub
        obtain ⟨sampled, samples, -⟩ := cleared.weightedInto ops neighbors w sampleSize rfl
        simp only [Pass.normalPicks, hub]
        exact sampled.emitSamples node nodeLocal edgeOffset _ samples
  | none =>
      dsimp only [Pass.normalPicks]
      split
      · exact h.emitSampleReplace node nodeLocal neighbors edgeOffset sampleSize
      · split
        · exact h.emitEach node nodeLocal neighbors edgeOffset (fun _ => ⊤) _
        · exact h.emitSampleFloyd node nodeLocal neighbors edgeOffset sampleSize

end Draw

section Subgraph

variable [LT Time] [DecidableLT Time] [LE Time] [DecidableLE Time] [Top Time]

omit [Rng σ] [LT Time] [DecidableLT Time] in
theorem Tracks.induceEdge (h : Tracks g.numNodes cfg s p) (u uLocal pos : Nat) :
    Tracks g.numNodes cfg (s.induceEdge g cfg u uLocal pos) (p.induceEdge g u uLocal pos) ∧
      Kept s (s.induceEdge g cfg u uLocal pos) := by
  unfold NeighborSampler.induceEdge Pass.induceEdge
  rw [h.trackTimes, h.times, h.dedup.get]
  dsimp only
  generalize Option.any _ _ = late
  cases late with
  | true => exact ⟨h, .refl s⟩
  | false =>
      cases GenDedup.localOf p.nodes (g.edges.getD pos 0) with
      | none => exact ⟨h, .refl s⟩
      | some wLocal => exact ⟨h.pushEdge u uLocal _ wLocal pos, rfl, rfl, rfl⟩

omit [Rng σ] [LT Time] [DecidableLT Time] in
theorem Tracks.induceRow (h : Tracks g.numNodes cfg s p) (u uLocal : Nat) (row : List Nat) :
    Tracks g.numNodes cfg (row.foldl (NeighborSampler.induceEdge g cfg u uLocal) s)
        (row.foldl (Pass.induceEdge g u uLocal) p) ∧
      Kept s (row.foldl (NeighborSampler.induceEdge g cfg u uLocal) s) := by
  induction row generalizing s p with
  | nil => exact ⟨h, .refl s⟩
  | cons pos row ih =>
      obtain ⟨first, kept⟩ := h.induceEdge u uLocal pos
      obtain ⟨rest, keptRest⟩ := ih first
      exact ⟨rest, kept.trans keptRest⟩

omit [Rng σ] [LT Time] [DecidableLT Time] in
theorem Tracks.induce (h : Tracks g.numNodes cfg s p) :
    Tracks g.numNodes cfg (s.induce g cfg) (p.induce g) ∧ Kept s (s.induce g cfg) := by
  have rows : ∀ (entries : List (Nat × Nat)) {s' : NeighborSampler σ Time} {p' : Pass Time},
      Tracks g.numNodes cfg s' p' →
      Tracks g.numNodes cfg
          (entries.foldl (fun s entry =>
            (List.range' (g.neighborRange entry.1).1
              ((g.neighborRange entry.1).2 - (g.neighborRange entry.1).1)).foldl
              (NeighborSampler.induceEdge g cfg entry.1 entry.2) s) s')
          (entries.foldl (fun p entry =>
            (List.range' (g.neighborRange entry.1).1
              ((g.neighborRange entry.1).2 - (g.neighborRange entry.1).1)).foldl
              (Pass.induceEdge g entry.1 entry.2) p) p') ∧
        Kept s' (entries.foldl (fun s entry =>
          (List.range' (g.neighborRange entry.1).1
            ((g.neighborRange entry.1).2 - (g.neighborRange entry.1).1)).foldl
            (NeighborSampler.induceEdge g cfg entry.1 entry.2) s) s') := by
    intro entries
    induction entries with
    | nil => exact fun h' => ⟨h', .refl _⟩
    | cons entry entries ih =>
        intro s' p' h'
        obtain ⟨first, kept⟩ := h'.induceRow entry.1 entry.2 _
        obtain ⟨rest, keptRest⟩ := ih first
        exact ⟨rest, kept.trans keptRest⟩
  have cleared : Tracks g.numNodes cfg
      { s with edgeSrcBuf := [], edgeDstBuf := [], edgeIdsBuf := [], srcLocalBuf := [],
               dstLocalBuf := [] } { p with edges := [] } := by
    refine { h with src := rfl, dst := rfl, ids := ?_, srcLocal := rfl, dstLocal := rfl }
    simp [Pass.edgeIds]
  obtain ⟨tracks, kept⟩ := rows s.nodeVec.zipIdx cleared
  unfold NeighborSampler.induce Pass.induce
  rw [h.nodes] at tracks kept ⊢
  exact ⟨tracks, kept.rng, kept.floyd, kept.seenSet⟩

omit [Rng σ] [LT Time] [DecidableLT Time] [LE Time] [DecidableLE Time] [Top Time] in
/-- Reversing the edges `es`, which stand after `pre` and before the edges added so far. -/
theorem Tracks.mirrorEdges {pre es out : List SampledEdge} {pairs : List Nat}
    (h : Tracks g.numNodes cfg s { p with edges := pre ++ es ++ out })
    (set : ∀ x, x ∈ s.pairSet ↔ x ∈ pairs) :
    Tracks g.numNodes cfg ((List.range' pre.length es.length).foldl (mirrorEdge cfg) s)
        { p with edges := pre ++ es ++ (out ++ Pass.mirrored pairs es) } ∧
      Kept s ((List.range' pre.length es.length).foldl (mirrorEdge cfg) s) := by
  induction es generalizing s pre out pairs with
  | nil =>
      refine ⟨?_, .refl s⟩
      simpa [Pass.mirrored] using h
  | cons e es ih =>
      have whole : pre ++ e :: es ++ out = pre ++ ([e] ++ (es ++ out)) := by simp
      have at_ : ∀ f : SampledEdge → Nat,
          ((pre ++ e :: es ++ out).map f).getD pre.length 0 = f e := by
        intro f
        rw [whole, List.map_append, List.getD_append_right _ _ _ _ (by rw [List.length_map])]
        simp
      have next : pre ++ e :: es = (pre ++ [e]) ++ es := by simp
      rw [List.length_cons, List.range'_succ, List.foldl_cons, Pass.mirrored]
      have key : pairKey (s.dstLocalBuf.getD pre.length 0) (s.srcLocalBuf.getD pre.length 0) =
          pairKey e.dstLocal e.srcLocal := by
        rw [h.dstLocal, h.srcLocal, at_, at_]
      by_cases present : pairKey e.dstLocal e.srcLocal ∈ pairs
      · have same : mirrorEdge cfg s pre.length = s := by
          unfold mirrorEdge
          dsimp only
          rw [key, if_pos ((set _).mpr present)]
        rw [same, if_pos present]
        rw [next] at h ⊢
        have rest := ih h set
        rwa [List.length_append, List.length_singleton] at rest
      · have pushed : Tracks g.numNodes cfg (mirrorEdge cfg s pre.length)
            { p with edges := pre ++ e :: es ++ (out ++ [Pass.reversed e]) } := by
          unfold mirrorEdge
          dsimp only
          rw [key, if_neg (mt (set _).mp present)]
          have added := h.pushEdge e.dst e.dstLocal e.src e.srcLocal e.eid
          have edges : pre ++ e :: es ++ (out ++ [Pass.reversed e]) =
              pre ++ e :: es ++ out ++ [Pass.reversed e] := (List.append_assoc _ _ _).symm
          rw [edges]
          refine { added with src := ?_, dst := ?_, ids := ?_, srcLocal := ?_, dstLocal := ?_ }
          · rw [h.dst, at_]
            exact added.src
          · rw [h.src, at_]
            exact added.dst
          · have ids := h.ids
            simp only [Pass.edgeIds] at ids ⊢
            by_cases track : cfg.trackEdgeIds = true
            · simp only [track, if_true] at ids ⊢
              rw [ids, at_]
              simp [Pass.reversed]
            · simp only [track, Bool.false_eq_true, if_false] at ids ⊢
              exact ids
          · rw [h.dstLocal, at_]
            exact added.srcLocal
          · rw [h.srcLocal, at_]
            exact added.dstLocal
        have set' : ∀ x, x ∈ (mirrorEdge cfg s pre.length).pairSet ↔
            x ∈ pairs ++ [pairKey e.dstLocal e.srcLocal] := by
          intro x
          unfold mirrorEdge
          dsimp only
          rw [key, if_neg (mt (set _).mp present), List.mem_append, List.mem_append, set x]
        have kept : Kept s (mirrorEdge cfg s pre.length) := by
          unfold mirrorEdge
          dsimp only
          split
          · exact .refl s
          · exact ⟨rfl, rfl, rfl⟩
        rw [if_neg present]
        rw [next] at pushed ⊢
        obtain ⟨rest, keptRest⟩ := ih pushed set'
        rw [List.length_append, List.length_singleton] at rest keptRest
        rw [List.append_assoc out] at rest
        exact ⟨rest, kept.trans keptRest⟩

omit [Rng σ] [LT Time] [DecidableLT Time] [LE Time] [DecidableLE Time] [Top Time] in
theorem Tracks.mirror (h : Tracks g.numNodes cfg s p) :
    Tracks g.numNodes cfg (s.mirror cfg) p.mirror ∧ Kept s (s.mirror cfg) := by
  -- the first loop only collects the endpoint pairs
  have collect : ∀ (idx : List Nat) (s' : NeighborSampler σ Time),
      ∃ pairs, idx.foldl (fun s i => { s with
          pairSet := (seenInsert s.pairSet
            (pairKey (s.srcLocalBuf.getD i 0) (s.dstLocalBuf.getD i 0))).2 }) s' =
          { s' with pairSet := pairs } ∧
        ∀ x, x ∈ pairs ↔ x ∈ s'.pairSet ∨ x ∈ idx.map fun i =>
          pairKey (s'.srcLocalBuf.getD i 0) (s'.dstLocalBuf.getD i 0) := by
    intro idx
    induction idx with
    | nil => exact fun s' => ⟨s'.pairSet, rfl, fun x => by simp⟩
    | cons i idx ih =>
        intro s'
        obtain ⟨pairs, same, mem⟩ := ih { s' with
          pairSet := (seenInsert s'.pairSet
            (pairKey (s'.srcLocalBuf.getD i 0) (s'.dstLocalBuf.getD i 0))).2 }
        refine ⟨pairs, same, fun x => ?_⟩
        rw [mem x]
        simp only [seenInsert, List.map_cons, List.mem_cons]
        split
        · rename_i old
          constructor
          · exact fun hx => hx.imp id .inr
          · rintro (hx | rfl | hx)
            · exact .inl hx
            · exact .inl old
            · exact .inr hx
        · simp only [List.mem_append, List.mem_singleton, or_assoc]
  obtain ⟨pairs, same, mem⟩ := collect (List.range s.edgeSrcBuf.length) { s with pairSet := [] }
  have length : s.edgeSrcBuf.length = p.edges.length := by rw [h.src, List.length_map]
  have set : ∀ x, x ∈ pairs ↔ x ∈ p.edges.map fun e => pairKey e.srcLocal e.dstLocal := by
    intro x
    rw [mem x]
    simp only [List.not_mem_nil, false_or, h.srcLocal, h.dstLocal, length]
    have at_ : (List.range p.edges.length).map (fun i =>
        pairKey ((p.edges.map SampledEdge.srcLocal).getD i 0)
          ((p.edges.map SampledEdge.dstLocal).getD i 0)) =
        p.edges.map fun e => pairKey e.srcLocal e.dstLocal := by
      refine List.ext_getElem (by simp) fun i hi hi' => ?_
      rw [List.length_map] at hi'
      simp [List.getD_eq_getElem?_getD, List.getElem?_eq_getElem hi']
    rw [at_]
  have start : Tracks g.numNodes cfg { s with pairSet := pairs }
      { p with edges := [] ++ p.edges ++ [] } := by
    rw [List.nil_append, List.append_nil]
    exact { h with }
  obtain ⟨tracks, kept⟩ := start.mirrorEdges set
  unfold NeighborSampler.mirror Pass.mirror
  dsimp only
  rw [same, length, List.range_eq_range']
  exact ⟨tracks, kept.rng, kept.floyd, kept.seenSet⟩

omit [Rng σ] [LT Time] [DecidableLT Time] in
theorem Tracks.applySubgraphType (h : Tracks g.numNodes cfg s p) :
    Tracks g.numNodes cfg (s.applySubgraphType g cfg) (p.applySubgraphType g cfg) ∧
      Kept s (s.applySubgraphType g cfg) := by
  unfold NeighborSampler.applySubgraphType Pass.applySubgraphType
  cases cfg.subgraphType with
  | directional => exact ⟨h, .refl s⟩
  | induced => exact h.induce
  | bidirectional => exact h.mirror

variable (ops : SliceOps)

omit [LE Time] [DecidableLE Time] in
theorem Sim.expand {r : σ} (h : Sim g.numNodes cfg s p r) {isTemporal : Bool}
    (temporal : isTemporal = cfg.temporalStrategy.isSome) (sampleSize : Nat) (entry : Nat × Nat) :
    Sim g.numNodes cfg (NeighborSampler.expand ops g cfg isTemporal sampleSize s entry)
      (Pass.expand ops g cfg isTemporal sampleSize (p, r) entry).1
      (Pass.expand ops g cfg isTemporal sampleSize (p, r) entry).2 := by
  unfold NeighborSampler.expand Pass.expand Pass.rowPicks
  dsimp only
  split
  · exact h
  · cases isTemporal with
    | false =>
        simp only [Bool.false_eq_true, if_false]
        exact h.sampleNormal entry.1 entry.2 _ _ _ sampleSize
    | true =>
        simp only [if_true]
        obtain ⟨strategy, found⟩ := Option.isSome_iff_exists.mp temporal.symm
        rw [found]
        cases g.timestamps with
        | none => exact h
        | some ts => exact h.sampleTemporal found entry.1 entry.2 _ _ _ sampleSize

omit [LE Time] [DecidableLE Time] in
theorem Sim.expandAll {r : σ} (h : Sim g.numNodes cfg s p r) {isTemporal : Bool}
    (temporal : isTemporal = cfg.temporalStrategy.isSome) (sampleSize : Nat)
    (entries : List (Nat × Nat)) :
    Sim g.numNodes cfg
      (entries.foldl (NeighborSampler.expand ops g cfg isTemporal sampleSize) s)
      (entries.foldl (Pass.expand ops g cfg isTemporal sampleSize) (p, r)).1
      (entries.foldl (Pass.expand ops g cfg isTemporal sampleSize) (p, r)).2 := by
  induction entries generalizing s p r with
  | nil => exact h
  | cons entry entries ih => exact ih (h.expand ops temporal sampleSize entry)

omit [LE Time] [DecidableLE Time] in
theorem Sim.runHop {r : σ} (h : Sim g.numNodes cfg s p r) {isTemporal : Bool}
    (temporal : isTemporal = cfg.temporalStrategy.isSome) (hop : Nat) :
    (s.runHop ops g cfg isTemporal hop).1 = (Pass.runHop ops g cfg isTemporal (p, r) hop).1 ∧
      Sim g.numNodes cfg (s.runHop ops g cfg isTemporal hop).2
        (Pass.runHop ops g cfg isTemporal (p, r) hop).2.1
        (Pass.runHop ops g cfg isTemporal (p, r) hop).2.2 := by
  have begun : Sim g.numNodes cfg { s with hop := hop % 2 ^ 32, nextFrontier := [] }
      { p with hop := hop % 2 ^ 32, next := [] } r :=
    ⟨{ h.tracks with hop := rfl, next := rfl }, h.floyd, h.rng⟩
  have ran := begun.expandAll ops temporal (cfg.fanout.getD hop 0) s.frontier
  have edges : s.edgeSrcBuf.length = p.edges.length := by rw [h.tracks.src, List.length_map]
  unfold NeighborSampler.runHop Pass.runHop
  dsimp only
  rw [h.tracks.frontier] at ran ⊢
  refine ⟨?_, ?_⟩
  · rw [ran.tracks.next, ran.tracks.src, List.length_map, edges]
  · by_cases cumulative : cfg.cumulative = true
    · simp only [cumulative, if_true]
      refine ⟨{ ran.tracks with frontier := ?_ }, ran.floyd, ran.rng⟩
      rw [ran.tracks.frontier, ran.tracks.next]
    · simp only [cumulative, Bool.false_eq_true, if_false]
      exact ⟨{ ran.tracks with frontier := ran.tracks.next, next := ran.tracks.frontier },
        ran.floyd, ran.rng⟩

omit [LE Time] [DecidableLE Time] in
theorem Sim.runHopsFrom {isTemporal : Bool}
    (temporal : isTemporal = cfg.temporalStrategy.isSome) (hops hop : Nat) {r : σ}
    (h : Sim g.numNodes cfg s p r) :
    (s.runHopsFrom ops g cfg isTemporal hop hops).1 =
        (Pass.runHopsFrom ops g cfg isTemporal hop hops (p, r)).1 ∧
      Sim g.numNodes cfg (s.runHopsFrom ops g cfg isTemporal hop hops).2
        (Pass.runHopsFrom ops g cfg isTemporal hop hops (p, r)).2.1
        (Pass.runHopsFrom ops g cfg isTemporal hop hops (p, r)).2.2 := by
  induction hops generalizing s p r hop with
  | zero => exact ⟨rfl, h⟩
  | succ hops ih =>
      obtain ⟨counts, next⟩ := h.runHop ops temporal hop
      obtain ⟨rest, last⟩ := ih (hop + 1) next
      refine ⟨?_, last⟩
      rw [NeighborSampler.runHopsFrom, Pass.runHopsFrom]
      exact congrArg₂ List.cons counts rest

end Subgraph

end NeighborSampler

end AetherGraph
