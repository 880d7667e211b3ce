import AetherGraph.HeteroDraws

/-! Heterogeneous sampled subgraphs are faithful.  The expansions of a call are recorded; each
one keeps the record in step with the edge buffers and the frontiers free of nodes already
expanded. -/

namespace AetherGraph

open Foundation

/-- An expansion picks positions of its node's row: as many as its fanout with replacement,
else distinct ones up to the row's length. -/
structure Expansion.Good {Time : Type} (g : HeteroGraph Time) (cfg : HeteroSamplingConfig) (e : Expansion) :
    Prop where
  typed : e.et < g.edgeTypes.length
  hop : e.hop < cfg.numHops
  inRow : ∀ p ∈ e.picks, p < (g.sourcesInto e.et e.node).length
  count : ∃ hops fanout, cfg.fanout[e.et]? = some hops ∧ hops[e.hop]? = some fanout ∧
    if cfg.replace then e.picks.length = fanout
    else e.picks.Nodup ∧ e.picks.length = min fanout (g.sourcesInto e.et e.node).length

def TypedNode.key (x : TypedNode) : Nat × Nat := (x.nodeType, x.id)

namespace HeteroNeighborSampler

variable {σ : Type} {Time : Type}

/-- The edge buffers are those of the recorded expansions in order. -/
structure Recorded (g : HeteroGraph Time) (s : HeteroNeighborSampler σ) : Prop where
  tracks : Tracks g s
  srcLength : s.edgeSrcBuf.length = g.edgeTypes.length
  dstLength : s.edgeDstBuf.length = g.edgeTypes.length
  node : ∀ e ∈ s.expansions, (s.nodesOf (g.edgeType e.et).dstType)[e.dstLocal]? = some e.node
  source : ∀ e ∈ s.expansions, ∀ p ∈ e.picks,
    (g.sourcesInto e.et e.node).getD p 0 ∈ s.nodesOf (g.edgeType e.et).srcType
  src : ∀ et < g.edgeTypes.length, s.edgeSrcBuf.getD et [] =
    (s.expansions.filter (·.et = et)).flatMap fun e => e.picks.map fun p =>
      (s.nodesOf (g.edgeType e.et).srcType).idxOf ((g.sourcesInto e.et e.node).getD p 0)
  dst : ∀ et < g.edgeTypes.length, s.edgeDstBuf.getD et [] =
    (s.expansions.filter (·.et = et)).flatMap fun e => e.picks.map fun _ => e.dstLocal

/-- Nodes still to be expanded: discovered, distinct, and not expanded before. -/
structure Ahead (g : HeteroGraph Time) (s : HeteroNeighborSampler σ) (todo : List TypedNode) :
    Prop where
  named : ∀ x ∈ todo, x.nodeType < g.nodeTypes.length ∧
    (s.nodesOf x.nodeType)[x.localIdx]? = some x.id
  once : (todo.map TypedNode.key).Nodup
  fresh : ∀ x ∈ todo, ∀ e ∈ s.expansions, (g.edgeType e.et).dstType = x.nodeType → e.node ≠ x.id

structure Sound (g : HeteroGraph Time) (cfg : HeteroSamplingConfig) (s : HeteroNeighborSampler σ)
    (todo : List TypedNode) : Prop where
  recorded : Recorded g s
  good : ∀ e ∈ s.expansions, Expansion.Good g cfg e
  once : (s.expansions.map fun e => (e.et, e.node)).Nodup
  ahead : Ahead g s (todo ++ s.nextFrontier)
  floyd : s.floyd.Ready

/-- The node being expanded, with the edge types it is still to be expanded along. -/
structure Current (g : HeteroGraph Time) (s : HeteroNeighborSampler σ) (x : TypedNode)
    (ets : List Nat) (todo : List TypedNode) : Prop where
  typed : x.nodeType < g.nodeTypes.length
  named : (s.nodesOf x.nodeType)[x.localIdx]? = some x.id
  into : ∀ et ∈ ets, et < g.edgeTypes.length ∧ (g.edgeType et).dstType = x.nodeType
  nodup : ets.Nodup
  apart : x.key ∉ (todo ++ s.nextFrontier).map TypedNode.key
  fresh : ∀ e ∈ s.expansions, e.et ∈ ets → e.node ≠ x.id

variable {g : HeteroGraph Time} {cfg : HeteroSamplingConfig} {s s' : HeteroNeighborSampler σ}
  {x : TypedNode} {et hop : Nat} {ets : List Nat} {todo : List TypedNode}
  {out : List Nat × HeteroNeighborSampler σ}

section Record

variable (hop) (drawn : Drawn g (g.sourcesInto et x.id) x.localIdx et (g.edgeType et).srcType s out)

include drawn

theorem Recorded.record (h : Recorded g s) (cur : Current g s x (et :: ets) todo) :
    Recorded g { out.2 with
      expansions := out.2.expansions ++ [⟨hop, et, x.id, x.localIdx, out.1⟩] } := by
  obtain ⟨typed, into⟩ := cur.into et List.mem_cons_self
  have grown := drawn.emitted.grown
  have same := drawn.emitted.expansions
  -- local indices of the sources recorded before
  have indices : ∀ et', ((s.expansions.filter (·.et = et')).flatMap fun e => e.picks.map fun p =>
        (s.nodesOf (g.edgeType e.et).srcType).idxOf ((g.sourcesInto e.et e.node).getD p 0)) =
      (s.expansions.filter (·.et = et')).flatMap fun e => e.picks.map fun p =>
        (out.2.nodesOf (g.edgeType e.et).srcType).idxOf ((g.sourcesInto e.et e.node).getD p 0) := by
    intro et'
    refine List.flatMap_congr fun e he => List.map_congr_left fun p hp => ?_
    exact (idxOf_of_grown (grown _) (h.source e (List.mem_of_mem_filter he) p hp)).symm
  refine ⟨{ drawn.emitted.tracks with }, ?_, ?_, ?_, ?_, ?_, ?_⟩
  · rw [← h.srcLength]
    exact (congrArg List.length drawn.emitted.src).trans (List.length_modify ..)
  · rw [← h.dstLength]
    exact (congrArg List.length drawn.emitted.dst).trans (List.length_modify ..)
  · refine List.forall_mem_append.mpr ⟨fun e he => ?_, fun e he => ?_⟩
    · exact getElem?_prefix (grown _) (h.node e (same ▸ he))
    · rw [List.mem_singleton.mp he]
      dsimp only
      rw [into]
      exact getElem?_prefix (grown _) cur.named
  · refine List.forall_mem_append.mpr ⟨fun e he p hp => ?_, fun e he p hp => ?_⟩
    · exact (grown _).subset (h.source e (same ▸ he) p hp)
    · rw [List.mem_singleton.mp he] at hp ⊢
      exact drawn.emitted.found p hp
  · intro et' het'
    have before := h.src et' het'
    rw [indices] at before
    dsimp only
    rw [drawn.emitted.src, getD_modify _ _ _ _ _ (h.srcLength ▸ typed), before, same,
      List.filter_append, List.flatMap_append]
    split
    · rename_i here
      rw [List.filter_cons_of_pos (by simpa using here)]
      simp
      rfl
    · rename_i other
      rw [List.filter_cons_of_neg (by simpa using other)]
      exact (List.append_nil _).symm
  · intro et' het'
    dsimp only
    rw [drawn.emitted.dst, getD_modify _ _ _ _ _ (h.dstLength ▸ typed), h.dst et' het', same,
      List.filter_append, List.flatMap_append]
    split
    · rename_i here
      rw [List.filter_cons_of_pos (by simpa using here)]
      simp
    · rename_i other
      rw [List.filter_cons_of_neg (by simpa using other)]
      exact (List.append_nil _).symm

/-- The new frontier entries are of nodes no expansion and no frontier entry names. -/
theorem Ahead.record (h : Ahead g s (todo ++ s.nextFrontier)) (recorded : Recorded g s)
    (cur : Current g s x (et :: ets) todo) (typed : (g.edgeType et).srcType < g.nodeTypes.length) :
    Ahead g { out.2 with
        expansions := out.2.expansions ++ [⟨hop, et, x.id, x.localIdx, out.1⟩] }
      (todo ++ out.2.nextFrontier) ∧
    x.key ∉ (todo ++ out.2.nextFrontier).map TypedNode.key := by
  obtain ⟨-, into⟩ := cur.into et List.mem_cons_self
  have grown := drawn.emitted.grown
  obtain ⟨new, next, nodup, named⟩ := drawn.emitted.next
  rw [next, ← List.append_assoc]
  -- a node already discovered is none of the new ones
  have unseen : ∀ {nt id : Nat}, id ∈ s.nodesOf nt → ∀ y ∈ new, y.nodeType = nt → y.id ≠ id := by
    rintro nt id known y hy rfl rfl
    rw [(named y hy).1] at known
    exact (named y hy).2.2 known
  have own : x.id ∈ s.nodesOf x.nodeType := List.mem_of_getElem? cur.named
  refine ⟨⟨?_, ?_, ?_⟩, ?_⟩
  · refine List.forall_mem_append.mpr ⟨fun y hy => ?_, fun y hy => ?_⟩
    · exact ⟨(h.named y hy).1, getElem?_prefix (grown _) (h.named y hy).2⟩
    · rw [(named y hy).1]
      exact ⟨typed, (named y hy).2.1⟩
  · rw [List.map_append]
    refine List.nodup_append.mpr ⟨h.once, ?_, fun a ha b hb same => ?_⟩
    · refine List.Nodup.of_map Prod.snd ?_
      rwa [List.map_map]
    · obtain ⟨y, hy, rfl⟩ := List.mem_map.mp ha
      obtain ⟨z, hz, rfl⟩ := List.mem_map.mp hb
      obtain ⟨types, ids⟩ := Prod.mk.inj same
      exact unseen (List.mem_of_getElem? (h.named y hy).2) z hz types.symm ids.symm
  · dsimp only
    rw [drawn.emitted.expansions]
    refine List.forall_mem_append.mpr ⟨fun y hy => ?_, fun y hy => ?_⟩
    · refine List.forall_mem_append.mpr ⟨h.fresh y hy, fun e he types ids => ?_⟩
      rw [List.mem_singleton.mp he] at types ids
      refine cur.apart (List.mem_map.mpr ⟨y, hy, Prod.ext ?_ ids.symm⟩)
      exact types.symm.trans into
    · refine List.forall_mem_append.mpr ⟨fun e he types => ?_, fun e he types => ?_⟩
      · exact (unseen (List.mem_of_getElem? (recorded.node e he)) y hy types.symm).symm
      · rw [List.mem_singleton.mp he] at types ⊢
        exact (unseen own y hy (types.symm.trans into)).symm
  · rw [List.map_append]
    refine fun here => (List.mem_append.mp here).elim cur.apart fun late => ?_
    obtain ⟨y, hy, same⟩ := List.mem_map.mp late
    obtain ⟨types, ids⟩ := Prod.mk.inj same
    exact unseen own y hy types ids

theorem Sound.record (h : Sound g cfg s todo) (valid : g.Valid)
    (cur : Current g s x (et :: ets) todo)
    (good : Expansion.Good g cfg ⟨hop, et, x.id, x.localIdx, out.1⟩) :
    Sound g cfg { out.2 with
        expansions := out.2.expansions ++ [⟨hop, et, x.id, x.localIdx, out.1⟩] } todo ∧
      Current g { out.2 with
        expansions := out.2.expansions ++ [⟨hop, et, x.id, x.localIdx, out.1⟩] } x ets todo := by
  have typed := (valid.types et good.typed).1
  have same := drawn.emitted.expansions
  obtain ⟨ahead, apart⟩ := h.ahead.record hop drawn h.recorded cur typed
  obtain ⟨notAgain, nodup⟩ := List.nodup_cons.mp cur.nodup
  refine ⟨⟨h.recorded.record hop drawn cur, ?_, ?_, ahead, drawn.floyd⟩,
    ⟨cur.typed, getElem?_prefix (drawn.emitted.grown _) cur.named,
      fun et' het' => cur.into et' (List.mem_cons_of_mem et het'), nodup, apart, ?_⟩⟩
  · refine List.forall_mem_append.mpr ⟨same ▸ h.good, fun e he => ?_⟩
    exact List.mem_singleton.mp he ▸ good
  · dsimp only
    rw [same, List.map_append]
    refine List.nodup_append.mpr ⟨h.once, List.nodup_singleton _, fun a ha b hb twice => ?_⟩
    obtain ⟨e, he, rfl⟩ := List.mem_map.mp ha
    rw [List.mem_singleton.mp hb] at twice
    obtain ⟨types, ids⟩ := Prod.mk.inj twice
    exact cur.fresh e he (types ▸ List.mem_cons_self) ids
  · refine List.forall_mem_append.mpr ⟨fun e he het => ?_, fun e he het => ?_⟩
    · exact cur.fresh e (same ▸ he) (List.mem_cons_of_mem et het)
    · rw [List.mem_singleton.mp he] at het
      exact absurd het notAgain

end Record

/-- What a hop leaves alone. -/
structure Kept (s s' : HeteroNeighborSampler σ) : Prop where
  grown : ∀ t, s.nodesOf t <+: s'.nodesOf t
  seedIndices : s'.seedIndicesBuf = s.seedIndicesBuf

theorem Kept.refl (s : HeteroNeighborSampler σ) : Kept s s :=
  ⟨fun _ => List.prefix_refl _, rfl⟩

theorem Kept.trans {s₁ s₂ s₃ : HeteroNeighborSampler σ} (h : Kept s₁ s₂) (h' : Kept s₂ s₃) :
    Kept s₁ s₃ :=
  ⟨fun t => (h.grown t).trans (h'.grown t), h'.seedIndices.trans h.seedIndices⟩

variable [Rng σ]

theorem Sound.expandAlong (h : Sound g cfg s todo) (valid : g.Valid)
    (cur : Current g s x (et :: ets) todo) (here : hop < cfg.numHops)
    (ran : expandAlong g cfg hop x s et = some s') :
    Sound g cfg s' todo ∧ Current g s' x ets todo ∧ Kept s s' := by
  obtain ⟨etTyped, into⟩ := cur.into et List.mem_cons_self
  have typed := (valid.types et etTyped).1
  obtain ⟨csr, stored⟩ := valid.csr_getElem? etTyped
  have inRange : ∀ src ∈ g.sourcesInto et x.id, src < g.numNodes (g.edgeType et).srcType := by
    intro src hsrc
    have dstIn : x.id < g.dstCount et := by
      rw [HeteroGraph.dstCount, into]
      exact h.recorded.tracks.inRange _ _ (List.mem_of_getElem? cur.named)
    exact (valid.mem_sourcesInto stored dstIn hsrc).1
  unfold HeteroNeighborSampler.expandAlong at ran
  obtain ⟨fanout, found, rfl⟩ := Option.map_eq_some_iff.mp ran
  obtain ⟨hops, hhops, hfanout⟩ := Option.bind_eq_some_iff.mp found
  dsimp only
  have tracks := h.recorded.tracks
  split
  · refine ⟨h, { cur with into := ?_, nodup := ?_, fresh := ?_ }, .refl s⟩
    · exact fun et' het' => cur.into et' (List.mem_cons_of_mem et het')
    · exact (List.nodup_cons.mp cur.nodup).2
    · exact fun e he het => cur.fresh e he (List.mem_cons_of_mem et het)
  · rename_i some_
    have drawn : ∃ out, (if cfg.replace then
          s.sampleReplace (g.sourcesInto et x.id) fanout x.localIdx et (g.edgeType et).srcType
        else if (g.sourcesInto et x.id).length ≤ fanout then
          s.takeAll (g.sourcesInto et x.id) x.localIdx et (g.edgeType et).srcType
        else s.sampleFloyd (g.sourcesInto et x.id) fanout x.localIdx et (g.edgeType et).srcType) =
          out ∧ Drawn g (g.sourcesInto et x.id) x.localIdx et (g.edgeType et).srcType s out ∧
        if cfg.replace then out.1.length = fanout
        else out.1.Nodup ∧ out.1.length = min fanout (g.sourcesInto et x.id).length := by
      split
      · obtain ⟨drawn, length⟩ := tracks.sampleReplace (k := fanout) x.localIdx et valid
          typed inRange h.floyd (fun empty => some_ (.inr empty))
        exact ⟨_, rfl, drawn, length⟩
      · split
        · rename_i all
          obtain ⟨drawn, picks⟩ := tracks.takeAll x.localIdx et valid typed inRange h.floyd
          refine ⟨_, rfl, drawn, ?_, ?_⟩
          · rw [picks]
            exact List.nodup_range
          · rw [picks, List.length_range, Nat.min_eq_right all]
        · rename_i more
          obtain ⟨drawn, nodup, length⟩ := tracks.sampleFloyd (k := fanout) x.localIdx et valid
            typed inRange h.floyd (Nat.le_of_not_le more)
          exact ⟨_, rfl, drawn, nodup, length.trans (Nat.min_eq_left (Nat.le_of_not_le more)).symm⟩
    obtain ⟨out, eq, drawn, count⟩ := drawn
    rw [eq]
    have recorded := h.record hop drawn valid cur
      ⟨etTyped, here, drawn.inRow, hops, fanout, hhops, hfanout, count⟩
    exact ⟨recorded.1, recorded.2, ⟨drawn.emitted.grown, drawn.emitted.seedIndices⟩⟩

theorem Sound.expandNode (h : Sound g cfg s (x :: todo)) (valid : g.Valid)
    (here : hop < cfg.numHops) (ran : expandNode g cfg hop s x = some s') :
    Sound g cfg s' todo ∧ Kept s s' := by
  obtain ⟨apart, once⟩ := List.nodup_cons.mp h.ahead.once
  obtain ⟨typed, named⟩ := h.ahead.named x List.mem_cons_self
  have rest : Sound g cfg s todo :=
    { h with
      ahead := {
        named := fun y hy => h.ahead.named y (List.mem_cons_of_mem x hy)
        once := once
        fresh := fun y hy => h.ahead.fresh y (List.mem_cons_of_mem x hy) } }
  have cur : Current g s x (g.edgeTypesForDst x.nodeType) todo :=
    ⟨typed, named, fun et het => HeteroGraph.mem_edgeTypesForDst.mp het,
      HeteroGraph.edgeTypesForDst_nodup _, apart, fun e he het =>
        h.ahead.fresh x List.mem_cons_self e he (HeteroGraph.mem_edgeTypesForDst.mp het).2⟩
  have all := foldlM_option (P := fun ets s' => Sound g cfg s' todo ∧ Current g s' x ets todo ∧ Kept s s')
    (fun et ets b b' hb next => by
      obtain ⟨sound, cur, kept⟩ := hb
      obtain ⟨sound', cur', kept'⟩ := sound.expandAlong valid cur here next
      exact ⟨sound', cur', kept.trans kept'⟩)
    ⟨rest, cur, .refl s⟩ ran
  exact ⟨all.1, all.2.2⟩

/-- Between hops the frontier is what is ahead. -/
def Between (g : HeteroGraph Time) (cfg : HeteroSamplingConfig) (s : HeteroNeighborSampler σ) :
    Prop := Sound g cfg { s with nextFrontier := [] } s.frontier

theorem Between.runHop (h : Between g cfg s) (valid : g.Valid) (here : hop < cfg.numHops)
    (ran : runHop g cfg s hop = some s') : Between g cfg s' ∧ Kept s s' := by
  obtain ⟨last, expanded, rfl⟩ := Option.map_eq_some_iff.mp ran
  obtain ⟨sound, kept⟩ := foldlM_option
    (P := fun todo s' => Sound g cfg s' todo ∧ Kept { s with nextFrontier := [] } s')
    (fun x todo b b' hb next => by
      obtain ⟨sound, kept⟩ := hb
      obtain ⟨sound', kept'⟩ := sound.expandNode valid here next
      exact ⟨sound', kept.trans kept'⟩)
    ⟨h, .refl _⟩ expanded
  refine ⟨?_, { kept with }⟩
  have ahead := sound.ahead
  rw [List.nil_append] at ahead
  exact { sound with
    recorded := { sound.recorded with tracks := { sound.recorded.tracks with } }
    ahead := by
      rw [List.append_nil]
      exact { ahead with } }

theorem Between.runHops (h : Between g cfg s) (valid : g.Valid)
    (ran : (List.range cfg.numHops).foldlM (HeteroNeighborSampler.runHop g cfg) s = some s') :
    Between g cfg s' ∧ Kept s s' := by
  have all := foldlM_option
    (P := fun hops s' => (∀ hop ∈ hops, hop < cfg.numHops) ∧ Between g cfg s' ∧ Kept s s')
    (fun hop hops b b' hb next => by
      obtain ⟨bound, between, kept⟩ := hb
      obtain ⟨here, rest⟩ := List.forall_mem_cons.mp bound
      obtain ⟨between', kept'⟩ := between.runHop valid here next
      exact ⟨rest, between', kept.trans kept'⟩)
    ⟨fun hop hhop => List.mem_range.mp hhop, h, .refl s⟩ ran
  exact all.2

/-- Between calls: tables of the graph's types, with no tag from a later call. -/
structure Ready (g : HeteroGraph Time) (s : HeteroNeighborSampler σ) : Prop where
  dedupLength : s.dedup.length = g.nodeTypes.length
  vecsLength : s.nodeVecs.length = g.nodeTypes.length
  srcLength : s.edgeSrcBuf.length = g.edgeTypes.length
  dstLength : s.edgeDstBuf.length = g.edgeTypes.length
  dedup : ∀ nt < g.nodeTypes.length, (s.dedup.getD nt (.map [])).Ready (g.numNodes nt)
  floyd : s.floyd.Ready

/-- The seeds registered so far, and nothing expanded. -/
structure Seeded (g : HeteroGraph Time) (cfg : HeteroSamplingConfig) (seedType : Nat)
    (seeds : List Nat) (s : HeteroNeighborSampler σ) : Prop where
  between : Between g cfg s
  untouched : s.expansions = []
  nodes : s.nodesOf seedType = seeds.eraseDups
  seedIndices : s.seedIndicesBuf.map (fun l => (s.nodesOf seedType)[l]?) = seeds.map some

omit [Rng σ] in
theorem getD_clear (bufs : List (List Nat)) (i : Nat) : (bufs.map fun _ => ([] : List Nat)).getD i [] = [] := by
  rw [List.getD_eq_getElem?_getD, List.getElem?_map]
  cases bufs[i]? <;> rfl

omit [Rng σ] in
theorem Ready.beginCall (h : Ready g s) (seedType : Nat) :
    Seeded g cfg seedType [] s.beginCall := by
  have nodes : ∀ t, s.beginCall.nodesOf t = [] := getD_clear s.nodeVecs
  have indexes : ∀ nt < g.nodeTypes.length, (s.beginCall.dedup.getD nt (.map [])).Indexes
      (g.numNodes nt) (s.beginCall.nodesOf nt) := by
    intro nt hnt
    have inside : nt < s.dedup.length := h.dedupLength ▸ hnt
    have ready := h.dedup nt hnt
    rw [nodes nt, HeteroNeighborSampler.beginCall]
    dsimp only
    rw [List.getD_eq_getElem _ _ inside] at ready
    rw [List.getD_eq_getElem _ _ (by rwa [List.length_map]), List.getElem_map]
    exact GenDedup.begin_ready ready
  have tracks : Tracks g s.beginCall :=
    ⟨(List.length_map ..).trans h.dedupLength, (List.length_map ..).trans h.vecsLength, indexes,
      fun nt => nodes nt ▸ List.nodup_nil, fun nt id hid => by rw [nodes nt] at hid; cases hid⟩
  refine ⟨⟨⟨{ tracks with }, (List.length_map ..).trans h.srcLength,
    (List.length_map ..).trans h.dstLength, nofun, nofun, fun et _ => getD_clear _ et,
    fun et _ => getD_clear _ et⟩, nofun, List.nodup_nil, ⟨nofun, List.nodup_nil, nofun⟩, h.floyd⟩,
    rfl, nodes seedType, rfl⟩

omit [Rng σ] in
theorem Seeded.registerSeed {seedType seed : Nat} {seeds : List Nat}
    (h : Seeded g cfg seedType seeds s) (valid : g.Valid) (typed : seedType < g.nodeTypes.length)
    (inRange : seed < g.numNodes seedType) :
    Seeded g cfg seedType (seeds ++ [seed]) (s.registerSeed seedType seed) := by
  have recorded := h.between.recorded
  have ahead := h.between.ahead
  rw [List.append_nil] at ahead
  obtain ⟨index, tracks, nodes, dedup, vecs, frame⟩ := Tracks.insertNode (s := s)
    { recorded.tracks with } valid typed inRange
  have own : (s.registerSeed seedType seed).nodesOf seedType = discover (s.nodesOf seedType) seed :=
    (nodes seedType).trans (if_pos rfl)
  have later : s.nodesOf seedType <+: (s.registerSeed seedType seed).nodesOf seedType :=
    own ▸ prefix_discover _ _
  have grown : ∀ t, s.nodesOf t <+: (s.registerSeed seedType seed).nodesOf t := by
    intro t
    change s.nodesOf t <+: (s.insertNode seed seedType).2.nodesOf t
    rw [nodes t]
    split
    · exact prefix_discover _ _
    · exact List.prefix_refl _
  have named : ((s.registerSeed seedType seed).nodesOf seedType)[(s.nodesOf seedType).idxOf seed]? =
      some seed := own ▸ getElem?_discover _ _
  have front : (s.registerSeed seedType seed).frontier =
      if seed ∈ s.nodesOf seedType then s.frontier
      else s.frontier ++ [⟨seedType, seed, (s.nodesOf seedType).idxOf seed⟩] := by
    unfold HeteroNeighborSampler.registerSeed
    dsimp only
    rw [index]
    by_cases known : seed ∈ s.nodesOf seedType
    · rw [decide_eq_false (not_not_intro known), if_neg Bool.false_ne_true, if_pos known, frame]
    · rw [decide_eq_true known, if_pos rfl, if_neg known, frame]
  have empty : (s.registerSeed seedType seed).expansions = [] :=
    (congrArg HeteroNeighborSampler.expansions frame).trans h.untouched
  have bufs : (s.registerSeed seedType seed).edgeSrcBuf = s.edgeSrcBuf ∧
      (s.registerSeed seedType seed).edgeDstBuf = s.edgeDstBuf := by
    unfold HeteroNeighborSampler.registerSeed
    dsimp only
    rw [frame]
    exact ⟨rfl, rfl⟩
  have src := recorded.src
  have dst := recorded.dst
  dsimp only at src dst
  rw [h.untouched] at src dst
  refine ⟨⟨⟨{ tracks with }, ?_, ?_, ?_, ?_, ?_, ?_⟩, ?_, ?_, ?_, ?_⟩, empty, ?_, ?_⟩
  · exact (congrArg List.length bufs.1).trans recorded.srcLength
  · exact (congrArg List.length bufs.2).trans recorded.dstLength
  · dsimp only
    rw [empty]
    exact nofun
  · dsimp only
    rw [empty]
    exact nofun
  · dsimp only
    rw [empty, bufs.1]
    exact src
  · dsimp only
    rw [empty, bufs.2]
    exact dst
  · dsimp only
    rw [empty]
    exact nofun
  · dsimp only
    rw [empty]
    exact List.nodup_nil
  · rw [List.append_nil, front]
    have named' : ∀ y ∈ s.frontier, y.nodeType < g.nodeTypes.length ∧
        ((s.registerSeed seedType seed).nodesOf y.nodeType)[y.localIdx]? = some y.id :=
      fun y hy => ⟨(ahead.named y hy).1, getElem?_prefix (grown _) (ahead.named y hy).2⟩
    split
    · exact ⟨named', ahead.once, fun y _ e he => by rw [empty] at he; cases he⟩
    · rename_i new
      refine ⟨List.forall_mem_append.mpr ⟨named', fun y hy => ?_⟩, ?_,
        fun y _ e he => by rw [empty] at he; cases he⟩
      · rw [List.mem_singleton.mp hy]
        exact ⟨typed, named⟩
      · rw [List.map_append]
        refine List.nodup_append.mpr ⟨ahead.once, List.nodup_singleton _, fun a ha b hb same => ?_⟩
        obtain ⟨y, hy, rfl⟩ := List.mem_map.mp ha
        rw [List.mem_singleton.mp hb] at same
        obtain ⟨types, ids⟩ := Prod.mk.inj same
        have known := List.mem_of_getElem? (ahead.named y hy).2
        rw [types, ids] at known
        exact new known
  · exact h.between.floyd
  · rw [own, eraseDups_concat, ← h.nodes]
    rfl
  · have indices : (s.registerSeed seedType seed).seedIndicesBuf =
        s.seedIndicesBuf ++ [(s.nodesOf seedType).idxOf seed] := by
      unfold HeteroNeighborSampler.registerSeed
      dsimp only
      rw [index, frame]
    rw [indices, List.map_append, List.map_append, List.map_singleton, List.map_singleton, named,
      names_prefix later h.seedIndices]

omit [Rng σ] in
theorem Seeded.registerSeeds {seedType : Nat} {seeds more : List Nat}
    (h : Seeded g cfg seedType seeds s) (valid : g.Valid) (typed : seedType < g.nodeTypes.length)
    (inRange : ∀ seed ∈ more, seed < g.numNodes seedType) :
    Seeded g cfg seedType (seeds ++ more)
      (more.foldl (HeteroNeighborSampler.registerSeed seedType) s) := by
  induction more generalizing seeds s with
  | nil => rwa [List.append_nil]
  | cons seed more ih =>
      obtain ⟨here, rest⟩ := List.forall_mem_cons.mp inRange
      rw [List.append_cons]
      exact ih (h.registerSeed valid typed here) rest

end HeteroNeighborSampler

/-- What the sampler promises of a subgraph, whose edges are those of `expansions` in order. -/
structure FaithfulHetero {Time : Type} (g : HeteroGraph Time) (cfg : HeteroSamplingConfig)
    (seedType : Nat) (seeds : List Nat) (sub : HeteroSampledSubgraph)
    (expansions : List Expansion) : Prop where
  types : sub.nodes.length = g.nodeTypes.length ∧ sub.edgeSrcLocal.length = g.edgeTypes.length ∧
    sub.edgeDstLocal.length = g.edgeTypes.length
  echo : sub.seedType = seedType ∧ sub.seeds = seeds
  nodup : ∀ nt, (sub.nodes.getD nt []).Nodup
  inRange : ∀ nt, ∀ id ∈ sub.nodes.getD nt [], id < g.numNodes nt
  seedsFirst : seeds.eraseDups <+: sub.nodes.getD seedType []
  seedIndices : sub.seedIndices.map (fun l => (sub.nodes.getD seedType [])[l]?) = seeds.map some
  once : (expansions.map fun e => (e.et, e.node)).Nodup
  good : ∀ e ∈ expansions, Expansion.Good g cfg e
  expanded : ∀ e ∈ expansions, e.node ∈ sub.nodes.getD (g.edgeType e.et).dstType []
  sources : ∀ et < g.edgeTypes.length, (sub.edgeSrcLocal.getD et []).map
    (fun l => (sub.nodes.getD (g.edgeType et).srcType [])[l]?) =
      (expansions.filter (·.et = et)).flatMap fun e => e.picks.map fun p =>
        (g.sourcesInto et e.node)[p]?
  destinations : ∀ et < g.edgeTypes.length, (sub.edgeDstLocal.getD et []).map
    (fun l => (sub.nodes.getD (g.edgeType et).dstType [])[l]?) =
      (expansions.filter (·.et = et)).flatMap fun e => e.picks.map fun _ => some e.node
  stored : ∀ et csr, g.csrGraphs[et]? = some csr →
    ∀ edge ∈ (sub.edgeSrcLocal.getD et []).zip (sub.edgeDstLocal.getD et []), ∃ src dst,
      (sub.nodes.getD (g.edgeType et).srcType [])[edge.1]? = some src ∧
      (sub.nodes.getD (g.edgeType et).dstType [])[edge.2]? = some dst ∧ dst ∈ csr.neighbors src

namespace HeteroNeighborSampler

variable {σ : Type} {Time : Type} {g : HeteroGraph Time} {cfg : HeteroSamplingConfig}
  {s s' : HeteroNeighborSampler σ}

theorem zip_picks (log : List Expansion) (f : Expansion → Nat → Nat) :
    (log.flatMap fun e => e.picks.map (f e)).zip
        (log.flatMap fun e => e.picks.map fun _ => e.dstLocal) =
      log.flatMap fun e => e.picks.map fun p => (f e p, e.dstLocal) := by
  induction log with
  | nil => rfl
  | cons e log ih =>
      rw [List.flatMap_cons, List.flatMap_cons, List.flatMap_cons, List.zip_append, ih,
        List.zip_map']
      rw [List.length_map, List.length_map]

/-- What the buffers hold once the hops have run. -/
theorem Sound.faithful {todo : List TypedNode} (h : Sound g cfg s todo) (valid : g.Valid)
    {seedType : Nat} {seeds : List Nat} (seedsFirst : seeds.eraseDups <+: s.nodesOf seedType)
    (seedIndices : s.seedIndicesBuf.map (fun l => (s.nodesOf seedType)[l]?) = seeds.map some) :
    FaithfulHetero g cfg seedType seeds
      ⟨s.nodeVecs, s.edgeSrcBuf, s.edgeDstBuf, seedType, seeds, s.seedIndicesBuf⟩ s.expansions := by
  have recorded := h.recorded
  have source : ∀ e ∈ s.expansions, ∀ p ∈ e.picks,
      (s.nodesOf (g.edgeType e.et).srcType)[(s.nodesOf (g.edgeType e.et).srcType).idxOf
        ((g.sourcesInto e.et e.node).getD p 0)]? = (g.sourcesInto e.et e.node)[p]? := by
    intro e he p hp
    have inRow := (h.good e he).inRow p hp
    rw [getElem?_idxOf (recorded.source e he p hp), List.getD_eq_getElem _ _ inRow,
      List.getElem?_eq_getElem inRow]
  refine ⟨⟨recorded.tracks.vecsLength, recorded.srcLength, recorded.dstLength⟩, ⟨rfl, rfl⟩,
    recorded.tracks.nodup, recorded.tracks.inRange, seedsFirst, seedIndices, h.once, h.good,
    fun e he => List.mem_of_getElem? (recorded.node e he), fun et het => ?_, fun et het => ?_,
    fun et csr stored edge hedge => ?_⟩
  · dsimp only
    rw [recorded.src et het, List.map_flatMap]
    refine List.flatMap_congr fun e he => ?_
    obtain ⟨mem, same⟩ := List.mem_filter.mp he
    obtain rfl : e.et = et := of_decide_eq_true same
    rw [List.map_map]
    exact List.map_congr_left fun p hp => source e mem p hp
  · dsimp only
    rw [recorded.dst et het, List.map_flatMap]
    refine List.flatMap_congr fun e he => ?_
    obtain ⟨mem, same⟩ := List.mem_filter.mp he
    obtain rfl : e.et = et := of_decide_eq_true same
    rw [List.map_map]
    exact List.map_congr_left fun p hp => recorded.node e mem
  · have het : et < g.edgeTypes.length := by
      obtain ⟨inside, -⟩ := List.getElem?_eq_some_iff.mp stored
      exact valid.csrs ▸ inside
    dsimp only at hedge ⊢
    rw [recorded.src et het, recorded.dst et het, zip_picks] at hedge
    obtain ⟨e, he, picked⟩ := List.mem_flatMap.mp hedge
    obtain ⟨p, hp, rfl⟩ := List.mem_map.mp picked
    obtain ⟨mem, same⟩ := List.mem_filter.mp he
    obtain rfl : e.et = et := of_decide_eq_true same
    have inRow := (h.good e mem).inRow p hp
    have dstIn : e.node < g.dstCount e.et :=
      recorded.tracks.inRange _ _ (List.mem_of_getElem? (recorded.node e mem))
    exact ⟨_, e.node, (source e mem p hp).trans (List.getElem?_eq_getElem inRow),
      recorded.node e mem, (valid.mem_sourcesInto stored dstIn (List.getElem_mem inRow)).2⟩

variable [Rng σ]

theorem Ready.sampleNeighbors (h : Ready g s) (valid : g.Valid) {seedType : Nat}
    (typed : seedType < g.nodeTypes.length) {seeds : List Nat}
    (inRange : ∀ seed ∈ seeds, seed < g.numNodes seedType) {sub : HeteroSampledSubgraph}
    (ran : s.sampleNeighbors g cfg seedType seeds = some (sub, s')) :
    FaithfulHetero g cfg seedType seeds sub s'.expansions ∧ Ready g s' := by
  obtain ⟨last, hops, out⟩ := Option.map_eq_some_iff.mp ran
  obtain ⟨rfl, rfl⟩ := Prod.mk.inj out
  have start : Seeded g cfg seedType [] s.beginCall := h.beginCall seedType
  have seeded := start.registerSeeds valid typed inRange
  rw [List.nil_append] at seeded
  obtain ⟨between, kept⟩ := seeded.between.runHops valid hops
  have recorded := between.recorded
  refine ⟨?_, ?_, ?_, ?_, ?_, ?_, ?_⟩
  · have first : seeds.eraseDups <+: last.nodesOf seedType := seeded.nodes ▸ kept.grown seedType
    have indices : last.seedIndicesBuf.map (fun l => (last.nodesOf seedType)[l]?) =
        seeds.map some := by
      rw [kept.seedIndices]
      exact names_prefix (kept.grown seedType) seeded.seedIndices
    exact Sound.faithful between valid first indices
  · exact recorded.tracks.dedupLength
  · exact (List.length_map ..).trans recorded.tracks.vecsLength
  · exact (List.length_map ..).trans recorded.srcLength
  · exact (List.length_map ..).trans recorded.dstLength
  · exact fun nt hnt => (recorded.tracks.indexes nt hnt).ready
  · exact between.floyd

theorem Ready.sample (h : Ready g s) (valid : g.Valid) {seedType : Nat} {seeds : Seeds}
    {result : Except SampleError HeteroSampledSubgraph}
    (ran : s.sample g cfg seedType seeds = some (result, s')) :
    (∀ sub, result = .ok sub → FaithfulHetero g cfg seedType seeds.ids sub s'.expansions) ∧
      Ready g s' := by
  unfold HeteroNeighborSampler.sample at ran
  split at ran
  · cases ran
  · rename_i typed
    split at ran
    · obtain ⟨rfl, rfl⟩ := Prod.mk.inj (Option.some.inj ran)
      exact ⟨nofun, h⟩
    · rename_i fits
      obtain ⟨⟨sub, last⟩, sampled, out⟩ := Option.map_eq_some_iff.mp ran
      obtain ⟨rfl, rfl⟩ := Prod.mk.inj out
      have inRange : ∀ seed ∈ seeds.ids, seed < g.numNodes seedType := fun seed hseed =>
        Nat.lt_of_lt_of_le (seeds.inRange seed hseed) (Nat.le_of_not_lt fits)
      obtain ⟨faithful, ready⟩ :=
        h.sampleNeighbors valid (Nat.lt_of_not_le typed) inRange sampled
      exact ⟨fun sub' same => by cases same; exact faithful, ready⟩

theorem new_ready (entropy : Nat) : Ready g (new g cfg entropy : HeteroNeighborSampler σ) := by
  refine ⟨?_, List.length_replicate, List.length_replicate, List.length_replicate,
    fun nt hnt => ?_, FloydStamps.new_ready⟩
  · exact (List.length_map ..).trans List.length_range
  · unfold HeteroNeighborSampler.new
    dsimp only
    rw [List.getD_eq_getElem _ _ (by rwa [List.length_map, List.length_range]), List.getElem_map,
      List.getElem_range]
    split
    · refine ⟨List.length_replicate, Nat.two_pow_pos 32, fun slot hslot => ?_⟩
      rw [List.eq_of_mem_replicate hslot]
      exact Nat.zero_le _
    · trivial

/-- A call returns when every edge type has a fanout for every hop. -/
theorem sample_returns (s : HeteroNeighborSampler σ) {seedType : Nat} {seeds : Seeds}
    (typed : seedType < g.nodeTypes.length)
    (covered : ∀ et < g.edgeTypes.length, ∃ hops, cfg.fanout[et]? = some hops ∧
      cfg.numHops ≤ hops.length) :
    ∃ out, s.sample g cfg seedType seeds = some out := by
  have expand : ∀ hop < cfg.numHops, ∀ (s : HeteroNeighborSampler σ) x,
      ∃ s', expandNode g cfg hop s x = some s' := by
    intro hop here s x
    suffices ran : ∃ s', expandNode g cfg hop s x = some s' ∧ ∀ et ∈ [], et < g.edgeTypes.length
      from ran.imp fun _ returned => returned.1
    refine foldlM_isSome (P := fun ets _ => ∀ et ∈ ets, et < g.edgeTypes.length)
      (fun et ets b all => ?_) fun et het => (HeteroGraph.mem_edgeTypesForDst.mp het).1
    obtain ⟨etTyped, rest⟩ := List.forall_mem_cons.mp all
    obtain ⟨hops, found, enough⟩ := covered et etTyped
    unfold expandAlong
    rw [found, Option.bind_some, List.getElem?_eq_getElem (Nat.lt_of_lt_of_le here enough)]
    exact ⟨_, rfl, rest⟩
  have hopRuns : ∀ hop < cfg.numHops, ∀ s : HeteroNeighborSampler σ,
      ∃ s', runHop g cfg s hop = some s' := by
    intro hop here s
    obtain ⟨last, ran, -⟩ := foldlM_isSome (P := fun _ _ => True)
      (fun x _ b _ => (expand hop here b x).imp fun _ next => ⟨next, trivial⟩)
      (l := s.frontier) (b := { s with nextFrontier := [] }) trivial
    exact ⟨_, congrArg (Option.map _) ran⟩
  have run : ∀ s : HeteroNeighborSampler σ,
      ∃ s', (List.range cfg.numHops).foldlM (runHop g cfg) s = some s' := by
    intro s
    obtain ⟨last, ran, -⟩ := foldlM_isSome (P := fun hops _ => ∀ hop ∈ hops, hop < cfg.numHops)
      (fun hop hops b all => (hopRuns hop (List.forall_mem_cons.mp all).1 b).imp fun _ next =>
        ⟨next, (List.forall_mem_cons.mp all).2⟩) (fun hop hhop => List.mem_range.mp hhop)
    exact ⟨last, ran⟩
  unfold HeteroNeighborSampler.sample
  rw [if_neg (Nat.not_le.mpr typed)]
  split
  · exact ⟨_, rfl⟩
  · obtain ⟨last, ran⟩ := run (seeds.ids.foldl (registerSeed seedType) s.beginCall)
    unfold HeteroNeighborSampler.sampleNeighbors
    rw [ran]
    exact ⟨_, rfl⟩

/-- A call on a sampler. -/
inductive Call where
  | reseed (seed : Nat)
  | sample (seedType : Nat) (seeds : Seeds)

variable (g cfg)

/-- What a call that returns leaves of the sampler. -/
def afterCall (s : HeteroNeighborSampler σ) : Call → Option (HeteroNeighborSampler σ)
  | .reseed seed => some (s.reseed seed)
  | .sample seedType seeds => (s.sample g cfg seedType seeds).map Prod.snd

variable {g}

theorem Ready.afterCalls (h : Ready g s) (valid : g.Valid) {calls : List Call}
    (ran : calls.foldlM (afterCall g cfg) s = some s') : Ready g s' :=
  foldlM_option (P := fun _ s => Ready g s) (fun call _ b b' hb next => by
    cases call with
    | reseed seed =>
        cases next
        exact { hb with }
    | sample seedType seeds =>
        obtain ⟨⟨result, last⟩, sampled, rfl⟩ := Option.map_eq_some_iff.mp next
        exact (hb.sample valid sampled).2) h ran

/-- The transpose of every edge type lists for a destination its sources in stored order with
multiplicity, and every subgraph sampled over it is faithful; a call returns when every edge
type has a fanout for every hop. -/
theorem hetero_sample_faithful {nodeTypes : List (String × Nat)}
    {edgeTypes : List (String × String × String × ProvenGraph Time)}
    (built : HeteroGraph.tryFromParts nodeTypes edgeTypes = .ok g) :
    (∀ et csr dst, g.csrGraphs[et]? = some csr → dst < g.dstCount et →
      g.sourcesInto et dst = (csr.storedEdges.filter fun e => e.2 = dst).map Prod.fst) ∧
    ∀ (entropy : Nat) (calls : List Call) (s : HeteroNeighborSampler σ),
      calls.foldlM (afterCall g cfg) (new g cfg entropy) = some s →
      ∀ (seedType : Nat) (seeds : Seeds),
        (∀ sub s', s.sample g cfg seedType seeds = some (.ok sub, s') →
          FaithfulHetero g cfg seedType seeds.ids sub s'.expansions) ∧
        (seedType < g.nodeTypes.length → seeds.numNodes ≤ g.numNodes seedType →
          (∀ et < g.edgeTypes.length, ∃ hops, cfg.fanout[et]? = some hops ∧
            cfg.numHops ≤ hops.length) →
          ∃ sub s', s.sample g cfg seedType seeds = some (.ok sub, s')) := by
  have valid := HeteroGraph.tryFromParts_valid built
  refine ⟨fun et csr dst stored inRange => valid.sourcesInto_eq stored inRange,
    fun entropy calls s ran seedType seeds => ⟨fun sub s' sampled => ?_,
      fun typed fits covered => ?_⟩⟩
  · have ready := Ready.afterCalls cfg (new_ready entropy) valid ran
    exact (ready.sample valid sampled).1 sub rfl
  · obtain ⟨out, ran⟩ := sample_returns s typed covered
    unfold HeteroNeighborSampler.sample at ran ⊢
    rw [if_neg (Nat.not_le.mpr typed), if_neg (Nat.not_lt.mpr fits)] at ran ⊢
    obtain ⟨next, sampled, -⟩ := Option.map_eq_some_iff.mp ran
    exact ⟨next.1, next.2, by rw [sampled]; rfl⟩

section Votes

/-- Two users who vote on one post. -/
def votes : Csr Nat where
  numNodes := 2
  numDstNodes := 1
  offsets := [0, 1, 2]
  edges := [0, 0]
  weights := none
  timestamps := none
  numNodes_le := two_le_maxNodes
  numDstNodes_le := one_le_maxNodes
  offsets_length := rfl
  first_offset := rfl
  last_offset := rfl
  weights_length := nofun
  timestamps_length := nofun

def votesGraph : HeteroGraph Nat where
  nodeTypes := [⟨"user", 2⟩, ⟨"post", 1⟩]
  nodeTypeIndex := [("user", 0), ("post", 1)]
  edgeTypes := [⟨0, "votes", 1⟩]
  edgeTypeIndex := [(("user", "votes", "post"), 0)]
  csrGraphs := [votes]

theorem hetero_sample_faithful_votes :
    FaithfulHetero votesGraph ⟨[[2]], false, some 0, none, 1⟩ 1 [0]
      ⟨[[0, 1], [0]], [[0, 1]], [[0, 0]], 1, [0], [0]⟩ [⟨0, 0, 0, 0, [0, 1]⟩] := by
  have built : HeteroGraph.tryFromParts [("user", 2), ("post", 1)]
      [("user", "votes", "post", (⟨votes, .headerOnly, nofun, nofun⟩ : ProvenGraph Nat))] =
        .ok votesGraph := by
    rfl
  have sampled := ((hetero_sample_faithful (σ := WyRand) ⟨[[2]], false, some 0, none, 1⟩ built).2 0
    [] _ rfl 1 ⟨[0], 1, by decide⟩).1 _ _ rfl
  exact sampled

end Votes

end HeteroNeighborSampler

end AetherGraph
