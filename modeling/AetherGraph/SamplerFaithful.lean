import AetherGraph.PassGrowth
import AetherGraph.SamplerHistory
import Mathlib.Algebra.BigOperators.Group.List.Basic
import Mathlib.Data.List.SplitLengths
import Mathlib.Order.WithBot

/-! Sampled subgraphs are faithful: their local indices name their nodes, their edges are
stored edges, and each expansion draws what its fanout asks for. -/

namespace AetherGraph

/-- The entries of `xs` at `locals` are `names`, one by one. -/
def Names (xs locals names : List Nat) : Prop := locals.map (fun l => xs[l]?) = names.map some

theorem Names.append {xs locals names : List Nat} (h : Names xs locals names) (more : List Nat) :
    Names (xs ++ more) locals names := by
  refine Eq.trans (List.map_congr_left fun l hl => ?_) h
  have named : xs[l]? ∈ names.map some := h ▸ List.mem_map_of_mem hl
  obtain ⟨name, -, found⟩ := List.mem_map.mp named
  rw [← found]
  exact Pass.getElem?_append_of_some found.symm more

theorem Names.concat {xs locals names locals' names' : List Nat} (h : Names xs locals names)
    (h' : Names xs locals' names') : Names xs (locals ++ locals') (names ++ names') := by
  unfold Names
  rw [List.map_append, List.map_append, h, h']

theorem Names.lt {xs locals names : List Nat} (h : Names xs locals names) :
    ∀ l ∈ locals, l < xs.length := by
  intro l hl
  have named : xs[l]? ∈ names.map some := h ▸ List.mem_map_of_mem hl
  obtain ⟨name, -, found⟩ := List.mem_map.mp named
  exact (List.getElem?_eq_some_iff.mp found.symm).1

theorem Names.length {xs locals names : List Nat} (h : Names xs locals names) :
    locals.length = names.length := by
  rw [← List.length_map (f := fun l => xs[l]?), h, List.length_map]

/-- Locals shifted past the blocks before, modulo the index width they fit in. -/
theorem Names.shift {xs b locals names : List Nat} (h : Names b locals names)
    (small : xs.length + b.length ≤ 2 ^ 32) :
    Names (xs ++ b) (locals.map fun l => (l + xs.length % 2 ^ 32) % 2 ^ 32) names := by
  have lt := h.lt
  unfold Names at h ⊢
  rw [List.map_map, ← h]
  refine List.map_congr_left fun l hl => ?_
  have inBlock := lt l hl
  have place : (l + xs.length % 2 ^ 32) % 2 ^ 32 = xs.length + l := by
    rw [Nat.mod_eq_of_lt (by omega : xs.length < 2 ^ 32), Nat.mod_eq_of_lt (by omega), Nat.add_comm]
  change (xs ++ b)[(l + xs.length % 2 ^ 32) % 2 ^ 32]? = b[l]?
  rw [place, List.getElem?_append_right (Nat.le_add_right _ _), Nat.add_sub_cancel_left]

theorem names_replicate {n : Nat} {locals : List Nat} (lt : ∀ l ∈ locals, l < n) (j : Nat) :
    Names (List.replicate n j) locals (List.replicate locals.length j) := by
  unfold Names
  rw [List.map_replicate]
  exact List.eq_replicate_of_mem (fun x hx => by
    obtain ⟨l, hl, rfl⟩ := List.mem_map.mp hx
    rw [List.getElem?_replicate, if_pos (lt l hl)]) |>.trans (by rw [List.length_map])

/-- The nodes discovered before the first hop and in each hop. -/
def SampledSubgraph.hopNodes (sub : SampledSubgraph) : List (List Nat) :=
  sub.numSampledNodes.splitLengths sub.nodes

/-- The sources and ids of the edges of each hop. -/
def SampledSubgraph.hopEdges (sub : SampledSubgraph) : List (List (Nat × Nat)) :=
  sub.numSampledEdges.splitLengths (sub.edgeSrc.zip sub.edgeIds)

/-- The ids of a hop's edges out of `u`. -/
def drawnBy (u : Nat) (edges : List (Nat × Nat)) : List Nat :=
  (edges.filter (·.1 = u)).map Prod.snd

/-- The edges one hop draws at the nodes `front`: without replacement each node's are distinct
and at most `sampleSize`; a uniform draw takes that many, or the whole row, unless some
neighbor lies outside the graph. -/
structure HopFaithful {Time : Type} (g : Csr Time) (cfg : SamplingConfig) (sampleSize : Nat)
    (front : List Nat) (edges : List (Nat × Nat)) : Prop where
  once : cfg.replace = false → ∀ u, (drawnBy u edges).Nodup ∧ (drawnBy u edges).length ≤ sampleSize
  uniform : cfg.replace = false → cfg.temporalStrategy = none → cfg.weighted = false →
    cfg.cumulative = false → ∀ u ∈ front, (∀ d ∈ g.neighbors u, d < g.numNodes) →
      (drawnBy u edges).length = min sampleSize (g.degree u)

structure FaithfulSubgraph {Time : Type} (g : Csr Time) (cfg : SamplingConfig) (seeds : List Nat)
    (sub : SampledSubgraph) : Prop where
  nodup : sub.nodes.Nodup
  seedsFirst : seeds.eraseDups <+: sub.nodes
  srcLocal : Names sub.nodes sub.srcLocal sub.edgeSrc
  dstLocal : Names sub.nodes sub.dstLocal sub.edgeDst
  seedLocals : Names sub.nodes sub.seedLocals seeds
  dstLength : sub.edgeDst.length = sub.edgeSrc.length
  idsLength : sub.edgeIds.length = sub.edgeSrc.length
  stored : ∀ i src dst eid : Nat, sub.edgeSrc[i]? = some src → sub.edgeDst[i]? = some dst →
    sub.edgeIds[i]? = some eid → (g.neighborRange src).1 ≤ eid ∧ eid < (g.neighborRange src).2 ∧
      g.edges[eid]? = some dst
  nodeCount : sub.numSampledNodes.sum = sub.nodes.length
  edgeCount : sub.numSampledEdges.sum = sub.edgeSrc.length
  hops : ∀ hop < cfg.fanout.length, HopFaithful g cfg (cfg.fanout.getD hop 0)
    (sub.hopNodes.getD hop []) (sub.hopEdges.getD hop [])
  cumulativeOnce : cfg.cumulative = true → cfg.replace = false → g.Monotone →
    cfg.fanout.length ≤ 2 ^ 32 → sub.edgeIds.Nodup

/-- The index of its block for each item of the blocks laid end to end. -/
def tagged (size : SampledSubgraph → Nat) (blocks : List SampledSubgraph) : List Nat :=
  blocks.zipIdx.flatMap fun b => List.replicate (size b.1) b.2

/-- One faithful block a seed, laid end to end: local indices name nodes of their own block. -/
structure FaithfulBlocks {Time : Type} (g : Csr Time) (cfg : SamplingConfig) (seeds : List Nat)
    (sub : SampledSubgraph) (blocks : List SampledSubgraph) : Prop where
  faithful : List.Forall₂ (fun seed b => FaithfulSubgraph g cfg [seed] b) seeds blocks
  nodes : sub.nodes = blocks.flatMap SampledSubgraph.nodes
  edgeSrc : sub.edgeSrc = blocks.flatMap SampledSubgraph.edgeSrc
  edgeDst : sub.edgeDst = blocks.flatMap SampledSubgraph.edgeDst
  edgeIds : sub.edgeIds = blocks.flatMap SampledSubgraph.edgeIds
  batch : sub.batch = some (tagged (·.nodes.length) blocks)
  srcLocal : Names sub.nodes sub.srcLocal sub.edgeSrc
  dstLocal : Names sub.nodes sub.dstLocal sub.edgeDst
  seedLocals : Names sub.nodes sub.seedLocals seeds
  srcBatch : Names (tagged (·.nodes.length) blocks) sub.srcLocal (tagged (·.edgeSrc.length) blocks)
  dstBatch : Names (tagged (·.nodes.length) blocks) sub.dstLocal (tagged (·.edgeSrc.length) blocks)
  seedBatch : Names (tagged (·.nodes.length) blocks) sub.seedLocals (List.range seeds.length)
  nodeCount : sub.numSampledNodes.sum = sub.nodes.length
  edgeCount : sub.numSampledEdges.sum = sub.edgeSrc.length

namespace Pass

variable {σ : Type} [Rng σ] {Time : Type} [LT Time] [DecidableLT Time] [Top Time]
variable {ops : SliceOps} {g : Csr Time} {cfg : SamplingConfig} {p q : Pass Time}

/-- What a pass records as a subgraph of its own. -/
def subgraph (cfg : SamplingConfig) (seeds seedLocals : List Nat) (seedNodes : Nat)
    (counts : List (Nat × Nat)) (p : Pass Time) : SampledSubgraph where
  nodes := p.nodes
  edgeSrc := p.edges.map SampledEdge.src
  edgeDst := p.edges.map SampledEdge.dst
  edgeIds := p.edgeIds cfg
  seeds := seeds
  numSampledNodes := seedNodes :: counts.map Prod.fst
  numSampledEdges := counts.map Prod.snd
  srcLocal := p.edges.map SampledEdge.srcLocal
  dstLocal := p.edges.map SampledEdge.dstLocal
  seedLocals := seedLocals
  batch := none

/-- A pass ready to expand its seeds. -/
structure Seeded (g : Csr Time) (seeds seedLocals : List Nat) (p : Pass Time) : Prop where
  start : HopStart g p
  nodes : p.nodes = seeds.eraseDups
  edges : p.edges = []
  front : p.frontier.map Prod.fst = p.nodes
  locals : Names p.nodes seedLocals seeds

omit [LT Time] [DecidableLT Time] [Top Time] in
theorem splitLengths_flatten {α : Type} (xss : List (List α)) :
    (xss.map List.length).splitLengths xss.flatten = xss := by
  induction xss with
  | nil => rfl
  | cons xs xss ih =>
      rw [List.map_cons, List.flatten_cons, List.splitLengths_cons, List.take_left', List.drop_left',
        ih] <;> rfl

theorem drawnBy_map (u : Nat) (edges : List SampledEdge) :
    drawnBy u (edges.map fun e => (e.src, e.eid)) =
      (edges.filter (·.src = u)).map SampledEdge.eid := by
  unfold drawnBy
  rw [List.filter_map, List.map_map]
  rfl

omit [LT Time] [DecidableLT Time] [Top Time] in
theorem HopEdges.hopFaithful {sampleSize : Nat} {front : List Nat} {edges : List SampledEdge}
    (h : HopEdges g cfg sampleSize front edges) :
    HopFaithful g cfg sampleSize front (edges.map fun e => (e.src, e.eid)) where
  once once u := by
    rw [drawnBy_map, List.length_map]
    exact h.once once u
  uniform once notTemporal unweighted not u hu inRange := by
    rw [drawnBy_map, List.length_map]
    exact h.uniform once notTemporal unweighted not u hu inRange

variable (ops) in
/-- The hops of a pass make a faithful subgraph of its seeds. -/
theorem Seeded.faithful {seeds seedLocals : List Nat} (h : Seeded g seeds seedLocals p)
    (tracked : cfg.trackEdgeIds = true) (r : σ) :
    FaithfulSubgraph g cfg seeds
      (subgraph cfg seeds seedLocals p.nodes.length (Pass.hops ops g cfg p r).1
        (Pass.hops ops g cfg p r).2.1) := by
  obtain ⟨news, rows, rowsLength, newsLength, ran⟩ :=
    h.start.runHopsFrom ops rfl cfg.fanout.length 0 r
  have ids : ∀ q : Pass Time, q.edgeIds cfg = q.edges.map SampledEdge.eid := fun q =>
    if_pos tracked
  have edges : (Pass.hops ops g cfg p r).2.1.edges = rows.flatten := by
    rw [← List.nil_append rows.flatten, ← h.edges]
    exact ran.edges
  have names : ∀ (f : SampledEdge → Nat) (name : SampledEdge → Nat),
      (∀ e ∈ (Pass.hops ops g cfg p r).2.1.edges,
        (Pass.hops ops g cfg p r).2.1.nodes[f e]? = some (name e)) →
      ((Pass.hops ops g cfg p r).2.1.edges.map f).map
          (fun l => (Pass.hops ops g cfg p r).2.1.nodes[l]?) =
        ((Pass.hops ops g cfg p r).2.1.edges.map name).map some := by
    intro f name each
    rw [List.map_map, List.map_map]
    exact List.map_congr_left each
  have sound := ran.start.sound
  have hopNodes : (subgraph cfg seeds seedLocals p.nodes.length (Pass.hops ops g cfg p r).1
      (Pass.hops ops g cfg p r).2.1).hopNodes = p.nodes :: news := by
    have counts : p.nodes.length :: (Pass.hops ops g cfg p r).1.map Prod.fst =
        (p.nodes :: news).map List.length := congrArg _ ran.newCounts
    have nodes : (Pass.hops ops g cfg p r).2.1.nodes = (p.nodes :: news).flatten := ran.nodes
    unfold SampledSubgraph.hopNodes subgraph
    dsimp only
    rw [counts, nodes, splitLengths_flatten]
  have hopEdges : (subgraph cfg seeds seedLocals p.nodes.length (Pass.hops ops g cfg p r).1
      (Pass.hops ops g cfg p r).2.1).hopEdges =
        rows.map (List.map fun e => (e.src, e.eid)) := by
    have counts : (Pass.hops ops g cfg p r).1.map Prod.snd =
        (rows.map (List.map fun e => (e.src, e.eid))).map List.length := by
      rw [List.map_map]
      refine ran.edgeCounts.trans (List.map_congr_left fun row _ => ?_)
      exact (List.length_map _).symm
    unfold SampledSubgraph.hopEdges subgraph
    dsimp only
    rw [ids, counts, List.zip_map', edges, List.map_flatten, splitLengths_flatten]
  exact {
    nodup := sound.nodup
    seedsFirst := ⟨news.flatten, by rw [← h.nodes]; exact ran.nodes.symm⟩
    srcLocal := names _ _ fun e he => (sound.edges e he).src
    dstLocal := names _ _ fun e he => (sound.edges e he).dst
    seedLocals := by
      have nodes : (Pass.hops ops g cfg p r).2.1.nodes = p.nodes ++ news.flatten := ran.nodes
      unfold subgraph
      dsimp only
      rw [nodes]
      exact h.locals.append news.flatten
    dstLength := by simp [subgraph]
    idsLength := by simp [subgraph, ids]
    stored := fun i src dst eid hsrc hdst heid => by
      unfold subgraph at hsrc hdst heid
      dsimp only at hsrc hdst heid
      rw [ids] at heid
      rw [List.getElem?_map] at hsrc hdst heid
      obtain ⟨e, he, rfl⟩ := Option.map_eq_some_iff.mp hsrc
      rw [he] at hdst heid
      obtain rfl := Option.some.inj hdst
      obtain rfl := Option.some.inj heid
      have stored := sound.edges e (List.mem_of_getElem? he)
      exact ⟨stored.row.1, stored.row.2, stored.target⟩
    nodeCount := by
      change (p.nodes.length :: (Pass.hops ops g cfg p r).1.map Prod.fst).sum =
        (Pass.hops ops g cfg p r).2.1.nodes.length
      have nodes : (Pass.hops ops g cfg p r).2.1.nodes = (p.nodes :: news).flatten := ran.nodes
      have counts : (Pass.hops ops g cfg p r).1.map Prod.fst = news.map List.length :=
        ran.newCounts
      rw [nodes, counts, List.length_flatten, List.map_cons]
    edgeCount := by
      change ((Pass.hops ops g cfg p r).1.map Prod.snd).sum =
        ((Pass.hops ops g cfg p r).2.1.edges.map SampledEdge.src).length
      have counts : (Pass.hops ops g cfg p r).1.map Prod.snd = rows.map List.length :=
        ran.edgeCounts
      rw [List.length_map, edges, counts, List.length_flatten]
    hops := fun hop hhop => by
      have inRows : hop < rows.length := rowsLength ▸ hhop
      have each := ran.each hop inRows
      rw [Nat.zero_add, h.front] at each
      rw [hopNodes, hopEdges]
      have row : (rows.map (List.map fun e => (e.src, e.eid))).getD hop [] =
          (rows.getD hop []).map fun e => (e.src, e.eid) := by
        simp [List.getD_eq_getElem?_getD, List.getElem?_eq_getElem inRows]
      rw [row]
      exact each.hopFaithful
    cumulativeOnce := fun cumulative once mono few => by
      have start : Noted 0 p := by
        constructor
        · rw [h.edges]
          exact List.nodup_nil
        · rw [h.edges]
          exact fun _ he => absurd he List.not_mem_nil
      have noted := start.runHopsFrom ops rfl mono cumulative once cfg.fanout.length 0
        (by rwa [Nat.zero_add]) h.start r
      change ((Pass.hops ops g cfg p r).2.1.edgeIds cfg).Nodup
      rw [ids]
      exact noted.nodup }

omit [Top Time] in
/-- Registering one more seed. -/
theorem Seeded.registerSeed {seeds : List Nat} (h : Seeded g seeds p.seedLocals p)
    (seed : Nat × Time) :
    Seeded g (seeds ++ [seed.1]) (p.registerSeed seed).seedLocals (p.registerSeed seed) := by
  have last := getElem?_idxOf p.nodes seed.1
  have nodes : (p.registerSeed seed).nodes =
      if seed.1 ∈ p.nodes then p.nodes else p.nodes ++ [seed.1] :=
    congrArg Pass.nodes (register_eq p seed.1 seed.2)
  have rest : (p.registerSeed seed).edges = p.edges ∧ (p.registerSeed seed).next = p.next := by
    unfold Pass.registerSeed
    rw [register_eq]
    exact ⟨rfl, rfl⟩
  have grown : ∃ more, (if seed.1 ∈ p.nodes then p.nodes else p.nodes ++ [seed.1]) =
      p.nodes ++ more := by
    split
    · exact ⟨[], (List.append_nil _).symm⟩
    · exact ⟨[seed.1], rfl⟩
  obtain ⟨more, grown⟩ := grown
  have front : (p.registerSeed seed).frontier.map Prod.fst = (p.registerSeed seed).nodes := by
    rw [nodes]
    unfold Pass.registerSeed
    dsimp only
    split
    · exact h.front
    · rw [List.map_append, h.front]
      rfl
  refine ⟨⟨⟨?_, ?_, ?_, ?_⟩, ?_⟩, ?_, ?_, front, ?_⟩
  · rw [nodes]
    split
    · exact h.start.sound.nodup
    · rename_i new
      exact List.nodup_append.mpr ⟨h.start.sound.nodup, List.nodup_singleton _, fun a ha b hb same =>
        new (List.mem_singleton.mp hb ▸ same ▸ ha)⟩
  · rw [rest.1, h.edges]
    exact fun _ he => absurd he List.not_mem_nil
  · rw [nodes]
    unfold Pass.registerSeed
    dsimp only
    split
    · exact h.start.sound.frontier
    · refine List.forall_mem_append.mpr ⟨fun x hx =>
        getElem?_append_of_some (h.start.sound.frontier x hx) _, fun x hx => ?_⟩
      obtain rfl := List.mem_singleton.mp hx
      rename_i new
      rwa [if_neg new] at last
  · rw [rest.2, nodes, grown]
    exact fun x hx => getElem?_append_of_some (h.start.sound.next x hx) more
  · exact front.symm ▸ List.suffix_refl (p.registerSeed seed).nodes
  · rw [nodes, eraseDups_concat, h.nodes]
  · rw [rest.1, h.edges]
  · have locals : (p.registerSeed seed).seedLocals = p.seedLocals ++ [p.nodes.idxOf seed.1] := rfl
    have own : Names (p.registerSeed seed).nodes [p.nodes.idxOf seed.1] [seed.1] := by
      rw [nodes]
      exact congrArg (fun x => [x]) last
    rw [locals]
    refine Names.concat ?_ own
    rw [nodes, grown]
    exact h.locals.append more

omit [LT Time] [DecidableLT Time] [Top Time] in
theorem seeded_start (isTemporal : Bool) :
    Seeded g [] [] (start isTemporal : Pass Time) where
  start := {
    sound := ⟨List.nodup_nil, fun _ h => absurd h List.not_mem_nil,
      fun _ h => absurd h List.not_mem_nil, fun _ h => absurd h List.not_mem_nil⟩
    front := List.suffix_refl _ }
  nodes := rfl
  edges := rfl
  front := rfl
  locals := rfl

variable (g cfg) in
omit [Top Time] in
theorem seeded_seeded (seeds : List (Nat × Time)) :
    Seeded g (seeds.map Prod.fst) (seeded cfg seeds).seedLocals (seeded cfg seeds) := by
  induction seeds using List.reverseRecOn with
  | nil => exact seeded_start _
  | append_singleton seeds seed ih =>
      unfold seeded at ih ⊢
      rw [List.foldl_append, List.map_append]
      exact ih.registerSeed seed

omit [Top Time] in
theorem rooted_seeded (seed : Nat × Time) : Seeded g [seed.1] [0] (rooted cfg seed) where
  start := {
    sound := ⟨List.nodup_singleton _, fun _ h => absurd h List.not_mem_nil, fun x hx => by
      obtain rfl := List.mem_singleton.mp hx
      rfl, fun _ h => absurd h List.not_mem_nil⟩
    front := List.suffix_refl _ }
  nodes := rfl
  edges := rfl
  front := rfl
  locals := rfl

section Calls

variable [LE Time] [DecidableLE Time]

omit [Rng σ] [LT Time] [DecidableLT Time] in
theorem applySubgraphType_directional (directional : cfg.subgraphType = .directional)
    (p : Pass Time) : p.applySubgraphType g cfg = p := by
  unfold applySubgraphType
  rw [directional]

omit [LT Time] [DecidableLT Time] [LE Time] [DecidableLE Time] in
theorem seedTimes_map_fst (seeds : List Nat) (inputTimes : Option (List Time)) :
    (NeighborSampler.seedTimes seeds inputTimes).map Prod.fst = seeds := by
  unfold NeighborSampler.seedTimes
  rw [List.map_map]
  exact List.zipIdx_map_fst 0 seeds

theorem inner_faithful (directional : cfg.subgraphType = .directional)
    (tracked : cfg.trackEdgeIds = true) (seeds : List Nat) (inputTimes : Option (List Time))
    (r : σ) : FaithfulSubgraph g cfg seeds (inner ops g cfg seeds inputTimes r).1 := by
  have start := seeded_seeded g cfg (NeighborSampler.seedTimes seeds inputTimes)
  rw [seedTimes_map_fst] at start
  have faithful := start.faithful ops tracked r
  unfold inner
  dsimp only
  rw [applySubgraphType_directional directional, seedLocals_hops]
  exact faithful

end Calls

theorem tagged_concat (size : SampledSubgraph → Nat) (blocks : List SampledSubgraph)
    (b : SampledSubgraph) :
    tagged size (blocks ++ [b]) = tagged size blocks ++ List.replicate (size b) blocks.length := by
  unfold tagged
  rw [List.zipIdx_append, List.flatMap_append]
  simp

theorem length_tagged (size : SampledSubgraph → Nat) (blocks : List SampledSubgraph) :
    (tagged size blocks).length = (blocks.map size).sum := by
  induction blocks using List.reverseRecOn with
  | nil => rfl
  | append_singleton blocks b ih =>
      rw [tagged_concat, List.length_append, ih, List.length_replicate, List.map_append,
        List.sum_append]
      simp

variable (g cfg) in
/-- The blocks of the seeds `done`, laid end to end in `out`; `total` seeds are to come in all. -/
structure Laid (total : Nat) (done : List Nat) (blocks : List SampledSubgraph)
    (out : SampledSubgraph) : Prop where
  faithful : List.Forall₂ (fun seed b => FaithfulSubgraph g cfg [seed] b) done blocks
  nodes : out.nodes = blocks.flatMap SampledSubgraph.nodes
  edgeSrc : out.edgeSrc = blocks.flatMap SampledSubgraph.edgeSrc
  edgeDst : out.edgeDst = blocks.flatMap SampledSubgraph.edgeDst
  edgeIds : out.edgeIds = blocks.flatMap SampledSubgraph.edgeIds
  batch : out.batch = some (tagged (·.nodes.length) blocks)
  srcLocal : Names out.nodes out.srcLocal out.edgeSrc
  dstLocal : Names out.nodes out.dstLocal out.edgeDst
  seedLocals : Names out.nodes out.seedLocals done
  srcBatch : Names (tagged (·.nodes.length) blocks) out.srcLocal (tagged (·.edgeSrc.length) blocks)
  dstBatch : Names (tagged (·.nodes.length) blocks) out.dstLocal (tagged (·.edgeSrc.length) blocks)
  seedBatch : Names (tagged (·.nodes.length) blocks) out.seedLocals (List.range done.length)
  heads : out.numSampledNodes = total :: out.numSampledNodes.tail
  newCounts : out.numSampledNodes.tail.length = cfg.fanout.length
  nodeCount : out.numSampledNodes.tail.sum + done.length = out.nodes.length
  edgeCounts : out.numSampledEdges.length = cfg.fanout.length
  edgeCount : out.numSampledEdges.sum = out.edgeSrc.length

omit [LT Time] [DecidableLT Time] [Top Time] in
theorem laid_noBlocks (seeds : List Nat) : Laid g cfg seeds.length [] [] (noBlocks cfg seeds) where
  faithful := .nil
  nodes := rfl
  edgeSrc := rfl
  edgeDst := rfl
  edgeIds := rfl
  batch := rfl
  srcLocal := rfl
  dstLocal := rfl
  seedLocals := rfl
  srcBatch := rfl
  dstBatch := rfl
  seedBatch := rfl
  heads := rfl
  newCounts := List.length_replicate
  nodeCount := by simp [noBlocks]
  edgeCounts := List.length_replicate
  edgeCount := by simp [noBlocks]

/-- A block's subgraph appended to the combined one. -/
def joinBlock (out b : SampledSubgraph) (idx : Nat) : SampledSubgraph :=
  { out with
    nodes := out.nodes ++ b.nodes
    edgeSrc := out.edgeSrc ++ b.edgeSrc
    edgeDst := out.edgeDst ++ b.edgeDst
    edgeIds := out.edgeIds ++ b.edgeIds
    numSampledNodes := out.numSampledNodes.take 1 ++
      (out.numSampledNodes.drop 1).zipWith (· + ·) b.numSampledNodes.tail
    numSampledEdges := out.numSampledEdges.zipWith (· + ·) b.numSampledEdges
    srcLocal := out.srcLocal ++ b.srcLocal.map fun l => (l + out.nodes.length % 2 ^ 32) % 2 ^ 32
    dstLocal := out.dstLocal ++ b.dstLocal.map fun l => (l + out.nodes.length % 2 ^ 32) % 2 ^ 32
    seedLocals := out.seedLocals ++ b.seedLocals.map fun l => (l + out.nodes.length % 2 ^ 32) % 2 ^ 32
    batch := out.batch.map fun batch => batch ++ List.replicate b.nodes.length (idx % 2 ^ 32) }

theorem zipWith_add {xs ys : List Nat} (same : xs.length = ys.length) :
    (xs.zipWith (· + ·) ys).length = xs.length ∧ (xs.zipWith (· + ·) ys).sum = xs.sum + ys.sum := by
  refine ⟨?_, (List.sum_add_sum_eq_sum_zipWith_of_length_eq xs ys same).symm⟩
  rw [List.length_zipWith, same, Nat.min_self]

omit [LT Time] [DecidableLT Time] [Top Time] in
/-- One more block, as long as its nodes can be indexed. -/
theorem Laid.join {total : Nat} {done : List Nat} {blocks : List SampledSubgraph}
    {out b : SampledSubgraph} (h : Laid g cfg total done blocks out) {seed : Nat}
    (faithful : FaithfulSubgraph g cfg [seed] b) (head : b.numSampledNodes = 1 :: b.numSampledNodes.tail)
    (newCounts : b.numSampledNodes.tail.length = cfg.fanout.length)
    (edgeCounts : b.numSampledEdges.length = cfg.fanout.length)
    (small : out.nodes.length + b.nodes.length ≤ 2 ^ 32) :
    Laid g cfg total (done ++ [seed]) (blocks ++ [b]) (joinBlock out b done.length) := by
  have doneLength : done.length = blocks.length := h.faithful.length_eq
  have batchLength : (tagged (·.nodes.length) blocks).length = out.nodes.length := by
    rw [length_tagged, h.nodes, List.length_flatMap]
  have nodesCount : 0 < b.nodes.length := by
    have count := faithful.nodeCount
    rw [head, List.sum_cons] at count
    omega
  have index : done.length % 2 ^ 32 = blocks.length := by
    have := h.nodeCount
    rw [Nat.mod_eq_of_lt (by omega), doneLength]
  -- the tags of a block's locals are the block's own
  have tags : ∀ {locals names : List Nat}, Names b.nodes locals names →
      Names (tagged (·.nodes.length) (blocks ++ [b]))
        (locals.map fun l => (l + out.nodes.length % 2 ^ 32) % 2 ^ 32)
        (List.replicate names.length blocks.length) := by
    intro locals names named
    have own := names_replicate named.lt blocks.length
    rw [named.length] at own
    rw [tagged_concat, ← batchLength]
    refine own.shift ?_
    rw [batchLength, List.length_replicate]
    exact small
  have srcTags := tags faithful.srcLocal
  have dstTags := tags faithful.dstLocal
  have seedTags := tags faithful.seedLocals
  rw [faithful.dstLength] at dstTags
  have more : ∀ {locals names : List Nat}, Names (tagged (·.nodes.length) blocks) locals names →
      Names (tagged (·.nodes.length) (blocks ++ [b])) locals names := by
    intro locals names named
    rw [tagged_concat]
    exact named.append _
  exact {
    faithful := List.rel_append h.faithful (.cons faithful .nil)
    nodes := by simp [joinBlock, h.nodes]
    edgeSrc := by simp [joinBlock, h.edgeSrc]
    edgeDst := by simp [joinBlock, h.edgeDst]
    edgeIds := by simp [joinBlock, h.edgeIds]
    batch := by
      unfold joinBlock
      dsimp only
      rw [h.batch, index, tagged_concat]
      rfl
    srcLocal := (h.srcLocal.append b.nodes).concat (faithful.srcLocal.shift small)
    dstLocal := (h.dstLocal.append b.nodes).concat (faithful.dstLocal.shift small)
    seedLocals := (h.seedLocals.append b.nodes).concat (faithful.seedLocals.shift small)
    srcBatch := by
      rw [tagged_concat (·.edgeSrc.length)]
      exact (more h.srcBatch).concat srcTags
    dstBatch := by
      rw [tagged_concat (·.edgeSrc.length)]
      exact (more h.dstBatch).concat dstTags
    seedBatch := by
      rw [List.length_append, List.length_singleton, List.range_succ, doneLength]
      exact (more (doneLength ▸ h.seedBatch)).concat seedTags
    heads := by
      unfold joinBlock
      dsimp only
      rw [h.heads]
      rfl
    newCounts := by
      unfold joinBlock
      dsimp only
      rw [h.heads]
      change ((out.numSampledNodes.tail).zipWith (· + ·) b.numSampledNodes.tail).length = _
      rw [(zipWith_add (h.newCounts.trans newCounts.symm)).1, h.newCounts]
    nodeCount := by
      have count := faithful.nodeCount
      rw [head, List.sum_cons] at count
      unfold joinBlock
      dsimp only
      rw [h.heads]
      change ((out.numSampledNodes.tail).zipWith (· + ·) b.numSampledNodes.tail).sum + _ = _
      rw [(zipWith_add (h.newCounts.trans newCounts.symm)).2, List.length_append,
        List.length_append, ← h.nodeCount, ← count, List.length_singleton]
      omega
    edgeCounts := (zipWith_add (h.edgeCounts.trans edgeCounts.symm)).1.trans h.edgeCounts
    edgeCount := by
      unfold joinBlock
      dsimp only
      rw [(zipWith_add (h.edgeCounts.trans edgeCounts.symm)).2, h.edgeCount, faithful.edgeCount,
        List.length_append] }

variable (ops g cfg) in
theorem runHopsFrom_length (isTemporal : Bool) (hops hop : Nat) (acc : Pass Time × σ) :
    (runHopsFrom ops g cfg isTemporal hop hops acc).1.length = hops := by
  induction hops generalizing hop acc with
  | zero => rfl
  | succ hops ih => exact congrArg Nat.succ (ih (hop + 1) _)

section Disjoint

variable [LE Time] [DecidableLE Time]

/-- The subgraph of one seed's block. -/
def rootedSubgraph (ops : SliceOps) (g : Csr Time) (cfg : SamplingConfig) (seed : Nat × Time)
    (r : σ) : SampledSubgraph :=
  subgraph cfg [seed.1] [0] 1 (hops ops g cfg (rooted cfg seed) r).1
    (hops ops g cfg (rooted cfg seed) r).2.1

theorem block_eq (directional : cfg.subgraphType = .directional) (out : SampledSubgraph)
    (seed : Nat × Time) (idx : Nat) (r : σ) :
    (block ops g cfg (out, r) (seed, idx)).1 = joinBlock out (rootedSubgraph ops g cfg seed r) idx := by
  unfold block joinBlock rootedSubgraph subgraph
  dsimp only
  rw [applySubgraphType_directional directional]
  simp only [List.map_map, List.map_singleton, Nat.zero_add, Nat.mod_mod]
  rfl

theorem laid_blocks (directional : cfg.subgraphType = .directional)
    (tracked : cfg.trackEdgeIds = true) (total : Nat) {start : SampledSubgraph}
    (h : Laid g cfg total [] [] start) (r : σ) (entries : List (Nat × Time)) :
    (entries.zipIdx.foldl (block ops g cfg) (start, r)).1.nodes.length ≤ 2 ^ 32 →
    ∃ blocks, Laid g cfg total (entries.map Prod.fst) blocks
      (entries.zipIdx.foldl (block ops g cfg) (start, r)).1 := by
  induction entries using List.reverseRecOn with
  | nil => exact fun _ => ⟨[], h⟩
  | append_singleton entries seed ih =>
      rw [List.zipIdx_append, List.foldl_append, Nat.zero_add]
      change (block ops g cfg _ (seed, entries.length)).1.nodes.length ≤ 2 ^ 32 →
        ∃ blocks, Laid g cfg total _ blocks (block ops g cfg _ (seed, entries.length)).1
      generalize entries.zipIdx.foldl (block ops g cfg) (start, r) = acc at ih ⊢
      obtain ⟨out, r⟩ := acc
      intro small
      rw [block_eq directional] at small ⊢
      have fits : out.nodes.length + (rootedSubgraph ops g cfg seed r).nodes.length ≤ 2 ^ 32 := by
        rw [← List.length_append]
        exact small
      obtain ⟨blocks, laid⟩ := ih (Nat.le_trans (Nat.le_add_right _ _) fits)
      have length := runHopsFrom_length ops g cfg cfg.temporalStrategy.isSome cfg.fanout.length 0 (rooted cfg seed, r)
      have faithful : FaithfulSubgraph g cfg [seed.1] (rootedSubgraph ops g cfg seed r) :=
        (rooted_seeded seed).faithful ops tracked r
      have joined := laid.join faithful rfl ((List.length_map _).trans length)
        ((List.length_map _).trans length) fits
      rw [List.length_map] at joined
      rw [List.map_append]
      exact ⟨_, joined⟩

theorem disjoint_faithful (directional : cfg.subgraphType = .directional)
    (tracked : cfg.trackEdgeIds = true) (seeds : List Nat) (inputTimes : Option (List Time))
    (r : σ)
    (small : (Pass.disjoint ops g cfg seeds inputTimes r).1.nodes.length ≤ 2 ^ 32) :
    ∃ blocks, FaithfulBlocks g cfg seeds (Pass.disjoint ops g cfg seeds inputTimes r).1 blocks := by
  obtain ⟨blocks, laid⟩ := laid_blocks directional tracked seeds.length (laid_noBlocks seeds) r
    (NeighborSampler.seedTimes seeds inputTimes) small
  rw [seedTimes_map_fst] at laid
  have nodeCount : (Pass.disjoint ops g cfg seeds inputTimes r).1.numSampledNodes.sum =
      (Pass.disjoint ops g cfg seeds inputTimes r).1.nodes.length := by
    refine (congrArg List.sum laid.heads).trans ?_
    rw [List.sum_cons, Nat.add_comm]
    exact laid.nodeCount
  exact ⟨blocks, { laid with nodeCount := nodeCount }⟩

end Disjoint

end Pass

namespace NeighborSampler

variable {σ : Type} [Rng σ] {Time : Type} [LT Time] [DecidableLT Time] [LE Time] [DecidableLE Time]
  [Top Time]
variable (ops : SliceOps) (g : Csr Time) (cfg : SamplingConfig)

/-- After any history of calls, a directional sample with edge ids is faithful to the graph:
as one subgraph, or in disjoint mode block by block, as long as the nodes of all blocks can
be indexed together. -/
theorem sample_faithful (directional : cfg.subgraphType = .directional)
    (tracked : cfg.trackEdgeIds = true) (dense : Bool) (first : Nat)
    (history : List (Call g.numNodes Time)) (seeds : Seeds) (inputTimes : Option (List Time))
    (sub : SampledSubgraph)
    (sampled : (((fresh dense g.numNodes first : NeighborSampler σ Time).afterCalls g ops
      history).sample ops g cfg seeds inputTimes).1 = .ok sub) :
    (cfg.disjoint = false → FaithfulSubgraph g cfg seeds.ids sub) ∧
      (cfg.disjoint = true → sub.nodes.length ≤ 2 ^ 32 →
        ∃ blocks, FaithfulBlocks g cfg seeds.ids sub blocks) := by
  have new : (fresh dense g.numNodes first : NeighborSampler σ Time).Ready g.numNodes :=
    fresh_ready dense g.numNodes first
  have ready := new.afterCalls ops history
  rw [(ready.sample ops seeds inputTimes).1] at sampled
  unfold Pass.sample at sampled
  cases checked : checkSample g cfg seeds inputTimes with
  | some e =>
      rw [checked] at sampled
      cases sampled
  | none =>
      rw [checked] at sampled
      refine ⟨fun shared => ?_, fun disjoint small => ?_⟩
      · simp only [shared, Bool.false_eq_true, if_false, Except.ok.injEq] at sampled
        rw [← sampled]
        exact Pass.inner_faithful directional tracked seeds.ids inputTimes _
      · simp only [disjoint, if_true, Except.ok.injEq] at sampled
        rw [← sampled] at small ⊢
        exact Pass.disjoint_faithful directional tracked seeds.ids inputTimes _ small

/-- Two nodes, each the other's one neighbor. -/
def pairGraph : Csr (WithTop Nat) where
  numNodes := 2
  numDstNodes := 2
  offsets := [0, 1, 2]
  edges := [1, 0]
  weights := none
  timestamps := none
  numNodes_le := two_le_maxNodes
  numDstNodes_le := two_le_maxNodes
  offsets_length := by decide
  first_offset := by decide
  last_offset := by decide
  weights_length := (nofun : ∀ w ∈ (none : Option (List Float32)), w.length = 2)
  timestamps_length := nofun

theorem sample_faithful_pair :
    FaithfulSubgraph pairGraph { (default : SamplingConfig) with fanout := [1] } [0] {
      nodes := [0, 1]
      edgeSrc := [0]
      edgeDst := [1]
      edgeIds := [0]
      seeds := [0]
      numSampledNodes := [1, 1]
      numSampledEdges := [1]
      srcLocal := [0]
      dstLocal := [1]
      seedLocals := [0]
      batch := none } :=
  (sample_faithful (σ := WyRand) .sorting pairGraph { (default : SamplingConfig) with fanout := [1] }
    rfl rfl true 3 [.sampleNeighbors default [⟨1, by decide⟩], .reseed 7] ⟨[0], 2, by decide⟩ none _
    (by decide +kernel)).1 rfl

end NeighborSampler

section Corrupt

open NeighborSampler

/-- One node, whose row holds a destination outside the graph. -/
def corruptRow : Csr (WithTop Nat) where
  numNodes := 1
  numDstNodes := 1
  offsets := [0, 1]
  edges := [5]
  weights := none
  timestamps := none
  numNodes_le := one_le_maxNodes
  numDstNodes_le := one_le_maxNodes
  offsets_length := rfl
  first_offset := rfl
  last_offset := rfl
  weights_length := nofun
  timestamps_length := nofun

/-- An expansion skips a neighbor outside the graph, so it can emit fewer edges than both its
fanout and its degree. -/
theorem uniform_count_fails :
    ¬ ∀ (g : Csr (WithTop Nat)) (cfg : SamplingConfig) (seeds : Seeds) (sub : SampledSubgraph),
      cfg.subgraphType = .directional → cfg.trackEdgeIds = true → cfg.replace = false →
      cfg.temporalStrategy = none → cfg.weighted = false → cfg.cumulative = false →
      cfg.disjoint = false →
      ((fresh false g.numNodes 0 : NeighborSampler WyRand (WithTop Nat)).sample .sorting g cfg seeds
        none).1 = .ok sub →
      ∀ u ∈ sub.hopNodes.getD 0 [],
        (drawnBy u (sub.hopEdges.getD 0 [])).length = min (cfg.fanout.getD 0 0) (g.degree u) := by
  intro claim
  have count := claim corruptRow { (default : SamplingConfig) with fanout := [1] } ⟨[0], 1, by decide⟩ _
    rfl rfl rfl rfl rfl rfl rfl rfl 0
  revert count
  decide

end Corrupt

end AetherGraph
