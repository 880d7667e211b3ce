import AetherGraph.SamplerFaithful

/-! Where a pass stands between its hops and its subgraph type: the edges are sampled, and the
buffers hold them for `induce` and `mirror`. -/

namespace AetherGraph

namespace Pass

variable {σ : Type} [Rng σ] {Time : Type} [LT Time] [DecidableLT Time] [Top Time]
variable {ops : SliceOps} {g : Csr Time} {cfg : SamplingConfig} {p : Pass Time}

variable (ops cfg) in
theorem Sound.hops (h : Sound g p) (r : σ) : Sound g (Pass.hops ops g cfg p r).2.1 := by
  unfold Pass.hops
  refine runHopsFrom_induct (Q := Sound g) (fun p hop h => ?_)
    (fun p r hop entry hentry h => h.expand rfl hentry) (fun p h => ?_) (fun p h => ?_) _ _ h r
  · exact { h with next := fun x hx => absurd hx List.not_mem_nil }
  · exact { h with frontier := List.forall_mem_append.mpr ⟨h.frontier, h.next⟩ }
  · exact { h with frontier := h.next, next := h.frontier }

end Pass

namespace NeighborSampler

variable {σ : Type} [Rng σ] {Time : Type} [LT Time] [DecidableLT Time] [LE Time] [DecidableLE Time]
  [Top Time]
variable (ops : SliceOps) (g : Csr Time) (cfg : SamplingConfig)

/-- The samplers of a graph: new, after a call, and between the blocks of one. -/
inductive Reached : NeighborSampler σ Time → Prop where
  | new (dense : Bool) (first : Nat) : Reached (fresh dense g.numNodes first)
  | call {s : NeighborSampler σ Time} (call : Call g.numNodes Time) :
      Reached s → Reached (s.afterCall g ops call)
  | block {s : NeighborSampler σ Time} (cfg : SamplingConfig) (out : SampledSubgraph)
      (entry : (Nat × Time) × Nat) (inRange : entry.1.1 < g.numNodes) :
      Reached s → Reached (sampleBlock ops g cfg (out, s) entry).2

/-- After the hops of a call over all seeds. -/
def sampledAll (s : NeighborSampler σ Time) (seeds : List Nat) (inputTimes : Option (List Time)) :
    NeighborSampler σ Time :=
  let isTemporal := cfg.temporalStrategy.isSome
  let s := { s.beginPass isTemporal with seedLocalsBuf := [] }
  (((seedTimes seeds inputTimes).foldl registerSeed s).runHops ops g cfg isTemporal).2

/-- After the hops of one seed's block. -/
def sampledBlock (s : NeighborSampler σ Time) (seed : Nat × Time) : NeighborSampler σ Time :=
  let isTemporal := cfg.temporalStrategy.isSome
  let registered := (s.beginPass isTemporal).register seed.1 seed.2
  let s := { registered.2 with
    frontier := registered.2.frontier ++ [(seed.1, registered.1.1)] }
  (s.runHops ops g cfg isTemporal).2

/-- A pass on the sampler, ready for its subgraph type, with the edges it emitted. -/
inductive PassOf (s : NeighborSampler σ Time) :
    NeighborSampler σ Time → List SampledEdge → Prop where
  | shared (seeds : List Nat) (inRange : ∀ id ∈ seeds, id < g.numNodes)
      (inputTimes : Option (List Time)) :
      PassOf s (s.sampledAll ops g cfg seeds inputTimes)
        (Pass.hops ops g cfg (Pass.seeded cfg (seedTimes seeds inputTimes)) s.rng).2.1.edges
  | block (seed : Nat × Time) (inRange : seed.1 < g.numNodes) :
      PassOf s (s.sampledBlock ops g cfg seed)
        (Pass.hops ops g cfg (Pass.rooted cfg seed) s.rng).2.1.edges

variable {ops g cfg} {s pass : NeighborSampler σ Time} {p : Pass Time}
variable {sampled : List SampledEdge}

omit [LE Time] [DecidableLE Time] in
theorem Sim.ran (ops : SliceOps) {hop : Nat} {r : σ} (h : Sim g.numNodes cfg s (p.atHop hop) r) :
    ∃ last, Tracks g.numNodes cfg (s.runHops ops g cfg cfg.temporalStrategy.isSome).2
      ((Pass.hops ops g cfg p r).2.1.atHop last) := by
  obtain ⟨-, ran⟩ := h.runHopsFrom ops rfl cfg.fanout.length 0
  obtain ⟨last, same⟩ := Pass.runHopsFrom_atHop ops g cfg hop p cfg.temporalStrategy.isSome 0
    cfg.fanout.length r
  rw [same] at ran
  exact ⟨last, ran.tracks⟩

theorem Reached.ready (h : Reached ops g s) : s.Ready g.numNodes := by
  induction h with
  | new dense first => exact fresh_ready dense g.numNodes first
  | call call _ ih => exact ih.afterCall ops call
  | block cfg out entry inRange _ ih => exact (ih.sampleBlock cfg ops out inRange).2.1

/-- How a pass starts: with its seeds, or with the one seed of a block. -/
inductive Starts (cfg : SamplingConfig) : List (Nat × Time) → Pass Time → Prop where
  | shared (seeds : List (Nat × Time)) : Starts cfg seeds (Pass.seeded cfg seeds)
  | block (seed : Nat × Time) : Starts cfg [seed] (Pass.rooted cfg seed)

omit [LE Time] [DecidableLE Time] [Top Time] in
variable (g) in
theorem Starts.seeded {seeds : List (Nat × Time)} {start : Pass Time} (h : Starts cfg seeds start) :
    ∃ ids locals, Pass.Seeded g ids locals start := by
  cases h with
  | shared seeds => exact ⟨_, _, Pass.seeded_seeded g cfg seeds⟩
  | block seed => exact ⟨_, _, Pass.rooted_seeded seed⟩

omit [LE Time] [DecidableLE Time] in
/-- The buffers before the subgraph type hold the pass without scratch. -/
theorem PassOf.tracks (h : s.Ready g.numNodes) (hp : PassOf ops g cfg s pass sampled) :
    ∃ seeds start hop, Starts cfg seeds start ∧
      sampled = (Pass.hops ops g cfg start s.rng).2.1.edges ∧
      Tracks g.numNodes cfg pass ((Pass.hops ops g cfg start s.rng).2.1.atHop hop) := by
  have begun := h.beginPass cfg
  cases hp with
  | shared seeds inRange inputTimes =>
      have cleared : Sim g.numNodes cfg
          { s.beginPass cfg.temporalStrategy.isSome with seedLocalsBuf := [] }
          ((Pass.start cfg.temporalStrategy.isSome).atHop s.hop) s.rng :=
        ⟨{ begun.tracks with seedLocals := rfl }, begun.floyd, begun.rng⟩
      have registered := cleared.registerSeeds (seedTimes_inRange inRange inputTimes)
      rw [Pass.registerSeed_atHop] at registered
      obtain ⟨last, tracks⟩ := registered.ran ops
      exact ⟨_, _, last, .shared (seedTimes seeds inputTimes), rfl, tracks⟩
  | block seed inRange =>
      obtain ⟨found, tracks⟩ := begun.tracks.register inRange seed.2
      have kept := kept_register (s.beginPass cfg.temporalStrategy.isSome) seed.1 seed.2
      have rooted : Sim g.numNodes cfg
          { ((s.beginPass cfg.temporalStrategy.isSome).register seed.1 seed.2).2 with
            frontier := ((s.beginPass cfg.temporalStrategy.isSome).register
              seed.1 seed.2).2.frontier ++ [(seed.1, 0)] }
          ((Pass.rooted cfg seed).atHop s.hop) s.rng := by
        refine ⟨{ tracks with frontier := ?_ }, kept.floyd ▸ begun.floyd, kept.rng⟩
        rw [tracks.frontier]
        rfl
      obtain ⟨last, tracks⟩ := rooted.ran ops
      refine ⟨_, _, last, .block seed, rfl, ?_⟩
      have seedLocal :
          ((s.beginPass cfg.temporalStrategy.isSome).register seed.1 seed.2).1.1 = 0 := by
        rw [found]
        rfl
      unfold sampledBlock
      dsimp only
      rw [seedLocal]
      exact tracks

end NeighborSampler

end AetherGraph
