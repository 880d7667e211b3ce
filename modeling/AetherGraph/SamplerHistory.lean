import AetherGraph.SamplerReuse
import AetherGraph.SamplerRuns

/-! Calls on one sampler, one after the other: each returns what the pass without scratch
returns from the generator at hand, so a reseeded sampler cannot be told from a new one. -/

namespace AetherGraph

open Foundation

namespace Pass

section AtHop

variable {σ : Type} [Rng σ] {Time : Type} [LT Time] [DecidableLT Time] [LE Time] [DecidableLE Time]
  [Top Time]
variable (ops : SliceOps) (g : Csr Time) (cfg : SamplingConfig)

/-- The pass with another hop number, which the first hop overwrites. -/
def atHop {Time : Type} (hop : Nat) (p : Pass Time) : Pass Time := { p with hop := hop }

omit [LE Time] [DecidableLE Time] [Top Time] in
theorem registerSeed_atHop (hop : Nat) (p : Pass Time) (seeds : List (Nat × Time)) :
    seeds.foldl registerSeed (p.atHop hop) = (seeds.foldl registerSeed p).atHop hop := by
  refine List.foldl_hom (atHop hop) fun p seed => ?_
  unfold registerSeed register atHop
  dsimp only
  split <;> rfl

omit [LE Time] [DecidableLE Time] in
theorem runHopsFrom_atHop (hop : Nat) (p : Pass Time) (isTemporal : Bool) (from_ hops : Nat)
    (r : σ) :
    ∃ last, runHopsFrom ops g cfg isTemporal from_ hops (p.atHop hop, r) =
      ((runHopsFrom ops g cfg isTemporal from_ hops (p, r)).1,
        (runHopsFrom ops g cfg isTemporal from_ hops (p, r)).2.1.atHop last,
        (runHopsFrom ops g cfg isTemporal from_ hops (p, r)).2.2) := by
  cases hops with
  | zero => exact ⟨hop, rfl⟩
  | succ hops => exact ⟨(runHopsFrom ops g cfg isTemporal from_ (hops + 1) (p, r)).2.1.hop, rfl⟩

omit [LT Time] [DecidableLT Time] in
theorem applySubgraphType_atHop (hop : Nat) (p : Pass Time) :
    (p.atHop hop).applySubgraphType g cfg = (p.applySubgraphType g cfg).atHop hop := by
  unfold applySubgraphType
  cases cfg.subgraphType with
  | directional => rfl
  | bidirectional => rfl
  | induced =>
      change List.foldl _ (atHop hop { p with edges := [] }) _ = atHop hop (List.foldl _ _ _)
      refine List.foldl_hom (atHop hop) fun p entry => ?_
      refine List.foldl_hom (atHop hop) fun p pos => ?_
      unfold induceEdge atHop
      dsimp only
      generalize Option.any _ _ = late
      cases late with
      | true => rfl
      | false => cases GenDedup.localOf p.nodes (g.edges.getD pos 0) <;> rfl

end AtHop

end Pass

namespace NeighborSampler

variable {σ : Type} [Rng σ] {Time : Type} [LT Time] [DecidableLT Time] [LE Time] [DecidableLE Time]
  [Top Time]
variable {g : Csr Time} {cfg : SamplingConfig} {s : NeighborSampler σ Time} {p : Pass Time}

omit [LT Time] [DecidableLT Time] [LE Time] [DecidableLE Time] [Top Time] in
theorem fresh_ready (dense : Bool) (numNodes seed : Nat) :
    (fresh dense numNodes seed : NeighborSampler σ Time).Ready numNodes where
  dedup := by
    cases dense with
    | false => trivial
    | true =>
        refine ⟨List.length_replicate, Nat.two_pow_pos 32, fun slot hslot => ?_⟩
        rw [List.eq_of_mem_replicate hslot]
        exact Nat.zero_le _
  floyd := FloydStamps.new_ready
  seedLocals := rfl

variable (cfg) in
omit [Rng σ] [LT Time] [DecidableLT Time] [LE Time] [DecidableLE Time] [Top Time] in
/-- A pass starts from nothing but the generator. -/
theorem Ready.beginPass (h : s.Ready g.numNodes) :
    Sim g.numNodes cfg (s.beginPass cfg.temporalStrategy.isSome)
      ((Pass.start cfg.temporalStrategy.isSome).atHop s.hop) s.rng where
  tracks := {
    nodes := rfl
    times := rfl
    trackTimes := rfl
    hop := rfl
    src := rfl
    dst := rfl
    ids := by simp [Pass.edgeIds, Pass.atHop, Pass.start, NeighborSampler.beginPass]
    srcLocal := rfl
    dstLocal := rfl
    seedLocals := h.seedLocals
    frontier := rfl
    next := rfl
    emittedAt := rfl
    dedup := GenDedup.begin_ready h.dedup
    nodup := List.nodup_nil
    inRange := fun n hn => absurd hn List.not_mem_nil }
  floyd := h.floyd
  rng := rfl

omit [Rng σ] [LE Time] [DecidableLE Time] [Top Time] in
theorem Sim.registerSeed {r : σ} (h : Sim g.numNodes cfg s p r) {seed : Nat × Time}
    (inRange : seed.1 < g.numNodes) :
    Sim g.numNodes cfg (s.registerSeed seed) (p.registerSeed seed) r := by
  obtain ⟨found, tracks⟩ := h.tracks.register inRange seed.2
  have kept := kept_register s seed.1 seed.2
  have frontier : (p.register seed.1 seed.2).frontier = p.frontier := by
    unfold Pass.register
    split <;> rfl
  have seedLocals : (p.register seed.1 seed.2).seedLocals = p.seedLocals := by
    unfold Pass.register
    split <;> rfl
  have pushed : (s.register seed.1 seed.2).2.seedLocalsBuf ++ [(s.register seed.1 seed.2).1.1] =
      p.seedLocals ++ [p.nodes.idxOf seed.1] := by
    rw [tracks.seedLocals, seedLocals, found]
  unfold NeighborSampler.registerSeed Pass.registerSeed
  dsimp only
  rw [pushed]
  simp only [found, decide_eq_true_eq]
  refine ⟨?_, ?_, ?_⟩
  · by_cases known : seed.1 ∈ p.nodes
    · rw [if_neg (not_not_intro known), if_pos known]
      exact { tracks with seedLocals := rfl, frontier := tracks.frontier.trans frontier }
    · rw [if_pos known, if_neg known]
      exact { tracks with
        seedLocals := rfl
        frontier := congrArg (· ++ _) (tracks.frontier.trans frontier) }
  · split
    · exact kept.floyd ▸ h.floyd
    · exact kept.floyd ▸ h.floyd
  · split
    · exact kept.rng.trans h.rng
    · exact kept.rng.trans h.rng

omit [Rng σ] [LE Time] [DecidableLE Time] [Top Time] in
theorem Sim.registerSeeds {r : σ} (h : Sim g.numNodes cfg s p r) {seeds : List (Nat × Time)}
    (inRange : ∀ seed ∈ seeds, seed.1 < g.numNodes) :
    Sim g.numNodes cfg (seeds.foldl NeighborSampler.registerSeed s)
      (seeds.foldl Pass.registerSeed p) r := by
  induction seeds generalizing s p with
  | nil => exact h
  | cons seed seeds ih =>
      have first := h.registerSeed (inRange seed List.mem_cons_self)
      exact ih first fun later hlater => inRange later (List.mem_cons_of_mem seed hlater)

variable (ops : SliceOps)

/-- From the start of a pass to its subgraph: the counts, and what the emitted buffers hold. -/
theorem Sim.finish {hop : Nat} {r : σ} (h : Sim g.numNodes cfg s (p.atHop hop) r) :
    let ran := s.runHops ops g cfg cfg.temporalStrategy.isSome
    let out := Pass.hops ops g cfg p r
    ran.1 = out.1 ∧ ∃ last, Sim g.numNodes cfg (ran.2.applySubgraphType g cfg)
      ((out.2.1.applySubgraphType g cfg).atHop last) out.2.2 := by
  obtain ⟨counts, ran⟩ := h.runHopsFrom ops rfl cfg.fanout.length 0
  obtain ⟨last, same⟩ := Pass.runHopsFrom_atHop ops g cfg hop p cfg.temporalStrategy.isSome 0
    cfg.fanout.length r
  rw [same] at counts ran
  obtain ⟨tracks, kept⟩ := ran.tracks.applySubgraphType
  rw [Pass.applySubgraphType_atHop] at tracks
  exact ⟨counts, last, tracks, kept.floyd ▸ ran.floyd, kept.rng.trans ran.rng⟩

omit [LT Time] [DecidableLT Time] [LE Time] [DecidableLE Time] in
theorem seedTimes_inRange {seeds : List Nat} (inRange : ∀ id ∈ seeds, id < g.numNodes)
    (inputTimes : Option (List Time)) : ∀ seed ∈ seedTimes seeds inputTimes, seed.1 < g.numNodes := by
  intro seed hseed
  obtain ⟨entry, hentry, rfl⟩ := List.mem_map.mp hseed
  exact inRange entry.1 (List.fst_mem_of_mem_zipIdx hentry)

theorem Ready.sampleNeighborsInner (h : s.Ready g.numNodes) {seeds : List Nat}
    (inRange : ∀ id ∈ seeds, id < g.numNodes) (inputTimes : Option (List Time)) :
    (s.sampleNeighborsInner ops g cfg seeds inputTimes).1 =
        (Pass.inner ops g cfg seeds inputTimes s.rng).1 ∧
      (s.sampleNeighborsInner ops g cfg seeds inputTimes).2.Ready g.numNodes ∧
      (s.sampleNeighborsInner ops g cfg seeds inputTimes).2.rng =
        (Pass.inner ops g cfg seeds inputTimes s.rng).2 := by
  have begun := h.beginPass cfg
  have cleared : Sim g.numNodes cfg
      { s.beginPass cfg.temporalStrategy.isSome with seedLocalsBuf := [] }
      ((Pass.start cfg.temporalStrategy.isSome).atHop s.hop) s.rng :=
    ⟨{ begun.tracks with seedLocals := rfl }, begun.floyd, begun.rng⟩
  have registered := cleared.registerSeeds (seedTimes_inRange inRange inputTimes)
  rw [Pass.registerSeed_atHop] at registered
  obtain ⟨counts, last, sim⟩ := registered.finish ops
  refine ⟨?_, ⟨sim.tracks.dedup.ready, sim.floyd, rfl⟩, sim.rng⟩
  unfold NeighborSampler.sampleNeighborsInner Pass.inner
  dsimp only
  rw [counts, registered.tracks.nodes, sim.tracks.nodes, sim.tracks.src, sim.tracks.dst,
    sim.tracks.ids, sim.tracks.srcLocal, sim.tracks.dstLocal, sim.tracks.seedLocals]
  rfl

variable (cfg) in
theorem Ready.sampleBlock (h : s.Ready g.numNodes) (out : SampledSubgraph)
    {entry : (Nat × Time) × Nat} (inRange : entry.1.1 < g.numNodes) :
    (NeighborSampler.sampleBlock ops g cfg (out, s) entry).1 =
        (Pass.block ops g cfg (out, s.rng) entry).1 ∧
      (NeighborSampler.sampleBlock ops g cfg (out, s) entry).2.Ready g.numNodes ∧
      (NeighborSampler.sampleBlock ops g cfg (out, s) entry).2.rng =
        (Pass.block ops g cfg (out, s.rng) entry).2 := by
  have begun := h.beginPass cfg
  obtain ⟨found, tracks⟩ := begun.tracks.register inRange entry.1.2
  have kept := kept_register (s.beginPass cfg.temporalStrategy.isSome) entry.1.1 entry.1.2
  have seedLocal :
      ((s.beginPass cfg.temporalStrategy.isSome).register entry.1.1 entry.1.2).1.1 = 0 := by
    rw [found]
    rfl
  have rooted : Sim g.numNodes cfg
      { ((s.beginPass cfg.temporalStrategy.isSome).register entry.1.1 entry.1.2).2 with
        frontier := ((s.beginPass cfg.temporalStrategy.isSome).register
          entry.1.1 entry.1.2).2.frontier ++ [(entry.1.1, 0)] }
      ((Pass.rooted cfg entry.1).atHop s.hop) s.rng := by
    refine ⟨{ tracks with frontier := ?_ }, kept.floyd ▸ begun.floyd, kept.rng⟩
    rw [tracks.frontier]
    rfl
  obtain ⟨counts, last, sim⟩ := rooted.finish ops
  unfold NeighborSampler.sampleBlock Pass.block
  dsimp only
  rw [seedLocal]
  refine ⟨?_, ⟨sim.tracks.dedup.ready, sim.floyd, ?_⟩, sim.rng⟩
  · rw [counts, sim.tracks.nodes, sim.tracks.src, sim.tracks.dst, sim.tracks.ids,
      sim.tracks.srcLocal, sim.tracks.dstLocal]
    simp only [List.map_map]
    rfl
  · rw [sim.tracks.seedLocals]
    refine (Pass.seedLocals_applySubgraphType _).trans ((Pass.seedLocals_hops _ _).trans ?_)
    rfl

theorem Ready.sampleNeighborsDisjoint (h : s.Ready g.numNodes) {seeds : List Nat}
    (inRange : ∀ id ∈ seeds, id < g.numNodes) (inputTimes : Option (List Time)) :
    (s.sampleNeighborsDisjoint ops g cfg seeds inputTimes).1 =
        (Pass.disjoint ops g cfg seeds inputTimes s.rng).1 ∧
      (s.sampleNeighborsDisjoint ops g cfg seeds inputTimes).2.Ready g.numNodes ∧
      (s.sampleNeighborsDisjoint ops g cfg seeds inputTimes).2.rng =
        (Pass.disjoint ops g cfg seeds inputTimes s.rng).2 := by
  have blocks : ∀ (entries : List ((Nat × Time) × Nat)),
      (∀ entry ∈ entries, entry.1.1 < g.numNodes) →
      ∀ (out : SampledSubgraph) {s : NeighborSampler σ Time}, s.Ready g.numNodes →
        (entries.foldl (NeighborSampler.sampleBlock ops g cfg) (out, s)).1 =
            (entries.foldl (Pass.block ops g cfg) (out, s.rng)).1 ∧
          (entries.foldl (NeighborSampler.sampleBlock ops g cfg) (out, s)).2.Ready g.numNodes ∧
          (entries.foldl (NeighborSampler.sampleBlock ops g cfg) (out, s)).2.rng =
            (entries.foldl (Pass.block ops g cfg) (out, s.rng)).2 := by
    intro entries
    induction entries with
    | nil => exact fun _ out s h => ⟨rfl, h, rfl⟩
    | cons entry entries ih =>
        intro inRange out s h
        obtain ⟨same, ready, rng⟩ := h.sampleBlock cfg ops out (inRange entry List.mem_cons_self)
        have rest := ih (fun e he => inRange e (List.mem_cons_of_mem entry he))
          (NeighborSampler.sampleBlock ops g cfg (out, s) entry).1 ready
        rw [same, rng] at rest
        simp only [List.foldl_cons]
        rw [← Prod.mk.eta (p := NeighborSampler.sampleBlock ops g cfg (out, s) entry), same]
        exact rest
  refine blocks (seedTimes seeds inputTimes).zipIdx (fun entry hentry => ?_) _ h
  exact seedTimes_inRange inRange inputTimes entry.1 (List.fst_mem_of_mem_zipIdx hentry)

/-- `sample` returns what the pass without scratch returns from the sampler's generator. -/
theorem Ready.sample (h : s.Ready g.numNodes) (seeds : Seeds) (inputTimes : Option (List Time)) :
    (s.sample ops g cfg seeds inputTimes).1 = (Pass.sample ops g cfg seeds inputTimes s.rng).1 ∧
      (s.sample ops g cfg seeds inputTimes).2.Ready g.numNodes ∧
      (s.sample ops g cfg seeds inputTimes).2.rng =
        (Pass.sample ops g cfg seeds inputTimes s.rng).2 := by
  unfold NeighborSampler.sample Pass.sample
  cases checked : checkSample g cfg seeds inputTimes with
  | some e => exact ⟨rfl, h, rfl⟩
  | none =>
      have inGraph : seeds.numNodes ≤ g.numNodes := by
        refine Nat.le_of_not_lt fun exceeds => ?_
        unfold checkSample at checked
        rw [if_pos exceeds] at checked
        cases checked
      have inRange : ∀ id ∈ seeds.ids, id < g.numNodes := fun id hid =>
        Nat.lt_of_lt_of_le (seeds.inRange id hid) inGraph
      dsimp only
      split
      · obtain ⟨same, ready, rng⟩ := h.sampleNeighborsDisjoint ops inRange inputTimes
        exact ⟨congrArg _ same, ready, rng⟩
      · obtain ⟨same, ready, rng⟩ := h.sampleNeighborsInner ops inRange inputTimes
        exact ⟨congrArg _ same, ready, rng⟩

theorem Ready.sampleNeighborsTemporal (h : s.Ready g.numNodes) {seeds : List Nat}
    (inRange : ∀ id ∈ seeds, id < g.numNodes) (inputTimes : List Time) :
    (s.sampleNeighborsTemporal ops g cfg seeds inputTimes).2.Ready g.numNodes := by
  unfold NeighborSampler.sampleNeighborsTemporal
  split
  · exact h
  · split
    · exact h
    · split
      · exact h
      · exact (h.sampleNeighborsInner ops inRange (some inputTimes)).2.1

omit [LT Time] [DecidableLT Time] [LE Time] [DecidableLE Time] [Top Time] in
theorem Ready.reseed (h : s.Ready g.numNodes) (seed : Nat) :
    (s.reseed seed).Ready g.numNodes := { h with }

/-- A call on a sampler of a graph of `numNodes` nodes, each with a config of its own. -/
inductive Call (numNodes : Nat) (Time : Type) where
  | reseed (seed : Nat)
  | sample (cfg : SamplingConfig) (seeds : Seeds) (inputTimes : Option (List Time))
  | sampleNeighbors (cfg : SamplingConfig) (seeds : List (Fin numNodes))
  | sampleNeighborsTemporal (cfg : SamplingConfig) (seeds : List (Fin numNodes))
      (inputTimes : List Time)
  | sampleNeighborsDisjoint (cfg : SamplingConfig) (seeds : List (Fin numNodes))
      (inputTimes : Option (List Time))

variable (g)

/-- What the call leaves of the sampler. -/
def afterCall (s : NeighborSampler σ Time) : Call g.numNodes Time → NeighborSampler σ Time
  | .reseed seed => s.reseed seed
  | .sample cfg seeds inputTimes => (s.sample ops g cfg seeds inputTimes).2
  | .sampleNeighbors cfg seeds => (s.sampleNeighbors ops g cfg (seeds.map Fin.val)).2
  | .sampleNeighborsTemporal cfg seeds inputTimes =>
      (s.sampleNeighborsTemporal ops g cfg (seeds.map Fin.val) inputTimes).2
  | .sampleNeighborsDisjoint cfg seeds inputTimes =>
      (s.sampleNeighborsDisjoint ops g cfg (seeds.map Fin.val) inputTimes).2

def afterCalls (s : NeighborSampler σ Time) (calls : List (Call g.numNodes Time)) :
    NeighborSampler σ Time := calls.foldl (afterCall g ops) s

variable {g}

theorem Ready.afterCall (h : s.Ready g.numNodes) (call : Call g.numNodes Time) :
    (afterCall g ops s call).Ready g.numNodes := by
  have inRange : ∀ (seeds : List (Fin g.numNodes)), ∀ id ∈ seeds.map Fin.val, id < g.numNodes := by
    intro seeds id hid
    obtain ⟨seed, -, rfl⟩ := List.mem_map.mp hid
    exact seed.isLt
  cases call with
  | reseed seed => exact h.reseed seed
  | sample cfg seeds inputTimes => exact (h.sample ops seeds inputTimes).2.1
  | sampleNeighbors cfg seeds => exact (h.sampleNeighborsInner ops (inRange seeds) none).2.1
  | sampleNeighborsTemporal cfg seeds inputTimes =>
      exact h.sampleNeighborsTemporal ops (inRange seeds) inputTimes
  | sampleNeighborsDisjoint cfg seeds inputTimes =>
      exact (h.sampleNeighborsDisjoint ops (inRange seeds) inputTimes).2.1

theorem Ready.afterCalls (h : s.Ready g.numNodes) (calls : List (Call g.numNodes Time)) :
    (s.afterCalls g ops calls).Ready g.numNodes := by
  induction calls generalizing s with
  | nil => exact h
  | cons call calls ih => exact ih (h.afterCall ops call)

/-- Samplers ready for a pass return the same from the same seed. -/
theorem Ready.sample_reseed {s' : NeighborSampler σ Time} (h : s.Ready g.numNodes)
    (h' : s'.Ready g.numNodes) (seed : Nat) (seeds : Seeds) (inputTimes : Option (List Time)) :
    ((s.reseed seed).sample ops g cfg seeds inputTimes).1 =
      ((s'.reseed seed).sample ops g cfg seeds inputTimes).1 :=
  ((h.reseed seed).sample ops seeds inputTimes).1.trans
    ((h'.reseed seed).sample ops seeds inputTimes).1.symm

end NeighborSampler

end AetherGraph
