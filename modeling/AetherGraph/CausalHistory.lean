import AetherGraph.TemporalWalks

/-! Where the bound of a node comes from: a seed's time, or an edge emitted into it.  Followed
back, every temporally sampled edge has a history of later edges from a seed. -/

namespace AetherGraph

namespace Pass

section Chains

/-- A path of edges between node ids. -/
def IsPath : Nat → List SampledEdge → Nat → Prop
  | u, [], v => u = v
  | u, e :: es, v => e.src = u ∧ IsPath e.dst es v

theorem IsPath.concat {u v : Nat} {es : List SampledEdge} (h : IsPath u es v) {e : SampledEdge}
    (here : e.src = v) : IsPath u (es ++ [e]) e.dst := by
  induction es generalizing u with
  | nil => exact ⟨here.trans h.symm, rfl⟩
  | cons e' es ih => exact ⟨h.1, ih h.2⟩

variable {Time : Type} [LinearOrder Time]

/-- A chain of edges emitted before `e`, in order, from a seed to its source: the timestamps
decrease along the chain to the one of `e`, and start below the seed's time. -/
def Caused (time : SampledEdge → Time) (seeds : List (Nat × Time)) (before : List SampledEdge)
    (e : SampledEdge) : Prop :=
  ∃ s ∈ seeds, ∃ chain : List SampledEdge, chain.Sublist before ∧ IsPath s.1 chain e.src ∧
    (chain ++ [e]).Pairwise (fun a b => time b < time a) ∧
    ∀ x ∈ (chain ++ [e]).head?, time x < s.2

variable {time : SampledEdge → Time} {seeds : List (Nat × Time)} {edges : List SampledEdge}

/-- What a bound comes from. -/
def Attained (time : SampledEdge → Time) (seeds : List (Nat × Time)) (edges : List SampledEdge)
    (x : Nat) (b : Time) : Prop :=
  (∃ s ∈ seeds, s.1 = x ∧ s.2 = b) ∨ ∃ e ∈ edges, e.dst = x ∧ time e = b

omit [LinearOrder Time] in
theorem Attained.mono {x : Nat} {b : Time} (h : Attained time seeds edges x b)
    {more : List SampledEdge} (sub : edges ⊆ more) : Attained time seeds more x b :=
  h.imp id fun ⟨e, he, into⟩ => ⟨e, sub he, into⟩

/-- An edge under the bound of its source extends the history of that bound. -/
theorem Attained.caused {u : Nat} {b : Time} (h : Attained time seeds edges u b)
    (all : EveryStep (Caused time seeds) edges) {e : SampledEdge} (out : e.src = u)
    (less : time e < b) : Caused time seeds edges e := by
  rcases h with ⟨s, hs, rfl, rfl⟩ | ⟨e', he', rfl, rfl⟩
  · refine ⟨s, hs, [], List.nil_sublist _, out.symm, List.pairwise_singleton .., fun x hx => ?_⟩
    obtain rfl := Option.some.inj hx
    exact less
  · obtain ⟨before, after, same⟩ := List.append_of_mem he'
    obtain ⟨s, hs, chain, early, path, falls, starts⟩ := all before e' after same
    refine ⟨s, hs, chain ++ [e'], ?_, out ▸ path.concat rfl, ?_, fun x hx => ?_⟩
    · rw [same]
      exact early.append (List.singleton_sublist.mpr List.mem_cons_self)
    · refine List.pairwise_append.mpr ⟨falls, List.pairwise_singleton .., fun x hx y hy => ?_⟩
      rw [List.mem_singleton.mp hy]
      rcases List.mem_append.mp hx with old | last
      · exact lt_trans less ((List.pairwise_append.mp falls).2.2 x old e' List.mem_cons_self)
      · rw [List.mem_singleton.mp last]
        exact less
    · refine starts x ?_
      rwa [List.head?_append_of_ne_nil _ (List.append_ne_nil_of_right_ne_nil _
        (List.cons_ne_nil _ _))] at hx

end Chains

section Run

variable {σ : Type} [Rng σ] {Time : Type} [LinearOrder Time] [OrderTop Time]
variable {ops : SliceOps} {g : Csr Time} {cfg : SamplingConfig} {p : Pass Time} {ts : List Time}
variable {seeds : List (Nat × Time)}

/-- The state of a temporal pass: every bound is attained, and every edge is caused. -/
structure Causal (g : Csr Time) (ts : List Time) (seeds : List (Nat × Time)) (p : Pass Time) :
    Prop where
  sound : Sound g p
  bounds : TimesMeet (Attained (stampOf ts) seeds p.edges) p
  caused : EveryStep (Caused (stampOf ts) seeds) p.edges

theorem Causal.emit (h : Causal g ts seeds p) {src srcLocal : Nat}
    (named : p.nodes[srcLocal]? = some src) {dst eid : Nat}
    (row : (g.neighborRange src).1 ≤ eid ∧ eid < (g.neighborRange src).2)
    (target : g.edges[eid]? = some dst)
    (own : ∀ dstLocal, Caused (stampOf ts) seeds p.edges ⟨src, srcLocal, dst, dstLocal, eid⟩) :
    Causal g ts seeds (p.emit g cfg src srcLocal dst eid (ts.getD eid ⊤)) := by
  have sound : Sound g (p.emit g cfg src srcLocal dst eid (ts.getD eid ⊤)) :=
    h.sound.emit named row target (ts.getD eid ⊤)
  obtain ⟨-, -, -, track⟩ := emit_frame g cfg src srcLocal p dst eid (ts.getD eid ⊤)
  obtain ⟨nodes, times, edges⟩ | ⟨nodes, times, edges⟩ :=
    emit_effect g cfg src srcLocal p dst eid (ts.getD eid ⊤)
  · refine ⟨sound, ⟨track.trans h.bounds.track, ?_, ?_⟩, ?_⟩
    · rw [nodes, times, h.bounds.length]
    · rw [nodes, times, edges]
      exact h.bounds.meet
    · rw [edges]
      exact h.caused
  · have sub : p.edges ⊆ p.edges ++ [⟨src, srcLocal, dst, p.nodes.idxOf dst, eid⟩] :=
      List.subset_append_left _ _
    have reached : Attained (stampOf ts) seeds
        (p.edges ++ [⟨src, srcLocal, dst, p.nodes.idxOf dst, eid⟩]) dst (ts.getD eid ⊤) :=
      .inr ⟨_, List.mem_append_right _ List.mem_cons_self, rfl, rfl⟩
    have registered : TimesMeet (Attained (stampOf ts) seeds
        (p.edges ++ [⟨src, srcLocal, dst, p.nodes.idxOf dst, eid⟩]))
        (p.register dst (ts.getD eid ⊤)) :=
      h.bounds.register dst (ts.getD eid ⊤) (fun _ _ _ _ old => old.mono sub)
        (fun _ b old => by
          rcases min_choice (ts.getD eid ⊤) b with lowered | kept
          · rw [lowered]
            exact reached
          · rw [kept]
            exact old.mono sub)
        (fun _ => reached) h.sound.nodup
    refine ⟨sound, ⟨track.trans h.bounds.track, ?_, ?_⟩, ?_⟩
    · rw [nodes, times]
      exact registered.length
    · rw [nodes, times, edges]
      exact registered.meet
    · rw [edges]
      exact everyStep_concat.mpr ⟨h.caused, own _⟩

/-- An expansion draws under the bound its node had at its start, and that bound is attained by
edges emitted before. -/
theorem Causal.expand {strategy : TemporalStrategy}
    (temporal : cfg.temporalStrategy = some strategy) (stamps : g.timestamps = some ts)
    (h : Causal g ts seeds p) (sampleSize : Nat) (r : σ) {entry : Nat × Nat}
    (hentry : entry ∈ p.frontier) :
    Causal g ts seeds (Pass.expand ops g cfg true sampleSize (p, r) entry).1 := by
  have bound := h.bounds.bound (h.sound.frontier entry hentry)
  suffices run : Causal g ts seeds (Pass.expand ops g cfg true sampleSize (p, r) entry).1 ∧
      p.edges ⊆ (Pass.expand ops g cfg true sampleSize (p, r) entry).1.edges from run.1
  refine expand_induct (Q := fun q => Causal g ts seeds q ∧ p.edges ⊆ q.edges) temporal stamps
    sampleSize r ⟨h, List.Subset.refl _⟩ ?_
  rintro q i dst ⟨causal, sub⟩ frontier inRow target less
  have own : ∀ dstLocal, Caused (stampOf ts) seeds q.edges
      ⟨entry.1, entry.2, dst, dstLocal, (g.neighborRange entry.1).1 + i⟩ := fun dstLocal =>
    (bound.mono sub).caused causal.caused rfl less
  refine ⟨causal.emit (causal.sound.frontier entry (frontier ▸ hentry)) (row_bounds inRow) target
    own, ?_⟩
  obtain ⟨-, -, kept⟩ | ⟨-, -, pushed⟩ := emit_effect g cfg entry.1 entry.2 q dst
    ((g.neighborRange entry.1).1 + i) (ts.getD ((g.neighborRange entry.1).1 + i) ⊤)
  · rw [kept]
    exact sub
  · rw [pushed]
    exact List.subset_append_of_subset_left _ sub

theorem Causal.hops {strategy : TemporalStrategy}
    (temporal : cfg.temporalStrategy = some strategy) (stamps : g.timestamps = some ts)
    (h : Causal g ts seeds p) (r : σ) : Causal g ts seeds (Pass.hops ops g cfg p r).2.1 := by
  have isTemporal : cfg.temporalStrategy.isSome = true := temporal ▸ rfl
  unfold Pass.hops
  rw [isTemporal]
  refine runHopsFrom_induct (fun p hop h => ?_)
    (fun p r hop entry hentry h => h.expand temporal stamps _ r hentry) (fun p h => ?_)
    (fun p h => ?_) _ _ h r
  · exact { h with sound := { h.sound with next := fun x hx => absurd hx List.not_mem_nil }
                   bounds := { h.bounds with } }
  · exact { h with
      sound := { h.sound with frontier := List.forall_mem_append.mpr ⟨h.sound.frontier, h.sound.next⟩ }
      bounds := { h.bounds with } }
  · exact { h with
      sound := { h.sound with frontier := h.sound.next, next := h.sound.frontier }
      bounds := { h.bounds with } }

omit [OrderTop Time] in
/-- Registering a seed keeps every bound attained. -/
theorem TimesMeet.registerSeed {time : SampledEdge → Time} (h : TimesMeet (Attained time seeds []) p)
    (nodup : p.nodes.Nodup) (seed : Nat × Time) :
    TimesMeet (Attained time (seeds ++ [seed]) []) (p.register seed.1 seed.2) := by
  have grown : ∀ {x b}, Attained time seeds [] x b → Attained time (seeds ++ [seed]) [] x b :=
    fun old => old.imp (fun ⟨s, hs, at_⟩ => ⟨s, List.mem_append_left _ hs, at_⟩) id
  have own : Attained time (seeds ++ [seed]) [] seed.1 seed.2 :=
    .inl ⟨seed, List.mem_append_right _ List.mem_cons_self, rfl, rfl⟩
  refine h.register seed.1 seed.2 (fun _ _ _ _ old => grown old) (fun _ b old => ?_)
    (fun _ => own) nodup
  rcases min_choice seed.2 b with lowered | kept
  · rw [lowered]
    exact own
  · rw [kept]
    exact grown old

theorem causal_seeded {strategy : TemporalStrategy}
    (temporal : cfg.temporalStrategy = some strategy) (ts : List Time) (seeds : List (Nat × Time)) :
    Causal g ts seeds (seeded cfg seeds) := by
  have isTemporal : cfg.temporalStrategy.isSome = true := temporal ▸ rfl
  suffices run : TimesMeet (Attained (stampOf ts) seeds []) (seeded cfg seeds) by
    have start := seeded_seeded g cfg seeds
    refine ⟨start.start.sound, ?_, ?_⟩
    · rw [start.edges]
      exact run
    · rw [start.edges]
      exact everyStep_nil _
  induction seeds using List.reverseRecOn with
  | nil =>
      refine ⟨isTemporal, rfl, fun l x b hx _ => ?_⟩
      exact absurd (List.mem_of_getElem? hx) List.not_mem_nil
  | append_singleton seeds seed ih =>
      have next := ih.registerSeed (seeded_seeded g cfg seeds).start.sound.nodup seed
      have registered : seeded cfg (seeds ++ [seed]) = (seeded cfg seeds).registerSeed seed := by
        unfold seeded
        rw [List.foldl_append]
        rfl
      rw [registered]
      exact ⟨next.track, next.length, next.meet⟩

theorem causal_rooted {strategy : TemporalStrategy}
    (temporal : cfg.temporalStrategy = some strategy) (ts : List Time) (seed : Nat × Time) :
    Causal g ts [seed] (rooted cfg seed) := by
  have isTemporal : cfg.temporalStrategy.isSome = true := temporal ▸ rfl
  have empty : TimesMeet (Attained (stampOf ts) [] [])
      (start cfg.temporalStrategy.isSome : Pass Time) :=
    ⟨isTemporal, rfl, fun l x b hx _ => absurd (List.mem_of_getElem? hx) List.not_mem_nil⟩
  have registered := empty.registerSeed List.nodup_nil seed
  exact ⟨(rooted_seeded seed).start.sound, { registered with }, everyStep_nil _⟩

variable (ops) in
theorem emittedBlocks_caused {strategy : TemporalStrategy}
    (temporal : cfg.temporalStrategy = some strategy) (stamps : g.timestamps = some ts)
    (seeds : List (Nat × Time)) (r : σ) :
    List.Forall₂ (fun s edges => EveryStep (Caused (stampOf ts) [s]) edges) seeds
      (emittedBlocks ops g cfg seeds r) := by
  induction seeds generalizing r with
  | nil => exact .nil
  | cons seed seeds ih =>
      exact .cons ((causal_rooted temporal ts seed).hops temporal stamps r).caused (ih _)

end Run

end Pass

namespace NeighborSampler

variable {σ : Type} [Rng σ] {Time : Type} [LinearOrder Time] [OrderTop Time]

/-- A subgraph that holds the edges as they were emitted. -/
structure Records (cfg : SamplingConfig) (sub : SampledSubgraph) (edges : List SampledEdge) :
    Prop where
  src : sub.edgeSrc = edges.map SampledEdge.src
  dst : sub.edgeDst = edges.map SampledEdge.dst
  ids : sub.edgeIds = if cfg.trackEdgeIds then edges.map SampledEdge.eid else []

variable (ops : SliceOps) (g : Csr Time) (cfg : SamplingConfig)

/-- Every edge a temporal pass emits, over all seeds or in one seed's block, has a chain of edges
emitted before it back to a seed, ever later and below the seed's time.  The edges are those a
directional subgraph records. -/
theorem temporal_edges_caused (dense : Bool) (first : Nat) (history : List (Call g.numNodes Time))
    {strategy : TemporalStrategy} (temporal : cfg.temporalStrategy = some strategy)
    {ts : List Time} (stamps : g.timestamps = some ts) {seeds : List Nat}
    (inRange : ∀ id ∈ seeds, id < g.numNodes) (inputTimes : Option (List Time)) :
    let s := (fresh dense g.numNodes first : NeighborSampler σ Time).afterCalls g ops history
    let timed := seedTimes seeds inputTimes
    let shared := Pass.emitted ops g cfg timed s.rng
    let blocks := Pass.emittedBlocks ops g cfg timed s.rng
    (cfg.subgraphType = .directional →
      Records cfg (s.sampleNeighborsInner ops g cfg seeds inputTimes).1 shared ∧
        Records cfg (s.sampleNeighborsDisjoint ops g cfg seeds inputTimes).1 blocks.flatten) ∧
    Pass.EveryStep (Pass.Caused (Pass.stampOf ts) timed) shared ∧
    List.Forall₂ (fun seed edges => Pass.EveryStep (Pass.Caused (Pass.stampOf ts) [seed]) edges)
      timed blocks := by
  have new : (fresh dense g.numNodes first : NeighborSampler σ Time).Ready g.numNodes :=
    fresh_ready dense g.numNodes first
  have ready := new.afterCalls ops history
  dsimp only
  generalize (fresh dense g.numNodes first : NeighborSampler σ Time).afterCalls g ops history = s
    at ready
  refine ⟨fun directional => ⟨?_, ?_⟩,
    ((Pass.causal_seeded temporal ts _).hops temporal stamps s.rng).caused,
    Pass.emittedBlocks_caused ops temporal stamps _ s.rng⟩
  · rw [(ready.sampleNeighborsInner ops inRange inputTimes).1]
    obtain ⟨src, dst, ids⟩ := Pass.inner_edges ops g directional seeds inputTimes s.rng
    exact ⟨src, dst, ids⟩
  · rw [(ready.sampleNeighborsDisjoint ops inRange inputTimes).1]
    obtain ⟨src, dst, ids⟩ := Pass.blocks_edges ops g directional
      (seedTimes seeds inputTimes).zipIdx (Pass.noBlocks cfg seeds) s.rng
    rw [List.zipIdx_map_fst] at src dst ids
    exact ⟨src, dst, ids⟩

theorem temporal_edges_caused_late :
    Pass.EveryStep (Pass.Caused (Pass.stampOf [((40 : Nat) : WithTop Nat), (5 : Nat)])
      (seedTimes [0, 1] (some (lateSeeds.map Prod.snd))))
      (Pass.emitted .sorting lateGraph lateConfig
        (seedTimes [0, 1] (some (lateSeeds.map Prod.snd))) (Rng.new 0 : WyRand)) :=
  (temporal_edges_caused .sorting lateGraph lateConfig true 0 [] rfl rfl (by decide)
    (some (lateSeeds.map Prod.snd))).2.1

end NeighborSampler

end AetherGraph
