import AetherGraph.CausalHistory
import AetherGraph.PassStates

/-! Induced subgraphs: `induce` scans the whole row of every sampled node, under the bounds the
pass leaves behind.  A bound lowered after its node was expanded cuts off sampled edges too. -/

namespace AetherGraph

namespace Pass

section Rows

variable {Time : Type} [LE Time] [DecidableLE Time] [Top Time]
variable (g : Csr Time) (p : Pass Time)

/-- Whether the bound of a node cuts off an edge of its row. -/
def late (uLocal pos : Nat) : Bool :=
  (if p.trackTimes then g.timestamps else none).any fun ts =>
    decide ((if p.trackTimes then p.times.getD uLocal ⊤ else ⊤) ≤ ts.getD pos ⊤)

/-- The edge at a position of a sampled node's row. -/
def inducedAt (entry : Nat × Nat) (pos : Nat) : Option SampledEdge :=
  if p.late g entry.2 pos then none
  else (GenDedup.localOf p.nodes (g.edges.getD pos 0)).map fun wLocal =>
    ⟨entry.1, entry.2, g.edges.getD pos 0, wLocal, pos⟩

/-- The positions of a row. -/
def rowPositions (u : Nat) : List Nat :=
  List.range' (g.neighborRange u).1 ((g.neighborRange u).2 - (g.neighborRange u).1)

def inducedEdges : List SampledEdge :=
  p.nodes.zipIdx.flatMap fun entry => (rowPositions g entry.1).filterMap (p.inducedAt g entry)

theorem induceEdge_eq (entry : Nat × Nat) (es : List SampledEdge) (pos : Nat) :
    induceEdge g entry.1 entry.2 { p with edges := es } pos =
      { p with edges := es ++ (p.inducedAt g entry pos).toList } := by
  unfold induceEdge inducedAt late
  dsimp only
  generalize Option.any _ _ = cut
  cases cut with
  | true => simp
  | false => cases GenDedup.localOf p.nodes (g.edges.getD pos 0) <;> simp [addEdge]

theorem induceRow_eq (entry : Nat × Nat) (row : List Nat) (es : List SampledEdge) :
    row.foldl (induceEdge g entry.1 entry.2) { p with edges := es } =
      { p with edges := es ++ row.filterMap (p.inducedAt g entry) } := by
  induction row generalizing es with
  | nil => simp
  | cons pos row ih =>
      rw [List.foldl_cons, induceEdge_eq, ih, List.append_assoc]
      cases found : p.inducedAt g entry pos <;> simp [found]

theorem induce_eq : p.induce g = { p with edges := p.inducedEdges g } := by
  have run : ∀ (entries : List (Nat × Nat)) (es : List SampledEdge),
      entries.foldl (fun q entry => (rowPositions g entry.1).foldl
        (induceEdge g entry.1 entry.2) q) { p with edges := es } =
      { p with edges := es ++
          entries.flatMap fun entry =>
            (rowPositions g entry.1).filterMap (p.inducedAt g entry) } := by
    intro entries
    induction entries with
    | nil => simp
    | cons entry entries ih =>
        intro es
        rw [List.foldl_cons, induceRow_eq, ih, List.append_assoc, List.flatMap_cons]
  exact run p.nodes.zipIdx []

variable {g p}

/-- An edge is induced exactly where it is stored between sampled nodes and not cut off. -/
theorem mem_inducedEdges (nodup : p.nodes.Nodup) {e : SampledEdge} :
    e ∈ p.inducedEdges g ↔ Stored g p.nodes e ∧ p.late g e.srcLocal e.eid = false := by
  unfold inducedEdges rowPositions
  constructor
  · intro h
    obtain ⟨⟨u, uLocal⟩, entry, inRow⟩ := List.mem_flatMap.mp h
    obtain ⟨pos, hpos, found⟩ := List.mem_filterMap.mp inRow
    have named := List.mem_zipIdx_iff_getElem?.mp entry
    have bounds := List.mem_range'_1.mp hpos
    have limit := Csr.neighborRange_le (g := g) u
    unfold inducedAt at found
    split at found
    · cases found
    · rename_i notLate
      obtain ⟨wLocal, isLocal, rfl⟩ := Option.map_eq_some_iff.mp found
      refine ⟨⟨named, ?_, ?_, ?_⟩, Bool.eq_false_of_not_eq_true notLate⟩
      · unfold GenDedup.localOf at isLocal
        split at isLocal
        · rename_i known
          obtain rfl := Option.some.inj isLocal
          exact List.getElem?_idxOf known
        · cases isLocal
      · dsimp only at bounds ⊢
        omega
      · dsimp only at bounds limit ⊢
        rw [List.getD_eq_getElem _ _ (by omega), List.getElem?_eq_getElem]
  · rintro ⟨stored, notLate⟩
    have row := stored.row
    refine List.mem_flatMap.mpr ⟨(e.src, e.srcLocal), List.mem_zipIdx_iff_getElem?.mpr stored.src,
      List.mem_filterMap.mpr ⟨e.eid, List.mem_range'_1.mpr (by dsimp only; omega), ?_⟩⟩
    have target : g.edges.getD e.eid 0 = e.dst := by
      rw [List.getD_eq_getElem?_getD, stored.target]
      rfl
    have known : e.dst ∈ p.nodes := List.mem_of_getElem? stored.dst
    have place : p.nodes.idxOf e.dst = e.dstLocal := by
      obtain ⟨inNodes, at_⟩ := List.getElem?_eq_some_iff.mp stored.dst
      exact at_ ▸ nodup.idxOf_getElem e.dstLocal inNodes
    unfold inducedAt
    rw [notLate, target, GenDedup.localOf, if_pos known, place]
    rfl

/-- No node induces an edge twice. -/
theorem inducedEdges_once (nodup : p.nodes.Nodup) :
    ((p.inducedEdges g).map fun e => (e.src, e.eid)).Nodup := by
  have at_ : ∀ {entry : Nat × Nat} {pos : Nat} {e : SampledEdge},
      p.inducedAt g entry pos = some e → e.src = entry.1 ∧ e.eid = pos := by
    intro entry pos e found
    unfold inducedAt at found
    split at found
    · cases found
    · obtain ⟨wLocal, -, rfl⟩ := Option.map_eq_some_iff.mp found
      exact ⟨rfl, rfl⟩
  refine List.pairwise_map.mpr (List.pairwise_flatMap.mpr ⟨fun entry _ => ?_, ?_⟩)
  · refine List.Pairwise.filterMap _ (fun pos pos' ne e he e' he' same => ?_)
      List.nodup_range'
    exact ne ((at_ he).2.symm.trans ((Prod.mk.inj same).2.trans (at_ he').2))
  · have apart : p.nodes.zipIdx.Pairwise fun entry entry' => entry.1 ≠ entry'.1 := by
      refine List.pairwise_map.mp ?_
      rwa [List.zipIdx_map_fst]
    refine apart.imp fun ne e he e' he' same => ?_
    obtain ⟨pos, -, found⟩ := List.mem_filterMap.mp he
    obtain ⟨pos', -, found'⟩ := List.mem_filterMap.mp he'
    exact ne ((at_ found).1.symm.trans ((Prod.mk.inj same).1.trans (at_ found').1))

/-- Where the offsets are sorted, no position is induced twice. -/
theorem inducedEdges_positions (mono : g.Monotone) (nodup : p.nodes.Nodup) :
    ((p.inducedEdges g).map SampledEdge.eid).Nodup := by
  have once := List.pairwise_map.mp (inducedEdges_once (g := g) nodup)
  refine List.pairwise_map.mpr (once.imp_of_mem fun he he' ne same => ne ?_)
  have row := ((mem_inducedEdges nodup).mp he).1.row
  have row' := ((mem_inducedEdges nodup).mp he').1.row
  rw [← same] at row'
  exact Prod.ext (mono.row_unique row row') same

end Rows

section Bounds

variable {σ : Type} [Rng σ] {Time : Type} [LinearOrder Time] [OrderTop Time]
variable {ops : SliceOps} {g : Csr Time} {cfg : SamplingConfig} {p : Pass Time} {ts : List Time}
variable {seeds : List (Nat × Time)}

/-- Every edge is older than the seeds at its source. -/
def Early (ts : List Time) (seeds : List (Nat × Time)) (edges : List SampledEdge) : Prop :=
  ∀ e ∈ edges, ∀ s ∈ seeds, s.1 = e.src → stampOf ts e < s.2

theorem Early.expand {strategy : TemporalStrategy} (early : Early ts seeds p.edges)
    (temporal : cfg.temporalStrategy = some strategy) (stamps : g.timestamps = some ts)
    (h : Shared g ts seeds p) (sampleSize : Nat) (r : σ) {entry : Nat × Nat}
    (hentry : entry ∈ p.frontier) :
    Early ts seeds (Pass.expand ops g cfg true sampleSize (p, r) entry).1.edges := by
  have bound := h.bounds.bound (h.sound.frontier entry hentry)
  refine expand_induct (Q := fun q => Early ts seeds q.edges) temporal stamps sampleSize r early ?_
  intro q i dst early _ _ _ less
  obtain ⟨-, -, kept⟩ | ⟨-, -, pushed⟩ := emit_effect g cfg entry.1 entry.2 q dst
    ((g.neighborRange entry.1).1 + i) (ts.getD ((g.neighborRange entry.1).1 + i) ⊤)
  · rwa [kept]
  · rw [pushed]
    refine List.forall_mem_append.mpr ⟨early, fun e he s hs same => ?_⟩
    rw [List.mem_singleton.mp he] at same ⊢
    exact lt_of_lt_of_le less (bound.1 s hs same)

theorem Early.hops {strategy : TemporalStrategy} (early : Early ts seeds p.edges)
    (temporal : cfg.temporalStrategy = some strategy) (stamps : g.timestamps = some ts)
    (h : Shared g ts seeds p) (r : σ) : Early ts seeds (Pass.hops ops g cfg p r).2.1.edges := by
  have isTemporal : cfg.temporalStrategy.isSome = true := temporal ▸ rfl
  unfold Pass.hops
  rw [isTemporal]
  exact (runHopsFrom_induct (Q := fun p => Shared g ts seeds p ∧ Early ts seeds p.edges)
    (fun p hop h => ⟨h.1.beginHop hop, h.2⟩)
    (fun p r hop entry hentry h => ⟨h.1.expand temporal stamps _ r hentry,
      h.2.expand temporal stamps h.1 _ r hentry⟩)
    (fun p h => ⟨h.1.extend, h.2⟩) (fun p h => ⟨h.1.swap, h.2⟩) _ _ ⟨h, early⟩ r).2

omit [LinearOrder Time] [OrderTop Time] in
variable (ops g cfg) in
theorem trackTimes_hops [LT Time] [DecidableLT Time] [Top Time] (p : Pass Time) (r : σ) :
    (Pass.hops ops g cfg p r).2.1.trackTimes = p.trackTimes :=
  runHopsFrom_induct (Q := fun q => q.trackTimes = p.trackTimes) (fun _ _ h => h)
    (fun q _ _ _ _ h => (emitAll_frame _ _ _ _ _ _ _ _ q).2.2.2.trans h)
    (fun _ h => h) (fun _ h => h) _ _ rfl r

/-- An emitted edge is below the final bound of its source exactly where it is below every edge
emitted into its source. -/
theorem below_final_iff {edges : List SampledEdge} (early : Early ts seeds edges) {e : SampledEdge}
    (he : e ∈ edges) {b : Time} (upper : SharedBound ts seeds edges e.src b)
    (attained : Attained (stampOf ts) seeds edges e.src b) :
    stampOf ts e < b ↔ ∀ e' ∈ edges, e'.dst = e.src → stampOf ts e < stampOf ts e' := by
  constructor
  · exact fun below e' he' into => lt_of_lt_of_le below (upper.2 e' he' into)
  · intro later
    rcases attained with ⟨s, hs, here, rfl⟩ | ⟨e', he', into, rfl⟩
    · exact early e he s hs here
    · exact later e' he' into

end Bounds

end Pass

namespace NeighborSampler

variable {σ : Type} [Rng σ] {Time : Type}

/-- The edge buffers hold these edges. -/
structure Holds (cfg : SamplingConfig) (s : NeighborSampler σ Time) (es : List SampledEdge) :
    Prop where
  src : s.edgeSrcBuf = es.map SampledEdge.src
  dst : s.edgeDstBuf = es.map SampledEdge.dst
  ids : s.edgeIdsBuf = if cfg.trackEdgeIds then es.map SampledEdge.eid else []
  srcLocal : s.srcLocalBuf = es.map SampledEdge.srcLocal
  dstLocal : s.dstLocalBuf = es.map SampledEdge.dstLocal

variable {g : Csr Time} {cfg : SamplingConfig} {s pass : NeighborSampler σ Time} {p : Pass Time}
  {sampled : List SampledEdge}

omit [Rng σ] in
theorem Tracks.holds (h : Tracks g.numNodes cfg s p) : Holds cfg s p.edges :=
  ⟨h.src, h.dst, h.ids, h.srcLocal, h.dstLocal⟩

variable [LinearOrder Time] [OrderTop Time]

/-- The graph edges between the nodes of the pass, each once, which in a temporal pass are below
the bound of their source. -/
structure Exact (g : Csr Time) (cfg : SamplingConfig) (pass : NeighborSampler σ Time)
    (induced : List SampledEdge) : Prop where
  once : (induced.map fun e => (e.src, e.eid)).Nodup
  positions : g.Monotone → (induced.map SampledEdge.eid).Nodup
  mem : ∀ e, e ∈ induced ↔ Pass.Stored g pass.nodeVec e ∧
    (cfg.temporalStrategy.isSome = true → ∀ ts, g.timestamps = some ts →
      ts.getD e.eid ⊤ < pass.nodeTimes.getD e.srcLocal ⊤)

/-- In a temporal pass, every edge emitted into a node is later than every edge emitted out of
it. -/
def Settled (g : Csr Time) (cfg : SamplingConfig) (sampled : List SampledEdge) : Prop :=
  cfg.temporalStrategy.isSome = true → ∀ ts, g.timestamps = some ts →
    ∀ e ∈ sampled, ∀ e' ∈ sampled, e'.dst = e.src → ts.getD e.eid ⊤ < ts.getD e'.eid ⊤

theorem late_eq_false_iff (track : p.trackTimes = cfg.temporalStrategy.isSome) (uLocal pos : Nat) :
    p.late g uLocal pos = false ↔ (cfg.temporalStrategy.isSome = true →
      ∀ ts, g.timestamps = some ts → ts.getD pos ⊤ < p.times.getD uLocal ⊤) := by
  unfold Pass.late
  rw [track]
  cases cfg.temporalStrategy.isSome <;> cases g.timestamps <;> simp

variable {seeds : List (Nat × Time)} {start : Pass Time} {ts : List Time} {ops : SliceOps}

omit [Rng σ] [OrderTop Time] in
theorem Starts.trackTimes (h : Starts cfg seeds start) :
    start.trackTimes = cfg.temporalStrategy.isSome := by
  cases h with
  | shared =>
      unfold Pass.seeded
      refine List.foldlRecOn (motive := fun (q : Pass Time) =>
        q.trackTimes = cfg.temporalStrategy.isSome) _ _ rfl fun q h seed _ => ?_
      unfold Pass.registerSeed
      rw [Pass.register_eq]
      exact h
  | block seed => rfl

omit [Rng σ] in
theorem Starts.shared_start {strategy : TemporalStrategy} (h : Starts cfg seeds start)
    (temporal : cfg.temporalStrategy = some strategy) (ts : List Time) :
    Pass.Shared g ts seeds start := by
  cases h with
  | shared => exact Pass.shared_seeded temporal ts seeds
  | block seed =>
      have shared := Pass.shared_seeded (g := g) temporal ts [seed]
      exact { shared with
        sound := { shared.sound with }
        bounds := { shared.bounds with } }

omit [Rng σ] in
theorem Starts.causal {strategy : TemporalStrategy} (h : Starts cfg seeds start)
    (temporal : cfg.temporalStrategy = some strategy) (ts : List Time) :
    Pass.Causal g ts seeds start := by
  cases h with
  | shared => exact Pass.causal_seeded temporal ts seeds
  | block seed => exact Pass.causal_rooted temporal ts seed

variable (ops g) in
/-- The final bounds leave every emitted edge exactly where no later edge was emitted into its
source. -/
theorem below_bounds_iff (h : Starts cfg seeds start) (r : σ) :
    (∀ e ∈ (Pass.hops ops g cfg start r).2.1.edges, cfg.temporalStrategy.isSome = true →
      ∀ ts, g.timestamps = some ts → ts.getD e.eid ⊤ <
        (Pass.hops ops g cfg start r).2.1.times.getD e.srcLocal ⊤) ↔
      Settled g cfg (Pass.hops ops g cfg start r).2.1.edges := by
  have pointwise : ∀ e ∈ (Pass.hops ops g cfg start r).2.1.edges,
      cfg.temporalStrategy.isSome = true → ∀ ts, g.timestamps = some ts →
      (ts.getD e.eid ⊤ < (Pass.hops ops g cfg start r).2.1.times.getD e.srcLocal ⊤ ↔
        ∀ e' ∈ (Pass.hops ops g cfg start r).2.1.edges, e'.dst = e.src →
          ts.getD e.eid ⊤ < ts.getD e'.eid ⊤) := by
    intro e he isTemporal ts stamps
    obtain ⟨strategy, temporal⟩ := Option.isSome_iff_exists.mp isTemporal
    have shared := h.shared_start (g := g) temporal ts
    have early : Pass.Early ts seeds start.edges := by
      obtain ⟨ids, locals, seeded⟩ := h.seeded g
      rw [seeded.edges]
      exact fun _ he => absurd he List.not_mem_nil
    have hops : Pass.Shared g ts seeds (Pass.hops ops g cfg start r).2.1 :=
      shared.hops temporal stamps r
    have named := (hops.sound.edges e he).src
    exact Pass.below_final_iff (early.hops temporal stamps shared r) he (hops.bounds.bound named)
      (((h.causal temporal ts).hops temporal stamps r).bounds.bound named)
  constructor
  · exact fun below isTemporal ts stamps e he =>
      (pointwise e he isTemporal ts stamps).mp (below e he isTemporal ts stamps)
  · exact fun settled e he isTemporal ts stamps =>
      (pointwise e he isTemporal ts stamps).mpr (settled isTemporal ts stamps e he)

/-- Every pass's induced edges are exact, and they contain the edges the pass emitted exactly
where those settle its bounds. -/
theorem induced_contains (reached : Reached ops g s) (passed : PassOf ops g cfg s pass sampled) :
    Holds cfg pass sampled ∧
    (∃ induced, Holds cfg (pass.induce g cfg) induced ∧ Exact g cfg pass induced) ∧
    ((∃ induced, Holds cfg (pass.induce g cfg) induced ∧ Exact g cfg pass induced ∧
      sampled ⊆ induced) ↔ Settled g cfg sampled) := by
  obtain ⟨seeds, start, hop, starts, rfl, tracks⟩ := passed.tracks reached.ready
  have below := below_bounds_iff g ops starts s.rng
  obtain ⟨ids, locals, seeded⟩ := starts.seeded g
  have sound := seeded.start.sound.hops ops cfg s.rng
  have track := (Pass.trackTimes_hops ops g cfg start s.rng).trans
    starts.trackTimes
  generalize (Pass.hops ops g cfg start s.rng).2.1 = p at *
  have held := tracks.induce.1.holds
  rw [Pass.induce_eq] at held
  have mem : ∀ e, e ∈ (p.atHop hop).inducedEdges g ↔ Pass.Stored g pass.nodeVec e ∧
      (cfg.temporalStrategy.isSome = true → ∀ ts, g.timestamps = some ts →
        ts.getD e.eid ⊤ < pass.nodeTimes.getD e.srcLocal ⊤) := by
    intro e
    rw [Pass.mem_inducedEdges tracks.nodup, late_eq_false_iff (p := p.atHop hop) track,
      tracks.nodes, tracks.times]
  have exact_ : Exact g cfg pass ((p.atHop hop).inducedEdges g) :=
    ⟨Pass.inducedEdges_once tracks.nodup,
      fun mono => Pass.inducedEdges_positions mono tracks.nodup, mem⟩
  refine ⟨tracks.holds, ⟨_, held, exact_⟩, ?_⟩
  rw [← below]
  constructor
  · rintro ⟨induced, -, exact_, sub⟩ e he
    have kept := ((exact_.mem e).mp (sub he)).2
    rwa [tracks.times] at kept
  · intro kept
    refine ⟨_, held, exact_, fun e he => (mem e).mpr ⟨?_, ?_⟩⟩
    · rw [tracks.nodes]
      exact sound.edges e he
    · rw [tracks.times]
      exact kept e he

/-- The sampler of `lateGraph` before its first call. -/
def lateSampler : NeighborSampler WyRand (WithTop Nat) := fresh true 3 0

/-- Only seed 0: its edge is sampled, and nothing lowers a bound after it. -/
theorem induced_contains_late :
    ∃ induced, Holds lateConfig ((lateSampler.sampledAll .sorting lateGraph lateConfig [0]
        (some [(100 : Nat)])).induce lateGraph lateConfig) induced ∧
      Exact lateGraph lateConfig (lateSampler.sampledAll .sorting lateGraph lateConfig [0]
        (some [(100 : Nat)])) induced ∧ [⟨0, 0, 2, 1, 0⟩] ⊆ induced := by
  have emitted : (Pass.hops .sorting lateGraph lateConfig (Pass.seeded lateConfig
      (seedTimes [0] (some [((100 : Nat) : WithTop Nat)]))) lateSampler.rng).2.1.edges =
      [⟨0, 0, 2, 1, 0⟩] := by
    decide +kernel
  have passed : PassOf .sorting lateGraph lateConfig lateSampler (lateSampler.sampledAll .sorting
      lateGraph lateConfig [0] (some [(100 : Nat)])) [⟨0, 0, 2, 1, 0⟩] := by
    rw [← emitted]
    exact .shared [0] (by decide) (some [((100 : Nat) : WithTop Nat)])
  refine (induced_contains (.new true 0) passed).2.2.mpr fun _ ts stamps e he e' he' into => ?_
  rw [List.mem_singleton.mp he, List.mem_singleton.mp he'] at into
  exact absurd into (by decide)

/-- Node 0 is expanded to its edge at time 40, and its bound is then lowered to 5. -/
theorem induced_misses_sampled :
    ¬ ∀ (g : Csr (WithTop Nat)) (cfg : SamplingConfig)
      (s pass : NeighborSampler WyRand (WithTop Nat)) (sampled : List SampledEdge),
      Reached .sorting g s → PassOf .sorting g cfg s pass sampled →
      ∃ induced, Holds cfg (pass.induce g cfg) induced ∧ Exact g cfg pass induced ∧
        sampled ⊆ induced := by
  intro claim
  obtain ⟨induced, -, exact_, sub⟩ := claim lateGraph lateConfig lateSampler _ _ (.new true 0)
    (.shared [0, 1] (by decide) (some (lateSeeds.map Prod.snd)))
  have emitted : (Pass.hops .sorting lateGraph lateConfig (Pass.seeded lateConfig
      (seedTimes [0, 1] (some (lateSeeds.map Prod.snd)))) lateSampler.rng).2.1.edges =
      [⟨0, 0, 2, 2, 0⟩, ⟨1, 1, 0, 0, 1⟩] := late_emitted
  rw [emitted] at sub
  have below := ((exact_.mem _).mp (sub List.mem_cons_self)).2 rfl _ rfl
  revert below
  decide +kernel

end NeighborSampler

end AetherGraph
