import AetherGraph.RowPicks

/-! One sampling pass without scratch: the nodes in discovery order answer the dedup
probes, and edges are records. -/

namespace AetherGraph

open Foundation

structure SampledEdge where
  src : Nat
  srcLocal : Nat
  dst : Nat
  dstLocal : Nat
  eid : Nat
  deriving DecidableEq, Repr

structure Pass (Time : Type) where
  nodes : List Nat
  times : List Time
  trackTimes : Bool
  hop : Nat
  edges : List SampledEdge
  seedLocals : List Nat
  frontier : List (Nat × Nat)
  next : List (Nat × Nat)
  emittedAt : List (Nat × Nat)
  deriving DecidableEq, Repr

namespace Pass

open NeighborSampler (lower seedTimes checkSample)

def start {Time : Type} (isTemporal : Bool) : Pass Time := ⟨[], [], isTemporal, 0, [], [], [], [], []⟩

section Steps

variable {σ : Type} [Rng σ] {Time : Type} [LT Time] [DecidableLT Time] [LE Time] [DecidableLE Time]
  [Top Time]
variable (ops : SliceOps) (g : Csr Time) (cfg : SamplingConfig)

def register (p : Pass Time) (id : Nat) (time : Time) : Pass Time :=
  if id ∈ p.nodes then
    { p with times :=
        if p.trackTimes then p.times.modify (p.nodes.idxOf id) (lower time) else p.times }
  else
    { p with
      nodes := p.nodes ++ [id]
      times := if p.trackTimes then p.times ++ [time] else p.times }

/-- Whether no earlier hop emitted the edge. -/
def fresh (p : Pass Time) (eid : Nat) : Bool :=
  match p.emittedAt.lookup eid with
  | some hop => decide (hop = p.hop)
  | none => true

def noteEmitted (p : Pass Time) (eid : Nat) : Pass Time :=
  match p.emittedAt.lookup eid with
  | some _ => p
  | none => { p with emittedAt := (eid, p.hop) :: p.emittedAt }

def addEdge (p : Pass Time) (e : SampledEdge) : Pass Time := { p with edges := p.edges ++ [e] }

/-- Register a sampled neighbor, on the next frontier when it is new. -/
def reach (p : Pass Time) (id : Nat) (time : Time) : Pass Time :=
  { p.register id time with
    next := if id ∈ p.nodes then p.next else p.next ++ [(id, p.nodes.idxOf id)] }

/-- Reach a neighbor inside the graph and push its edge. -/
def push (p : Pass Time) (src srcLocal dst eid : Nat) (time : Time) : Pass Time :=
  (p.reach dst time).addEdge ⟨src, srcLocal, dst, p.nodes.idxOf dst, eid⟩

def emit (src srcLocal : Nat) (p : Pass Time) (dst eid : Nat) (time : Time) : Pass Time :=
  if cfg.cumulative ∧ p.fresh eid = false then p
  else
    let p := if cfg.cumulative then p.noteEmitted eid else p
    if g.numNodes ≤ dst then p else p.push src srcLocal dst eid time

/-- Emit the edges at the given positions of a row, in turn. -/
def emitAll (node nodeLocal : Nat) (neighbors : List Nat) (edgeOffset : Nat) (time : Nat → Time)
    (picks : List Nat) (p : Pass Time) : Pass Time :=
  picks.foldl (fun p i => p.emit g cfg node nodeLocal (neighbors.getD i 0) (edgeOffset + i) (time i)) p

/-- The positions a node's expansion draws, with the time bound each gives its neighbor. -/
def rowPicks (isTemporal : Bool) (sampleSize : Nat) (p : Pass Time) (entry : Nat × Nat) (r : σ) :
    List Nat × (Nat → Time) × σ :=
  let range := g.neighborRange entry.1
  if range.2 ≤ range.1 then ([], fun _ => ⊤, r)
  else
    let n := (slice g.edges range).length
    if isTemporal then
      match g.timestamps, cfg.temporalStrategy with
      | some ts, some strategy =>
          let row := slice ts range
          let filtered := eligible cfg strategy n row (p.times.getD entry.2 ⊤) r
          let picks := temporalPicks ops strategy sampleSize filtered.1 filtered.2
          (picks.1, fun i => row.getD i ⊤, picks.2)
      | _, _ => ([], fun _ => ⊤, r)
    else
      let weights := (if cfg.weighted then g.weights else none).map fun w => slice w range
      let picks := normalPicks ops cfg n weights sampleSize r
      (picks.1, fun _ => ⊤, picks.2)

def expand (isTemporal : Bool) (sampleSize : Nat) (acc : Pass Time × σ) (entry : Nat × Nat) :
    Pass Time × σ :=
  let range := g.neighborRange entry.1
  let picks := acc.1.rowPicks ops g cfg isTemporal sampleSize entry acc.2
  (acc.1.emitAll g cfg entry.1 entry.2 (slice g.edges range) range.1 picks.2.1 picks.1, picks.2.2)

def runHop (isTemporal : Bool) (acc : Pass Time × σ) (hop : Nat) :
    (Nat × Nat) × Pass Time × σ :=
  let p := { acc.1 with hop := hop % 2 ^ 32, next := [] }
  let out := p.frontier.foldl (expand ops g cfg isTemporal (cfg.fanout.getD hop 0)) (p, acc.2)
  ((out.1.next.length, out.1.edges.length - p.edges.length),
    if cfg.cumulative then { out.1 with frontier := out.1.frontier ++ out.1.next }
    else { out.1 with frontier := out.1.next, next := out.1.frontier }, out.2)

def runHopsFrom (isTemporal : Bool) (hop : Nat) : Nat → Pass Time × σ →
    List (Nat × Nat) × Pass Time × σ
  | 0, acc => ([], acc)
  | hops + 1, acc =>
      let ran := runHop ops g cfg isTemporal acc hop
      let rest := runHopsFrom isTemporal (hop + 1) hops ran.2
      (ran.1 :: rest.1, rest.2)

/-- A graph edge between sampled nodes, at position `pos` of the row of `u`. -/
def induceEdge (u uLocal : Nat) (p : Pass Time) (pos : Nat) : Pass Time :=
  let timestamps := if p.trackTimes then g.timestamps else none
  let bound := if p.trackTimes then p.times.getD uLocal ⊤ else ⊤
  let w := g.edges.getD pos 0
  if timestamps.any fun ts => decide (bound ≤ ts.getD pos ⊤) then p
  else match GenDedup.localOf p.nodes w with
    | some wLocal => p.addEdge ⟨u, uLocal, w, wLocal, pos⟩
    | none => p

def induce (p : Pass Time) : Pass Time :=
  p.nodes.zipIdx.foldl (fun p entry =>
    let range := g.neighborRange entry.1
    (List.range' range.1 (range.2 - range.1)).foldl (induceEdge g entry.1 entry.2) p)
    { p with edges := [] }

def reversed (e : SampledEdge) : SampledEdge := ⟨e.dst, e.dstLocal, e.src, e.srcLocal, e.eid⟩

/-- The reverse of each edge in turn, unless its endpoint pair is among `pairs`. -/
def mirrored : List Nat → List SampledEdge → List SampledEdge
  | _, [] => []
  | pairs, e :: es =>
      if pairKey e.dstLocal e.srcLocal ∈ pairs then mirrored pairs es
      else reversed e :: mirrored (pairs ++ [pairKey e.dstLocal e.srcLocal]) es

def mirror (p : Pass Time) : Pass Time :=
  { p with edges := p.edges ++
      mirrored (p.edges.map fun e => pairKey e.srcLocal e.dstLocal) p.edges }

def applySubgraphType (p : Pass Time) : Pass Time :=
  match cfg.subgraphType with
  | .directional => p
  | .induced => p.induce g
  | .bidirectional => p.mirror

def registerSeed (p : Pass Time) (seed : Nat × Time) : Pass Time :=
  { p.register seed.1 seed.2 with
    seedLocals := p.seedLocals ++ [p.nodes.idxOf seed.1]
    frontier := if seed.1 ∈ p.nodes then p.frontier
      else p.frontier ++ [(seed.1, p.nodes.idxOf seed.1)] }

def seeded (seeds : List (Nat × Time)) : Pass Time :=
  seeds.foldl registerSeed (start cfg.temporalStrategy.isSome)

/-- The pass of one seed's block. -/
def rooted (seed : Nat × Time) : Pass Time :=
  { (start cfg.temporalStrategy.isSome).register seed.1 seed.2 with frontier := [(seed.1, 0)] }

/-- The counts of each hop, and the pass after its last one. -/
def hops (p : Pass Time) (r : σ) : List (Nat × Nat) × Pass Time × σ :=
  runHopsFrom ops g cfg cfg.temporalStrategy.isSome 0 cfg.fanout.length (p, r)

def edgeIds (p : Pass Time) : List Nat :=
  if cfg.trackEdgeIds then p.edges.map SampledEdge.eid else []

/-- The shared pass over all seeds. -/
def inner (seeds : List Nat) (inputTimes : Option (List Time)) (r : σ) : SampledSubgraph × σ :=
  let start := seeded cfg (seedTimes seeds inputTimes)
  let ran := hops ops g cfg start r
  let p := ran.2.1.applySubgraphType g cfg
  ({ nodes := p.nodes
     edgeSrc := p.edges.map SampledEdge.src
     edgeDst := p.edges.map SampledEdge.dst
     edgeIds := p.edgeIds cfg
     seeds := seeds
     numSampledNodes := start.nodes.length :: ran.1.map Prod.fst
     numSampledEdges := ran.1.map Prod.snd
     srcLocal := p.edges.map SampledEdge.srcLocal
     dstLocal := p.edges.map SampledEdge.dstLocal
     seedLocals := p.seedLocals
     batch := none }, ran.2.2)

def block (acc : SampledSubgraph × σ) (entry : (Nat × Time) × Nat) : SampledSubgraph × σ :=
  let ran := hops ops g cfg (rooted cfg entry.1) acc.2
  let p := ran.2.1.applySubgraphType g cfg
  let out := acc.1
  let nodeOffset := out.nodes.length % 2 ^ 32
  ({ out with
     nodes := out.nodes ++ p.nodes
     edgeSrc := out.edgeSrc ++ p.edges.map SampledEdge.src
     edgeDst := out.edgeDst ++ p.edges.map SampledEdge.dst
     edgeIds := out.edgeIds ++ p.edgeIds cfg
     numSampledNodes := out.numSampledNodes.take 1 ++
       (out.numSampledNodes.drop 1).zipWith (· + ·) (ran.1.map Prod.fst)
     numSampledEdges := out.numSampledEdges.zipWith (· + ·) (ran.1.map Prod.snd)
     srcLocal := out.srcLocal ++ p.edges.map fun e => (e.srcLocal + nodeOffset) % 2 ^ 32
     dstLocal := out.dstLocal ++ p.edges.map fun e => (e.dstLocal + nodeOffset) % 2 ^ 32
     seedLocals := out.seedLocals ++ [nodeOffset % 2 ^ 32]
     batch := out.batch.map fun b => b ++ List.replicate p.nodes.length (entry.2 % 2 ^ 32) },
    ran.2.2)

/-- The subgraph with no seed's block in it yet. -/
def noBlocks (seeds : List Nat) : SampledSubgraph where
  nodes := []
  edgeSrc := []
  edgeDst := []
  edgeIds := []
  seeds := seeds
  numSampledNodes := seeds.length :: List.replicate cfg.fanout.length 0
  numSampledEdges := List.replicate cfg.fanout.length 0
  srcLocal := []
  dstLocal := []
  seedLocals := []
  batch := some []

/-- One pass a seed, each its own block. -/
def disjoint (seeds : List Nat) (inputTimes : Option (List Time)) (r : σ) : SampledSubgraph × σ :=
  (seedTimes seeds inputTimes).zipIdx.foldl (block ops g cfg) (noBlocks cfg seeds, r)

/-- What `sample` returns, and the generator it leaves. -/
def sample (seeds : Seeds) (inputTimes : Option (List Time)) (r : σ) :
    Except SampleError SampledSubgraph × σ :=
  match checkSample g cfg seeds inputTimes with
  | some e => (.error e, r)
  | none =>
      let out := if cfg.disjoint then disjoint ops g cfg seeds.ids inputTimes r
        else inner ops g cfg seeds.ids inputTimes r
      (.ok out.1, out.2)

end Steps

end Pass

end AetherGraph
