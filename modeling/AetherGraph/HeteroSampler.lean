import AetherGraph.HeteroGraph
import AetherGraph.NeighborSampler

/-! The heterogeneous sampler with its per-type scratch.  A node is expanded along every edge
type into its type; edges keep their stored direction, with the expanded node as destination. -/

namespace AetherGraph

structure HeteroSamplingConfig where
  /-- Sources drawn per expanded node, by edge type and hop. -/
  fanout : List (List Nat)
  replace : Bool
  seed : Option Nat
  maxDegree : Option Nat
  numHops : Nat
  deriving DecidableEq, Repr

structure HeteroSampledSubgraph where
  nodes : List (List Nat)
  edgeSrcLocal : List (List Nat)
  edgeDstLocal : List (List Nat)
  seedType : Nat
  seeds : List Nat
  seedIndices : List Nat
  deriving DecidableEq, Repr

/-- One expansion of a node along an edge type, with the positions picked from its row. -/
structure Expansion where
  hop : Nat
  et : Nat
  node : Nat
  dstLocal : Nat
  picks : List Nat
  deriving DecidableEq, Repr

/-- A frontier entry: type, global id and local index. -/
structure TypedNode where
  nodeType : Nat
  id : Nat
  localIdx : Nat
  deriving DecidableEq, Repr

/-- The last field records the expansions of the call in progress, or of the last one. -/
structure HeteroNeighborSampler (σ : Type) where
  rng : σ
  dedup : List GenDedup
  nodeVecs : List (List Nat)
  edgeSrcBuf : List (List Nat)
  edgeDstBuf : List (List Nat)
  frontier : List TypedNode
  nextFrontier : List TypedNode
  floyd : FloydStamps
  floydSet : List Nat
  seedIndicesBuf : List Nat
  expansions : List Expansion

namespace HeteroNeighborSampler

def denseDedupMaxNodes : Nat := 2 ^ 20

variable {σ : Type} [Rng σ] {Time : Type}

/-- `entropy` seeds a sampler whose config has no seed. -/
def new (g : HeteroGraph Time) (cfg : HeteroSamplingConfig) (entropy : Nat) :
    HeteroNeighborSampler σ where
  rng := Rng.new (cfg.seed.getD entropy)
  dedup := (List.range g.nodeTypes.length).map fun nt =>
    if g.numNodes nt ≤ denseDedupMaxNodes then .dense (.new (g.numNodes nt)) else .map []
  nodeVecs := List.replicate g.nodeTypes.length []
  edgeSrcBuf := List.replicate g.edgeTypes.length []
  edgeDstBuf := List.replicate g.edgeTypes.length []
  frontier := []
  nextFrontier := []
  floyd := .new
  floydSet := []
  seedIndicesBuf := []
  expansions := []

def reseed (s : HeteroNeighborSampler σ) (seed : Nat) : HeteroNeighborSampler σ :=
  { s with rng := Rng.new seed }

section Register

variable {σ : Type}

def nodesOf (s : HeteroNeighborSampler σ) (nodeType : Nat) : List Nat := s.nodeVecs.getD nodeType []

/-- The local index of a node of `nodeType`, assigned if new, and whether it is new. -/
def insertNode (s : HeteroNeighborSampler σ) (id nodeType : Nat) :
    (Nat × Bool) × HeteroNeighborSampler σ :=
  let probed := (s.dedup.getD nodeType (.map [])).probeOrInsert id
    ((s.nodesOf nodeType).length % 2 ^ 32)
  (probed.1, { s with
    dedup := s.dedup.set nodeType probed.2
    nodeVecs := if probed.1.2 then s.nodeVecs.modify nodeType (· ++ [id]) else s.nodeVecs })

/-- Register a sampled source node and push its edge into `dstLocal`. -/
def emit (s : HeteroNeighborSampler σ) (srcId srcType dstLocal et : Nat) :
    HeteroNeighborSampler σ :=
  let inserted := s.insertNode srcId srcType
  let s := inserted.2
  { s with
    nextFrontier :=
      if inserted.1.2 then s.nextFrontier ++ [⟨srcType, srcId, inserted.1.1⟩] else s.nextFrontier
    edgeSrcBuf := s.edgeSrcBuf.modify et (· ++ [inserted.1.1])
    edgeDstBuf := s.edgeDstBuf.modify et (· ++ [dstLocal]) }

end Register

/-- One step of Floyd's sampling on the stamp block: the pick at upper end `i`. -/
def stampPick (s : HeteroNeighborSampler σ) (i : Nat) : Nat × HeteroNeighborSampler σ :=
  let drawn := randBelow s.rng (i + 1)
  match s.floyd.testAndSet drawn.1 with
  | (true, floyd) => (drawn.1, { s with rng := drawn.2, floyd := floyd })
  | (false, floyd) => (i, { s with rng := drawn.2, floyd := (floyd.testAndSet i).2 })

/-- One step of Floyd's sampling on the reusable set. -/
def setPick (s : HeteroNeighborSampler σ) (i : Nat) : Nat × HeteroNeighborSampler σ :=
  let drawn := randBelow s.rng (i + 1)
  match seenInsert s.floydSet drawn.1 with
  | (true, seen) => (drawn.1, { s with rng := drawn.2, floydSet := seen })
  | (false, seen) => (i, { s with rng := drawn.2, floydSet := (seenInsert seen i).2 })

section Draw

variable (sources : List Nat) (k dstLocal et srcType : Nat)

omit [Rng σ] in
/-- The positions picked, here every one, and the sampler with their edges pushed. -/
def takeAll (s : HeteroNeighborSampler σ) : List Nat × HeteroNeighborSampler σ :=
  (List.range sources.length).foldl (fun acc i =>
    (acc.1 ++ [i], acc.2.emit (sources.getD i 0) srcType dstLocal et)) ([], s)

def sampleReplace (s : HeteroNeighborSampler σ) : List Nat × HeteroNeighborSampler σ :=
  (List.range k).foldl (fun acc _ =>
    let drawn := randBelow acc.2.rng sources.length
    (acc.1 ++ [drawn.1],
      { acc.2 with rng := drawn.2 }.emit (sources.getD drawn.1 0) srcType dstLocal et)) ([], s)

/-- Pick at each upper end of Floyd's sampling, and push the picked edge. -/
def pickEach (pick : HeteroNeighborSampler σ → Nat → Nat × HeteroNeighborSampler σ)
    (ends : List Nat) (s : HeteroNeighborSampler σ) : List Nat × HeteroNeighborSampler σ :=
  ends.foldl (fun acc i =>
    let picked := pick acc.2 i
    (acc.1 ++ [picked.1], picked.2.emit (sources.getD picked.1 0) srcType dstLocal et)) ([], s)

def sampleFloyd (s : HeteroNeighborSampler σ) : List Nat × HeteroNeighborSampler σ :=
  let ends := NeighborSampler.upperEnds sources.length k
  if sources.length ≤ 256 then
    pickEach sources dstLocal et srcType stampPick ends { s with floyd := s.floyd.begin }
  else pickEach sources dstLocal et srcType setPick ends { s with floydSet := [] }

end Draw

variable (g : HeteroGraph Time) (cfg : HeteroSamplingConfig)

/-- Expand a frontier entry along one edge type; `none` is the panic of a missing fanout. -/
def expandAlong (hop : Nat) (node : TypedNode) (s : HeteroNeighborSampler σ) (et : Nat) :
    Option (HeteroNeighborSampler σ) :=
  (cfg.fanout[et]?.bind fun hops => hops[hop]?).map fun fanout =>
    let sources := g.sourcesInto et node.id
    let srcType := (g.edgeType et).srcType
    if fanout = 0 ∨ sources = [] then s
    else
      let drawn :=
        if cfg.replace then s.sampleReplace sources fanout node.localIdx et srcType
        else if sources.length ≤ fanout then s.takeAll sources node.localIdx et srcType
        else s.sampleFloyd sources fanout node.localIdx et srcType
      { drawn.2 with
        expansions := drawn.2.expansions ++ [⟨hop, et, node.id, node.localIdx, drawn.1⟩] }

def expandNode (hop : Nat) (s : HeteroNeighborSampler σ) (node : TypedNode) :
    Option (HeteroNeighborSampler σ) :=
  (g.edgeTypesForDst node.nodeType).foldlM (expandAlong g cfg hop node) s

/-- One hop; the two frontiers are then swapped. -/
def runHop (s : HeteroNeighborSampler σ) (hop : Nat) : Option (HeteroNeighborSampler σ) :=
  (s.frontier.foldlM (expandNode g cfg hop) { s with nextFrontier := [] }).map fun s =>
    { s with frontier := s.nextFrontier, nextFrontier := s.frontier }

def registerSeed {σ : Type} (seedType : Nat) (s : HeteroNeighborSampler σ) (seed : Nat) :
    HeteroNeighborSampler σ :=
  let inserted := s.insertNode seed seedType
  let s := inserted.2
  { s with
    seedIndicesBuf := s.seedIndicesBuf ++ [inserted.1.1]
    frontier :=
      if inserted.1.2 then s.frontier ++ [⟨seedType, seed, inserted.1.1⟩] else s.frontier }

/-- The state a call resets before it registers its seeds. -/
def beginCall {σ : Type} (s : HeteroNeighborSampler σ) : HeteroNeighborSampler σ :=
  { s with
    dedup := s.dedup.map .begin
    nodeVecs := s.nodeVecs.map fun _ => []
    edgeSrcBuf := s.edgeSrcBuf.map fun _ => []
    edgeDstBuf := s.edgeDstBuf.map fun _ => []
    frontier := []
    seedIndicesBuf := []
    expansions := [] }

/-- Every seed is below the seed type's count. -/
def sampleNeighbors (s : HeteroNeighborSampler σ) (seedType : Nat) (seeds : List Nat) :
    Option (HeteroSampledSubgraph × HeteroNeighborSampler σ) :=
  ((List.range cfg.numHops).foldlM (runHop g cfg)
    (seeds.foldl (registerSeed seedType) s.beginCall)).map fun s =>
      ({ nodes := s.nodeVecs
         edgeSrcLocal := s.edgeSrcBuf
         edgeDstLocal := s.edgeDstBuf
         seedType := seedType
         seeds := seeds
         seedIndices := s.seedIndicesBuf },
       { s with
         nodeVecs := s.nodeVecs.map fun _ => []
         edgeSrcBuf := s.edgeSrcBuf.map fun _ => []
         edgeDstBuf := s.edgeDstBuf.map fun _ => []
         seedIndicesBuf := [] })

/-- `none` is the panic of an unknown seed type. -/
def sample (s : HeteroNeighborSampler σ) (seedType : Nat) (seeds : Seeds) :
    Option (Except SampleError HeteroSampledSubgraph × HeteroNeighborSampler σ) :=
  if g.nodeTypes.length ≤ seedType then none
  else if g.numNodes seedType < seeds.numNodes then
    some (.error (.seedsExceedGraph seeds.numNodes (g.numNodes seedType)), s)
  else (s.sampleNeighbors g cfg seedType seeds.ids).map fun out => (.ok out.1, out.2)

end HeteroNeighborSampler

end AetherGraph
