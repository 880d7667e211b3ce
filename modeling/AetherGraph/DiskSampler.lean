import AetherGraph.EdgeReads
import AetherGraph.Foundation.FloydCount
import AetherGraph.NeighborSampler

/-! Sampling from a graph whose edges stay on disk: positions are drawn from the degrees, the edges
of a whole hop are read at once, and each pick is then emitted from its place in the buffer. -/

namespace AetherGraph

open Foundation

section Draws

variable {σ : Type} [Rng σ]

/-- Multiply-high of a 64-bit draw. -/
def drawBelow (r : σ) (n : Nat) : Nat × σ :=
  ((Rng.nextU64 r).1 % 2 ^ 64 * n / 2 ^ 64, (Rng.nextU64 r).2)

def drawRepeats (n : Nat) : Nat → σ → List Nat × σ
  | 0, r => ([], r)
  | k + 1, r =>
      let first := drawBelow r n
      let rest := drawRepeats n k first.2
      (first.1 :: rest.1, rest.2)

/-- Floyd's loop over the set of the positions seen. -/
def drawFloyd : σ → List Nat → List Nat → List Nat → List Nat × σ
  | r, _, out, [] => (out, r)
  | r, seen, out, i :: ends =>
      let j := drawBelow r (i + 1)
      let pick := drawPick seenInsert seen i j.1
      drawFloyd j.2 pick.2 (out ++ [pick.1]) ends

/-- All positions of a node of degree at most `k`, or `k` draws. -/
def drawRow (r : σ) (degree k : Nat) (replace : Bool) : List Nat × σ :=
  if degree ≤ k then (List.range degree, r)
  else if replace then drawRepeats degree k r
  else drawFloyd r [] [] (List.range' (degree - k) k)

end Draws

structure DiskEdge where
  src : Nat
  dst : Nat
  eid : Nat
  deriving DecidableEq, Repr

/-- A batch as it is sampled.  `emittedAt` has the hop that first emitted an edge. -/
structure DiskBatch where
  localIds : List (Nat × Nat)
  nodes : List Nat
  frontier : List Nat
  emittedAt : List (Nat × Nat)
  edges : List DiskEdge
  numSampledNodes : List Nat
  numSampledEdges : List Nat
  deriving DecidableEq, Repr

/-- A subgraph without recorded local indices. -/
structure LazySubgraph where
  nodes : List Nat
  edgeSrc : List Nat
  edgeDst : List Nat
  edgeIds : List Nat
  seeds : List Nat
  numSampledNodes : List Nat
  numSampledEdges : List Nat
  deriving DecidableEq, Repr

namespace LazySubgraph

/-- The entry of a node, a later one over an earlier one. -/
def lazyLocalIndex (sub : LazySubgraph) (id : Nat) : Option Nat :=
  ((sub.nodes.zipIdx.map fun entry => (entry.1, entry.2 % 2 ^ 32)).reverse).lookup id

def localOf (sub : LazySubgraph) (what : String) (id : Nat) : Except String Nat :=
  match sub.lazyLocalIndex id with
  | some idx => .ok idx
  | none => .error s!"{what} {id} not in subgraph nodes"

def edgeIndexLocal (sub : LazySubgraph) : Except String (List Nat × List Nat) := do
  let srcLocal ← sub.edgeSrc.mapM (sub.localOf "edge src")
  let dstLocal ← sub.edgeDst.mapM (sub.localOf "edge dst")
  pure (srcLocal, dstLocal)

def seedIndicesLocal (sub : LazySubgraph) : Except String (List Nat) :=
  sub.seeds.mapM (sub.localOf "seed")

end LazySubgraph

namespace DiskBatch

def start : DiskBatch := ⟨[], [], [], [], [], [], []⟩

/-- Whether a node is new to the batch. -/
def register (b : DiskBatch) (node : Nat) : Bool × DiskBatch :=
  match b.localIds.lookup node with
  | some _ => (false, b)
  | none => (true, { b with
      localIds := (node, b.nodes.length % 2 ^ 32) :: b.localIds
      nodes := b.nodes ++ [node] })

def registerSeed (b : DiskBatch) (seed : Nat) : DiskBatch :=
  let out := b.register seed
  if out.1 then { out.2 with frontier := out.2.frontier ++ [seed] } else out.2

/-- Whether the edge was first emitted in this hop, or is now. -/
def claimEdge (b : DiskBatch) (edge hop : Nat) : Bool × DiskBatch :=
  match b.emittedAt.lookup edge with
  | some at_ => (decide (at_ = hop), b)
  | none => (true, { b with emittedAt := (edge, hop) :: b.emittedAt })

/-- Push an edge, and its destination to the next frontier if it is new. -/
def pushEdge (b : DiskBatch) (next : List Nat) (src dst edge : Nat) : DiskBatch × List Nat :=
  let out := register { b with edges := b.edges ++ [⟨src, dst, edge⟩] } dst
  (out.2, if out.1 then next ++ [dst] else next)

section Hops

variable {σ : Type} [Rng σ]

/-- The picks of the nodes of a frontier, each with the node's index. -/
def drawHop (offsets : List Nat) (fanout : Nat) (replace : Bool) :
    List (Nat × Nat) → σ → Option (List Pick × σ)
  | [], r => some ([], r)
  | (node, fi) :: rest, r => do
      let start ← offsets[node]?
      let stop ← offsets[node + 1]?
      let drawn := drawRow r (stop - start) fanout replace
      let more ← drawHop offsets fanout replace rest drawn.2
      some (drawn.1.map (fun p => (fi % 2 ^ 32, start + p)) ++ more.1, more.2)

/-- A drawn edge, once it is read. -/
def emitEdge (numNodes : Nat) (cumulative : Bool) (hop : Nat) (st : DiskBatch × List Nat)
    (src dst edge : Nat) : DiskBatch × List Nat :=
  if numNodes ≤ dst then st
  else if cumulative then
    let claim := st.1.claimEdge edge hop
    if claim.1 then claim.2.pushEdge st.2 src dst edge else (claim.2, st.2)
  else st.1.pushEdge st.2 src dst edge

/-- One pick of a hop, with its slot. -/
def emitPick (numNodes : Nat) (cumulative : Bool) (hop : Nat) (landing : List Byte)
    (st : DiskBatch × List Nat) (pick : Pick × Nat) : Option (DiskBatch × List Nat) := do
  let src ← st.1.frontier[pick.1.1]?
  let dst ← entryAt landing pick.2
  some (emitEdge numNodes cumulative hop st src dst pick.1.2)

/-- The end of a hop that began with `edgesBefore` edges. -/
def endHop (cumulative : Bool) (edgesBefore : Nat) (st : DiskBatch × List Nat) : DiskBatch :=
  { st.1 with
    frontier := if cumulative then st.1.frontier ++ st.2 else st.2
    numSampledNodes := st.1.numSampledNodes ++ [st.2.length]
    numSampledEdges := st.1.numSampledEdges ++ [st.1.edges.length - edgesBefore] }

/-- The picks of a hop are read and emitted. -/
def emitHop (sort : KeySort) (device : List Byte) (edgesStart numNodes : Nat) (cumulative : Bool)
    (hop : Nat) (b : DiskBatch) (picks : List Pick) : Option DiskBatch := do
  let plan := planReads sort picks
  let landing ← fetchRuns device edgesStart plan.runs (List.replicate (4 * plan.total) 0)
  let st ← (picks.zip plan.slots).foldlM (emitPick numNodes cumulative hop landing) (b, [])
  some (endHop cumulative b.edges.length st)

/-- The hops in turn: the picks that were drawn, hop by hop, and the batch. -/
def sampleHops (sort : KeySort) (device : List Byte) (edgesStart : Nat) (offsets : List Nat)
    (cfg : SamplingConfig) : List (Nat × Nat) → DiskBatch → σ →
    List (List Pick) × Option (DiskBatch × σ)
  | [], b, r => ([], some (b, r))
  | (fanout, hop) :: hops, b, r =>
      match drawHop offsets fanout cfg.replace b.frontier.zipIdx r with
      | none => ([], none)
      | some (picks, r) =>
          match b.emitHop sort device edgesStart (offsets.length - 1) cfg.cumulative hop picks with
          | none => ([picks], none)
          | some b =>
              let later := sampleHops sort device edgesStart offsets cfg hops b r
              (picks :: later.1, later.2)

end Hops

end DiskBatch

section Sample

variable {σ : Type} [Rng σ]

def seededBatch (seeds : List Nat) : DiskBatch :=
  let b := seeds.foldl DiskBatch.registerSeed .start
  { b with numSampledNodes := [b.nodes.length] }

def DiskBatch.finish (b : DiskBatch) (seeds : List Nat) : LazySubgraph where
  nodes := b.nodes
  edgeSrc := b.edges.map DiskEdge.src
  edgeDst := b.edges.map DiskEdge.dst
  edgeIds := b.edges.map DiskEdge.eid
  seeds := seeds
  numSampledNodes := b.numSampledNodes
  numSampledEdges := b.numSampledEdges

/-- `sample_from_offsets` reading from the device: the picks of each hop, and the subgraph, or none
where a read fails or an index is out of bounds. -/
def sampleFromOffsets (sort : KeySort) (device : List Byte) (edgesStart : Nat)
    (offsets : List Nat) (seeds : List Nat) (cfg : SamplingConfig) (r : σ) :
    List (List Pick) × Option (LazySubgraph × σ) :=
  let out := DiskBatch.sampleHops sort device edgesStart offsets cfg cfg.fanout.zipIdx
    (seededBatch seeds) r
  (out.1, out.2.map fun ret => (ret.1.finish seeds, ret.2))

end Sample

end AetherGraph
