import AetherGraph.HeteroGraph
import AetherGraph.Foundation.ParentPointers
import AetherGraph.Foundation.SiblingForest

/-! Rabbit Order: vertices merge into the neighbor community of largest modularity gain, and a
walk of the dendrogram the merges leave lists the vertices.  A read outside an array and a loop
that does not stop both end in `stuck`. -/

namespace AetherGraph

open Foundation

inductive RabbitError where
  | idSpaces (numNodes numDstNodes : Nat)
  | notMonotonic (index next previous : Nat)
  | destination (destination edge bound : Nat)
  | stuck
  deriving DecidableEq, Repr

def ProvenGraph.checkMonotone {Time : Type} (g : ProvenGraph Time) : Except RabbitError Unit :=
  if g.validated = .headerOnly then
    match g.csr.descent with
    | some i =>
        .error (.notMonotonic (i + 1) (g.csr.offsets.getD (i + 1) 0) (g.csr.offsets.getD i 0))
    | none => .ok ()
  else .ok ()

def ProvenGraph.checkDestinations {Time : Type} (g : ProvenGraph Time) : Except RabbitError Unit :=
  if g.validated = .full then .ok ()
  else
    match g.csr.edges.zipIdx.find? fun edge => decide (g.csr.numDstNodes ≤ edge.1) with
    | some (d, i) => .error (.destination d i g.csr.numDstNodes)
    | none => .ok ()

/-- `validate_with_mode(Full)`: only what is not proven yet is checked. -/
def ProvenGraph.validateFull {Time : Type} (g : ProvenGraph Time) : Except RabbitError Unit := do
  g.checkMonotone
  g.checkDestinations

/-- Marks "no vertex" in the child lists. -/
def NONE : Nat := 2 ^ 32 - 1

structure Dendrogram where
  parent : List Nat
  firstChild : List Nat
  nextSibling : List Nat
  deriving DecidableEq, Repr

namespace Dendrogram

/-- Every vertex on its own. -/
def singletons (n : Nat) : Dendrogram :=
  ⟨List.range n, List.replicate n NONE, List.replicate n NONE⟩

/-- Top-level community of `v`, compressing the path behind it. -/
def root (parent : List Nat) (v : Nat) : Option (List Nat × Nat) := do
  let r ← ParentPointers.find parent (parent.length + 1) v
  let compressed ← ParentPointers.compress r (parent.length + 1) parent v
  some (compressed, r)

/-- One root's turn in the walk: the root, then everything below it. -/
def emit (d : Dendrogram) (perm : List Nat) (root : Nat) : Option (List Nat) := do
  let p ← d.parent[root]?
  if p ≠ root then some perm
  else do
    let child ← d.firstChild[root]?
    Siblings.walk NONE (d.firstChild[·]?) (d.nextSibling[·]?) (2 * d.parent.length + 2) [child]
      (perm ++ [root])

def permutation (d : Dendrogram) : Option (List Nat) :=
  (List.range d.parent.length).foldlM d.emit []

structure Numbering where
  parent : List Nat
  idOfRoot : List Nat
  next : Nat
  out : List Nat

def Numbering.push (s : Numbering) (v : Nat) : Option Numbering := do
  let (parent, r) ← root s.parent v
  let id ← s.idOfRoot[r]?
  if id = NONE then some ⟨parent, s.idOfRoot.set r s.next, s.next + 1, s.out ++ [s.next]⟩
  else some ⟨parent, s.idOfRoot, s.next, s.out ++ [id]⟩

/-- Dense community ids, numbered by each community's first node id. -/
def partitions (d : Dendrogram) : Option (List Nat) := do
  let numbered ← (List.range d.parent.length).foldlM Numbering.push
    ⟨d.parent, List.replicate d.parent.length NONE, 0, []⟩
  some numbered.out

/-- `w` is `v`, or merged into it or into something below it. -/
def Subtree (d : Dendrogram) : Nat → Nat → Prop :=
  Siblings.Subtree NONE (d.firstChild[·]?) (d.nextSibling[·]?)

/-- Some top-level vertex has both in its subtree. -/
def SameTree (d : Dendrogram) (v w : Nat) : Prop :=
  ∃ r, d.parent[r]? = some r ∧ d.Subtree r v ∧ d.Subtree r w

end Dendrogram

namespace Csr

variable {Time : Type} (g : Csr Time)

/-- The in-edge transpose: counts over the edges, summed into the rows' ends, and each arc,
from the last one back, claiming the slot below its destination's. -/
def transpose : List Nat × List Nat :=
  let counts := g.edges.foldl (fun offsets d => offsets.modify (d + 1) (· + 1))
    (List.replicate (g.numNodes + 1) 0)
  let claimed := (List.range g.numNodes).reverse.foldl (fun acc u =>
    (g.neighbors u).reverse.foldl (fun acc d => CountingSort.claim acc (d, u)) acc)
    (CountingSort.sums g.numNodes counts, List.replicate g.edges.length 0)
  (claimed.1.drop 1 ++ [g.edges.length], claimed.2)

def inNeighbors (v : Nat) : List Nat :=
  slice g.transpose.2 (g.transpose.1.getD v 0, g.transpose.1.getD (v + 1) 0)

variable {g}

/-- Sorted offsets cut an array with an entry for each edge into the rows. -/
theorem Monotone.slices_take (mono : g.Monotone) {α : Type} {xs : List α}
    (sized : xs.length = g.edges.length) {k : Nat} (hk : k ≤ g.numNodes) :
    (List.range k).flatMap (fun v => slice xs (g.neighborRange v)) =
      xs.take (g.offsets.getD k 0) := by
  have first : g.offsets.getD 0 0 = 0 := by
    rw [List.getD_eq_getElem?_getD, g.first_offset]
    rfl
  have last : g.offsets.getD g.numNodes 0 = xs.length := by
    rw [sized, List.getD_eq_getElem?_getD, g.last_offset]
    rfl
  induction k with
  | zero => rw [first]; rfl
  | succ k ih =>
      have step := mono k hk
      have within := mono.offsets_le hk (Nat.le_refl _)
      have row : g.neighborRange k = (g.offsets.getD k 0, g.offsets.getD (k + 1) 0) := by
        have inside : k < g.numNodes := hk
        unfold neighborRange
        rw [if_pos inside, if_neg (by omega)]
      rw [List.range_succ, List.flatMap_append, ih (Nat.le_of_succ_le hk), List.flatMap_singleton,
        row, slice]
      dsimp only
      rw [← List.take_add, Nat.add_sub_cancel' step]

theorem Monotone.slices_eq (mono : g.Monotone) {α : Type} {xs : List α}
    (sized : xs.length = g.edges.length) :
    (List.range g.numNodes).flatMap (fun v => slice xs (g.neighborRange v)) = xs := by
  rw [mono.slices_take sized (Nat.le_refl _), List.getD_eq_getElem?_getD, g.last_offset,
    ← sized]
  exact List.take_length

theorem Monotone.rows_eq (mono : g.Monotone) :
    (List.range g.numNodes).flatMap g.neighbors = g.edges := mono.slices_eq rfl

theorem transpose_eq (mono : g.Monotone) (inRange : ∀ d ∈ g.edges, d < g.numNodes) :
    g.transpose = CountingSort.groupBack g.numNodes (g.storedEdges.map Prod.swap) := by
  have pairs : g.storedEdges.map Prod.swap =
      (List.range g.numNodes).flatMap fun u => (g.neighbors u).map fun d => (d, u) := by
    rw [storedEdges, List.map_flatMap]
    simp only [List.map_map]
    rfl
  have keys : (g.storedEdges.map Prod.swap).map Prod.fst = g.edges := by
    rw [pairs, List.map_flatMap]
    have row : ∀ u, ((g.neighbors u).map fun d => (d, u)).map Prod.fst = g.neighbors u := by
      intro u
      rw [List.map_map]
      exact List.map_id _
    simp only [row]
    exact mono.rows_eq
  have counts : g.edges.foldl (fun offsets d => offsets.modify (d + 1) (· + 1))
      (List.replicate (g.numNodes + 1) 0) =
        CountingSort.counts g.numNodes (g.storedEdges.map Prod.swap) := by
    rw [CountingSort.counts, ← keys, List.foldl_map]
    refine List.foldl_ext _ _ _ fun offsets p hp => ?_
    rw [if_pos (inRange p.1 (keys ▸ List.mem_map_of_mem hp))]
  have length : (g.storedEdges.map Prod.swap).length = g.edges.length := by
    rw [← keys, List.length_map (f := Prod.fst)]
  unfold transpose CountingSort.groupBack
  rw [counts, length, pairs, List.reverse_flatMap, List.foldl_flatMap]
  simp only [Function.comp_def, ← List.map_reverse, List.foldl_map]
  rfl

/-- A row of the transpose holds the sources of the arcs into its vertex, in stored order. -/
theorem inNeighbors_eq (mono : g.Monotone) (inRange : ∀ d ∈ g.edges, d < g.numNodes) {v : Nat}
    (hv : v < g.numNodes) :
    g.inNeighbors v = (g.storedEdges.filter fun e => e.2 = v).map Prod.fst := by
  have keys : ∀ p ∈ g.storedEdges.map Prod.swap, p.1 < g.numNodes := by
    intro p hp
    obtain ⟨⟨u, d⟩, stored, rfl⟩ := List.mem_map.mp hp
    exact inRange d (mem_edges_of_mem_neighbors (mem_storedEdges.mp stored))
  obtain ⟨-, -, starts, runs⟩ := CountingSort.groupBack_spec keys
  rw [inNeighbors, transpose_eq mono inRange, slice]
  dsimp only
  rw [starts v (Nat.le_of_lt hv), starts (v + 1) hv, runs v hv, CountingSort.run, List.filter_map,
    List.map_map]
  rfl

theorem inNeighbors_lt (mono : g.Monotone) (inRange : ∀ d ∈ g.edges, d < g.numNodes) {v s : Nat}
    (hv : v < g.numNodes) (hs : s ∈ g.inNeighbors v) : s < g.numNodes := by
  rw [inNeighbors_eq mono inRange hv] at hs
  obtain ⟨⟨u, d⟩, stored, rfl⟩ := List.mem_map.mp hs
  have hd : d ∈ g.neighbors u := mem_storedEdges.mp (List.mem_filter.mp stored).1
  refine (neighborRange_eq ?_).1
  rw [← neighbors_length]
  exact Nat.ne_of_gt (List.length_pos_of_mem hd)

variable (g)

/-- Undirected degree, self-loops excluded. -/
def undirectedDegree (v : Nat) : Nat :=
  (g.neighbors v).countP (· ≠ v) + (g.inNeighbors v).countP (· ≠ v)

end Csr

/-- Ascending by degree, then by id. -/
def mergeOrder (degree : List Nat) (n : Nat) : List Nat :=
  (List.range n).mergeSort fun v w =>
    decide (degree.getD v 0 < degree.getD w 0 ∨ degree.getD v 0 = degree.getD w 0 ∧ v ≤ w)

/-- What a vertex's scan of its edges reads and writes. -/
structure EdgeScan where
  parent : List Nat
  weightTo : List Nat
  touched : List Nat

/-- Add weight `w` towards the community of `c`. -/
def EdgeScan.add (u : Nat) (s : EdgeScan) (c w : Nat) : Option EdgeScan := do
  let (parent, c) ← Dendrogram.root s.parent c
  if c = u then some { s with parent := parent }
  else do
    let old ← s.weightTo[c]?
    some ⟨parent, s.weightTo.set c (old + w), if old = 0 then s.touched ++ [c] else s.touched⟩

/-- The merge loop's state between two vertices. -/
structure MergePass where
  dendro : Dendrogram
  degree : List Nat
  carried : List (Option (List (Nat × Nat)))
  visited : List Bool
  weightTo : List Nat

namespace MergePass

/-- Take what a child carries and add it. -/
def absorb (u : Nat) (acc : List (Option (List (Nat × Nat))) × EdgeScan) (child : Nat) :
    Option (List (Option (List (Nat × Nat))) × EdgeScan) := do
  let entry ← acc.1[child]?
  let scan ← (entry.getD []).foldlM (fun s cw => s.add u cw.1 cw.2) acc.2
  some (acc.1.set child none, scan)

/-- Modularity gain of joining community `c`, scaled by 2m². -/
def gain (twoM du w dc : Nat) : Int := twoM * w - du * dc

def better (best : Option (Int × Nat)) (gain : Int) (c : Nat) : Bool :=
  match best with
  | none => 0 < gain
  | some (g, b) => g < gain ∨ (gain = g ∧ c < b)

def weigh (twoM du : Nat) (degree weightTo : List Nat) (best : Option (Int × Nat)) (c : Nat) :
    Option (Option (Int × Nat)) := do
  let w ← weightTo[c]?
  let dc ← degree[c]?
  let gain := gain twoM du w dc
  some (if better best gain c then some (gain, c) else best)

/-- Merge `u` into `c`; a community not yet visited will absorb what `u` aggregated. -/
def merge (s : MergePass) (scan : EdgeScan) (u c : Nat) : Option MergePass := do
  let du ← s.degree[u]?
  let dc ← s.degree[c]?
  let first ← s.dendro.firstChild[c]?
  let seen ← s.visited[c]?
  let carried ←
    if seen then some s.carried
    else do
      let list ← scan.touched.mapM fun t => do some (t, ← scan.weightTo[t]?)
      some (s.carried.set u (some list))
  some { s with
    dendro :=
      { parent := scan.parent.set u c
        firstChild := s.dendro.firstChild.set c u
        nextSibling := s.dendro.nextSibling.set u first }
    degree := s.degree.set c (dc + du)
    carried := carried }

/-- One vertex's turn: aggregate its edges and its children's, pick the community of largest
positive gain, merge, and clear the weights. -/
def visit {Time : Type} (g : Csr Time) (twoM : Nat) (s : MergePass) (u : Nat) : Option MergePass := do
  let scan ← (g.neighbors u).foldlM (fun s v => s.add u v 1) ⟨s.dendro.parent, s.weightTo, []⟩
  let scan ← (g.inNeighbors u).foldlM (fun s v => s.add u v 1) scan
  let child ← s.dendro.firstChild[u]?
  let (carried, scan) ← Siblings.along NONE (s.dendro.nextSibling[·]?) (absorb u)
    (g.numNodes + 1) child (s.carried, scan)
  let s := { s with dendro.parent := scan.parent, carried := carried }
  let du ← s.degree[u]?
  let best ← scan.touched.foldlM (weigh twoM du s.degree scan.weightTo) none
  let s ← match best with
    | some (_, c) => s.merge scan u c
    | none => some s
  some { s with
    weightTo := scan.touched.foldl (fun weightTo t => weightTo.set t 0) scan.weightTo
    visited := s.visited.set u true }

end MergePass

namespace ProvenGraph

variable {Time : Type} (g : ProvenGraph Time)

/-- Rabbit Order community detection. -/
def rabbitDendrogram : Except RabbitError Dendrogram := do
  if ¬ g.csr.Homogeneous then throw (.idSpaces g.csr.numNodes g.csr.numDstNodes)
  g.validateFull
  let n := g.csr.numNodes
  if n ≤ 1 ∨ g.csr.edges.length = 0 then return .singletons n
  let degree := (List.range n).map g.csr.undirectedDegree
  let twoM := degree.sum
  if twoM = 0 then return .singletons n
  match (mergeOrder degree n).foldlM (MergePass.visit g.csr twoM)
      ⟨.singletons n, degree, List.replicate n none, List.replicate n false,
        List.replicate n 0⟩ with
  | some s => return s.dendro
  | none => throw .stuck

def reorderRabbit : Except RabbitError (List Nat) := do
  let dendro ← g.rabbitDendrogram
  match dendro.permutation with
  | some perm => return perm
  | none => throw .stuck

def rabbitPartitions : Except RabbitError (List Nat) := do
  let dendro ← g.rabbitDendrogram
  match dendro.partitions with
  | some parts => return parts
  | none => throw .stuck

def reorderRabbitWithPartitions : Except RabbitError (List Nat × List Nat) := do
  let dendro ← g.rabbitDendrogram
  match dendro.permutation, dendro.partitions with
  | some perm, some parts => return (perm, parts)
  | _, _ => throw .stuck

end ProvenGraph

end AetherGraph
