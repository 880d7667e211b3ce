import AetherGraph.Csr
import AetherGraph.Foundation.CountingSort
import AetherGraph.Foundation.FoldM

/-! Graphs of several node and edge types: what construction checks of each edge type, and the
incoming adjacency the sampler runs on. -/

namespace AetherGraph

open Foundation

/-- How much of a graph's structure has been proven. -/
inductive GraphValidationMode where
  | headerOnly
  | offsetsOnly
  | full
  deriving DecidableEq, Repr

/-- A graph with the level of proof it carries. -/
structure ProvenGraph (Time : Type) where
  csr : Csr Time
  validated : GraphValidationMode
  monotone : validated ≠ .headerOnly → csr.Monotone
  destinations : validated = .full → csr.DestinationsInRange

structure NodeTypeMeta where
  name : String
  count : Nat
  deriving DecidableEq, Repr, Inhabited

structure EdgeTypeMeta where
  srcType : Nat
  relation : String
  dstType : Nat
  deriving DecidableEq, Repr, Inhabited

inductive EdgeTypeError where
  | notMonotonic (index next previous : Nat)
  | sourcesPastCount (edges srcCount : Nat)
  | destination (destination edge dstCount : Nat)
  deriving DecidableEq, Repr

inductive HeteroBuildError where
  | tooManyNodeTypes (n : Nat)
  | tooManyEdgeTypes (n : Nat)
  | unknownNodeType (name : String)
  | duplicateNodeType (name : String)
  | duplicateEdgeType (src rel dst : String)
  | nodeTypeTooLarge (name : String) (count : Nat)
  | invalidEdgeType (src rel dst : String) (reason : EdgeTypeError)
  deriving DecidableEq, Repr

structure HeteroGraph (Time : Type) where
  nodeTypes : List NodeTypeMeta
  nodeTypeIndex : List (String × Nat)
  edgeTypes : List EdgeTypeMeta
  edgeTypeIndex : List ((String × String × String) × Nat)
  csrGraphs : List (Csr Time)

structure InAdjacency where
  offsets : List Nat
  sources : List Nat
  deriving DecidableEq, Repr, Inhabited

namespace Csr

variable {Time : Type} (g : Csr Time)

def edgeOffset (node : Nat) : Nat := if g.numNodes ≤ node then 0 else g.offsets.getD node 0

/-- Where the offsets first descend. -/
def descent : Option Nat :=
  (List.range g.numNodes).find? fun i => decide (g.offsets.getD (i + 1) 0 < g.offsets.getD i 0)

/-- The edges in stored order, each with its row. -/
def storedEdges : List (Nat × Nat) :=
  (List.range g.numNodes).flatMap fun s => (g.neighbors s).map fun d => (s, d)

/-- A graph whose edges run from sources to destinations below the counts. -/
structure Fits (srcCount dstCount : Nat) : Prop where
  monotone : g.Monotone
  sources : ∀ s, srcCount ≤ s → g.neighbors s = []
  destinations : ∀ d ∈ g.edges, d < dstCount

variable {g}

theorem monotone_of_descent (h : g.descent = none) : g.Monotone := by
  intro i hi
  have here := List.find?_eq_none.mp h i (List.mem_range.mpr hi)
  rw [decide_eq_true_eq] at here
  omega

theorem mem_edges_of_mem_neighbors {s d : Nat} (h : d ∈ g.neighbors s) : d ∈ g.edges :=
  List.mem_of_mem_drop (List.mem_of_mem_take h)

theorem mem_storedEdges {s d : Nat} : (s, d) ∈ g.storedEdges ↔ d ∈ g.neighbors s := by
  constructor
  · intro h
    obtain ⟨s', -, hd⟩ := List.mem_flatMap.mp h
    obtain ⟨d', hd', same⟩ := List.mem_map.mp hd
    obtain ⟨rfl, rfl⟩ := Prod.mk.inj same
    exact hd'
  · intro h
    have row : g.degree s ≠ 0 := by
      rw [← neighbors_length]
      exact Nat.ne_of_gt (List.length_pos_of_mem h)
    exact List.mem_flatMap.mpr
      ⟨s, List.mem_range.mpr (neighborRange_eq row).1, List.mem_map_of_mem h⟩

/-- Sorted offsets that reach the last edge by row `k` leave the rows from `k` on empty. -/
theorem neighbors_eq_nil_of_tail (mono : g.Monotone) {k s : Nat}
    (tail : g.offsets.getD k 0 = g.edges.length) (hs : k ≤ s) : g.neighbors s = [] := by
  by_contra row
  have degree : g.degree s ≠ 0 := by
    rw [← neighbors_length]
    exact fun empty => row (List.length_eq_zero_iff.mp empty)
  obtain ⟨inside, range⟩ := neighborRange_eq degree
  have start := mono.offsets_le hs (Nat.le_of_lt inside)
  have stop := neighborRange_le (g := g) s
  unfold Csr.degree at degree
  rw [range] at degree stop
  dsimp only at degree stop
  omega

end Csr

/-- `none` when the graph fits an edge type with these node counts. -/
def checkEdgeType {Time : Type} (g : ProvenGraph Time) (srcCount dstCount : Nat) :
    Option EdgeTypeError :=
  match if g.validated = .headerOnly then g.csr.descent else none with
  | some i => some (.notMonotonic (i + 1) (g.csr.offsets.getD (i + 1) 0) (g.csr.offsets.getD i 0))
  | none =>
      if srcCount < g.csr.numNodes ∧ g.csr.edgeOffset srcCount ≠ g.csr.edges.length then
        some (.sourcesPastCount (g.csr.edges.length - g.csr.edgeOffset srcCount) srcCount)
      else if g.validated = .full ∧ g.csr.numDstNodes ≤ dstCount then none
      else
        (g.csr.edges.zipIdx.find? fun edge => decide (dstCount ≤ edge.1)).map fun edge =>
          .destination edge.1 edge.2 dstCount

theorem checkEdgeType_fits {Time : Type} {g : ProvenGraph Time} {srcCount dstCount : Nat}
    (h : checkEdgeType g srcCount dstCount = none) : g.csr.Fits srcCount dstCount := by
  unfold checkEdgeType at h
  split at h
  · cases h
  · rename_i sorted
    have mono : g.csr.Monotone := by
      by_cases known : g.validated = .headerOnly
      · rw [if_pos known] at sorted
        exact Csr.monotone_of_descent sorted
      · exact g.monotone known
    split at h
    · cases h
    · rename_i tail
      refine ⟨mono, fun s hs => ?_, fun d hd => ?_⟩
      · rcases Nat.lt_or_ge srcCount g.csr.numNodes with more | fewer
        · refine Csr.neighbors_eq_nil_of_tail mono ?_ hs
          by_contra short
          refine tail ⟨more, ?_⟩
          rwa [Csr.edgeOffset, if_neg (Nat.not_le.mpr more)]
        · by_contra row
          refine row (List.length_eq_zero_iff.mp ?_)
          rw [Csr.neighbors_length]
          by_contra degree
          have := (Csr.neighborRange_eq degree).1
          omega
      · split at h
        · rename_i bounded
          exact Nat.lt_of_lt_of_le (g.destinations bounded.1 d hd) bounded.2
        · rw [Option.map_eq_none_iff, List.find?_eq_none] at h
          obtain ⟨i, at_⟩ := List.mem_iff_getElem?.mp hd
          have here := h (d, i) (List.mem_zipIdx_iff_getElem?.mpr at_)
          rw [decide_eq_true_eq] at here
          exact Nat.lt_of_not_le here

namespace HeteroGraph

variable {Time : Type}

def addNodeType (g : HeteroGraph Time) (part : String × Nat) :
    Except HeteroBuildError (HeteroGraph Time) :=
  if maxNodes < part.2 then .error (.nodeTypeTooLarge part.1 part.2)
  else if (g.nodeTypeIndex.lookup part.1).isSome then .error (.duplicateNodeType part.1)
  else .ok { g with
    nodeTypes := g.nodeTypes ++ [⟨part.1, part.2⟩]
    nodeTypeIndex := g.nodeTypeIndex ++ [(part.1, g.nodeTypes.length)] }

def numNodes (g : HeteroGraph Time) (nodeType : Nat) : Nat := (g.nodeTypes.getD nodeType default).count

def addEdgeType (g : HeteroGraph Time) (part : String × String × String × ProvenGraph Time) :
    Except HeteroBuildError (HeteroGraph Time) :=
  match part with
  | (src, rel, dst, graph) =>
      match g.nodeTypeIndex.lookup src, g.nodeTypeIndex.lookup dst with
      | none, _ => .error (.unknownNodeType src)
      | some _, none => .error (.unknownNodeType dst)
      | some srcId, some dstId =>
          if (g.edgeTypeIndex.lookup (src, rel, dst)).isSome then
            .error (.duplicateEdgeType src rel dst)
          else match checkEdgeType graph (g.numNodes srcId) (g.numNodes dstId) with
            | some reason => .error (.invalidEdgeType src rel dst reason)
            | none => .ok { g with
                edgeTypes := g.edgeTypes ++ [⟨srcId, rel, dstId⟩]
                edgeTypeIndex := g.edgeTypeIndex ++ [((src, rel, dst), g.edgeTypes.length)]
                csrGraphs := g.csrGraphs ++ [graph.csr] }

def tryFromParts (nodeTypes : List (String × Nat))
    (edgeTypes : List (String × String × String × ProvenGraph Time)) :
    Except HeteroBuildError (HeteroGraph Time) :=
  if 255 < nodeTypes.length then .error (.tooManyNodeTypes nodeTypes.length)
  else if 255 < edgeTypes.length then .error (.tooManyEdgeTypes edgeTypes.length)
  else do
    let g ← nodeTypes.foldlM addNodeType ⟨[], [], [], [], []⟩
    edgeTypes.foldlM addEdgeType g

def edgeType (g : HeteroGraph Time) (et : Nat) : EdgeTypeMeta := g.edgeTypes.getD et default

def srcCount (g : HeteroGraph Time) (et : Nat) : Nat := g.numNodes (g.edgeType et).srcType

def dstCount (g : HeteroGraph Time) (et : Nat) : Nat := g.numNodes (g.edgeType et).dstType

/-- The invariants of construction. -/
structure Valid (g : HeteroGraph Time) : Prop where
  index : ∀ entry ∈ g.nodeTypeIndex, entry.2 < g.nodeTypes.length
  counts : ∀ nodeType ∈ g.nodeTypes, nodeType.count ≤ maxNodes
  types : ∀ et < g.edgeTypes.length,
    (g.edgeType et).srcType < g.nodeTypes.length ∧ (g.edgeType et).dstType < g.nodeTypes.length
  csrs : g.csrGraphs.length = g.edgeTypes.length
  fits : ∀ et (csr : Csr Time), g.csrGraphs[et]? = some csr → csr.Fits (g.srcCount et) (g.dstCount et)

theorem lookup_mem {α β : Type} [BEq α] [LawfulBEq α] {a : α} {b : β} {entries : List (α × β)}
    (h : entries.lookup a = some b) : (a, b) ∈ entries := by
  obtain ⟨before, after, rfl, -⟩ := List.lookup_eq_some_iff.mp h
  exact List.mem_append_right _ List.mem_cons_self

theorem Valid.numNodes_le {g : HeteroGraph Time} (h : g.Valid) (nt : Nat) :
    g.numNodes nt ≤ maxNodes := by
  unfold numNodes
  rcases Nat.lt_or_ge nt g.nodeTypes.length with inside | outside
  · rw [List.getD_eq_getElem _ _ inside]
    exact h.counts _ (List.getElem_mem inside)
  · rw [List.getD_eq_default _ _ outside]
    exact Nat.zero_le _

/-- Node types come before edge types, so a new one changes no edge type. -/
theorem Valid.addNodeType {g g' : HeteroGraph Time} (h : g.Valid) (untyped : g.edgeTypes = [])
    {part : String × Nat} (added : g.addNodeType part = .ok g') :
    g'.Valid ∧ g'.edgeTypes = [] := by
  unfold HeteroGraph.addNodeType at added
  split at added
  · cases added
  · rename_i small
    split at added
    · cases added
    · cases added
      refine ⟨⟨?_, ?_, fun et het => ?_, h.csrs, fun et csr found => ?_⟩, untyped⟩
      · refine List.forall_mem_append.mpr ⟨fun entry he => ?_, fun entry he => ?_⟩
        · have := h.index entry he
          rw [List.length_append]
          omega
        · rw [List.mem_singleton.mp he, List.length_append]
          exact Nat.lt_succ_self _
      · refine List.forall_mem_append.mpr ⟨h.counts, fun nodeType hn => ?_⟩
        rw [List.mem_singleton.mp hn]
        exact Nat.le_of_not_lt small
      · rw [untyped] at het
        exact absurd het (Nat.not_lt_zero et)
      · have none : g.csrGraphs = [] := by
          rw [← List.length_eq_zero_iff, h.csrs, untyped]
          rfl
        rw [none] at found
        cases found

theorem Valid.addEdgeType {g g' : HeteroGraph Time} (h : g.Valid)
    {part : String × String × String × ProvenGraph Time} (added : g.addEdgeType part = .ok g') :
    g'.Valid := by
  obtain ⟨src, rel, dst, graph⟩ := part
  unfold HeteroGraph.addEdgeType at added
  dsimp only at added
  split at added
  · cases added
  · cases added
  · rename_i srcId dstId foundSrc foundDst
    split at added
    · cases added
    · split at added
      · cases added
      · rename_i fits
        cases added
        have srcIn := h.index _ (lookup_mem foundSrc)
        have dstIn := h.index _ (lookup_mem foundDst)
        have old : ∀ et < g.edgeTypes.length,
            (g.edgeTypes ++ [(⟨srcId, rel, dstId⟩ : EdgeTypeMeta)]).getD et default = g.edgeType et := by
          intro et het
          rw [List.getD_append _ _ _ _ het]
          rfl
        have last : (g.edgeTypes ++ [(⟨srcId, rel, dstId⟩ : EdgeTypeMeta)]).getD g.edgeTypes.length
            default = ⟨srcId, rel, dstId⟩ := by
          rw [List.getD_append_right _ _ _ _ le_rfl, Nat.sub_self]
          rfl
        refine ⟨h.index, h.counts, fun et het => ?_, ?_, fun et csr found => ?_⟩
        · unfold edgeType
          dsimp only at het ⊢
          rw [List.length_append, List.length_singleton] at het
          rcases Nat.lt_or_eq_of_le (Nat.le_of_lt_succ het) with before | rfl
          · rw [old et before]
            exact h.types et before
          · rw [last]
            exact ⟨srcIn, dstIn⟩
        · dsimp only
          rw [List.length_append, List.length_append, h.csrs]
          rfl
        · unfold srcCount dstCount edgeType
          dsimp only at found ⊢
          rcases Nat.lt_trichotomy et g.edgeTypes.length with before | rfl | after
          · rw [old et before]
            rw [List.getElem?_append_left (h.csrs ▸ before)] at found
            exact h.fits et csr found
          · rw [last]
            rw [List.getElem?_append_right (Nat.le_of_eq h.csrs), h.csrs, Nat.sub_self] at found
            obtain rfl := Option.some.inj found
            exact checkEdgeType_fits fits
          · rw [List.getElem?_eq_none_iff.mpr] at found
            · cases found
            · rw [List.length_append, List.length_singleton, h.csrs]
              exact after

theorem tryFromParts_valid {nodeTypes : List (String × Nat)}
    {edgeTypes : List (String × String × String × ProvenGraph Time)} {g : HeteroGraph Time}
    (built : tryFromParts nodeTypes edgeTypes = .ok g) : g.Valid := by
  unfold tryFromParts at built
  split at built
  · cases built
  · split at built
    · cases built
    · cases typed : nodeTypes.foldlM HeteroGraph.addNodeType (⟨[], [], [], [], []⟩ : HeteroGraph Time) with
      | error e =>
          rw [typed] at built
          cases built
      | ok mid =>
          rw [typed] at built
          have start : (⟨[], [], [], [], []⟩ : HeteroGraph Time).Valid ∧
              (⟨[], [], [], [], []⟩ : HeteroGraph Time).edgeTypes = [] :=
            ⟨⟨nofun, nofun, nofun, rfl, nofun⟩, rfl⟩
          have nodes := foldlM_except (P := fun g => g.Valid ∧ g.edgeTypes = [])
            (fun g part g' h added => h.1.addNodeType h.2 added) start typed
          exact foldlM_except (P := Valid) (fun g part g' h added => h.addEdgeType added) nodes.1
            built

end HeteroGraph

namespace InAdjacency

variable {Time : Type}

/-- Transpose `csr` into per-destination source lists: a count for each destination, then
each row's edges written at their destinations' cursors. -/
def transpose (csr : Csr Time) (numSrc numDst : Nat) : InAdjacency :=
  let rows := List.range (min csr.numNodes numSrc)
  let counts := rows.foldl (fun offsets s => (csr.neighbors s).foldl (fun offsets d =>
    if d < numDst then offsets.modify (d + 1) (· + 1) else offsets) offsets)
    (List.replicate (numDst + 1) 0)
  let offsets := CountingSort.sums numDst counts
  let placed := rows.foldl (fun acc s => (csr.neighbors s).foldl (fun acc d =>
    CountingSort.place acc (d, s)) acc)
    (offsets.take numDst, List.replicate (offsets.getD numDst 0) 0)
  ⟨offsets, placed.2⟩

/-- Sources with an edge into `dst`; empty when `dst` is out of range. -/
def sourcesOf (adj : InAdjacency) (dst : Nat) : List Nat :=
  match adj.offsets[dst]?, adj.offsets[dst + 1]? with
  | some start, some stop => slice adj.sources (start, stop)
  | _, _ => []

theorem transpose_eq (csr : Csr Time) (numSrc numDst : Nat) :
    transpose csr numSrc numDst =
      let pairs := (List.range (min csr.numNodes numSrc)).flatMap fun s =>
        (csr.neighbors s).map fun d => (d, s)
      ⟨(CountingSort.group numDst pairs).1, (CountingSort.group numDst pairs).2⟩ := by
  simp only [transpose, CountingSort.group, CountingSort.counts, List.foldl_flatMap,
    List.foldl_map]
  rfl

/-- The transpose lists for a destination exactly its sources, in stored order with
multiplicity. -/
theorem sourcesOf_transpose {csr : Csr Time} {numSrc numDst : Nat} (fits : csr.Fits numSrc numDst)
    {dst : Nat} (inRange : dst < numDst) :
    (transpose csr numSrc numDst).sourcesOf dst =
      (csr.storedEdges.filter fun e => e.2 = dst).map Prod.fst := by
  have rows : ((List.range (min csr.numNodes numSrc)).flatMap fun s =>
      (csr.neighbors s).map fun d => (d, s)) = csr.storedEdges.map Prod.swap := by
    have all : ((List.range csr.numNodes).flatMap fun s => (csr.neighbors s).map fun d => (d, s)) =
        csr.storedEdges.map Prod.swap := by
      rw [Csr.storedEdges, List.map_flatMap]
      simp only [List.map_map]
      rfl
    rcases Nat.le_total csr.numNodes numSrc with fewer | more
    · rw [Nat.min_eq_left fewer, all]
    · rw [Nat.min_eq_right more, ← all]
      obtain ⟨extra, length⟩ := Nat.exists_eq_add_of_le more
      rw [length, List.range_add, List.flatMap_append]
      refine (List.append_right_eq_self.mpr ?_).symm
      refine List.flatMap_eq_nil_iff.mpr fun s hs => ?_
      obtain ⟨k, -, rfl⟩ := List.mem_map.mp hs
      rw [fits.sources _ (Nat.le_add_right _ _), List.map_nil]
  rw [transpose_eq]
  dsimp only
  rw [rows]
  obtain ⟨length, starts, runs⟩ := CountingSort.group_spec numDst (csr.storedEdges.map Prod.swap)
  have offset : ∀ d ≤ numDst,
      (CountingSort.group numDst (csr.storedEdges.map Prod.swap)).1[d]? =
        some (CountingSort.start (csr.storedEdges.map Prod.swap) d) := by
    intro d hd
    rw [List.getElem?_eq_getElem (length ▸ Nat.lt_succ_of_le hd), ← starts d hd,
      List.getD_eq_getElem]
  unfold sourcesOf
  rw [offset dst (Nat.le_of_lt inRange), offset (dst + 1) inRange]
  refine (runs dst inRange).trans ?_
  rw [CountingSort.run, List.filter_map, List.map_map]
  rfl

end InAdjacency

namespace HeteroGraph

variable {Time : Type}

def edgeTypesForDst (g : HeteroGraph Time) (dstType : Nat) : List Nat :=
  (List.range g.edgeTypes.length).filter fun et => (g.edgeType et).dstType = dstType

/-- Incoming adjacency of every edge type. -/
def inAdjacency (g : HeteroGraph Time) : List InAdjacency :=
  List.zipWith (fun edgeType csr =>
    .transpose csr (g.numNodes edgeType.srcType) (g.numNodes edgeType.dstType)) g.edgeTypes g.csrGraphs

/-- Sources with an edge of a type into `dst`. -/
def sourcesInto (g : HeteroGraph Time) (et dst : Nat) : List Nat :=
  (g.inAdjacency.getD et default).sourcesOf dst

variable {g : HeteroGraph Time}

theorem Valid.csr_getElem? (h : g.Valid) {et : Nat} (het : et < g.edgeTypes.length) :
    ∃ csr, g.csrGraphs[et]? = some csr :=
  ⟨_, List.getElem?_eq_getElem (h.csrs ▸ het)⟩

theorem Valid.sourcesInto_eq (h : g.Valid) {et dst : Nat} {csr : Csr Time}
    (stored : g.csrGraphs[et]? = some csr) (inRange : dst < g.dstCount et) :
    g.sourcesInto et dst = (csr.storedEdges.filter fun e => e.2 = dst).map Prod.fst := by
  obtain ⟨inside, -⟩ := List.getElem?_eq_some_iff.mp stored
  have typed : et < g.edgeTypes.length := h.csrs ▸ inside
  have meta_ : g.edgeTypes[et]? = some (g.edgeType et) := by
    rw [edgeType, List.getD_eq_getElem _ _ typed, List.getElem?_eq_getElem]
  have adj : g.inAdjacency[et]? = some (.transpose csr (g.srcCount et) (g.dstCount et)) := by
    rw [inAdjacency, List.getElem?_zipWith, meta_, stored]
    rfl
  rw [sourcesInto, List.getD_eq_getElem?_getD, adj, Option.getD_some]
  exact InAdjacency.sourcesOf_transpose (h.fits et csr stored) inRange

/-- Every source is in range for its type, and its edge is stored. -/
theorem Valid.mem_sourcesInto (h : g.Valid) {et src dst : Nat} {csr : Csr Time}
    (stored : g.csrGraphs[et]? = some csr) (inRange : dst < g.dstCount et)
    (mem : src ∈ g.sourcesInto et dst) : src < g.srcCount et ∧ dst ∈ csr.neighbors src := by
  rw [h.sourcesInto_eq stored inRange] at mem
  obtain ⟨⟨s, d⟩, he, rfl⟩ := List.mem_map.mp mem
  obtain ⟨edge, here⟩ := List.mem_filter.mp he
  obtain rfl : d = dst := of_decide_eq_true here
  have row := Csr.mem_storedEdges.mp edge
  refine ⟨Nat.lt_of_not_le fun past => ?_, row⟩
  rw [(h.fits et csr stored).sources s past] at row
  exact absurd row List.not_mem_nil

theorem mem_edgeTypesForDst {et nt : Nat} :
    et ∈ g.edgeTypesForDst nt ↔ et < g.edgeTypes.length ∧ (g.edgeType et).dstType = nt := by
  rw [edgeTypesForDst, List.mem_filter, List.mem_range, decide_eq_true_eq]

theorem edgeTypesForDst_nodup (nt : Nat) : (g.edgeTypesForDst nt).Nodup :=
  List.nodup_range.filter _

end HeteroGraph

end AetherGraph
