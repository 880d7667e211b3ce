import AetherGraph.HeteroGraph

/-! What construction keeps of its parts, and that it depends on the edge types' graphs only
through their arrays. -/

namespace AetherGraph

open Foundation

variable {Time : Type}

namespace Csr

/-- Graphs of the same rows, edges and weights. -/
structure SameArrays (g h : Csr Time) : Prop where
  numNodes : h.numNodes = g.numNodes
  offsets : h.offsets = g.offsets
  edges : h.edges = g.edges
  weights : h.weights = g.weights

theorem SameArrays.monotone {g h : Csr Time} (same : SameArrays g h) (mono : g.Monotone) :
    h.Monotone := by
  intro i hi
  rw [same.numNodes] at hi
  rw [same.offsets]
  exact mono i hi

end Csr

/-- The checks on an edge type look at the arrays alone. -/
theorem checkEdgeType_iff {g : ProvenGraph Time} {srcCount dstCount : Nat} :
    checkEdgeType g srcCount dstCount = none ↔ g.csr.Monotone ∧
      (srcCount < g.csr.numNodes → g.csr.edgeOffset srcCount = g.csr.edges.length) ∧
      ∀ d ∈ g.csr.edges, d < dstCount := by
  constructor
  · intro h
    have fits := checkEdgeType_fits h
    refine ⟨fits.monotone, fun more => ?_, fits.destinations⟩
    unfold checkEdgeType at h
    split at h
    · cases h
    · split at h
      · cases h
      · rename_i tail
        by_contra short
        exact tail ⟨more, short⟩
  · rintro ⟨mono, tail, dests⟩
    have sorted : (if g.validated = .headerOnly then g.csr.descent else none) = none := by
      split
      · refine List.find?_eq_none.mpr fun i mem => ?_
        rw [decide_eq_true_eq]
        exact Nat.not_lt_of_le (mono i (List.mem_range.mp mem))
      · rfl
    unfold checkEdgeType
    rw [sorted]
    dsimp only
    rw [if_neg fun stray => stray.2 (tail stray.1)]
    split
    · rfl
    · rw [Option.map_eq_none_iff, List.find?_eq_none]
      intro edge mem
      obtain ⟨d, i⟩ := edge
      have inside := dests d (List.mem_of_getElem? (List.mem_zipIdx_iff_getElem?.mp mem))
      rw [decide_eq_true_eq]
      exact Nat.not_le_of_lt inside

theorem checkEdgeType_same {g h : ProvenGraph Time} (same : Csr.SameArrays g.csr h.csr)
    {srcCount dstCount : Nat} (passed : checkEdgeType g srcCount dstCount = none) :
    checkEdgeType h srcCount dstCount = none := by
  obtain ⟨mono, tail, dests⟩ := checkEdgeType_iff.mp passed
  refine checkEdgeType_iff.mpr ⟨same.monotone mono, ?_, ?_⟩
  · unfold Csr.edgeOffset at *
    rw [same.numNodes, same.offsets, same.edges]
    exact tail
  · rw [same.edges]
    exact dests

namespace HeteroGraph

/-- An edge type as construction takes it. -/
abbrev EdgePart (Time : Type) := String × String × String × ProvenGraph Time

/-- Parts of the same names over graphs of the same arrays. -/
def SamePart (p q : EdgePart Time) : Prop :=
  q.1 = p.1 ∧ q.2.1 = p.2.1 ∧ q.2.2.1 = p.2.2.1 ∧ Csr.SameArrays p.2.2.2.csr q.2.2.2.csr

/-- Graphs that differ at most in the proofs and the destination spaces of their edge types. -/
structure SameGraph (g h : HeteroGraph Time) : Prop where
  nodeTypes : h.nodeTypes = g.nodeTypes
  nodeTypeIndex : h.nodeTypeIndex = g.nodeTypeIndex
  edgeTypes : h.edgeTypes = g.edgeTypes
  edgeTypeIndex : h.edgeTypeIndex = g.edgeTypeIndex
  csrGraphs : List.Forall₂ Csr.SameArrays g.csrGraphs h.csrGraphs

theorem addEdgeType_same {g h g' : HeteroGraph Time} (same : SameGraph g h)
    {p q : EdgePart Time} (parts : SamePart p q) (added : g.addEdgeType p = .ok g') :
    ∃ h', h.addEdgeType q = .ok h' ∧ SameGraph g' h' := by
  obtain ⟨src, rel, dst, graph⟩ := p
  obtain ⟨src', rel', dst', graph'⟩ := q
  obtain ⟨rfl, rfl, rfl, arrays⟩ := parts
  unfold HeteroGraph.addEdgeType at added
  dsimp only at added
  split at added
  · cases added
  · cases added
  · rename_i srcId dstId foundSrc foundDst
    split at added
    · cases added
    · rename_i fresh
      split at added
      · cases added
      · rename_i fits
        cases added
        have count : ∀ nt, h.numNodes nt = g.numNodes nt := fun nt => by
          rw [numNodes, same.nodeTypes]
          rfl
        refine ⟨{ h with
          edgeTypes := h.edgeTypes ++ [⟨srcId, rel', dstId⟩]
          edgeTypeIndex := h.edgeTypeIndex ++ [((src', rel', dst'), h.edgeTypes.length)]
          csrGraphs := h.csrGraphs ++ [graph'.csr] }, ?_, ?_⟩
        · rw [← same.nodeTypeIndex] at foundSrc foundDst
          rw [← same.edgeTypeIndex] at fresh
          unfold HeteroGraph.addEdgeType
          dsimp only
          rw [foundSrc, foundDst]
          dsimp only
          rw [if_neg fresh, count, count, checkEdgeType_same arrays fits]
        · refine ⟨same.nodeTypes, same.nodeTypeIndex, ?_, ?_, ?_⟩
          · dsimp only
            rw [same.edgeTypes]
          · dsimp only
            rw [same.edgeTypes, same.edgeTypeIndex]
          · exact List.rel_append same.csrGraphs (List.Forall₂.cons arrays List.Forall₂.nil)

theorem addEdgeTypes_same {ps qs : List (EdgePart Time)} (parts : List.Forall₂ SamePart ps qs)
    {g h g' : HeteroGraph Time} (same : SameGraph g h) (added : ps.foldlM addEdgeType g = .ok g') :
    ∃ h', qs.foldlM addEdgeType h = .ok h' ∧ SameGraph g' h' := by
  induction parts generalizing g h with
  | nil =>
      cases added
      exact ⟨h, rfl, same⟩
  | @cons p q ps qs part parts ih =>
      rw [List.foldlM_cons] at added
      cases next : g.addEdgeType p with
      | error e =>
          rw [next] at added
          cases added
      | ok mid =>
          rw [next] at added
          obtain ⟨mid', next', same'⟩ := addEdgeType_same same part next
          rw [List.foldlM_cons, next']
          exact ih same' added

theorem sameGraph_refl (g : HeteroGraph Time) : SameGraph g g :=
  ⟨rfl, rfl, rfl, rfl, List.forall₂_same.mpr fun _ _ => ⟨rfl, rfl, rfl, rfl⟩⟩

/-- Construction depends on the edge types' graphs only through their arrays. -/
theorem tryFromParts_same {nodes : List (String × Nat)} {ps qs : List (EdgePart Time)}
    (parts : List.Forall₂ SamePart ps qs) {g : HeteroGraph Time}
    (built : tryFromParts nodes ps = .ok g) :
    ∃ h, tryFromParts nodes qs = .ok h ∧ SameGraph g h := by
  unfold tryFromParts at built ⊢
  rw [← parts.length_eq]
  split at built
  · cases built
  · rename_i fewNodes
    split at built
    · cases built
    · rename_i fewEdges
      rw [if_neg fewNodes, if_neg fewEdges]
      cases typed : nodes.foldlM HeteroGraph.addNodeType
          (⟨[], [], [], [], []⟩ : HeteroGraph Time) with
      | error e =>
          rw [typed] at built
          cases built
      | ok mid =>
          rw [typed] at built
          exact addEdgeTypes_same parts (sameGraph_refl mid) built

section Built

/-- The node tables over the types taken so far. -/
structure Typed (done : List (String × Nat)) (g : HeteroGraph Time) : Prop where
  nodeTypes : g.nodeTypes = done.map fun part => ⟨part.1, part.2⟩
  index : g.nodeTypeIndex = done.zipIdx.map fun entry => (entry.1.1, entry.2)
  names : (done.map Prod.fst).Nodup
  counts : ∀ part ∈ done, part.2 ≤ maxNodes
  edgeTypes : g.edgeTypes = []
  csrGraphs : g.csrGraphs = []

theorem Typed.addNodeType {done : List (String × Nat)} {g g' : HeteroGraph Time}
    (h : Typed done g) {part : String × Nat} (added : g.addNodeType part = .ok g') :
    Typed (done ++ [part]) g' := by
  unfold HeteroGraph.addNodeType at added
  split at added
  · cases added
  · rename_i small
    split at added
    · cases added
    · rename_i fresh
      cases added
      have unknown : part.1 ∉ done.map Prod.fst := by
        intro known
        obtain ⟨p, mem, same⟩ := List.mem_map.mp known
        obtain ⟨i, at_⟩ := List.mem_iff_getElem?.mp mem
        rw [Option.not_isSome_iff_eq_none, List.lookup_eq_none_iff, h.index] at fresh
        have differs := fresh (p.1, i)
          (List.mem_map.mpr ⟨(p, i), List.mem_zipIdx_iff_getElem?.mpr at_, rfl⟩)
        simp [same] at differs
      refine ⟨?_, ?_, ?_, ?_, h.edgeTypes, h.csrGraphs⟩
      · rw [List.map_append, ← h.nodeTypes]
        rfl
      · rw [List.zipIdx_append, List.map_append, ← h.index, h.nodeTypes, List.length_map,
          Nat.zero_add]
        rfl
      · rw [List.map_append, List.nodup_append]
        refine ⟨h.names, List.pairwise_singleton _ _, fun a mem b last => ?_⟩
        obtain rfl := List.mem_singleton.mp last
        exact fun same => unknown (same ▸ mem)
      · refine List.forall_mem_append.mpr ⟨h.counts, fun p last => ?_⟩
        rw [List.mem_singleton.mp last]
        exact Nat.le_of_not_lt small

theorem Typed.lookup {done : List (String × Nat)} {g : HeteroGraph Time} (h : Typed done g)
    {name : String} {id : Nat} (found : g.nodeTypeIndex.lookup name = some id) :
    ∃ count, done[id]? = some (name, count) := by
  have mem := lookup_mem found
  rw [h.index] at mem
  obtain ⟨entry, at_, same⟩ := List.mem_map.mp mem
  obtain ⟨rfl, rfl⟩ := Prod.mk.inj same
  exact ⟨entry.1.2, List.mem_zipIdx_iff_getElem?.mp at_⟩

/-- An edge type's metadata and graph stand for the part it came from. -/
structure Links (nodes : List (String × Nat)) (part : EdgePart Time) (meta_ : EdgeTypeMeta) :
    Prop where
  relation : meta_.relation = part.2.1
  src : ∃ count, nodes[meta_.srcType]? = some (part.1, count)
  dst : ∃ count, nodes[meta_.dstType]? = some (part.2.2.1, count) ∧
    ∀ d ∈ part.2.2.2.csr.edges, d < count
  monotone : part.2.2.2.csr.Monotone

/-- The tables over the edge types taken so far. -/
structure Edged (nodes : List (String × Nat)) (done : List (EdgePart Time))
    (g : HeteroGraph Time) : Prop where
  nodeTypes : g.nodeTypes = nodes.map fun part => ⟨part.1, part.2⟩
  lookup : ∀ name id, g.nodeTypeIndex.lookup name = some id →
    ∃ count, nodes[id]? = some (name, count)
  edgeTypes : List.Forall₂ (Links nodes) done g.edgeTypes
  csrGraphs : g.csrGraphs = done.map fun part => part.2.2.2.csr

theorem Edged.addEdgeType {nodes : List (String × Nat)} {done : List (EdgePart Time)}
    {g g' : HeteroGraph Time} (h : Edged nodes done g) {part : EdgePart Time}
    (added : g.addEdgeType part = .ok g') : Edged nodes (done ++ [part]) g' := by
  obtain ⟨src, rel, dst, graph⟩ := part
  unfold HeteroGraph.addEdgeType at added
  dsimp only at added
  split at added
  · cases added
  · cases added
  · rename_i srcId dstId foundSrc foundDst
    split at added
    · cases added
    · split at added
      · cases added
      · rename_i fits
        cases added
        obtain ⟨mono, -, dests⟩ := checkEdgeType_iff.mp fits
        obtain ⟨srcCount, atSrc⟩ := h.lookup src srcId foundSrc
        obtain ⟨dstCount, atDst⟩ := h.lookup dst dstId foundDst
        have count : g.numNodes dstId = dstCount := by
          rw [numNodes, h.nodeTypes, List.getD_eq_getElem?_getD, List.getElem?_map, atDst]
          rfl
        rw [count] at dests
        refine ⟨h.nodeTypes, h.lookup, List.rel_append h.edgeTypes ?_, ?_⟩
        · exact .cons ⟨rfl, ⟨srcCount, atSrc⟩, ⟨dstCount, atDst, dests⟩, mono⟩ .nil
        · rw [List.map_append, ← h.csrGraphs]
          rfl

/-- What construction makes of its parts. -/
structure BuiltFrom (nodes : List (String × Nat)) (parts : List (EdgePart Time))
    (g : HeteroGraph Time) : Prop where
  nodeCount : nodes.length ≤ 255
  edgeCount : parts.length ≤ 255
  names : (nodes.map Prod.fst).Nodup
  counts : ∀ part ∈ nodes, part.2 ≤ maxNodes
  edged : Edged nodes parts g

theorem tryFromParts_builtFrom {nodes : List (String × Nat)} {parts : List (EdgePart Time)}
    {g : HeteroGraph Time} (built : tryFromParts nodes parts = .ok g) :
    BuiltFrom nodes parts g := by
  unfold tryFromParts at built
  split at built
  · cases built
  · rename_i fewNodes
    split at built
    · cases built
    · rename_i fewEdges
      cases types : nodes.foldlM HeteroGraph.addNodeType
          (⟨[], [], [], [], []⟩ : HeteroGraph Time) with
      | error e =>
          rw [types] at built
          cases built
      | ok mid =>
          rw [types] at built
          have empty : Typed [] (⟨[], [], [], [], []⟩ : HeteroGraph Time) :=
            ⟨rfl, rfl, List.nodup_nil, nofun, rfl, rfl⟩
          have typed : Typed nodes mid :=
            foldlM_taken (P := Typed) (fun done g part g' h added => h.addNodeType added)
              empty types
          have start : Edged nodes [] mid := ⟨typed.nodeTypes, fun _ _ found =>
            typed.lookup found, by rw [typed.edgeTypes]; exact .nil, typed.csrGraphs⟩
          exact ⟨Nat.le_of_not_lt fewNodes, Nat.le_of_not_lt fewEdges, typed.names, typed.counts,
            foldlM_taken (P := Edged nodes) (fun done g part g' h added => h.addEdgeType added)
              start built⟩

end Built

end HeteroGraph

end AetherGraph
