import AetherGraph.RabbitMerges

/-! Whatever order the merges come in, each of them hangs one top-level vertex under another, so
the pass ends with one forest behind both the parent pointers and the child lists. -/

namespace AetherGraph

open Foundation ParentPointers

/-- Some block of the list holds exactly the members of `S`. -/
def Contiguous (perm : List Nat) (S : Nat → Prop) : Prop :=
  ∃ block, block <:+: perm ∧ ∀ w, w ∈ block ↔ S w

namespace ProvenGraph

variable {Time : Type} {g : ProvenGraph Time}

theorem validateFull_ok (mono : g.csr.Monotone) (inRange : g.csr.DestinationsInRange) :
    g.validateFull = .ok () := by
  have sorted : g.csr.descent = none := by
    refine List.find?_eq_none.mpr fun i hi => ?_
    have := mono i (List.mem_range.mp hi)
    rw [decide_eq_true_eq]
    omega
  have bounded : (g.csr.edges.zipIdx.find? fun edge => decide (g.csr.numDstNodes ≤ edge.1)) = none := by
    refine List.find?_eq_none.mpr fun edge hedge => ?_
    have := inRange edge.1 (List.fst_mem_of_mem_zipIdx hedge)
    rw [decide_eq_true_eq]
    omega
  have monotone : g.checkMonotone = .ok () := by
    unfold checkMonotone
    rw [sorted]
    split <;> rfl
  have destinations : g.checkDestinations = .ok () := by
    unfold checkDestinations
    rw [bounded]
    split <;> rfl
  unfold validateFull
  rw [monotone, destinations]
  rfl

/-- Community detection visits every vertex, or none where there is nothing to merge. -/
theorem rabbitDendrogram_run (homogeneous : g.csr.Homogeneous) (mono : g.csr.Monotone)
    (inRange : g.csr.DestinationsInRange) :
    ∃ d, g.rabbitDendrogram = .ok d ∧ (d = .singletons g.csr.numNodes ∨
      ∃ s, (mergeOrder (MergePass.start g.csr).degree g.csr.numNodes).foldlM
          (MergePass.visit g.csr (MergePass.start g.csr).degree.sum) (MergePass.start g.csr) = some s ∧
        d = s.dendro) := by
  have destinations : ∀ d ∈ g.csr.edges, d < g.csr.numNodes := fun d hd =>
    homogeneous ▸ inRange d hd
  unfold rabbitDendrogram
  rw [if_neg (not_not_intro homogeneous), validateFull_ok mono inRange]
  dsimp only [bind, pure, Except.bind, Except.pure]
  split
  · exact ⟨_, rfl, .inl rfl⟩
  · split
    · exact ⟨_, rfl, .inl rfl⟩
    · obtain ⟨s, top, kids, ran, -⟩ := MergePass.run_balanced mono destinations
        (MergePass.start g.csr).degree.sum (List.append_nil (mergeOrder _ _)).symm
      refine ⟨s.dendro, ?_, .inr ⟨s, ran, rfl⟩⟩
      simp only [MergePass.start] at ran
      rw [ran]

/-- Community detection returns one forest. -/
theorem rabbitDendrogram_forest (homogeneous : g.csr.Homogeneous) (mono : g.csr.Monotone)
    (inRange : g.csr.DestinationsInRange) :
    ∃ d, g.rabbitDendrogram = .ok d ∧ ∃ k ≤ g.csr.numNodes, ∃ top kids,
      Dendrogram.Hierarchy g.csr.numNodes k d top kids := by
  have destinations : ∀ d ∈ g.csr.edges, d < g.csr.numNodes := fun d hd =>
    homogeneous ▸ inRange d hd
  obtain ⟨d, detected, rfl | ⟨s, ran, rfl⟩⟩ := g.rabbitDendrogram_run homogeneous mono inRange
  · exact ⟨_, detected, 0, Nat.zero_le _, _, _, .singletons g.csr.numNodes⟩
  · obtain ⟨s', top, kids, ran', balanced⟩ := MergePass.run_balanced mono destinations
      (MergePass.start g.csr).degree.sum
      (List.append_nil (mergeOrder (MergePass.start g.csr).degree g.csr.numNodes)).symm
    obtain rfl := Option.some.inj (ran.symm.trans ran')
    refine ⟨_, detected, _, Nat.le_of_eq ?_, top, kids, balanced.hierarchy⟩
    rw [(MergePass.mergeOrder_perm _ _).length_eq, List.length_range]

/-- The permutation lists every vertex once, with each tree and each subtree in one range; the
partition ids tell the trees apart, and count them from the lowest vertex up. -/
theorem rabbit_order (homogeneous : g.csr.Homogeneous) (mono : g.csr.Monotone)
    (inRange : g.csr.DestinationsInRange) :
    ∃ d perm parts, g.rabbitDendrogram = .ok d ∧ g.reorderRabbit = .ok perm ∧
      g.rabbitPartitions = .ok parts ∧ g.reorderRabbitWithPartitions = .ok (perm, parts) ∧
      perm.Perm (List.range g.csr.numNodes) ∧ parts.length = g.csr.numNodes ∧
      (∀ v < g.csr.numNodes, ∀ w < g.csr.numNodes, parts[v]? = parts[w]? ↔ d.SameTree v w) ∧
      Dendrogram.DenseByLowest parts ∧
      (∀ id, Contiguous perm fun v => parts[v]? = some id) ∧
      ∀ v < g.csr.numNodes, Contiguous perm (d.Subtree v) := by
  obtain ⟨d, detected, k, depth, top, kids, hierarchy⟩ :=
    rabbitDendrogram_forest homogeneous mono inRange
  obtain ⟨parts, numbered, length, dense, same⟩ :=
    hierarchy.partitions_eq g.csr.numNodes_le depth
  refine ⟨d, _, parts, detected, ?_, ?_, ?_, hierarchy.permutation_perm, length, fun v hv w hw => ?_,
    dense, fun id => ?_, fun v hv => hierarchy.subtree_infix hv⟩
  · rw [reorderRabbit, detected]
    simp only [bind, Except.bind, hierarchy.permutation_eq]
    rfl
  · rw [rabbitPartitions, detected]
    simp only [bind, Except.bind, numbered]
    rfl
  · rw [reorderRabbitWithPartitions, detected]
    simp only [bind, Except.bind, hierarchy.permutation_eq, numbered]
    rfl
  · rw [same v hv w hw, hierarchy.sameTree_iff hv hw]
  · by_cases used : ∃ v < g.csr.numNodes, parts[v]? = some id
    · obtain ⟨v, hv, at_⟩ := used
      have hr := hierarchy.tops.inside v hv
      refine ⟨_, Dendrogram.Hierarchy.tree_infix hr, fun w => ?_⟩
      rw [hierarchy.mem_tree hr, ← at_]
      constructor
      · rintro ⟨hw, together⟩
        exact (same w hw v hv).mpr together
      · intro together
        have hw : w < g.csr.numNodes := by
          rw [at_] at together
          exact length ▸ (List.getElem?_eq_some_iff.mp together).1
        exact ⟨hw, (same w hw v hv).mp together⟩
    · refine ⟨[], List.nil_infix, fun w => ⟨fun absent => absurd absent List.not_mem_nil, ?_⟩⟩
      intro at_
      exact absurd ⟨w, length ▸ (List.getElem?_eq_some_iff.mp at_).1, at_⟩ used

/-- Two arcs between `0` and `1`, one loop on `2`. -/
def pairAndLoop : Csr Nat where
  numNodes := 3
  numDstNodes := 3
  offsets := [0, 1, 2, 3]
  edges := [1, 0, 2]
  weights := none
  timestamps := none
  numNodes_le := by decide
  numDstNodes_le := by decide
  offsets_length := rfl
  first_offset := rfl
  last_offset := rfl
  weights_length := nofun
  timestamps_length := nofun

theorem rabbit_order_pairAndLoop :
    ∃ perm parts, reorderRabbitWithPartitions ⟨pairAndLoop, .headerOnly, nofun, nofun⟩ =
      .ok (perm, parts) ∧ perm.Perm [0, 1, 2] ∧ Dendrogram.DenseByLowest parts := by
  obtain ⟨_, perm, parts, -, -, -, both, list, -, -, dense, -⟩ :=
    rabbit_order (g := ⟨pairAndLoop, .headerOnly, nofun, nofun⟩) rfl (by decide) (by decide)
  exact ⟨perm, parts, both, list, dense⟩

end ProvenGraph

end AetherGraph
