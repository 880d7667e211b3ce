import AetherGraph.RabbitPermutation

/-! Every merge raises modularity.  The arcs are those between different vertices, each an edge
of the multigraph, and the communities are the trees the parent links make. -/

namespace AetherGraph

open Foundation ParentPointers Communities MergePass

/-- The vertex at the end of `v`'s parent links. -/
def Dendrogram.community (d : Dendrogram) (v : Nat) : Nat :=
  (ParentPointers.find d.parent (d.parent.length + 1) v).getD v

theorem Dendrogram.Hierarchy.community_eq {n k : Nat} {d : Dendrogram} {top : Nat → Nat}
    {kids : Nat → Siblings Nat} (h : Hierarchy n k d top kids) (depth : k ≤ n) {v : Nat}
    (hv : v < n) : d.community v = top v := by
  have enough : k < d.parent.length + 1 := by
    rw [h.tops.length]
    exact Nat.lt_succ_of_le depth
  rw [community, (h.tops.lookup hv enough).1]
  rfl

namespace Csr

variable {Time : Type} (g : Csr Time)

/-- The arcs at `v`, in and out, without its loops. -/
def plainDegree (v : Nat) : Nat :=
  (g.plainArcs.countP fun e => e.1 = v) + g.plainArcs.countP fun e => e.2 = v

variable (label : Nat → Nat)

def communityDegree (c : Nat) : Nat :=
  ∑ v ∈ Finset.range g.numNodes with label v = c, g.plainDegree v

/-- A community of its own, with an arc from or to `u`'s. -/
def Neighbor (u c : Nat) : Prop :=
  c < g.numNodes ∧ label c = c ∧ c ≠ u ∧ 0 < between g.storedEdges label u c

/-- `2m·w(u,c) − d(u)·d(c)`. -/
def joinGain (u c : Nat) : Int :=
  2 * g.plainArcs.length * between g.storedEdges label u c -
    g.communityDegree label u * g.communityDegree label c

/-- The neighbor of largest gain, the lowest of those, when the gain is positive. -/
def Best (u c : Nat) : Prop :=
  g.Neighbor label u c ∧ 0 < g.joinGain label u c ∧ ∀ c', g.Neighbor label u c' →
    g.joinGain label u c' < g.joinGain label u c ∨
      g.joinGain label u c' = g.joinGain label u c ∧ c ≤ c'

/-- Modularity of the partition of the vertices, over the arcs between different ones. -/
def modularity : ℚ := Communities.modularity g.plainArcs label (Finset.range g.numNodes)

end Csr

/-- `u`'s turn, from `s` over its scan to `s'`. -/
structure MergePass.Raises {Time : Type} (g : Csr Time) (s : MergePass) (u : Nat) (scan : EdgeScan)
    (s' : MergePass) : Prop where
  alone : s.dendro.community u = u
  weightTo : ∀ c < g.numNodes, s.dendro.community c = c → c ≠ u →
    scan.weightTo[c]? = some (between g.storedEdges s.dendro.community u c)
  degree : ∀ c < g.numNodes, s.dendro.community c = c →
    s.degree[c]? = some (g.communityDegree s.dendro.community c)
  moves :
    (∃ c, g.Best s.dendro.community u c ∧
      (∀ v < g.numNodes, s'.dendro.community v = join s.dendro.community u c v) ∧
      g.modularity s.dendro.community < g.modularity s'.dendro.community) ∨
    (∀ c, g.Neighbor s.dendro.community u c → g.joinGain s.dendro.community u c ≤ 0) ∧
      ∀ v < g.numNodes, s'.dendro.community v = s.dendro.community v

namespace MergePass

section turn

variable {Time : Type} {g : Csr Time} (mono : g.Monotone) (inRange : ∀ d ∈ g.edges, d < g.numNodes)

include mono inRange

theorem communityDegree_eq (label : Nat → Nat) (c : Nat) :
    g.communityDegree label c = volume g.plainArcs label c := by
  refine (volume_eq_sum (fun e he => ?_) c).symm
  simpa only [Finset.mem_range] using Csr.plainArcs_lt mono inRange he

section congr

variable {label top : Nat → Nat} (same : ∀ v < g.numNodes, label v = top v)

include same

theorem ends_eq {e : Nat × Nat} (he : e ∈ g.plainArcs) :
    label e.1 = top e.1 ∧ label e.2 = top e.2 := by
  obtain ⟨first, second⟩ := Csr.plainArcs_lt mono inRange he
  exact ⟨same _ first, same _ second⟩

theorem between_stored_eq {u c : Nat} (apart : c ≠ u) :
    between g.storedEdges label u c = between g.plainArcs top u c := by
  rw [← Csr.between_plain (Ne.symm apart)]
  exact between_congr (fun _ he => ends_eq mono inRange same he) u c

theorem communityDegree_congr (c : Nat) :
    g.communityDegree label c = volume g.plainArcs top c := by
  rw [communityDegree_eq mono inRange]
  exact volume_congr (fun _ he => ends_eq mono inRange same he) c

theorem joinGain_eq {u c : Nat} (apart : c ≠ u) :
    g.joinGain label u c = arcGain g (2 * g.plainArcs.length) top u c := by
  rw [Csr.joinGain, arcGain, gain, between_stored_eq mono inRange same apart,
    communityDegree_congr mono inRange same, communityDegree_congr mono inRange same]
  push_cast
  rfl

theorem modularity_eq :
    g.modularity label = Communities.modularity g.plainArcs top (Finset.range g.numNodes) :=
  modularity_congr (fun _ he => ends_eq mono inRange same he) _

theorem neighbor_iff {k : Nat} {s : MergePass} {kids : Nat → Siblings Nat} {u c : Nat}
    {carried : List (Option (List (Nat × Nat)))} {scan : EdgeScan}
    (agg : Aggregated g k s top kids u carried scan) :
    g.Neighbor label u c ↔ c ∈ scan.touched := by
  constructor
  · rintro ⟨hc, -, apart, arcs⟩
    rw [between_stored_eq mono inRange same apart] at arcs
    exact (agg.touched c).mpr ⟨hc, apart, Nat.ne_of_gt arcs⟩
  · intro mem
    obtain ⟨hc, apart, arcs⟩ := (agg.touched c).mp mem
    refine ⟨hc, (same c hc).trans (agg.top_touched c mem), apart, ?_⟩
    rw [between_stored_eq mono inRange same apart]
    exact Nat.pos_of_ne_zero arcs

end congr

theorem Balanced.raises {done : List Nat} {s : MergePass} {top : Nat → Nat}
    {kids : Nat → Siblings Nat} (h : Balanced g done s top kids) (room : done.length < g.numNodes)
    {u : Nat} (hu : u < g.numNodes) (new : u ∉ done) :
    ∃ carried scan s', aggregate g s u = some (carried, scan) ∧
      visit g (2 * g.plainArcs.length) s u = some s' ∧ Raises g s u scan s' := by
  obtain ⟨carried, scan, s', best, kids', agg, ran, picked, balanced⟩ :=
    h.turn mono inRange (2 * g.plainArcs.length) (Nat.le_of_lt room) hu new
  have same : ∀ v < g.numNodes, s.dendro.community v = top v := fun v hv =>
    h.hierarchy.community_eq (Nat.le_of_lt room) hv
  have after : ∀ v < g.numNodes, s'.dendro.community v = Balanced.moved top u best v :=
    fun v hv => balanced.hierarchy.community_eq (by rw [List.length_append]; exact room) hv
  have neighbor : ∀ {c}, g.Neighbor s.dendro.community u c ↔ c ∈ scan.touched :=
    neighbor_iff mono inRange same agg
  have gains : ∀ {c}, c ∈ scan.touched →
      g.joinGain s.dendro.community u c = arcGain g (2 * g.plainArcs.length) top u c :=
    fun mem => joinGain_eq mono inRange same ((agg.touched _).mp mem).2.1
  refine ⟨carried, scan, s', agg.ran, ran, (same u hu).trans (h.alone u hu new),
    fun c hc _ apart => ?_, fun c hc topC => ?_, ?_⟩
  · rw [between_stored_eq mono inRange same apart]
    exact agg.weightTo c hc apart
  · rw [communityDegree_congr mono inRange same]
    exact h.degree c hc ((same c hc).symm.trans topC)
  · cases best with
    | none =>
        refine .inr ⟨fun c hc => ?_, fun v hv => (after v hv).trans (same v hv).symm⟩
        rw [neighbor] at hc
        rw [gains hc]
        exact picked c hc
    | some pick =>
        obtain ⟨largest, c⟩ := pick
        obtain ⟨mem, rfl, positive, largest⟩ := picked
        obtain ⟨hc, apart, -⟩ := (agg.touched c).mp mem
        refine .inl ⟨c, ⟨neighbor.mpr mem, ?_, fun c' hc' => ?_⟩, fun v hv => ?_, ?_⟩
        · rw [gains mem]
          exact positive
        · rw [neighbor] at hc'
          rw [gains mem, gains hc']
          exact largest c' hc'
        · rw [after v hv, Balanced.moved, join, join, same v hv]
        · rw [modularity_eq mono inRange same, modularity_eq mono inRange after]
          refine modularity_lt_join (Finset.mem_range.mpr hu) (Finset.mem_range.mpr hc)
            (Ne.symm apart) ?_
          have more := Int.sub_pos.mp positive
          exact_mod_cast more

end turn

end MergePass

namespace ProvenGraph

variable {Time : Type} {g : ProvenGraph Time}

/-- In every turn of the merge loop the weights are the arcs between communities, the degrees are
the communities' own, and the vertex merges into its best neighbor, which raises modularity, or
has no neighbor with a gain and stays. -/
theorem rabbit_merges (homogeneous : g.csr.Homogeneous) (mono : g.csr.Monotone)
    (inRange : g.csr.DestinationsInRange) :
    (∃ d, g.rabbitDendrogram = .ok d ∧ (d = .singletons g.csr.numNodes ∨
      ∃ s, (mergeOrder (start g.csr).degree g.csr.numNodes).foldlM
          (visit g.csr (start g.csr).degree.sum) (start g.csr) = some s ∧ d = s.dendro)) ∧
    ∀ done u rest, mergeOrder (start g.csr).degree g.csr.numNodes = done ++ u :: rest →
      ∃ s carried scan s', done.foldlM (visit g.csr (start g.csr).degree.sum) (start g.csr) = some s ∧
        aggregate g.csr s u = some (carried, scan) ∧
        visit g.csr (start g.csr).degree.sum s u = some s' ∧ Raises g.csr s u scan s' := by
  refine ⟨rabbitDendrogram_run homogeneous mono inRange, fun done u rest order => ?_⟩
  have destinations : ∀ d ∈ g.csr.edges, d < g.csr.numNodes := fun d hd =>
    homogeneous ▸ inRange d hd
  obtain ⟨hu, new, room⟩ := mergeOrder_turn order
  obtain ⟨s, top, kids, ran, balanced⟩ :=
    run_balanced mono destinations (start g.csr).degree.sum order
  obtain ⟨carried, scan, s', gathered, turned, raises⟩ :=
    balanced.raises mono destinations room hu new
  refine ⟨s, carried, scan, s', ran, gathered, ?_, raises⟩
  rw [start, Csr.sum_undirectedDegree mono destinations]
  exact turned

theorem mergeOrder_pairAndLoop :
    mergeOrder (start pairAndLoop).degree pairAndLoop.numNodes = [2, 0, 1] := by
  have degrees : (start pairAndLoop).degree = [2, 2, 0] := by decide
  rw [degrees]
  simp [mergeOrder, pairAndLoop, List.range, List.range.loop, List.mergeSort,
    List.MergeSort.Internal.splitInTwo]

/-- The turn of `0`, after the vertex with a loop only. -/
theorem rabbit_merges_pairAndLoop :
    ∃ s carried scan s', [2].foldlM (visit pairAndLoop 4) (start pairAndLoop) = some s ∧
      aggregate pairAndLoop s 0 = some (carried, scan) ∧ visit pairAndLoop 4 s 0 = some s' ∧
      Raises pairAndLoop s 0 scan s' :=
  (rabbit_merges (g := ⟨pairAndLoop, .headerOnly, absurd rfl, GraphValidationMode.noConfusion⟩)
    rfl (by decide) (by decide)).2 [2] 0 [1] mergeOrder_pairAndLoop

end ProvenGraph

end AetherGraph
