import AetherGraph.RabbitForest
import AetherGraph.Foundation.Communities
import AetherGraph.Foundation.FoldM

/-! The merge loop, vertex by vertex.  Between two vertices, what an unvisited vertex and its
children hold adds up to its arcs to every other community: a merge into a visited vertex drops
its list, which no later scan would read, and a list of another goes with the child. -/

namespace AetherGraph

open Foundation ParentPointers Communities

namespace Csr

variable {Time : Type} (g : Csr Time)

/-- The arcs between two different vertices. -/
def plainArcs : List (Nat × Nat) := g.storedEdges.filter fun e => e.1 ≠ e.2

variable {g}

theorem neighbors_eq {v : Nat} (hv : v < g.numNodes) :
    g.neighbors v = (g.storedEdges.filter fun e => e.1 = v).map Prod.snd := by
  have rows : ∀ vs : List Nat, vs.Nodup →
      ((vs.flatMap fun s => (g.neighbors s).map fun d => (s, d)).filter fun e => e.1 = v).map
        Prod.snd = if v ∈ vs then g.neighbors v else [] := by
    intro vs nodup
    induction vs with
    | nil => rfl
    | cons s vs ih =>
        obtain ⟨fresh, nodup⟩ := List.nodup_cons.mp nodup
        rw [List.flatMap_cons, List.filter_append, List.map_append, ih nodup, List.filter_map,
          List.map_map]
        by_cases same : s = v
        · subst same
          simp [fresh, Function.comp_def]
        · simp [same, Ne.symm same, Function.comp_def]
  rw [storedEdges, rows _ List.nodup_range, if_pos (List.mem_range.mpr hv)]

theorem between_plain {label : Nat → Nat} {a b : Nat} (apart : a ≠ b) :
    between g.plainArcs label a b = between g.storedEdges label a b := by
  unfold between plainArcs
  rw [List.countP_filter]
  refine List.countP_congr fun e _ => ?_
  simp only [Bool.and_eq_true, decide_eq_true_eq, ne_eq, and_iff_left_iff_imp]
  rintro side same
  rw [same] at side
  exact apart (side.elim (fun h => h.1.symm.trans h.2) fun h => h.2.symm.trans h.1)

section valid

variable (mono : g.Monotone) (inRange : ∀ d ∈ g.edges, d < g.numNodes)

include mono inRange

theorem storedEdges_lt {e : Nat × Nat} (he : e ∈ g.storedEdges) :
    e.1 < g.numNodes ∧ e.2 < g.numNodes := by
  have row := mem_storedEdges.mp he
  have hd := inRange _ (mem_edges_of_mem_neighbors row)
  refine ⟨inNeighbors_lt mono inRange hd ?_, hd⟩
  rw [inNeighbors_eq mono inRange hd]
  exact List.mem_map.mpr ⟨e, List.mem_filter.mpr ⟨he, decide_eq_true rfl⟩, rfl⟩

theorem plainArcs_lt {e : Nat × Nat} (he : e ∈ g.plainArcs) :
    e.1 < g.numNodes ∧ e.2 < g.numNodes :=
  storedEdges_lt mono inRange (List.mem_filter.mp he).1

theorem undirectedDegree_eq {v : Nat} (hv : v < g.numNodes) :
    g.undirectedDegree v = volume g.plainArcs id v := by
  unfold undirectedDegree volume plainArcs
  rw [neighbors_eq hv, inNeighbors_eq mono inRange hv, List.countP_map, List.countP_map,
    List.countP_filter, List.countP_filter, List.countP_filter, List.countP_filter]
  refine congrArg₂ (· + ·) (List.countP_congr fun e _ => ?_) (List.countP_congr fun e _ => ?_)
  all_goals
    simp only [Function.comp_apply, Bool.and_eq_true, decide_eq_true_eq, id]
    grind

/-- The scaled edge count of the code is twice the number of arcs. -/
theorem sum_undirectedDegree :
    ((List.range g.numNodes).map g.undirectedDegree).sum = 2 * g.plainArcs.length := by
  have inside : ∀ e ∈ g.plainArcs, e.1 ∈ Finset.range g.numNodes ∧ e.2 ∈ Finset.range g.numNodes :=
    fun e he => by simpa only [Finset.mem_range] using plainArcs_lt mono inRange he
  have listed : ((List.range g.numNodes).map g.undirectedDegree).sum =
      ∑ v ∈ Finset.range g.numNodes, g.undirectedDegree v := rfl
  rw [listed, ← sum_volume inside]
  exact Finset.sum_congr rfl fun v hv => undirectedDegree_eq mono inRange (Finset.mem_range.mp hv)

end valid

end Csr

/-- What a scan has added up: `entries` by community, and which communities those are. -/
structure EdgeScan.Counts (n k : Nat) (top : Nat → Nat) (u : Nat) (entries : List (Nat × Nat))
    (s : EdgeScan) : Prop where
  tops : Tops s.parent n k top
  weightTo_length : s.weightTo.length = n
  weightTo : ∀ c < n, s.weightTo[c]? = some (if c = u then 0 else load top entries c)
  nodup : s.touched.Nodup
  touched : ∀ c, c ∈ s.touched ↔ c < n ∧ c ≠ u ∧ load top entries c ≠ 0

namespace EdgeScan.Counts

variable {n k u : Nat} {top : Nat → Nat} {entries : List (Nat × Nat)} {s : EdgeScan}

theorem top_touched (h : Counts n k top u entries s) {t : Nat} (ht : t ∈ s.touched)
    (inside : ∀ e ∈ entries, e.1 < n) : top t = t := by
  by_contra lower
  refine ((h.touched t).mp ht).2.2 ?_
  have none : entries.filter (fun e => top e.1 = t) = [] := by
    refine List.filter_eq_nil_iff.mpr fun e he => ?_
    rw [decide_eq_true_eq]
    rintro rfl
    exact lower (h.tops.top_top (inside e he))
  rw [load, none]
  rfl

theorem add (h : Counts n k top u entries s) (depth : k ≤ n) {c w : Nat} (hc : c < n)
    (positive : 0 < w) :
    ∃ s', s.add u c w = some s' ∧ Counts n k top u (entries ++ [(c, w)]) s' := by
  obtain ⟨parent, found, tops⟩ := Dendrogram.root_eq h.tops depth hc
  have inside := h.tops.inside c hc
  have grown : ∀ x, load top (entries ++ [(c, w)]) x =
      load top entries x + if top c = x then w else 0 := by
    intro x
    rw [load_append, load_cons, load_nil, Nat.add_zero]
  unfold EdgeScan.add
  rw [found, Option.bind_eq_bind, Option.bind_some]
  dsimp only
  split
  · rename_i own
    have same : ∀ x, x ≠ u → load top (entries ++ [(c, w)]) x = load top entries x := by
      intro x other
      rw [grown, if_neg fun here => other (here.symm.trans own), Nat.add_zero]
    refine ⟨_, rfl, tops, h.weightTo_length, fun x hx => ?_, h.nodup, fun x => ?_⟩
    · rw [h.weightTo x hx]
      split
      · rfl
      · rw [same x ‹_›]
    · rw [h.touched x]
      refine and_congr_right fun _ => and_congr_right fun other => ?_
      rw [same x other]
  · rename_i other
    have old := h.weightTo _ inside
    rw [if_neg other] at old
    rw [old, Option.bind_eq_bind, Option.bind_some]
    have fresh : load top entries (top c) = 0 ↔ top c ∉ s.touched := by
      rw [h.touched]
      simp [inside, other]
    refine ⟨_, rfl, tops, List.length_set.trans h.weightTo_length, fun x hx => ?_, ?_, fun x => ?_⟩
    · dsimp only
      by_cases here : top c = x
      · subst here
        rw [List.getElem?_set_self (h.weightTo_length.symm ▸ inside), if_neg other, grown,
          if_pos rfl]
      · rw [List.getElem?_set_ne here, h.weightTo x hx, grown, if_neg here, Nat.add_zero]
    · dsimp only
      split
      · rename_i zero
        exact List.nodup_append'.mpr ⟨h.nodup, List.nodup_singleton _,
          List.disjoint_singleton.mpr (fresh.mp zero)⟩
      · exact h.nodup
    · have mem : x ∈ (if load top entries (top c) = 0 then s.touched ++ [top c] else s.touched) ↔
          x ∈ s.touched ∨ x = top c := by
        split
        · rw [List.mem_append, List.mem_singleton]
        · rename_i known
          have seen : top c ∈ s.touched := Decidable.not_not.mp (mt fresh.mpr known)
          exact ⟨.inl, fun side => side.elim id fun same => same ▸ seen⟩
      dsimp only
      rw [mem, h.touched, grown]
      by_cases here : top c = x
      · subst here
        simp [inside, other, Nat.ne_of_gt positive]
      · simp [here, Ne.symm here]

theorem addAll (h : Counts n k top u entries s) (depth : k ≤ n) {more : List (Nat × Nat)}
    (inside : ∀ e ∈ more, e.1 < n ∧ 0 < e.2) :
    ∃ s', more.foldlM (fun s e => s.add u e.1 e.2) s = some s' ∧
      Counts n k top u (entries ++ more) s' := by
  induction more generalizing entries s with
  | nil => exact ⟨s, rfl, by rwa [List.append_nil]⟩
  | cons e more ih =>
      obtain ⟨⟨here, positive⟩, inside⟩ := List.forall_mem_cons.mp inside
      obtain ⟨s₁, ran, counts⟩ := h.add depth here positive
      obtain ⟨s₂, rest, counts⟩ := ih counts inside
      refine ⟨s₂, ?_, ?_⟩
      · rw [List.foldlM_cons, ran]
        exact rest
      · rwa [List.append_assoc] at counts

end EdgeScan.Counts

/-- One slot for each vertex, and in the lists vertices with what they weigh. -/
structure CarriedLists (n : Nat) (carried : List (Option (List (Nat × Nat)))) : Prop where
  length : carried.length = n
  inside : ∀ list, some list ∈ carried → ∀ e ∈ list, e.1 < n ∧ 0 < e.2

theorem CarriedLists.set {n : Nat} {carried : List (Option (List (Nat × Nat)))}
    (h : CarriedLists n carried) (u : Nat) {entry : Option (List (Nat × Nat))}
    (inside : ∀ list, entry = some list → ∀ e ∈ list, e.1 < n ∧ 0 < e.2) :
    CarriedLists n (carried.set u entry) where
  length := List.length_set.trans h.length
  inside list hlist := by
    rcases List.mem_or_eq_of_mem_set hlist with old | new
    · exact h.inside list old
    · exact inside list new.symm

namespace MergePass

/-- What a vertex left for the community it merged into. -/
def carriedBy (carried : List (Option (List (Nat × Nat)))) (child : Nat) : List (Nat × Nat) :=
  (carried.getD child none).getD []

theorem carriedBy_congr {carried carried' : List (Option (List (Nat × Nat)))} {child : Nat}
    (same : carried'[child]? = carried[child]?) :
    carriedBy carried' child = carriedBy carried child := by
  rw [carriedBy, carriedBy, List.getD_eq_getElem?_getD, List.getD_eq_getElem?_getD, same]

theorem carriedBy_inside {n : Nat} {carried : List (Option (List (Nat × Nat)))}
    (h : CarriedLists n carried) (child : Nat) :
    ∀ e ∈ carriedBy carried child, e.1 < n ∧ 0 < e.2 := by
  intro e he
  rw [carriedBy, List.getD_eq_getElem?_getD] at he
  cases at_ : carried[child]? with
  | none =>
      rw [at_] at he
      exact absurd he List.not_mem_nil
  | some entry =>
      rw [at_] at he
      cases entry with
      | none => exact absurd he List.not_mem_nil
      | some list => exact h.inside list (List.mem_of_getElem? at_) e he

variable {n k u : Nat} {top : Nat → Nat} {entries : List (Nat × Nat)}

theorem absorb_counts {carried : List (Option (List (Nat × Nat)))} {scan : EdgeScan}
    (lists : CarriedLists n carried) (counts : scan.Counts n k top u entries) (depth : k ≤ n)
    {child : Nat} (hchild : child < n) :
    ∃ scan', absorb u (carried, scan) child = some (carried.set child none, scan') ∧
      scan'.Counts n k top u (entries ++ carriedBy carried child) := by
  obtain ⟨scan', ran, counts⟩ := counts.addAll depth (carriedBy_inside lists child)
  refine ⟨scan', ?_, counts⟩
  rw [carriedBy, List.getD_eq_getElem?_getD] at ran
  unfold absorb
  rw [List.getElem?_eq_getElem (lists.length ▸ hchild)] at ran ⊢
  rw [Option.bind_eq_bind, Option.bind_some]
  rw [Option.getD_some] at ran
  rw [ran]
  rfl

theorem absorbAll {carried : List (Option (List (Nat × Nat)))} {scan : EdgeScan}
    (lists : CarriedLists n carried) (counts : scan.Counts n k top u entries) (depth : k ≤ n)
    {heads : List Nat} (nodup : heads.Nodup) (inside : ∀ c ∈ heads, c < n) :
    ∃ carried' scan', heads.foldlM (absorb u) (carried, scan) = some (carried', scan') ∧
      CarriedLists n carried' ∧ (∀ x, x ∉ heads → carried'[x]? = carried[x]?) ∧
      scan'.Counts n k top u (entries ++ heads.flatMap (carriedBy carried)) := by
  induction heads generalizing carried scan entries with
  | nil => exact ⟨carried, scan, rfl, lists, fun x _ => rfl, by simpa using counts⟩
  | cons c heads ih =>
      obtain ⟨fresh, nodup⟩ := List.nodup_cons.mp nodup
      obtain ⟨here, inside⟩ := List.forall_mem_cons.mp inside
      obtain ⟨scan₁, ran, counts⟩ := absorb_counts lists counts depth here
      have lists₁ : CarriedLists n (carried.set c none) := lists.set c fun list absent => nomatch absent
      obtain ⟨carried', scan', rest, lists', kept, counts⟩ := ih lists₁ counts nodup inside
      have same : ∀ x ∈ heads, carriedBy (carried.set c none) x = carriedBy carried x := by
        intro x hx
        refine carriedBy_congr (List.getElem?_set_ne ?_)
        rintro rfl
        exact fresh hx
      refine ⟨carried', scan', ?_, lists', fun x hx => ?_, ?_⟩
      · rw [List.foldlM_cons, ran]
        exact rest
      · obtain ⟨other, hx⟩ := not_or.mp (mt List.mem_cons.mpr hx)
        rw [kept x hx, List.getElem?_set_ne (Ne.symm other)]
      · rw [List.flatMap_cons, ← List.append_assoc, ← List.flatMap_congr same]
        exact counts

/-- A turn's first half: the edges of `u`, and what its children left. -/
def aggregate {Time : Type} (g : Csr Time) (s : MergePass) (u : Nat) :
    Option (List (Option (List (Nat × Nat))) × EdgeScan) := do
  let scan ← (g.neighbors u).foldlM (fun s v => s.add u v 1) ⟨s.dendro.parent, s.weightTo, []⟩
  let scan ← (g.inNeighbors u).foldlM (fun s v => s.add u v 1) scan
  let child ← s.dendro.firstChild[u]?
  Siblings.along NONE (s.dendro.nextSibling[·]?) (absorb u) (g.numNodes + 1) child (s.carried, scan)

/-- Its second half: the pick, the merge, and the weights cleared. -/
def settle (twoM : Nat) (s : MergePass) (u : Nat) (carried : List (Option (List (Nat × Nat))))
    (scan : EdgeScan) : Option MergePass := do
  let s := { s with dendro.parent := scan.parent, carried := carried }
  let du ← s.degree[u]?
  let best ← scan.touched.foldlM (weigh twoM du s.degree scan.weightTo) none
  let s ← match best with
    | some (_, c) => s.merge scan u c
    | none => some s
  some { s with
    weightTo := scan.touched.foldl (fun weightTo t => weightTo.set t 0) scan.weightTo
    visited := s.visited.set u true }

theorem visit_eq {Time : Type} (g : Csr Time) (twoM : Nat) (s : MergePass) (u : Nat) :
    visit g twoM s u = (aggregate g s u).bind fun acc => settle twoM s u acc.1 acc.2 := by
  simp only [visit, aggregate, settle, Option.bind_eq_bind, Option.bind_assoc] <;> rfl

/-- The edges of `u`, then what its children hold. -/
def held {Time : Type} (g : Csr Time) (carried : List (Option (List (Nat × Nat))))
    (kids : Nat → Siblings Nat) (u : Nat) : List (Nat × Nat) :=
  (g.neighbors u ++ g.inNeighbors u).map (fun v => (v, 1)) ++
    (kids u).heads.flatMap (carriedBy carried)

/-- Between two vertices, with the vertices of `done` visited: one forest, each community's
degree, and for each vertex still to come its arcs to every other community. -/
structure Balanced {Time : Type} (g : Csr Time) (done : List Nat) (s : MergePass)
    (top : Nat → Nat) (kids : Nat → Siblings Nat) : Prop where
  hierarchy : Dendrogram.Hierarchy g.numNodes done.length s.dendro top kids
  alone : ∀ v < g.numNodes, v ∉ done → top v = v
  degree_length : s.degree.length = g.numNodes
  degree : ∀ c < g.numNodes, top c = c → s.degree[c]? = some (volume g.plainArcs top c)
  visited_length : s.visited.length = g.numNodes
  visited : ∀ v < g.numNodes, s.visited[v]? = some (decide (v ∈ done))
  idle : s.weightTo = List.replicate g.numNodes 0
  carried : CarriedLists g.numNodes s.carried
  balance : ∀ v < g.numNodes, v ∉ done → ∀ c, c ≠ v →
    load top (held g s.carried kids v) c = between g.plainArcs top v c

/-- The gain of `u`'s community in joining `c`. -/
def arcGain {Time : Type} (g : Csr Time) (twoM : Nat) (top : Nat → Nat) (u c : Nat) : Int :=
  gain twoM (volume g.plainArcs top u) (between g.plainArcs top u c) (volume g.plainArcs top c)

/-- The pick among `seen`: the largest positive gain, at the lowest community that has it. -/
def Picked (gain : Nat → Int) (seen : List Nat) : Option (Int × Nat) → Prop
  | none => ∀ c ∈ seen, gain c ≤ 0
  | some (best, c) => c ∈ seen ∧ best = gain c ∧ 0 < best ∧
      ∀ c' ∈ seen, gain c' < best ∨ gain c' = best ∧ c ≤ c'

theorem Picked.step {gain : Nat → Int} {seen : List Nat} {best : Option (Int × Nat)}
    (h : Picked gain seen best) (c : Nat) :
    Picked gain (seen ++ [c]) (if better best (gain c) c then some (gain c, c) else best) := by
  cases best with
  | none =>
      unfold better
      simp only [decide_eq_true_eq]
      split
      · rename_i positive
        refine ⟨List.mem_append_right _ List.mem_cons_self, rfl, positive, fun c' hc' => ?_⟩
        rcases List.mem_append.mp hc' with old | new
        · exact .inl (Int.lt_of_le_of_lt (h c' old) positive)
        · rw [List.mem_singleton.mp new]
          exact .inr ⟨rfl, Nat.le_refl c⟩
      · rename_i negative
        intro c' hc'
        rcases List.mem_append.mp hc' with old | new
        · exact h c' old
        · rw [List.mem_singleton.mp new]
          exact Int.not_lt.mp negative
  | some pick =>
      obtain ⟨top, b⟩ := pick
      obtain ⟨mem, rfl, positive, largest⟩ := h
      unfold better
      simp only [decide_eq_true_eq]
      split
      · rename_i more
        refine ⟨List.mem_append_right _ List.mem_cons_self, rfl, by omega, fun c' hc' => ?_⟩
        rcases List.mem_append.mp hc' with old | new
        · have := largest c' old
          omega
        · rw [List.mem_singleton.mp new]
          exact .inr ⟨rfl, Nat.le_refl c⟩
      · refine ⟨List.mem_append_left _ mem, rfl, positive, fun c' hc' => ?_⟩
        rcases List.mem_append.mp hc' with old | new
        · exact largest c' old
        · rw [List.mem_singleton.mp new]
          omega

theorem weigh_picked {touched degree weightTo : List Nat} (twoM du : Nat) {w d : Nat → Nat}
    (weights : ∀ c ∈ touched, weightTo[c]? = some (w c))
    (degrees : ∀ c ∈ touched, degree[c]? = some (d c)) :
    ∃ best, touched.foldlM (weigh twoM du degree weightTo) none = some best ∧
      Picked (fun c => gain twoM du (w c) (d c)) touched best := by
  obtain ⟨best, ran, seen, all, picked⟩ := foldlM_isSome
    (P := fun rest best => ∃ seen, seen ++ rest = touched ∧
      Picked (fun c => gain twoM du (w c) (d c)) seen best)
    (f := weigh twoM du degree weightTo) (l := touched) (b := none)
    (fun c rest best ⟨seen, all, picked⟩ => by
      have mem : c ∈ touched := all ▸ List.mem_append_right _ List.mem_cons_self
      unfold weigh
      rw [weights c mem, degrees c mem]
      exact ⟨_, rfl, seen ++ [c], by rw [List.append_assoc]; exact all, picked.step c⟩)
    ⟨[], rfl, fun c absent => absurd absent List.not_mem_nil⟩
  rw [List.append_nil] at all
  exact ⟨best, ran, all ▸ picked⟩

/-- Clearing what was touched clears all. -/
theorem cleared_eq {n : Nat} {weightTo touched : List Nat} (length : weightTo.length = n)
    (rest : ∀ c < n, c ∉ touched → weightTo[c]? = some 0) :
    touched.foldl (fun weightTo t => weightTo.set t 0) weightTo = List.replicate n 0 := by
  induction touched generalizing weightTo with
  | nil =>
      refine List.ext_getElem? fun c => ?_
      by_cases hc : c < n
      · rw [List.foldl_nil, rest c hc List.not_mem_nil, List.getElem?_replicate_of_lt hc]
      · rw [List.foldl_nil, List.getElem?_eq_none (length.symm ▸ Nat.not_lt.mp hc),
          List.getElem?_eq_none (List.length_replicate.symm ▸ Nat.not_lt.mp hc)]
  | cons t touched ih =>
      refine ih (List.length_set.trans length) fun c hc absent => ?_
      by_cases same : t = c
      · subst same
        exact List.getElem?_set_self (length.symm ▸ hc)
      · rw [List.getElem?_set_ne same]
        exact rest c hc fun mem => (List.mem_cons.mp mem).elim (fun eq => same eq.symm) absent

/-- What the first half of `u`'s turn leaves. -/
structure Aggregated {Time : Type} (g : Csr Time) (k : Nat) (s : MergePass) (top : Nat → Nat)
    (kids : Nat → Siblings Nat) (u : Nat) (carried : List (Option (List (Nat × Nat))))
    (scan : EdgeScan) : Prop where
  ran : aggregate g s u = some (carried, scan)
  lists : CarriedLists g.numNodes carried
  kept : ∀ x, x ∉ (kids u).heads → carried[x]? = s.carried[x]?
  tops : Tops scan.parent g.numNodes k top
  weightTo_length : scan.weightTo.length = g.numNodes
  weightTo : ∀ c < g.numNodes, c ≠ u → scan.weightTo[c]? = some (between g.plainArcs top u c)
  weightTo_self : scan.weightTo[u]? = some 0
  nodup : scan.touched.Nodup
  touched : ∀ c, c ∈ scan.touched ↔ c < g.numNodes ∧ c ≠ u ∧ between g.plainArcs top u c ≠ 0
  top_touched : ∀ c ∈ scan.touched, top c = c

theorem Aggregated.cleared {Time : Type} {g : Csr Time} {s : MergePass} {kids : Nat → Siblings Nat}
    {carried : List (Option (List (Nat × Nat)))} {scan : EdgeScan}
    (agg : Aggregated g k s top kids u carried scan) :
    scan.touched.foldl (fun weightTo t => weightTo.set t 0) scan.weightTo =
      List.replicate g.numNodes 0 := by
  refine cleared_eq agg.weightTo_length fun c hc absent => ?_
  by_cases same : c = u
  · exact same ▸ agg.weightTo_self
  rw [agg.weightTo c hc same]
  refine congrArg some ?_
  by_contra arcs
  exact absent ((agg.touched c).mpr ⟨hc, same, arcs⟩)

namespace Balanced

variable {Time : Type} {g : Csr Time} {done : List Nat} {s : MergePass} {kids : Nat → Siblings Nat}

theorem heads (h : Balanced g done s top kids) {v c : Nat} (hv : v < g.numNodes)
    (topV : top v = v) (hc : c ∈ (kids v).heads) : c < g.numNodes ∧ top c = v ∧ c ≠ v :=
  h.hierarchy.mem_below hv topV ((kids v).heads_sublist.subset hc)

theorem heads_nodup (h : Balanced g done s top kids) {v : Nat} (hv : v < g.numNodes)
    (topV : top v = v) : (kids v).heads.Nodup :=
  (List.nodup_cons.mp (h.hierarchy.nodup v hv topV)).2.sublist (kids v).heads_sublist

section valid

variable (mono : g.Monotone) (inRange : ∀ d ∈ g.edges, d < g.numNodes)

include mono inRange

theorem held_inside (h : Balanced g done s top kids) {v : Nat} (hv : v < g.numNodes) :
    ∀ e ∈ held g s.carried kids v, e.1 < g.numNodes ∧ 0 < e.2 := by
  intro e he
  rcases List.mem_append.mp he with own | child
  · obtain ⟨w, hw, rfl⟩ := List.mem_map.mp own
    refine ⟨?_, Nat.one_pos⟩
    rcases List.mem_append.mp hw with out | inn
    · exact inRange w (Csr.mem_edges_of_mem_neighbors out)
    · exact Csr.inNeighbors_lt mono inRange hv inn
  · obtain ⟨c, -, mem⟩ := List.mem_flatMap.mp child
    exact carriedBy_inside h.carried c e mem

theorem aggregated (h : Balanced g done s top kids) (room : done.length ≤ g.numNodes) {u : Nat}
    (hu : u < g.numNodes) (new : u ∉ done) :
    ∃ carried scan, Aggregated g done.length s top kids u carried scan := by
  have topU := h.alone u hu new
  have inside := h.held_inside mono inRange hu
  obtain ⟨child, first, linked⟩ := h.hierarchy.linked u hu topU
  have start : EdgeScan.Counts g.numNodes done.length top u [] ⟨s.dendro.parent, s.weightTo, []⟩ := by
    refine ⟨h.hierarchy.tops, ?_, fun c hc => ?_, List.nodup_nil, fun c => ?_⟩
    · rw [h.idle, List.length_replicate]
    · rw [h.idle, List.getElem?_replicate_of_lt hc, load_nil, ite_self]
    · simp
  obtain ⟨scan, edges, counts⟩ := start.addAll room
    fun e he => inside e (List.mem_append_left _ he)
  rw [List.nil_append] at counts
  -- the children of `u` are a sibling list, so the loop over them ends
  have children : ∀ c ∈ (kids u).heads, c < g.numNodes := fun c hc => (h.heads hu topU hc).1
  have nodup := h.heads_nodup hu topU
  have few : (kids u).heads.length < g.numNodes + 1 := by
    have all : (kids u).heads ⊆ List.range g.numNodes := fun c hc =>
      List.mem_range.mpr (children c hc)
    have := (List.subperm_of_subset nodup all).length_le
    rw [List.length_range] at this
    exact Nat.lt_succ_of_le this
  obtain ⟨carried, scan', absorbed, lists, kept, counts⟩ :=
    absorbAll h.carried counts room nodup children
  have loads : ∀ c, c ≠ u → load top (held g s.carried kids u) c = between g.plainArcs top u c :=
    h.balance u hu new
  refine ⟨carried, scan', ⟨?_, lists, kept, counts.tops, counts.weightTo_length, fun c hc other => ?_,
    ?_, counts.nodup, fun c => ?_,
    fun c hc => counts.top_touched hc fun e he => (inside e he).1⟩⟩
  · rw [List.foldlM_map, List.foldlM_append] at edges
    rw [aggregate]
    simp only [Option.bind_eq_bind] at edges ⊢
    rw [← Option.bind_assoc, edges, Option.bind_some, first, Option.bind_some,
      linked.along (absorb u) few, absorbed]
  · rw [counts.weightTo c hc, if_neg other]
    exact congrArg some (loads c other)
  · rw [counts.weightTo u hu, if_pos rfl]
  · rw [counts.touched c]
    refine and_congr_right fun _ => and_congr_right fun other => ?_
    rw [← loads c other, held]

end valid

/-- The children of a vertex still to come are none of `u` and its children. -/
theorem held_congr (h : Balanced g done s top kids) {u v : Nat} (hu : u < g.numNodes)
    (hv : v < g.numNodes) (apart : v ≠ u) (topU : top u = u) (topV : top v = v)
    {carried : List (Option (List (Nat × Nat)))}
    (kept : ∀ x, x ≠ u → x ∉ (kids u).heads → carried[x]? = s.carried[x]?) :
    held g carried kids v = held g s.carried kids v := by
  refine congrArg (_ ++ ·) (List.flatMap_congr fun c hc => carriedBy_congr (kept c ?_ fun below => ?_))
  · rintro rfl
    exact apart ((h.heads hv topV hc).2.1.symm.trans topU)
  · exact apart ((h.heads hv topV hc).2.1.symm.trans (h.heads hu topU below).2.1)

/-- `u` stays alone. -/
theorem stay (h : Balanced g done s top kids) {u : Nat} (hu : u < g.numNodes) (new : u ∉ done)
    {carried : List (Option (List (Nat × Nat)))} {scan : EdgeScan}
    (agg : Aggregated g done.length s top kids u carried scan) :
    Balanced g (done ++ [u])
      { s with
        dendro.parent := scan.parent
        carried := carried
        weightTo := scan.touched.foldl (fun weightTo t => weightTo.set t 0) scan.weightTo
        visited := s.visited.set u true } top kids where
  hierarchy := by
    rw [List.length_append]
    exact (h.hierarchy.withParent agg.tops).succ
  alone v hv later := h.alone v hv fun old => later (List.mem_append_left _ old)
  degree_length := h.degree_length
  degree := h.degree
  visited_length := List.length_set.trans h.visited_length
  visited v hv := by
    by_cases same : u = v
    · subst same
      simp [h.visited_length, hu]
    · rw [List.getElem?_set_ne same, h.visited v hv]
      simp [Ne.symm same]
  idle := agg.cleared
  carried := agg.lists
  balance v hv later c other := by
    obtain ⟨old, apart⟩ := not_or.mp (mt List.mem_append.mpr later)
    have apart : v ≠ u := fun same => apart (List.mem_singleton.mpr same)
    rw [h.held_congr hu hv apart (h.alone u hu new) (h.alone v hv old)
      fun x _ below => agg.kept x below]
    exact h.balance v hv old c other

/-- A vertex with arcs to `c`'s community shows that `c` is one. -/
theorem between_lt (h : Balanced g done s top kids)
    (ends : ∀ e ∈ g.plainArcs, e.1 < g.numNodes ∧ e.2 < g.numNodes) {u c : Nat}
    (arcs : between g.plainArcs top u c ≠ 0) : c < g.numNodes := by
  obtain ⟨e, he, side⟩ := List.countP_pos_iff.mp (Nat.pos_of_ne_zero arcs)
  obtain ⟨first, second⟩ := ends e he
  rcases of_decide_eq_true side with ⟨-, rfl⟩ | ⟨rfl, -⟩
  · exact h.hierarchy.tops.inside _ second
  · exact h.hierarchy.tops.inside _ first

/-- `u` merges into `c`. -/
theorem merged (h : Balanced g done s top kids)
    (ends : ∀ e ∈ g.plainArcs, e.1 < g.numNodes ∧ e.2 < g.numNodes) {u c first : Nat}
    (hu : u < g.numNodes) (new : u ∉ done) {carried : List (Option (List (Nat × Nat)))}
    {scan : EdgeScan} (agg : Aggregated g done.length s top kids u carried scan)
    (hc : c ∈ scan.touched) (firstC : s.dendro.firstChild[c]? = some first) :
    Balanced g (done ++ [u])
      { dendro := ⟨scan.parent.set u c, s.dendro.firstChild.set c u, s.dendro.nextSibling.set u first⟩
        degree := s.degree.set c (volume g.plainArcs top c + volume g.plainArcs top u)
        carried := if c ∈ done then carried
          else carried.set u (some (scan.touched.map fun t => (t, between g.plainArcs top u t)))
        weightTo := scan.touched.foldl (fun weightTo t => weightTo.set t 0) scan.weightTo
        visited := s.visited.set u true }
      (join top u c) (fun r => if r = c then .cons u (kids u) (kids c) else kids r) := by
  obtain ⟨inside, other, arcs⟩ := (agg.touched c).mp hc
  have topU := h.alone u hu new
  have topC := agg.top_touched c hc
  have apart : u ≠ c := Ne.symm other
  have later : ∀ v, v ∉ done ++ [u] → v ∉ done ∧ v ≠ u := by
    intro v hv
    obtain ⟨old, here⟩ := not_or.mp (mt List.mem_append.mpr hv)
    exact ⟨old, fun same => here (List.mem_singleton.mpr same)⟩
  have kept : ∀ x, x ≠ u → x ∉ (kids u).heads →
      (if c ∈ done then carried else carried.set u
        (some (scan.touched.map fun t => (t, between g.plainArcs top u t))))[x]? = s.carried[x]? := by
    intro x hx below
    split
    · exact agg.kept x below
    · rw [List.getElem?_set_ne (Ne.symm hx)]
      exact agg.kept x below
  refine
    { hierarchy := ?_
      alone := fun v hv unvisited => ?_
      degree_length := List.length_set.trans h.degree_length
      degree := fun x hx topX => ?_
      visited_length := List.length_set.trans h.visited_length
      visited := fun v hv => ?_
      idle := agg.cleared
      carried := ?_
      balance := fun v hv unvisited x hx => ?_ }
  · rw [List.length_append]
    exact (h.hierarchy.withParent agg.tops).merge g.numNodes_le hu inside apart topU topC firstC
  · obtain ⟨old, here⟩ := later v unvisited
    have topV := h.alone v hv old
    rw [join, topV, if_neg here]
  · dsimp only
    by_cases same : c = x
    · subst same
      rw [List.getElem?_set_self (h.degree_length.symm ▸ inside), volume_join_target apart]
    · rw [List.getElem?_set_ne same]
      have notU : x ≠ u := by
        rintro rfl
        exact join_ne_source top apart x topX
      rw [volume_join_other notU (Ne.symm same)]
      exact h.degree x hx ((join_eq_iff top notU (Ne.symm same) x).mp topX)
  · by_cases same : u = v
    · subst same
      simp [h.visited_length, hu]
    · rw [List.getElem?_set_ne same, h.visited v hv]
      simp [Ne.symm same]
  · dsimp only
    split
    · exact agg.lists
    · refine agg.lists.set u fun list same e he => ?_
      obtain rfl := Option.some.inj same
      obtain ⟨t, ht, rfl⟩ := List.mem_map.mp he
      obtain ⟨inT, -, some_⟩ := (agg.touched t).mp ht
      exact ⟨inT, Nat.pos_of_ne_zero some_⟩
  · obtain ⟨old, here⟩ := later v unvisited
    have topV := h.alone v hv old
    have same := h.held_congr hu hv here topU topV kept
    have balance := h.balance v hv old
    by_cases target : v = c
    · subst target
      rw [if_neg old] at same ⊢
      have own : carriedBy (carried.set u
          (some (scan.touched.map fun t => (t, between g.plainArcs top u t)))) u =
          scan.touched.map fun t => (t, between g.plainArcs top u t) := by
        rw [carriedBy, List.getD_eq_getElem?_getD,
          List.getElem?_set_self (agg.lists.length.symm ▸ hu)]
        rfl
      -- the list of `u` stands at the head of the new children of `c`
      have grown : ∀ y, load (join top u v) (held g (carried.set u
            (some (scan.touched.map fun t => (t, between g.plainArcs top u t))))
          (fun r => if r = v then .cons u (kids u) (kids v) else kids r) v) y =
          load (join top u v) (held g s.carried kids v ++
            scan.touched.map fun t => (t, between g.plainArcs top u t)) y := by
        intro y
        rw [← same, held, held, if_pos rfl, Siblings.heads, List.flatMap_cons, own]
        simp only [load_append]
        omega
      have carries : ∀ y, y ≠ u →
          load top (scan.touched.map fun t => (t, between g.plainArcs top u t)) y =
            between g.plainArcs top u y := by
        intro y otherY
        rw [load_map _ agg.nodup agg.top_touched]
        split
        · rfl
        · rename_i absent
          by_contra arcsY
          have someY := Ne.symm arcsY
          exact absent ((agg.touched y).mpr ⟨h.between_lt ends someY, otherY, someY⟩)
      rw [grown]
      exact load_append_join_eq_between apart balance carries hx
    · have kids_eq : held g (if c ∈ done then carried else carried.set u
          (some (scan.touched.map fun t => (t, between g.plainArcs top u t))))
          (fun r => if r = c then .cons u (kids u) (kids c) else kids r) v =
          held g s.carried kids v := by
        rw [← same, held, held, if_neg target]
      rw [kids_eq]
      exact load_join_eq_between apart here target balance hx

/-- The communities after `u`'s turn. -/
def moved (top : Nat → Nat) (u : Nat) : Option (Int × Nat) → Nat → Nat
  | none => top
  | some (_, c) => join top u c

/-- The second half of a turn returns: it picks a community and keeps the balance. -/
theorem settled (h : Balanced g done s top kids)
    (ends : ∀ e ∈ g.plainArcs, e.1 < g.numNodes ∧ e.2 < g.numNodes) (twoM : Nat) {u : Nat}
    (hu : u < g.numNodes) (new : u ∉ done) {carried : List (Option (List (Nat × Nat)))}
    {scan : EdgeScan} (agg : Aggregated g done.length s top kids u carried scan) :
    ∃ s' best kids', settle twoM s u carried scan = some s' ∧
      Picked (arcGain g twoM top u) scan.touched best ∧
      Balanced g (done ++ [u]) s' (moved top u best) kids' := by
  have topU := h.alone u hu new
  have weights : ∀ c ∈ scan.touched, scan.weightTo[c]? = some (between g.plainArcs top u c) :=
    fun c hc => agg.weightTo c ((agg.touched c).mp hc).1 ((agg.touched c).mp hc).2.1
  have degrees : ∀ c ∈ scan.touched, s.degree[c]? = some (volume g.plainArcs top c) :=
    fun c hc => h.degree c ((agg.touched c).mp hc).1 (agg.top_touched c hc)
  obtain ⟨best, weighed, picked⟩ := weigh_picked twoM (volume g.plainArcs top u) weights degrees
  unfold settle
  dsimp only
  rw [h.degree u hu topU, Option.bind_eq_bind, Option.bind_some, weighed, Option.bind_eq_bind,
    Option.bind_some]
  cases best with
  | none => exact ⟨_, none, kids, rfl, picked, h.stay hu new agg⟩
  | some pick =>
      obtain ⟨largest, c⟩ := pick
      have hc := picked.1
      have inside := ((agg.touched c).mp hc).1
      obtain ⟨first, firstC⟩ : ∃ first, s.dendro.firstChild[c]? = some first :=
        ⟨_, List.getElem?_eq_getElem (h.hierarchy.firstChild_length.symm ▸ inside)⟩
      have listed : (scan.touched.mapM fun t => do some (t, ← scan.weightTo[t]?)) =
          some (scan.touched.map fun t => (t, between g.plainArcs top u t)) := by
        refine mapM_some fun t ht => ?_
        rw [weights t ht]
        rfl
      refine ⟨_, some (largest, c), _, ?_, picked, h.merged ends hu new agg hc firstC⟩
      dsimp only
      rw [merge]
      dsimp only
      rw [h.degree u hu topU, h.degree c inside (agg.top_touched c hc), firstC, h.visited c inside,
        listed]
      by_cases seen : c ∈ done
      · simp [seen]
      · simp [seen]

theorem turn (mono : g.Monotone) (inRange : ∀ d ∈ g.edges, d < g.numNodes) (twoM : Nat)
    (h : Balanced g done s top kids) (room : done.length ≤ g.numNodes) {u : Nat}
    (hu : u < g.numNodes) (new : u ∉ done) :
    ∃ carried scan s' best kids', Aggregated g done.length s top kids u carried scan ∧
      visit g twoM s u = some s' ∧ Picked (arcGain g twoM top u) scan.touched best ∧
      Balanced g (done ++ [u]) s' (moved top u best) kids' := by
  obtain ⟨carried, scan, agg⟩ := h.aggregated mono inRange room hu new
  obtain ⟨s', best, kids', ran, picked, balanced⟩ := h.settled
    (fun e he => Csr.plainArcs_lt mono inRange he) twoM hu new agg
  refine ⟨carried, scan, s', best, kids', agg, ?_, picked, balanced⟩
  rw [visit_eq, agg.ran]
  exact ran

end Balanced

/-- Nothing visited: every vertex on its own. -/
def start {Time : Type} (g : Csr Time) : MergePass :=
  ⟨.singletons g.numNodes, (List.range g.numNodes).map g.undirectedDegree,
    List.replicate g.numNodes none, List.replicate g.numNodes false, List.replicate g.numNodes 0⟩

theorem mergeOrder_perm (degree : List Nat) (n : Nat) : (mergeOrder degree n).Perm (List.range n) :=
  List.mergeSort_perm _ _

/-- A vertex comes up once, after at most as many as there are. -/
theorem mergeOrder_turn {degree done rest : List Nat} {n u : Nat}
    (order : mergeOrder degree n = done ++ u :: rest) : u < n ∧ u ∉ done ∧ done.length < n := by
  have perm := mergeOrder_perm degree n
  have nodup : (mergeOrder degree n).Nodup := perm.nodup_iff.mpr List.nodup_range
  have total := perm.length_eq
  rw [order] at perm nodup total
  refine ⟨List.mem_range.mp (perm.mem_iff.mp ?_), fun old => ?_, ?_⟩
  · exact List.mem_append_right _ List.mem_cons_self
  · exact (List.nodup_append'.mp nodup).2.2 old List.mem_cons_self
  · rw [List.length_range, List.length_append, List.length_cons] at total
    omega

section run

variable {Time : Type} {g : Csr Time} (mono : g.Monotone)
  (inRange : ∀ d ∈ g.edges, d < g.numNodes)

include mono inRange

theorem start_balanced : Balanced g [] (start g) id fun _ => .none where
  hierarchy := .singletons g.numNodes
  alone v _ _ := rfl
  degree_length := by rw [start, List.length_map, List.length_range]
  degree c hc _ := by
    rw [start, List.getElem?_map, List.getElem?_range hc, Option.map_some,
      Csr.undirectedDegree_eq mono inRange hc]
  visited_length := List.length_replicate
  visited v hv := List.getElem?_replicate_of_lt hv
  idle := rfl
  carried := ⟨List.length_replicate, fun list hlist => by
    have := List.eq_of_mem_replicate hlist
    cases this⟩
  balance v hv _ c other := by
    rw [held, Siblings.heads, List.flatMap_nil, List.append_nil, load_units, List.countP_append,
      Csr.neighbors_eq hv, Csr.inNeighbors_eq mono inRange hv, List.countP_map, List.countP_map,
      List.countP_filter, List.countP_filter, Csr.between_plain (Ne.symm other), between]
    simp only [Function.comp_apply, id]
    induction g.storedEdges with
    | nil => rfl
    | cons e edges ih =>
        simp only [List.countP_cons, ← ih, Bool.and_eq_true, decide_eq_true_eq]
        split_ifs <;> grind

/-- Every prefix of the merge order runs and leaves the balance. -/
theorem run_balanced (twoM : Nat) {degree done rest : List Nat}
    (order : mergeOrder degree g.numNodes = done ++ rest) :
    ∃ s top kids, done.foldlM (visit g twoM) (start g) = some s ∧ Balanced g done s top kids := by
  induction done using List.reverseRecOn generalizing rest with
  | nil => exact ⟨start g, id, _, rfl, start_balanced mono inRange⟩
  | append_singleton done u ih =>
      rw [List.append_assoc] at order
      obtain ⟨hu, new, room⟩ := mergeOrder_turn order
      obtain ⟨s, top, kids, ran, balanced⟩ := ih order
      obtain ⟨-, -, s', best, kids', -, turned, -, balanced⟩ :=
        balanced.turn mono inRange twoM (Nat.le_of_lt room) hu new
      refine ⟨s', _, kids', ?_, balanced⟩
      rw [List.foldlM_append, ran, Option.bind_eq_bind, Option.bind_some, List.foldlM_cons, turned]
      rfl

end run

end MergePass

end AetherGraph
