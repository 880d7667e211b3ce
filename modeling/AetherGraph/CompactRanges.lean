import AetherGraph.Compaction

/-! The plan of a compaction and its threads: the ranges tile the vertices, the reservations tile
the slots, and every thread fills its own. -/

namespace AetherGraph

open Foundation Foundation.LeafTree RowFill Tree

section Csr

variable {row : Nat → Option (List Nat)} {n : Nat} {offsets edges : List Nat}

/-- The arrays hold every row between its two offsets. -/
theorem csrOf_range (h : csrOf row (List.range n) = some (offsets, edges)) :
    (∀ v < n, row v = some ((row v).getD [])) ∧ Rows offsets (fun v => (row v).getD []) n ∧
      offsets.length = n + 1 ∧ edges = (List.range n).flatMap fun v => (row v).getD [] := by
  induction n generalizing offsets edges with
  | zero =>
      obtain ⟨rfl, rfl⟩ := Prod.mk.inj (Option.some.inj h)
      exact ⟨nofun, ⟨rfl, nofun⟩, rfl, rfl⟩
  | succ n ih =>
      rw [csrOf, List.range_succ, List.foldlM_append] at h
      obtain ⟨⟨before, front⟩, first, last⟩ := Option.bind_eq_some_iff.mp h
      obtain ⟨present, rows, length, rfl⟩ := ih first
      rw [List.foldlM_cons] at last
      obtain ⟨csr, here, last⟩ := Option.bind_eq_some_iff.mp last
      obtain rfl := Option.some.inj last
      obtain ⟨content, own, same⟩ := Option.map_eq_some_iff.mp here
      obtain ⟨rfl, rfl⟩ := Prod.mk.inj same
      have value : (row n).getD [] = content := by rw [own, Option.getD_some]
      dsimp only
      refine ⟨fun v hv => ?_, ⟨?_, fun v hv => ?_⟩, ?_, ?_⟩
      · rcases Nat.lt_succ_iff_lt_or_eq.mp hv with below | rfl
        · exact present v below
        · rw [value, own]
      · rw [List.getD_append _ _ _ _ (by omega)]
        exact rows.first
      · rcases Nat.lt_succ_iff_lt_or_eq.mp hv with below | rfl
        · rw [List.getD_append _ _ _ _ (by omega), List.getD_append _ _ _ _ (by omega)]
          exact rows.next v below
        · rw [List.getD_append_right _ _ _ _ (by omega), List.getD_append _ _ _ _ (by omega),
            rows.offset_eq (Nat.le_refl _), length, Nat.sub_self, value]
          exact List.length_append
      · rw [List.length_append, length]
        rfl
      · rw [List.range_succ, List.flatMap_append, List.flatMap_singleton, value]

end Csr

section Bounds

/-- Ascending bounds from 0 up to at most `nv`. -/
structure BoundsOk (nv : Nat) (bounds : List Nat) : Prop where
  head : bounds.head? = some 0
  sorted : bounds.Pairwise (· ≤ ·)
  le : ∀ b ∈ bounds, b ≤ nv

theorem BoundsOk.push {nv : Nat} {bounds : List Nat} (h : BoundsOk nv bounds) {v : Nat}
    (le : v ≤ nv) : BoundsOk nv (bounds ++ [max (bounds.getLastD 0) v]) := by
  obtain ⟨head, sorted, below⟩ := h
  obtain ⟨rest, rfl⟩ : ∃ rest, bounds = 0 :: rest := by
    cases bounds with
    | nil => cases head
    | cons b rest =>
        obtain rfl := Option.some.inj head
        exact ⟨rest, rfl⟩
  have last : (0 :: rest).getLastD 0 = (0 :: rest).getLast (List.cons_ne_nil _ _) := by
    rw [List.getLastD_eq_getLast?, List.getLast?_eq_some_getLast (List.cons_ne_nil _ _),
      Option.getD_some]
  refine ⟨rfl, List.pairwise_append.mpr ⟨sorted, List.pairwise_singleton _ _,
    fun b hb b' hb' => ?_⟩, fun b hb => ?_⟩
  · rw [List.mem_singleton.mp hb', last]
    refine le_max_of_le_left ?_
    have whole := List.dropLast_concat_getLast (List.cons_ne_nil 0 rest)
    rw [← whole] at hb sorted
    rcases List.mem_append.mp hb with hb | hb
    · exact (List.pairwise_append.mp sorted).2.2 b hb _ (List.mem_singleton_self _)
    · exact (List.mem_singleton.mp hb).le
  · rcases List.mem_append.mp hb with hb | hb
    · exact below b hb
    · rw [List.mem_singleton.mp hb, last]
      exact Nat.max_le.mpr ⟨below _ (List.getLast_mem _), le⟩

/-- The bounds ascend from 0 to the vertex count. -/
theorem rangeBounds_sorted (offsets : List Nat) (edges nv threads : Nat) :
    BoundsOk nv (rangeBounds offsets edges nv threads) ∧
      (rangeBounds offsets edges nv threads).getLast? = some nv := by
  suffices run : ∀ (ts front : List Nat), BoundsOk nv front →
      BoundsOk nv (ts.foldl (fun bounds t => bounds ++ [max (bounds.getLastD 0)
        (min (offsets.takeWhile fun o => decide (o < edges * t / threads)).length nv)]) front) by
    have ok := run (List.range' 1 (threads - 1)) [0] ⟨rfl, List.pairwise_singleton _ _, by simp⟩
    rw [rangeBounds]
    refine ⟨⟨?_, ?_, fun b hb => ?_⟩, ?_⟩
    · rw [List.head?_append, ok.head]
      rfl
    · refine List.pairwise_append.mpr ⟨ok.sorted, List.pairwise_singleton _ _,
        fun b hb b' hb' => ?_⟩
      rw [List.mem_singleton.mp hb']
      exact ok.le b hb
    · rcases List.mem_append.mp hb with hb | hb
      · exact ok.le b hb
      · exact (List.mem_singleton.mp hb).le
    · rw [List.getLast?_append, List.getLast?_singleton, Option.some_or]
  intro ts
  induction ts with
  | nil => exact fun front h => h
  | cons t ts ih => exact fun front h => ih _ (h.push (Nat.min_le_right _ nv))

end Bounds

section Build

/-- Slots of one class a list of `deg` neighbours needs. -/
def slotCost (deg : Nat) : SlotClass → Nat
  | .chunk => (compactSlotCost deg).1
  | .interior => (compactSlotCost deg).2

/-- Slots of one class the vertices `vs` need. -/
def slotTotal (content : Nat → List Nat) (vs : List Nat) (k : SlotClass) : Nat :=
  (vs.map fun v => slotCost (content v).length k).sum

theorem slotTotal_append (content : Nat → List Nat) (vs vs' : List Nat) (k : SlotClass) :
    slotTotal content (vs ++ vs') k = slotTotal content vs k + slotTotal content vs' k := by
  rw [slotTotal, List.map_append, List.sum_append]
  rfl

/-- A tree has fewer interiors than chunks. -/
theorem slotTotal_interior_le (content : Nat → List Nat) (vs : List Nat) :
    slotTotal content vs .interior ≤ slotTotal content vs .chunk := by
  induction vs with
  | nil => exact Nat.le_refl 0
  | cons v vs ih =>
      have own : slotCost (content v).length .interior ≤ slotCost (content v).length .chunk := by
        unfold slotCost compactSlotCost
        dsimp only
        split
        · exact Nat.le_refl _
        · exact Nat.sub_le _ _
      exact Nat.add_le_add own ih

/-- The trees of the vertices `vs`, built over the slots `F`. -/
structure Rebuilt (content : Nat → List Nat) (vs : List Nat) (trees : List Adj)
    (writes : List SlotWrite) (F : SlotClass → List Nat) : Prop where
  elems : trees.map Adj.elems = vs.map content
  shape : ∀ t, some t ∈ trees → t.WellFormed chunkCap ∧ Balanced t
  slots : ∀ k, (trees.flatMap fun t => t.slots k).Perm (F k)
  cost : ∀ k, (F k).length = slotTotal content vs k
  written : ∀ k, SlotWrite.slotsOf writes k = F k
  stored : (∀ k, ∀ i ∈ F k, i < 2 ^ 31 - 1) → ∀ a : Arena, (∀ w ∈ writes, a.Holds w) →
    ∀ t, some t ∈ trees → Stored a t

variable {content : Nat → List Nat} {vs vs' : List Nat} {trees trees' : List Adj}
  {writes writes' : List SlotWrite} {F F' : SlotClass → List Nat}

theorem Rebuilt.nil (content : Nat → List Nat) : Rebuilt content [] [] [] fun _ => [] :=
  ⟨rfl, nofun, fun _ => .refl _, fun _ => rfl, fun _ => rfl, fun _ _ _ => nofun⟩

theorem Rebuilt.append (h : Rebuilt content vs trees writes F)
    (h' : Rebuilt content vs' trees' writes' F') :
    Rebuilt content (vs ++ vs') (trees ++ trees') (writes ++ writes') fun k => F k ++ F' k where
  elems := by rw [List.map_append, List.map_append, h.elems, h'.elems]
  shape t ht := (List.mem_append.mp ht).elim (h.shape t) (h'.shape t)
  slots k := by
    rw [List.flatMap_append]
    exact (h.slots k).append (h'.slots k)
  cost k := by rw [List.length_append, h.cost, h'.cost, slotTotal_append]
  written k := by rw [SlotWrite.slotsOf_append, h.written, h'.written]
  stored below a holds t ht := by
    rcases List.mem_append.mp ht with ht | ht
    · exact h.stored (fun k i hi => below k i (List.mem_append_left _ hi)) a
        (fun w hw => holds w (List.mem_append_left _ hw)) t ht
    · exact h'.stored (fun k i hi => below k i (List.mem_append_right _ hi)) a
        (fun w hw => holds w (List.mem_append_right _ hw)) t ht

/-- A vertex without neighbours takes no slot. -/
theorem Rebuilt.empty {v : Nat} (none_ : content v = []) :
    Rebuilt content [v] [none] [] fun _ => [] where
  elems := by
    rw [List.map_singleton, List.map_singleton, none_]
    rfl
  shape t ht := by simp at ht
  slots k := .refl _
  cost k := by
    rw [slotTotal, List.map_singleton, List.sum_singleton, none_]
    cases k <;> rfl
  written k := rfl
  stored _ a _ t ht := by simp at ht

theorem Rebuilt.tree {r r' : RegionWriter} {v root : Nat} {t : Tree}
    (h : RegionWriter.BuiltTree r r' (content v) root t F) {more : List SlotWrite}
    (eq : r'.written = r.written ++ more) : Rebuilt content [v] [some t] more F where
  elems := by
    rw [List.map_singleton, List.map_singleton, ← h.elems_eq]
    rfl
  shape u hu := by
    obtain rfl : u = t := by simpa using hu
    exact ⟨h.wellFormed, h.balanced⟩
  slots k := by
    rw [List.flatMap_singleton]
    exact h.slots_perm k
  cost k := by
    rw [slotTotal, List.map_singleton, List.sum_singleton]
    cases k with
    | chunk => exact congrArg Prod.fst h.cost
    | interior => exact congrArg Prod.snd h.cost
  written := (h.wrote.view_eq eq).2
  stored below a holds u hu := by
    obtain rfl : u = t := by simpa using hu
    exact h.stored_in below eq holds

/-- The arrays of a graph whose rows are lists of distinct small keys, ascending. -/
structure CsrOk (offsets edges : List Nat) (content : Nat → List Nat) (n : Nat) : Prop where
  rows : Rows offsets content n
  edges_eq : edges = (List.range n).flatMap content
  sorted : ∀ v < n, (content v).Pairwise (· < ·)
  size : ∀ v < n, (content v).length < 2 ^ 32

variable {offsets edges : List Nat} {n : Nat}

/-- A thread's loop over its vertices. -/
theorem buildVertices_rebuilt (csr : CsrOk offsets edges content n)
    (inside : ∀ v ∈ vs, v < n) (r : RegionWriter) :
    ∃ r' trees more F, buildVertices offsets edges vs r = some (trees.map Adj.root, r') ∧
      RegionWriter.Wrote r r' F ∧ r'.written = r.written ++ more ∧
      Rebuilt content vs trees more F := by
  induction vs generalizing r with
  | nil =>
      exact ⟨r, [], [], fun _ => [], rfl, .refl r, (List.append_nil _).symm, .nil content⟩
  | cons v vs ih =>
      have hv := inside v List.mem_cons_self
      have rest := fun r => ih (fun u hu => inside u (List.mem_cons_of_mem v hu)) r
      have next := csr.rows.next v hv
      have row := csr.rows.slice_eq hv
      rw [buildVertices]
      split
      · rename_i empty
        have none_ : content v = [] := List.eq_nil_of_length_eq_zero (by omega)
        obtain ⟨r', trees, more, F, done, wrote, eq, rebuilt⟩ := rest r
        rw [done]
        exact ⟨r', none :: trees, more, F, rfl, wrote, eq, (Rebuilt.empty none_).append rebuilt⟩
      · rename_i filled
        have ne : content v ≠ [] := fun none_ => filled (by rw [next, none_]; rfl)
        obtain ⟨root, r₁, t, F, built, tree⟩ := r.buildBalancedRegion_built ne (csr.sorted v hv)
          (csr.size v hv)
        rw [csr.edges_eq, row, built]
        dsimp only
        rw [← csr.edges_eq]
        obtain ⟨r', trees, more, G, done, wrote, eq, rebuilt⟩ := rest r₁
        obtain ⟨own, ownEq, -⟩ := tree.wrote.writes
        rw [done]
        refine ⟨r', some t :: trees, own ++ more, _, ?_, tree.wrote.trans wrote, ?_,
          (Rebuilt.tree tree ownEq).append rebuilt⟩
        · rw [Option.map_some, tree.root_eq]
          rfl
        · rw [eq, ownEq, List.append_assoc]

theorem rangeCost_eq (csr : CsrOk offsets edges content n) (lo : Nat) {hi : Nat} (inside : hi ≤ n) :
    rangeCost offsets lo hi = (slotTotal content (List.range' lo (hi - lo)) .chunk,
      slotTotal content (List.range' lo (hi - lo)) .interior) := by
  suffices sums : ∀ (vs : List Nat) (cost : Nat × Nat), (∀ v ∈ vs, v < n) →
      vs.foldl (fun (cost : Nat × Nat) v =>
        let deg := compactSlotCost (offsets.getD (v + 1) 0 - offsets.getD v 0)
        (cost.1 + deg.1, cost.2 + deg.2)) cost =
      (cost.1 + slotTotal content vs .chunk, cost.2 + slotTotal content vs .interior) by
    have whole := sums (List.range' lo (hi - lo)) (0, 0) fun v hv => by
      have := List.mem_range'_1.mp hv
      omega
    rw [rangeCost, whole, Nat.zero_add, Nat.zero_add]
  intro vs
  induction vs with
  | nil => exact fun cost _ => rfl
  | cons v vs ih =>
      intro cost small
      have deg : offsets.getD (v + 1) 0 - offsets.getD v 0 = (content v).length := by
        rw [csr.rows.next v (small v List.mem_cons_self), Nat.add_sub_cancel_left]
      rw [List.foldl_cons, ih _ fun u hu => small u (List.mem_cons_of_mem v hu), deg]
      exact congrArg₂ Prod.mk (Nat.add_assoc ..) (Nat.add_assoc ..)

/-- Where the reservations of the first range start. -/
def bases (chunkBase interiorBase : Nat) : SlotClass → Nat
  | .chunk => chunkBase
  | .interior => interiorBase

/-- What the threads of some ranges built together. -/
structure BuiltRanges (content : Nat → List Nat) (ranges : List CompactRange)
    (base : SlotClass → Nat) (built : List (List Nat × RegionWriter)) (trees : List Adj)
    (F : SlotClass → List Nat) : Prop where
  roots : built.flatMap Prod.fst = trees.map Adj.root
  rebuilt : Rebuilt content (ranges.flatMap CompactRange.vertices) trees
    (built.flatMap fun out => out.2.written) F
  run : ∀ k, F k = List.range' (base k) (F k).length
  chunks : (ranges.map fun range => range.cost.1).sum = (F .chunk).length
  interiors : (ranges.map fun range => range.cost.2).sum = (F .interior).length

theorem CompactRange.build_built (csr : CsrOk offsets edges content n) (lo : Nat) {hi : Nat}
    (inside : hi ≤ n) (chunkBase interiorBase : Nat) :
    let range : CompactRange :=
      ⟨List.range' lo (hi - lo), chunkBase, interiorBase, rangeCost offsets lo hi⟩
    ∃ out trees F, range.build offsets edges = some out ∧
      BuiltRanges content [range] (bases chunkBase interiorBase) [out] trees F := by
  have small : ∀ v ∈ List.range' lo (hi - lo), v < n := fun v hv => by
    have := List.mem_range'_1.mp hv
    omega
  have cost := rangeCost_eq csr lo inside
  obtain ⟨r', trees, more, F, done, wrote, eq, rebuilt⟩ := buildVertices_rebuilt csr small
    (Arena.region chunkBase (rangeCost offsets lo hi).1 interiorBase (rangeCost offsets lo hi).2)
  have own : r'.written = more := eq
  refine ⟨_, trees, F, done, ?_, ?_, fun k => ?_, ?_, ?_⟩
  · exact List.flatMap_singleton ..
  · rw [List.flatMap_singleton, List.flatMap_singleton, own]
    exact rebuilt
  · have run := wrote.run k
    cases k <;> exact run
  · rw [List.map_singleton, List.sum_singleton, rebuilt.cost, cost]
  · rw [List.map_singleton, List.sum_singleton, rebuilt.cost, cost]

theorem compactRanges_built (csr : CsrOk offsets edges content n) {bounds : List Nat}
    (inside : ∀ b ∈ bounds, b ≤ n) (chunkBase interiorBase : Nat) :
    ∃ built trees F, (compactRanges offsets chunkBase interiorBase bounds).mapM
        (CompactRange.build offsets edges) = some built ∧
      BuiltRanges content (compactRanges offsets chunkBase interiorBase bounds)
        (bases chunkBase interiorBase) built trees F := by
  have empty : BuiltRanges content [] (bases chunkBase interiorBase) [] [] fun _ => [] :=
    ⟨rfl, .nil content, fun _ => rfl, rfl, rfl⟩
  induction bounds generalizing chunkBase interiorBase with
  | nil => exact ⟨[], [], fun _ => [], rfl, empty⟩
  | cons lo bounds ih =>
      cases bounds with
      | nil => exact ⟨[], [], fun _ => [], rfl, empty⟩
      | cons hi bounds =>
          have inside' := fun b hb => inside b (List.mem_cons_of_mem lo hb)
          obtain ⟨out, trees, F, first, own⟩ := CompactRange.build_built csr lo
            (inside' hi List.mem_cons_self) chunkBase interiorBase
          obtain ⟨built, trees', G, rest, later⟩ := ih inside'
            (chunkBase + (rangeCost offsets lo hi).1) (interiorBase + (rangeCost offsets lo hi).2)
            ⟨rfl, .nil content, fun _ => rfl, rfl, rfl⟩
          have costs := rangeCost_eq csr lo (inside' hi List.mem_cons_self)
          have lengths : ∀ k, bases (chunkBase + (rangeCost offsets lo hi).1)
              (interiorBase + (rangeCost offsets lo hi).2) k =
                bases chunkBase interiorBase k + (F k).length := fun k => by
            have cost := own.rebuilt.cost k
            rw [List.flatMap_singleton] at cost
            rw [cost, costs]
            cases k <;> rfl
          refine ⟨out :: built, trees ++ trees', fun k => F k ++ G k, ?_, ?_, ?_, fun k => ?_, ?_,
            ?_⟩
          · rw [compactRanges, List.mapM_cons, first, rest]
            rfl
          · have here := own.roots
            rw [List.flatMap_singleton] at here
            rw [List.flatMap_cons, List.map_append, here, later.roots]
          · have here := own.rebuilt
            rw [List.flatMap_singleton, List.flatMap_singleton] at here
            exact here.append later.rebuilt
          · have second := later.run k
            rw [lengths] at second
            rw [List.length_append, ← List.range'_append_1, ← own.run, ← second]
          · rw [compactRanges, List.map_cons, List.sum_cons, later.chunks, List.length_append,
              ← own.chunks, List.map_singleton, List.sum_singleton]
          · rw [compactRanges, List.map_cons, List.sum_cons, later.interiors, List.length_append,
              ← own.interiors, List.map_singleton, List.sum_singleton]

/-- The ranges between ascending bounds hold the vertices between the first and the last. -/
theorem compactRanges_vertices {lo : Nat} {bounds : List Nat}
    (sorted : (lo :: bounds).Pairwise (· ≤ ·)) (chunkBase interiorBase : Nat) :
    (compactRanges offsets chunkBase interiorBase (lo :: bounds)).flatMap CompactRange.vertices =
      List.range' lo ((lo :: bounds).getLast (List.cons_ne_nil _ _) - lo) := by
  induction bounds generalizing lo chunkBase interiorBase with
  | nil => rw [List.getLast_singleton, Nat.sub_self]; rfl
  | cons hi bounds ih =>
      obtain ⟨first, rest⟩ := List.pairwise_cons.mp sorted
      have step := first hi List.mem_cons_self
      have far : hi ≤ (hi :: bounds).getLast (List.cons_ne_nil _ _) := by
        rcases List.mem_cons.mp (List.getLast_mem (List.cons_ne_nil hi bounds)) with same | later
        · exact same.ge
        · exact (List.pairwise_cons.mp rest).1 _ later
      rw [compactRanges, List.flatMap_cons, ih rest, List.getLast_cons (List.cons_ne_nil _ _)]
      generalize (hi :: bounds).getLast (List.cons_ne_nil _ _) = last at far ⊢
      have joined := List.range'_append_1 (s := lo) (m := hi - lo) (n := last - hi)
      rw [Nat.add_sub_cancel' step] at joined
      rw [joined]
      congr 1
      omega

/-- The plan's ranges hold every vertex once, in order. -/
theorem rangeBounds_vertices (edges nv threads chunkBase interiorBase : Nat) :
    (compactRanges offsets chunkBase interiorBase (rangeBounds offsets edges nv threads)).flatMap
      CompactRange.vertices = List.range nv := by
  obtain ⟨ok, last⟩ := rangeBounds_sorted offsets edges nv threads
  obtain ⟨bounds, split⟩ : ∃ bounds, rangeBounds offsets edges nv threads = 0 :: bounds := by
    cases split : rangeBounds offsets edges nv threads with
    | nil => rw [split] at ok; exact absurd ok.head nofun
    | cons b bounds =>
        rw [split] at ok
        obtain rfl := Option.some.inj ok.head
        exact ⟨bounds, rfl⟩
  rw [split] at ok last ⊢
  rw [compactRanges_vertices ok.sorted, List.range_eq_range']
  rw [List.getLast?_eq_some_getLast (List.cons_ne_nil _ _)] at last
  rw [Option.some.inj last, Nat.sub_zero]

/-- What the threads of a whole plan build. -/
theorem rangeBounds_built (csr : CsrOk offsets edges content n) (available : Nat) :
    let ranges := compactRanges offsets 0 0
      (rangeBounds offsets edges.length n (compactThreads edges.length available))
    ∃ built trees F, ranges.mapM (CompactRange.build offsets edges) = some built ∧
      BuiltRanges content ranges (bases 0 0) built trees F ∧
      Rebuilt content (List.range n) trees (built.flatMap fun out => out.2.written) F := by
  obtain ⟨built, trees, F, ran, done⟩ := compactRanges_built csr
    (rangeBounds_sorted offsets edges.length n (compactThreads edges.length available)).1.le 0 0
  refine ⟨built, trees, F, ran, done, ?_⟩
  have rebuilt := done.rebuilt
  rwa [rangeBounds_vertices] at rebuilt

end Build

end AetherGraph
