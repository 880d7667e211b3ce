import AetherGraph.EdgeScan

/-! The two fills of an edge list's graph write the same arrays, each source's row in input
order, and the build succeeds exactly on input in range. -/

namespace AetherGraph

open Foundation

namespace EdgeInput

variable {input : EdgeInput}

section Fill

/-- The edges keyed by source, each with a value of its own. -/
def keyed {α : Type} (input : EdgeInput) (value : Nat → α) : List (Nat × α) :=
  (List.range input.numEdges).map fun i => (input.srcAt i, value i)

/-- No endpoint is out of range. -/
def Clean (input : EdgeInput) : Prop := ∀ i < input.numEdges, ¬ input.Bad i

theorem keyed_length {α : Type} (value : Nat → α) : (input.keyed value).length = input.numEdges := by
  rw [keyed, List.length_map, List.length_range]

theorem keyed_fst {α : Type} (value : Nat → α) :
    (input.keyed value).map Prod.fst = (List.range input.numEdges).map input.srcAt := by
  rw [keyed, List.map_map]
  rfl

theorem keyed_snd {α : Type} (value : Nat → α) :
    (input.keyed value).map Prod.snd = (List.range input.numEdges).map value := by
  rw [keyed, List.map_map]
  rfl

theorem Clean.keys (h : input.Clean) {α : Type} (value : Nat → α) :
    ∀ p ∈ input.keyed value, p.1 < input.numNodes := by
  intro p hp
  obtain ⟨i, hi, rfl⟩ := List.mem_map.mp hp
  have good := h i (List.mem_range.mp hi)
  unfold Bad at good
  omega

/-- Where a source's row starts. -/
def rowStart (input : EdgeInput) (s : Nat) : Nat := CountingSort.start (input.keyed input.dstAt) s

theorem start_keyed {α : Type} (value : Nat → α) (s : Nat) :
    CountingSort.start (input.keyed value) s = input.rowStart s := by
  have counted : ∀ {β : Type} (value : Nat → β), CountingSort.start (input.keyed value) s =
      ((List.range input.numEdges).map input.srcAt).countP fun key => key < s := by
    intro β value
    rw [← keyed_fst value, List.countP_map]
    rfl
  rw [rowStart, counted, counted]

theorem run_keyed {α : Type} (value : Nat → α) (s : Nat) :
    CountingSort.run (input.keyed value) s =
      ((List.range input.numEdges).filter fun i => input.srcAt i = s).map value := by
  rw [CountingSort.run, keyed, List.filter_map, List.map_map]
  rfl

/-- The row ends before the fill. -/
theorem Clean.rowEnds_eq (h : input.Clean) {landed : List Nat}
    (lands : landed.Perm ((List.range input.numEdges).map input.srcAt)) {α : Type}
    (value : Nat → α) :
    input.rowEnds landed =
      CountingSort.sums input.numNodes (CountingSort.counts input.numNodes (input.keyed value)) := by
  rw [rowEnds, CountingSort.counts_of_keys (by rw [keyed_fst]; exact lands) (h.keys value)]

theorem Clean.rowEnds_spec (h : input.Clean) {landed : List Nat}
    (lands : landed.Perm ((List.range input.numEdges).map input.srcAt)) :
    (input.rowEnds landed).length = input.numNodes + 1 ∧
      ∀ s ≤ input.numNodes, (input.rowEnds landed).getD s 0 = input.rowStart s := by
  rw [h.rowEnds_eq lands input.dstAt]
  obtain ⟨length, first, each⟩ := CountingSort.counts_spec input.numNodes (input.keyed input.dstAt)
  exact CountingSort.sums_spec length (first.trans (CountingSort.start_zero _).symm) fun i hi => by
    rw [each i hi]
    exact CountingSort.start_succ _ i

/-- The claims of the edges from `k` on, the last edge first. -/
def claimed {α : Type} (input : EdgeInput) (value : Nat → α) (k m : Nat) (ends : List Nat)
    (out : List α) : List Nat × List α :=
  ((List.range' k m).map fun i => (input.srcAt i, value i)).reverse.foldl CountingSort.claim
    (ends, out)

theorem claimed_succ {α : Type} (value : Nat → α) (k m : Nat) (ends : List Nat) (out : List α) :
    input.claimed value k (m + 1) ends out =
      CountingSort.claim (input.claimed value (k + 1) m ends out) (input.srcAt k, value k) := by
  rw [claimed, List.range'_succ, List.map_cons, List.reverse_cons, List.foldl_append,
    List.foldl_cons, List.foldl_nil]
  rfl

theorem claimed_fst {α β : Type} (value : Nat → α) (value' : Nat → β) (k m : Nat)
    (ends : List Nat) (out : List α) (out' : List β) :
    (input.claimed value k m ends out).1 = (input.claimed value' k m ends out').1 := by
  refine CountingSort.claim_fst ?_ ends out out'
  rw [List.map_reverse, List.map_reverse, List.map_map, List.map_map]
  rfl

/-- Before an edge's claim its row's end is above a slot of the values. -/
theorem Clean.claimed_inside (h : input.Clean) {landed : List Nat}
    (lands : landed.Perm ((List.range input.numEdges).map input.srcAt)) {α : Type}
    (value : Nat → α) {out : List α} (room : out.length = input.numEdges) {k m : Nat}
    (total : k + (m + 1) = input.numEdges) :
    let acc := input.claimed value (k + 1) m (input.rowEnds landed) out
    acc.1.length = input.numNodes + 1 ∧ acc.2.length = input.numEdges ∧
      0 < acc.1.getD (input.srcAt k + 1) 0 ∧ acc.1.getD (input.srcAt k + 1) 0 ≤ input.numEdges := by
  obtain ⟨length, ends⟩ := h.rowEnds_spec lands
  have split : input.keyed value = ((List.range' 0 k).map fun i => (input.srcAt i, value i)) ++
      (input.srcAt k, value k) ::
        ((List.range' (k + 1) m).map fun i => (input.srcAt i, value i)) := by
    have whole := List.range'_append_1 (s := 0) (m := k) (n := m + 1)
    rw [Nat.zero_add, List.range'_succ, total] at whole
    rw [keyed, List.range_eq_range', ← whole, List.map_append, List.map_cons]
  have inside := CountingSort.claim_inside (h.keys value) length
    (fun s hs => by rw [ends (s + 1) hs, start_keyed])
    (show out.length = (input.keyed value).length by rw [keyed_length, room]) split
  rwa [keyed_length] at inside

/-- The weights follow the claims of the edges. -/
theorem Clean.storeWeight_claimed (h : input.Clean)
    (lengths : ∀ w ∈ input.weights, w.length = input.numEdges) {landed : List Nat}
    (lands : landed.Perm ((List.range input.numEdges).map input.srcAt)) {k m : Nat}
    (total : k + (m + 1) = input.numEdges) :
    input.storeWeight (input.weights.map fun w => (input.claimed (fun i => w.getD i 0) (k + 1) m
        (input.rowEnds landed) (List.replicate input.numEdges 0)).2)
      ((input.claimed input.dstAt (k + 1) m (input.rowEnds landed)
        (List.replicate input.numEdges 0)).1.getD (input.srcAt k + 1) 0 - 1) k =
      some (input.weights.map fun w => (input.claimed (fun i => w.getD i 0) k (m + 1)
        (input.rowEnds landed) (List.replicate input.numEdges 0)).2) := by
  unfold storeWeight
  cases given : input.weights with
  | none => rfl
  | some w =>
      have length := lengths w given
      obtain ⟨-, size, positive, below⟩ := h.claimed_inside lands (fun i => w.getD i 0)
        (List.length_replicate (n := input.numEdges) (a := (0 : Float32))) total
      have value : w[k]? = some (w.getD k 0) := by
        rw [List.getD_eq_getElem?_getD, List.getElem?_eq_getElem (by omega)]
        rfl
      have cursor := @claimed_fst input _ _ input.dstAt (fun i => w.getD i 0) (k + 1) m
        (input.rowEnds landed) (List.replicate input.numEdges 0) (List.replicate input.numEdges 0)
      simp only [Option.map_some, value, Option.bind_eq_bind, Option.bind_some]
      rw [cursor, storeAt, if_pos (by omega), claimed_succ]
      rfl

/-- The checked scatter makes the claims of both arrays, whose cursors move alike. -/
theorem Clean.scatter_claims (h : input.Clean)
    (lengths : ∀ w ∈ input.weights, w.length = input.numEdges) {landed : List Nat}
    (lands : landed.Perm ((List.range input.numEdges).map input.srcAt)) (m k : Nat)
    (total : k + m = input.numEdges) :
    (List.range' k m).reverse.foldlM input.scatterStep
        ⟨input.rowEnds landed, List.replicate input.numEdges 0,
          input.weights.map fun _ => List.replicate input.numEdges 0⟩ =
      some ⟨(input.claimed input.dstAt k m (input.rowEnds landed)
          (List.replicate input.numEdges 0)).1,
        (input.claimed input.dstAt k m (input.rowEnds landed)
          (List.replicate input.numEdges 0)).2,
        input.weights.map fun w => (input.claimed (fun i => w.getD i 0) k m (input.rowEnds landed)
          (List.replicate input.numEdges 0)).2⟩ := by
  induction m generalizing k with
  | zero => rfl
  | succ m ih =>
      obtain ⟨len, size, positive, below⟩ := h.claimed_inside lands input.dstAt
        (List.length_replicate (n := input.numEdges) (a := 0)) total
      have good := h k (by omega)
      unfold Bad at good
      have row : input.srcAt k + 1 < (input.claimed input.dstAt (k + 1) m (input.rowEnds landed)
          (List.replicate input.numEdges 0)).1.length := by omega
      rw [List.range'_succ, List.reverse_cons, List.foldlM_append, ih (k + 1) (by omega)]
      show (input.scatterStep _ k >>= _) = _
      have stop : (input.claimed input.dstAt (k + 1) m (input.rowEnds landed)
          (List.replicate input.numEdges 0)).1[input.srcAt k + 1]? =
          some ((input.claimed input.dstAt (k + 1) m (input.rowEnds landed)
            (List.replicate input.numEdges 0)).1.getD (input.srcAt k + 1) 0) := by
        rw [List.getElem?_eq_getElem row, List.getD_eq_getElem _ _ row]
      have edges : storeAt (input.claimed input.dstAt (k + 1) m (input.rowEnds landed)
          (List.replicate input.numEdges 0)).2 ((input.claimed input.dstAt (k + 1) m
            (input.rowEnds landed) (List.replicate input.numEdges 0)).1.getD
              (input.srcAt k + 1) 0 - 1) (input.dstAt k) =
          some (input.claimed input.dstAt k (m + 1) (input.rowEnds landed)
            (List.replicate input.numEdges 0)).2 := by
        rw [claimed_succ]
        exact if_pos (by omega)
      rw [scatterStep, stop]
      simp only [Option.bind_eq_bind, Option.bind_some]
      rw [if_neg (Nat.ne_of_gt positive), edges, Option.bind_some,
        h.storeWeight_claimed lengths lands total, Option.bind_some, claimed_succ]
      rfl

/-- The array holds each source's values, in input order, at its row. -/
structure RowsOf {α : Type} (input : EdgeInput) (value : Nat → α) (out : List α) : Prop where
  length : out.length = input.numEdges
  rows : ∀ s < input.numNodes,
    (out.drop (input.rowStart s)).take (input.rowStart (s + 1) - input.rowStart s) =
      ((List.range input.numEdges).filter fun i => input.srcAt i = s).map value

/-- Rows leave no choice of the array. -/
theorem Clean.rows_unique (h : input.Clean) {α : Type} {value : Nat → α} {xs ys : List α}
    (hx : RowsOf input value xs) (hy : RowsOf input value ys) : xs = ys := by
  refine CountingSort.rows_ext (h.keys value) (by rw [keyed_length, hx.length])
    (by rw [keyed_length, hy.length]) fun s hs => ?_
  rw [start_keyed, start_keyed, hx.rows s hs, hy.rows s hs]

theorem Clean.rowStart_numNodes (h : input.Clean) : input.rowStart input.numNodes =
    input.numEdges := by
  rw [rowStart, CountingSort.start_all (h.keys input.dstAt), keyed_length]

/-- All edges claimed: the cursors are the row starts, one place to the right. -/
theorem Clean.claimed_rows (h : input.Clean) {landed : List Nat}
    (lands : landed.Perm ((List.range input.numEdges).map input.srcAt)) {α : Type}
    (value : Nat → α) {out : List α} (room : out.length = input.numEdges) :
    (input.claimed value 0 input.numEdges (input.rowEnds landed) out).1.length =
        input.numNodes + 1 ∧
      (∀ s < input.numNodes, (input.claimed value 0 input.numEdges (input.rowEnds landed)
        out).1.getD (s + 1) 0 = input.rowStart s) ∧
      RowsOf input value (input.claimed value 0 input.numEdges (input.rowEnds landed) out).2 := by
  have whole : input.claimed value 0 input.numEdges (input.rowEnds landed) out =
      (input.keyed value).reverse.foldl CountingSort.claim (CountingSort.sums input.numNodes
        (CountingSort.counts input.numNodes (input.keyed value)), out) := by
    rw [claimed, ← List.range_eq_range', h.rowEnds_eq lands value]
    rfl
  obtain ⟨length, size, cursors, rows⟩ := CountingSort.claimed_spec (h.keys value)
    (show out.length = (input.keyed value).length by rw [keyed_length, room])
  rw [keyed_length] at size
  rw [whole]
  refine ⟨length, fun s hs => (cursors s hs).trans (start_keyed value s), size, fun s hs => ?_⟩
  rw [← start_keyed value, ← start_keyed value, rows s hs, run_keyed]

/-- The scatter puts the offsets back where they were. -/
theorem Clean.offsets_back (h : input.Clean) {landed : List Nat}
    (lands : landed.Perm ((List.range input.numEdges).map input.srcAt)) {cursors : List Nat}
    (length : cursors.length = input.numNodes + 1)
    (starts : ∀ s < input.numNodes, cursors.getD (s + 1) 0 = input.rowStart s) :
    (cursors.drop 1 ++ cursors.drop input.numNodes).set input.numNodes input.numEdges =
      input.rowEnds landed := by
  obtain ⟨len, ends⟩ := h.rowEnds_spec lands
  refine List.ext_getElem? fun s => ?_
  have front : (cursors.drop 1).length = input.numNodes := by
    rw [List.length_drop, length, Nat.add_sub_cancel]
  have back : (cursors.drop input.numNodes).length = 1 := by
    rw [List.length_drop, length, Nat.add_sub_cancel_left]
  rcases Nat.lt_trichotomy s input.numNodes with inside | rfl | outside
  · rw [List.getElem?_set_ne (Nat.ne_of_gt inside), List.getElem?_append_left (by omega),
      List.getElem?_drop, List.getElem?_eq_getElem (show 1 + s < cursors.length by omega),
      List.getElem?_eq_getElem (show s < (input.rowEnds landed).length by omega),
      ← List.getD_eq_getElem _ 0, ← List.getD_eq_getElem _ 0, Nat.add_comm 1 s, starts s inside,
      ends s (Nat.le_of_lt inside)]
  · rw [List.getElem?_set_self (by rw [List.length_append]; omega),
      List.getElem?_eq_getElem (show input.numNodes < (input.rowEnds landed).length by omega),
      ← List.getD_eq_getElem _ 0, ends _ (Nat.le_refl _), h.rowStart_numNodes]
  · rw [List.getElem?_eq_none (by rw [List.length_set, List.length_append]; omega),
      List.getElem?_eq_none (by omega)]

/-- What either fill leaves behind. -/
structure Filled (input : EdgeInput) (landed : List Nat) (arrays : CsrArrays) : Prop where
  offsets : arrays.offsets = input.rowEnds landed
  edges : RowsOf input input.dstAt arrays.edges
  unweighted : input.weights = none → arrays.weights = none
  weighted : ∀ w ∈ input.weights, ∃ out, arrays.weights = some out ∧
    RowsOf input (fun i => w.getD i 0) out

theorem Clean.scatter_filled (h : input.Clean)
    (lengths : ∀ w ∈ input.weights, w.length = input.numEdges) {landed : List Nat}
    (lands : landed.Perm ((List.range input.numEdges).map input.srcAt)) :
    ∃ arrays, input.fill false (input.rowEnds landed) = some arrays ∧
      Filled input landed arrays := by
  have claims := h.scatter_claims lengths lands input.numEdges 0 (Nat.zero_add _)
  rw [← List.range_eq_range'] at claims
  obtain ⟨length, starts, rows⟩ := h.claimed_rows lands input.dstAt
    (List.length_replicate (n := input.numEdges) (a := 0))
  have ran : input.fill false (input.rowEnds landed) = some
      ⟨((input.claimed input.dstAt 0 input.numEdges (input.rowEnds landed)
            (List.replicate input.numEdges 0)).1.drop 1 ++
          (input.claimed input.dstAt 0 input.numEdges (input.rowEnds landed)
            (List.replicate input.numEdges 0)).1.drop input.numNodes).set input.numNodes
              input.numEdges,
        (input.claimed input.dstAt 0 input.numEdges (input.rowEnds landed)
          (List.replicate input.numEdges 0)).2,
        input.weights.map fun w => (input.claimed (fun i => w.getD i 0) 0 input.numEdges
          (input.rowEnds landed) (List.replicate input.numEdges 0)).2⟩ := by
    rw [fill, if_neg Bool.false_ne_true, scatter, claims]
    rfl
  refine ⟨_, ran, h.offsets_back lands length starts, rows, fun none => ?_, fun w hw => ?_⟩
  · dsimp only
    rw [none]
    rfl
  · refine ⟨_, congrArg (Option.map _) hw, ?_⟩
    exact (h.claimed_rows lands (fun i => w.getD i 0) List.length_replicate).2.2

/-- Input in order is already filled. -/
theorem grouped_filled (lengths : ∀ w ∈ input.weights, w.length = input.numEdges)
    (order : input.InOrder 0 input.numEdges) (landed : List Nat) :
    ∃ arrays, input.fill true (input.rowEnds landed) = some arrays ∧
      Filled input landed arrays := by
  have monotone : ∀ i j, i ≤ j → j < input.numEdges → input.srcAt i ≤ input.srcAt j := by
    intro i j hij
    induction j with
    | zero => exact fun _ => Nat.le_zero.mp hij ▸ Nat.le_refl _
    | succ j ih =>
        intro inside
        rcases Nat.lt_or_eq_of_le hij with below | rfl
        · exact Nat.le_trans (ih (Nat.le_of_lt_succ below) (by omega))
            (order (j + 1) (Nat.zero_le _) inside)
        · exact Nat.le_refl _
  have copied : ∀ {α : Type} (value : Nat → α),
      RowsOf input value ((List.range input.numEdges).map value) := by
    intro α value
    have sorted : (input.keyed value).Pairwise (·.1 ≤ ·.1) := by
      refine List.pairwise_map.mpr (List.pairwise_lt_range.imp_of_mem fun {i j} _ hj less => ?_)
      exact monotone i j (Nat.le_of_lt less) (List.mem_range.mp hj)
    refine ⟨by rw [List.length_map, List.length_range], fun s _ => ?_⟩
    rw [← keyed_snd, ← start_keyed value, ← start_keyed value,
      CountingSort.run_of_sorted sorted, run_keyed]
  refine ⟨_, if_pos rfl, rfl, copied input.dstAt, fun none => none, fun w hw => ⟨w, hw, ?_⟩⟩
  have whole : (List.range input.numEdges).map (fun i => w.getD i 0) = w := by
    refine List.ext_getElem? fun i => ?_
    rw [List.getElem?_map]
    rcases Nat.lt_or_ge i input.numEdges with inside | outside
    · rw [List.getElem?_range inside, List.getElem?_eq_getElem (lengths w hw ▸ inside)]
      exact congrArg some (List.getD_eq_getElem _ _ (lengths w hw ▸ inside))
    · rw [List.getElem?_eq_none (by rwa [List.length_range]),
        List.getElem?_eq_none (by rwa [lengths w hw])]
      rfl
  have rows := copied fun i => w.getD i 0
  rwa [whole] at rows

/-- There is one way to be filled. -/
theorem Clean.filled_unique (h : input.Clean) {landed : List Nat} {a b : CsrArrays}
    (ha : Filled input landed a) (hb : Filled input landed b) : a = b := by
  obtain ⟨offsets, edges, weights⟩ := a
  obtain ⟨offsets', edges', weights'⟩ := b
  obtain rfl : offsets = offsets' := ha.offsets.trans hb.offsets.symm
  obtain rfl : edges = edges' := h.rows_unique ha.edges hb.edges
  have same : weights = weights' := by
    cases given : input.weights with
    | none => exact (ha.unweighted given).trans (hb.unweighted given).symm
    | some w =>
        obtain ⟨out, here, rows⟩ := ha.weighted w given
        obtain ⟨out', there, rows'⟩ := hb.weighted w given
        rw [show weights = some out from here, show weights' = some out' from there,
          h.rows_unique rows rows']
  rw [same]

end Fill

section Build

/-- A build that cannot succeed. -/
def Rejected (input : EdgeInput) : Prop :=
  maxNodes < input.numNodes ∨ maxNodes < input.numDstNodes ∨
    (∃ w ∈ input.weights, w.length ≠ input.numEdges) ∨ ∃ i < input.numEdges, input.Bad i

/-- The sizes and the weights fit. -/
structure Sized (input : EdgeInput) : Prop where
  numNodes_le : input.numNodes ≤ maxNodes
  numDstNodes_le : input.numDstNodes ≤ maxNodes
  weights_length : ∀ w ∈ input.weights, w.length = input.numEdges

theorem checkWeights_ok (lengths : ∀ w ∈ input.weights, w.length = input.numEdges) :
    input.checkWeights = .ok () := by
  unfold checkWeights
  cases given : input.weights with
  | none => rfl
  | some w => exact ByteReader.ensure_ok (lengths w given) _

/-- Past the size checks the scan decides. -/
theorem Sized.buildCsr_eq (sized : input.Sized) (split : List (Nat × Nat)) (landed : List Nat) :
    input.buildCsr split landed =
      match input.scanAll split with
      | (some i, _) => .error (.error [input.complaint i])
      | (none, grouped) =>
          match input.fill grouped (input.rowEnds landed) with
          | some arrays => .ok arrays
          | none => .error .panic := by
  rw [buildCsr, ByteReader.ensure_ok sized.numNodes_le, ByteReader.ensure_ok sized.numDstNodes_le,
    checkWeights_ok sized.weights_length]
  rfl

theorem not_sized_error (unsized : ¬ input.Sized) (split : List (Nat × Nat)) (landed : List Nat) :
    ∃ chain, input.buildCsr split landed = .error (.error chain) := by
  unfold buildCsr
  by_cases nodes : input.numNodes ≤ maxNodes
  · rw [ByteReader.ensure_ok nodes]
    by_cases dsts : input.numDstNodes ≤ maxNodes
    · rw [ByteReader.ensure_ok dsts]
      have wrong : ¬ ∀ w ∈ input.weights, w.length = input.numEdges :=
        fun lengths => unsized ⟨nodes, dsts, lengths⟩
      unfold checkWeights
      cases given : input.weights with
      | none => exact absurd (fun w hw => by rw [given] at hw; cases hw) wrong
      | some w =>
          have length : w.length ≠ input.numEdges := fun same => wrong fun w' hw => by
            rw [given] at hw
            exact Option.some.inj hw ▸ same
          dsimp only
          rw [ensure, if_neg length]
          exact ⟨_, rfl⟩
    · rw [ensure, if_neg dsts]
      exact ⟨_, rfl⟩
  · rw [ensure, if_neg nodes]
    exact ⟨_, rfl⟩

/-- The first bad edge of the input is the one reported. -/
theorem Sized.buildCsr_bad (sized : input.Sized) {split : List (Nat × Nat)}
    (splits : Splits 0 split input.numEdges) (landed : List Nat) {i : Nat}
    (inside : i < input.numEdges) (bad : input.Bad i) (first : ∀ j < i, ¬ input.Bad j) :
    input.buildCsr split landed = .error (.error [input.complaint i]) := by
  have scanned : Scanned input 0 input.numEdges (input.scanAll split) := scanAll_scanned splits
  rw [sized.buildCsr_eq]
  generalize input.scanAll split = result at scanned
  obtain ⟨found, grouped⟩ := result
  cases found with
  | none => exact absurd bad ((scanned.clean rfl).1 i (Nat.zero_le i) inside)
  | some k =>
      obtain ⟨-, -, isBad, before⟩ := scanned.first k rfl
      rcases Nat.lt_trichotomy k i with less | rfl | more
      · exact absurd isBad (first k less)
      · rfl
      · exact absurd bad (before i (Nat.zero_le i) more)

/-- Clean input is filled, whichever path the scan chooses. -/
theorem Sized.buildCsr_clean (sized : input.Sized) (clean : input.Clean)
    {split : List (Nat × Nat)} (splits : Splits 0 split input.numEdges) {landed : List Nat}
    (lands : landed.Perm ((List.range input.numEdges).map input.srcAt)) :
    ∃ arrays, input.buildCsr split landed = .ok arrays ∧ Filled input landed arrays := by
  have scanned : Scanned input 0 input.numEdges (input.scanAll split) := scanAll_scanned splits
  rw [sized.buildCsr_eq]
  generalize input.scanAll split = result at scanned
  obtain ⟨found, grouped⟩ := result
  cases found with
  | some k =>
      obtain ⟨-, inside, isBad, -⟩ := scanned.first k rfl
      exact absurd isBad (clean k inside)
  | none =>
      have filled : ∃ arrays, input.fill grouped (input.rowEnds landed) = some arrays ∧
          Filled input landed arrays := by
        cases grouped with
        | false => exact clean.scatter_filled sized.weights_length lands
        | true => exact grouped_filled sized.weights_length ((scanned.clean rfl).2.mp rfl) landed
      obtain ⟨arrays, ran, spec⟩ := filled
      refine ⟨arrays, ?_, spec⟩
      dsimp only
      rw [ran]

end Build

end EdgeInput

theorem Csr.neighborRange_of {Time : Type} {g : Csr Time} {s start stop : Nat}
    (hs : s < g.numNodes) (first : g.offsets.getD s 0 = start)
    (last : g.offsets.getD (s + 1) 0 = stop) (ordered : start ≤ stop)
    (inside : stop ≤ g.edges.length) : g.neighborRange s = (start, stop) := by
  rw [Csr.neighborRange, if_pos hs]
  dsimp only
  rw [first, last, if_neg (by omega)]

namespace EdgeInput

section Graph

variable {input : EdgeInput} {landed : List Nat} {arrays : CsrArrays}

theorem rowStart_mono {s t : Nat} (h : s ≤ t) : input.rowStart s ≤ input.rowStart t :=
  CountingSort.start_mono _ h

/-- Where a source's row stands in the offsets. -/
theorem Filled.offsets_getD (filled : Filled input landed arrays) (clean : input.Clean)
    (lands : landed.Perm ((List.range input.numEdges).map input.srcAt)) {s : Nat}
    (hs : s ≤ input.numNodes) : arrays.offsets.getD s 0 = input.rowStart s := by
  rw [filled.offsets]
  exact (clean.rowEnds_spec lands).2 s hs

theorem Filled.shape (filled : Filled input landed arrays) (sized : input.Sized)
    (clean : input.Clean)
    (lands : landed.Perm ((List.range input.numEdges).map input.srcAt)) :
    Shape input.numNodes input.numDstNodes arrays.offsets arrays.edges.length
      (arrays.weights.map List.length) := by
  have length : arrays.offsets.length = input.numNodes + 1 := by
    rw [filled.offsets]
    exact (clean.rowEnds_spec lands).1
  have entry : ∀ s ≤ input.numNodes, arrays.offsets[s]? = some (input.rowStart s) := by
    intro s hs
    have inside : s < arrays.offsets.length := by omega
    rw [List.getElem?_eq_getElem inside, ← List.getD_eq_getElem _ 0,
      filled.offsets_getD clean lands hs]
  refine ⟨sized.numNodes_le, sized.numDstNodes_le, length, ?_, ?_, ?_⟩
  · rw [entry 0 (Nat.zero_le _)]
    exact congrArg some (CountingSort.start_zero _)
  · rw [entry _ (Nat.le_refl _), clean.rowStart_numNodes, filled.edges.length]
  · intro w hw
    obtain ⟨out, here, rfl⟩ := Option.map_eq_some_iff.mp hw
    cases given : input.weights with
    | none =>
        rw [filled.unweighted given] at here
        cases here
    | some ws =>
        obtain ⟨out', there, rows⟩ := filled.weighted ws given
        obtain rfl := Option.some.inj (here.symm.trans there)
        rw [rows.length, filled.edges.length]

/-- A row of the finished graph. -/
theorem Filled.neighborRange (filled : Filled input landed arrays) (sized : input.Sized)
    (clean : input.Clean) (lands : landed.Perm ((List.range input.numEdges).map input.srcAt))
    (Time : Type) {s : Nat} (hs : s < input.numNodes) :
    (Csr.ofShape (filled.shape sized clean lands) : Csr Time).neighborRange s =
      (input.rowStart s, input.rowStart (s + 1)) := by
  have below : input.rowStart (s + 1) ≤ input.rowStart input.numNodes := rowStart_mono hs
  refine Csr.neighborRange_of hs (filled.offsets_getD clean lands (Nat.le_of_lt hs))
    (filled.offsets_getD clean lands hs) (rowStart_mono (Nat.le_add_right s 1)) ?_
  rw [clean.rowStart_numNodes, ← filled.edges.length] at below
  exact below

theorem Filled.destinations (filled : Filled input landed arrays) (clean : input.Clean) :
    ∀ d ∈ arrays.edges, d < input.numDstNodes := by
  have rows : ∀ s < input.numNodes, ∀ d ∈ (arrays.edges.drop (input.rowStart s)).take
      (input.rowStart (s + 1) - input.rowStart s), d < input.numDstNodes := by
    intro s hs d hd
    rw [filled.edges.rows s hs] at hd
    obtain ⟨i, hi, rfl⟩ := List.mem_map.mp hd
    have good := clean i (List.mem_range.mp (List.mem_of_mem_filter hi))
    unfold Bad at good
    omega
  have all := @CountingSort.rows_forall _ _ (input.keyed input.dstAt) _ _ rows
  rwa [show CountingSort.start _ _ = _ from clean.rowStart_numNodes, ← filled.edges.length,
    List.take_length] at all

/-- Sources past the node count have no edge. -/
theorem Clean.no_edges (clean : input.Clean) {s : Nat} (outside : input.numNodes ≤ s) :
    ((List.range input.numEdges).filter fun i => input.srcAt i = s) = [] := by
  refine List.filter_eq_nil_iff.mpr fun i hi => ?_
  have good := clean i (List.mem_range.mp hi)
  unfold Bad at good
  rw [decide_eq_true_eq]
  omega

/-- The rows of the finished graph, in and past the node range. -/
theorem Filled.rows (filled : Filled input landed arrays) (sized : input.Sized)
    (clean : input.Clean) (lands : landed.Perm ((List.range input.numEdges).map input.srcAt))
    (Time : Type) {α : Type} {value : Nat → α} {out : List α} (rows : RowsOf input value out)
    (s : Nat) :
    slice out ((Csr.ofShape (filled.shape sized clean lands) : Csr Time).neighborRange s) =
      ((List.range input.numEdges).filter fun i => input.srcAt i = s).map value := by
  rcases Nat.lt_or_ge s input.numNodes with inside | outside
  · rw [filled.neighborRange sized clean lands Time inside]
    exact rows.rows s inside
  · have none : (Csr.ofShape (filled.shape sized clean lands) : Csr Time).neighborRange s =
        (0, 0) := if_neg (Nat.not_lt.mpr outside)
    rw [none, clean.no_edges outside]
    rfl

end Graph

end EdgeInput

/-- What a build gives under a split of its scan and an order of its increments. -/
structure StablyBuilt (Time : Type) (input : EdgeInput) (split : List (Nat × Nat))
    (landed : List Nat) : Prop where
  fails_iff : (∃ chain, input.buildCsr split landed = .error (.error chain)) ↔ input.Rejected
  first_bad : input.Sized → ∀ i < input.numEdges, input.Bad i → (∀ j < i, ¬ input.Bad j) →
    input.buildCsr split landed = .error (.error [input.complaint i])
  /-- Each source's edges and weights stand in input order. -/
  rows : ¬ input.Rejected → ∃ g : Csr Time,
    input.buildCsr split landed = .ok ⟨g.offsets, g.edges, g.weights⟩ ∧
    g.numNodes = input.numNodes ∧ g.numDstNodes = input.numDstNodes ∧
    g.edges.length = input.numEdges ∧ g.Monotone ∧ g.DestinationsInRange ∧
    ∀ s, g.neighbors s =
        ((List.range input.numEdges).filter fun i => input.srcAt i = s).map input.dstAt ∧
      g.neighborWeights s = input.weights.map fun w =>
        ((List.range input.numEdges).filter fun i => input.srcAt i = s).map fun i => w.getD i 0
  /-- The fast path writes what the scatter would have written. -/
  fast_path : input.Sized → input.scanAll split = (none, true) →
    input.fill true (input.rowEnds landed) = input.fill false (input.rowEnds landed)

/-- Every edge list, split and order of increments: the build fails exactly on a size, a weight
count or an endpoint out of range, names the first bad edge, and otherwise gives each source its
edges and weights in input order, on either path. -/
theorem build_csr_stable (Time : Type) (input : EdgeInput) (split : List (Nat × Nat))
    (splits : EdgeInput.Splits 0 split input.numEdges) (landed : List Nat)
    (lands : landed.Perm ((List.range input.numEdges).map input.srcAt)) :
    StablyBuilt Time input split landed := by
  have clean_of : (¬ ∃ i < input.numEdges, input.Bad i) → input.Clean :=
    fun none i inside bad => none ⟨i, inside, bad⟩
  have rejected : input.Rejected → ∃ chain, input.buildCsr split landed = .error (.error chain) := by
    intro rejected
    by_cases sized : input.Sized
    · rcases rejected with nodes | dsts | ⟨w, hw, length⟩ | some_
      · exact absurd sized.numNodes_le (Nat.not_le.mpr nodes)
      · exact absurd sized.numDstNodes_le (Nat.not_le.mpr dsts)
      · exact absurd (sized.weights_length w hw) length
      · have first := Nat.find_spec some_
        exact ⟨_, sized.buildCsr_bad splits landed first.1 first.2 fun j less bad =>
          Nat.find_min some_ less ⟨Nat.lt_trans less first.1, bad⟩⟩
    · exact EdgeInput.not_sized_error sized split landed
  have accepted : ¬ input.Rejected → input.Sized ∧ input.Clean := by
    intro fine
    refine ⟨⟨?_, ?_, fun w hw => ?_⟩, clean_of fun bad => fine (.inr (.inr (.inr bad)))⟩
    · exact Nat.le_of_not_lt fun nodes => fine (.inl nodes)
    · exact Nat.le_of_not_lt fun dsts => fine (.inr (.inl dsts))
    · exact by_contra fun length => fine (.inr (.inr (.inl ⟨w, hw, length⟩)))
  refine ⟨⟨fun failed => ?_, rejected⟩,
    fun sized i inside bad first => sized.buildCsr_bad splits landed inside bad first,
    fun fine => ?_, fun sized fast => ?_⟩
  · by_contra fine
    obtain ⟨sized, clean⟩ := accepted fine
    obtain ⟨arrays, built, -⟩ := sized.buildCsr_clean clean splits lands
    obtain ⟨chain, failed⟩ := failed
    rw [built] at failed
    cases failed
  · obtain ⟨sized, clean⟩ := accepted fine
    obtain ⟨arrays, built, filled⟩ := sized.buildCsr_clean clean splits lands
    refine ⟨Csr.ofShape (filled.shape sized clean lands), built, rfl, rfl, filled.edges.length, ?_,
      ?_, fun s => ?_⟩
    · intro s hs
      show arrays.offsets.getD s 0 ≤ arrays.offsets.getD (s + 1) 0
      rw [filled.offsets_getD clean lands (Nat.le_of_lt hs), filled.offsets_getD clean lands hs]
      exact EdgeInput.rowStart_mono (Nat.le_add_right s 1)
    · exact filled.destinations clean
    · refine ⟨filled.rows sized clean lands Time filled.edges s, ?_⟩
      cases given : input.weights with
      | none => exact congrArg (Option.map _) (filled.unweighted given)
      | some w =>
          obtain ⟨out, here, rows⟩ := filled.weighted w given
          exact (congrArg (Option.map _) here).trans
            (congrArg some (filled.rows sized clean lands Time rows s))
  · have scanned : EdgeInput.Scanned input 0 input.numEdges (input.scanAll split) :=
      EdgeInput.scanAll_scanned splits
    obtain ⟨clean, order⟩ := scanned.clean (by rw [fast])
    have clean : input.Clean := fun i inside => clean i (Nat.zero_le i) inside
    rw [fast] at order
    obtain ⟨copied, ran, spec⟩ := EdgeInput.grouped_filled sized.weights_length (order.mp rfl) landed
    obtain ⟨scattered, ran', spec'⟩ := clean.scatter_filled sized.weights_length lands
    rw [ran, ran', clean.filled_unique spec spec']

section Sample

def sampleEdges : List (Nat × Nat) := [(2, 5), (0, 3), (2, 1), (0, 4), (1, 0), (0, 1)]

def sampleInput : EdgeInput where
  numNodes := 6
  numDstNodes := 6
  numEdges := 6
  srcAt i := (sampleEdges.getD i (0, 0)).1
  dstAt i := (sampleEdges.getD i (0, 0)).2
  weights := none

/-- Ungrouped edges, scanned in two chunks whose increments interleave. -/
theorem build_csr_stable_ungrouped :
    StablyBuilt Nat sampleInput [(0, 4), (4, 6)] [2, 1, 0, 0, 2, 0] :=
  build_csr_stable Nat sampleInput [(0, 4), (4, 6)] ⟨rfl, .inr rfl, rfl, .inl (by decide), rfl⟩
    [2, 1, 0, 0, 2, 0] (by decide)

end Sample

end AetherGraph
