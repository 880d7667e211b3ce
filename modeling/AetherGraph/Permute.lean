import AetherGraph.CsrBuild
import AetherGraph.GraphHeader
import AetherGraph.RabbitOrder
import AetherGraph.Foundation.Relabeling
import AetherGraph.Foundation.RowFill

/-! Relabeling a graph by a permutation: the inverse is built and checked in one pass, the rows
are sized, summed and filled chunk by chunk, and each payload array is filled the same way. -/

namespace AetherGraph

open Foundation

variable {Time : Type}

structure TimestampLengthMismatch where
  got : Nat
  expected : Nat
  deriving DecidableEq, Repr

def TimestampLengthMismatch.permuted (e : TimestampLengthMismatch) : Failure :=
  .error [s!"permuted timestamps: timestamps length {e.got} != num_edges {e.expected}"]

section Fill

variable {α : Type}

/-- `ROWS_PER_CHUNK`. -/
def rowsPerChunk : Nat := 4096

/-- Each chunk owns its piece of `out`, so the order of the chunks leaves no trace. -/
def parFillRows (out : List α) (rowOffsets : List Nat)
    (fill : Nat → List α → Option (List α)) : Except Failure (List α) :=
  if rowOffsets.getLast?.getD 0 = out.length then
    orPanic (RowFill.fillChunks rowsPerChunk rowOffsets fill (rowOffsets.length - 1) 0 out)
  else .error .panic

/-- Fill the row of a new node from the old node it stands for. -/
def fillFrom (perm : List Nat) (copy : Nat → List α → Option (List α)) (newId : Nat)
    (row : List α) : Option (List α) := do
  let old ← perm[newId]?
  copy old row

/-- Slot by slot as far as both reach. -/
def relabelRow (inv : List Nat) : List Nat → List Nat → Option (List Nat)
  | _ :: row, oldNbr :: nbrs => do
      let slot ← inv[oldNbr]?
      let rest ← relabelRow inv row nbrs
      some (slot :: rest)
  | row, _ => some row

/-- `copy_from_slice` of a payload row, where there is a payload. -/
def copyRow (src : Option (List α)) (row : List α) : Option (List α) :=
  match src with
  | some src => if row.length = src.length then some src else none
  | none => some row

end Fill

/-- One turn of the loop that builds the inverse, `NONE` marking the slots not assigned. -/
def assignNewId (n : Nat) (invPerm : List Nat) (p : Nat × Nat) : Except Failure (List Nat) := do
  ensure (p.1 < n) s!"out-of-range node {p.1}"
  ensure (invPerm.getD p.1 0 = NONE) s!"duplicate node {p.1}"
  pure (invPerm.set p.1 p.2)

def invertPerm (n : Nat) (perm : List Nat) : Except Failure (List Nat) :=
  perm.zipIdx.foldlM (assignNewId n) (List.replicate n NONE)

namespace ProvenGraph

/-- Arrays a construction answers for; the assertion stops one that breaks its word. -/
def fromTrustedParts (numNodes numDstNodes : Nat) (offsets edges : List Nat)
    (weights : Option (List Float32)) : Except Failure (ProvenGraph Time) :=
  match shaped numNodes numDstNodes offsets edges weights with
  | .error _ => .error .panic
  | .ok csr =>
      if proven : csr.Monotone ∧ csr.DestinationsInRange then
        .ok ⟨csr, .full, fun _ => proven.1, fun _ => proven.2⟩
      else .error .panic

def setTimestamps (g : ProvenGraph Time) (timestamps : List Time) :
    Except TimestampLengthMismatch (ProvenGraph Time) :=
  if length : timestamps.length = g.csr.edges.length then
    .ok { g with
      csr := { g.csr with
        timestamps := some timestamps
        timestamps_length := fun _ h => Option.some.inj h ▸ length } }
  else .error ⟨timestamps.length, g.csr.edges.length⟩

variable [Inhabited Time]

def permute (g : ProvenGraph Time) (perm : List Nat) : Except Failure (ProvenGraph Time) := do
  ensure g.csr.Homogeneous (s!"permute relabels sources and destinations together; this graph " ++
    s!"has {g.csr.numNodes} rows and a destination space of {g.csr.numDstNodes}")
  let _ ← g.validateWithMode .full
  let n := g.csr.numNodes
  ensure (perm.length = n) "permutation length mismatch"
  let invPerm ← invertPerm n perm
  let sizes ← orPanic ((List.range n).mapM fun newId => perm[newId]?.map g.csr.degree)
  let newOffsets := CountingSort.sums n (0 :: sizes)
  let numEdges := g.csr.edges.length
  ensure (newOffsets.getD n 0 = numEdges)
    s!"permuted rows hold {newOffsets.getD n 0} edges, graph has {numEdges}"
  let newEdges ← parFillRows (List.replicate numEdges 0) newOffsets
    (fillFrom perm fun old row => relabelRow invPerm row (g.csr.neighbors old))
  let newWeights ← g.csr.weights.mapM fun _ =>
    parFillRows (List.replicate numEdges 0) newOffsets
      (fillFrom perm fun old row => copyRow (g.csr.neighborWeights old) row)
  let newTimestamps ← g.csr.timestamps.mapM fun _ =>
    parFillRows (List.replicate numEdges default) newOffsets
      (fillFrom perm fun old row => copyRow (g.csr.neighborTimestamps old) row)
  let graph ← fromTrustedParts n n newOffsets newEdges newWeights
  match newTimestamps with
  | none => pure graph
  | some ts => (graph.setTimestamps ts).mapError TimestampLengthMismatch.permuted

end ProvenGraph

section Inverse

variable {n : Nat}

/-- After the ids `done`, each of them stands for its place. -/
structure Assigned (n : Nat) (done invPerm : List Nat) : Prop where
  length : invPerm.length = n
  each : ∀ v < n, invPerm.getD v 0 = if v ∈ done then done.idxOf v else NONE

theorem assigned_nil (n : Nat) : Assigned n [] (List.replicate n NONE) where
  length := List.length_replicate
  each v hv := by
    rw [List.getD_replicate _ hv, if_neg List.not_mem_nil]

/-- A new id is stored when its old id is in range and not taken. -/
theorem Assigned.step {done invPerm : List Nat} (h : Assigned n done invPerm)
    (small : done.length < NONE) (old : Nat) :
    (old < n ∧ old ∉ done → ∃ invPerm', assignNewId n invPerm (old, done.length) = .ok invPerm' ∧
      Assigned n (done ++ [old]) invPerm') ∧
    (¬ (old < n ∧ old ∉ done) → ∃ text, assignNewId n invPerm (old, done.length) =
      .error (.error [text])) := by
  unfold assignNewId
  dsimp only
  by_cases inside : old < n
  · rw [ByteReader.ensure_ok inside]
    have here := h.each old inside
    by_cases taken : old ∈ done
    · rw [if_pos taken] at here
      have place : done.idxOf old < done.length := List.idxOf_lt_length_iff.mpr taken
      refine ⟨fun fine => absurd taken fine.2, fun _ => ⟨s!"duplicate node {old}", ?_⟩⟩
      have other : ¬ invPerm.getD old 0 = NONE := by omega
      show (do ensure _ _; _) = _
      rw [ensure, if_neg other]
      rfl
    · rw [if_neg taken] at here
      refine ⟨fun _ => ⟨invPerm.set old done.length, ?_, ?_, fun v hv => ?_⟩,
        fun bad => absurd ⟨inside, taken⟩ bad⟩
      · show (do ensure _ _; _) = _
        rw [ByteReader.ensure_ok here]
        rfl
      · rw [List.length_set, h.length]
      · rw [List.getD_eq_getElem?_getD, List.getElem?_set, h.length]
        by_cases same : old = v
        · subst same
          rw [if_pos rfl, if_pos hv, if_pos (List.mem_append_right _ List.mem_cons_self),
            List.idxOf_append_of_notMem taken]
          simp
        · rw [if_neg same, ← List.getD_eq_getElem?_getD, h.each v hv]
          by_cases before : v ∈ done
          · rw [if_pos before, if_pos (List.mem_append_left _ before),
              List.idxOf_append_of_mem before]
          · have after : v ∉ done ++ [old] := by
              simp [before, Ne.symm same]
            rw [if_neg before, if_neg after]
  · refine ⟨fun fine => absurd fine.1 inside, fun _ => ⟨s!"out-of-range node {old}", ?_⟩⟩
    rw [ensure, if_neg inside]
    rfl

theorem Assigned.run {done invPerm : List Nat} (h : Assigned n done invPerm) (rest : List Nat)
    (small : (done ++ rest).length ≤ NONE) (distinct : done.Nodup) (below : ∀ v ∈ done, v < n) :
    ((done ++ rest).Nodup ∧ (∀ v ∈ done ++ rest, v < n) → ∃ invPerm',
      (rest.zipIdx done.length).foldlM (assignNewId n) invPerm = .ok invPerm' ∧
        Assigned n (done ++ rest) invPerm') ∧
    (¬ ((done ++ rest).Nodup ∧ ∀ v ∈ done ++ rest, v < n) → ∃ text,
      (rest.zipIdx done.length).foldlM (assignNewId n) invPerm = .error (.error [text])) := by
  induction rest generalizing done invPerm with
  | nil =>
      rw [List.append_nil]
      exact ⟨fun _ => ⟨invPerm, rfl, h⟩, fun bad => absurd ⟨distinct, below⟩ bad⟩
  | cons old rest ih =>
      have room : done.length < NONE := by
        rw [List.length_append, List.length_cons] at small
        omega
      rw [List.zipIdx_cons, List.foldlM_cons]
      obtain ⟨accepted, refused⟩ := h.step room old
      by_cases fine : old < n ∧ old ∉ done
      · obtain ⟨invPerm', stored, assigned⟩ := accepted fine
        rw [stored]
        rw [List.append_cons] at small ⊢
        have later := ih assigned small
          (List.nodup_append.mpr ⟨distinct, List.nodup_singleton old, fun a ha b hb => by
            rintro rfl
            exact fine.2 (List.mem_singleton.mp hb ▸ ha)⟩)
          (fun v hv => (List.mem_append.mp hv).elim (below v) fun hv =>
            List.mem_singleton.mp hv ▸ fine.1)
        rw [List.length_append, List.length_singleton] at later
        exact later
      · obtain ⟨text, failed⟩ := refused fine
        rw [failed]
        refine ⟨fun ⟨nodup, all⟩ => absurd ⟨all old (List.mem_append_right _ List.mem_cons_self),
          fun taken => ?_⟩ fine, fun _ => ⟨text, rfl⟩⟩
        exact (List.nodup_append.mp nodup).2.2 old taken old List.mem_cons_self rfl

/-- The inverse is built exactly for the lists that name each node once. -/
theorem invertPerm_spec {perm : List Nat} (length : perm.length = n) (small : n ≤ maxNodes) :
    (perm.Perm (List.range n) → invertPerm n perm = .ok (Relabeling.inverse perm)) ∧
    (¬ perm.Perm (List.range n) → ∃ text, invertPerm n perm = .error (.error [text])) := by
  have run := (assigned_nil n).run perm (by rw [List.nil_append, length]; exact small)
    List.nodup_nil (fun v hv => absurd hv List.not_mem_nil)
  rw [List.nil_append] at run
  constructor
  · intro h
    obtain ⟨invPerm, built, assigned⟩ := run.1
      ⟨Relabeling.nodup h, fun v hv => (Relabeling.mem_iff h).mp hv⟩
    refine built.trans (congrArg _ (List.ext_getElem ?_ fun v hv hv' => ?_))
    · rw [assigned.length, Relabeling.inverse_length, length]
    · rw [assigned.length] at hv
      have here := assigned.each v hv
      rw [if_pos ((Relabeling.mem_iff h).mpr hv), ← Relabeling.inverse_getD h hv,
        List.getD_eq_getElem _ _ (by rwa [assigned.length]), List.getD_eq_getElem _ _ hv'] at here
      exact here
  · intro other
    exact run.2 fun ⟨nodup, below⟩ => other (Relabeling.perm_range nodup below length)

end Inverse

section Rows

variable {α : Type}

theorem relabelRow_eq {inv : List Nat} {new : Nat → Nat} {row nbrs : List Nat}
    (sized : row.length = nbrs.length) (known : ∀ d ∈ nbrs, inv[d]? = some (new d)) :
    relabelRow inv row nbrs = some (nbrs.map new) := by
  induction nbrs generalizing row with
  | nil =>
      obtain rfl := List.length_eq_zero_iff.mp sized
      rfl
  | cons d nbrs ih =>
      cases row with
      | nil => cases sized
      | cons slot row =>
          rw [relabelRow, known d List.mem_cons_self,
            ih (Nat.succ.inj sized) fun d hd => known d (List.mem_cons_of_mem _ hd)]
          rfl

theorem copyRow_some {src row : List α} (sized : row.length = src.length) :
    copyRow (some src) row = some src := if_pos sized

theorem parFillRows_eq {offsets : List Nat} {content : Nat → List α} {rows : Nat}
    (h : RowFill.Rows offsets content rows) (length : offsets.length = rows + 1) {out : List α}
    (total : out.length = offsets.getD rows 0) {fill : Nat → List α → Option (List α)}
    (filled : ∀ i < rows, ∀ old, old.length = (content i).length → fill i old = some (content i)) :
    parFillRows out offsets fill = .ok ((List.range rows).flatMap content) := by
  have last : offsets.getLast?.getD 0 = offsets.getD rows 0 := by
    rw [List.getLast?_eq_getElem?, length, Nat.add_sub_cancel, List.getD_eq_getElem?_getD]
  have positive : 0 < rowsPerChunk := by decide
  have every := RowFill.fillChunks_eq h filled positive (Nat.zero_le rows)
    (by rw [h.first, Nat.sub_zero]; exact total)
  rw [Nat.sub_zero, ← List.range_eq_range'] at every
  unfold parFillRows
  rw [last, if_pos total.symm, length, Nat.add_sub_cancel]
  exact congrArg orPanic every

end Rows

namespace Csr

variable (g : Csr Time)

/-- A payload row has an entry for each edge of the row. -/
theorem payload_length {α : Type} {payload : List α} (sized : payload.length = g.edges.length)
    (v : Nat) : (slice payload (g.neighborRange v)).length = g.degree v :=
  slice_length (sized.symm ▸ neighborRange_le v)

/-- The arrays of `h` are those of `g` row by row in the order of `perm`, with the destinations
renamed. -/
structure PermutedArrays (g h : Csr Time) (perm : List Nat) : Prop where
  numNodes : h.numNodes = g.numNodes
  numDstNodes : h.numDstNodes = g.numNodes
  offsets : RowFill.Rows h.offsets (fun i => (g.neighbors (perm.getD i 0)).map perm.idxOf)
    g.numNodes
  edges : h.edges = (List.range g.numNodes).flatMap fun i =>
    (g.neighbors (perm.getD i 0)).map perm.idxOf
  weights : h.weights = g.weights.map fun w =>
    (List.range g.numNodes).flatMap fun i => slice w (g.neighborRange (perm.getD i 0))
  timestamps : h.timestamps = g.timestamps.map fun ts =>
    (List.range g.numNodes).flatMap fun i => slice ts (g.neighborRange (perm.getD i 0))

variable {g}

theorem PermutedArrays.payload_rows {h : Csr Time} {perm : List Nat}
    (arrays : PermutedArrays g h perm) {α : Type} {payload : List α}
    (sized : payload.length = g.edges.length) :
    RowFill.Rows h.offsets (fun i => slice payload (g.neighborRange (perm.getD i 0)))
      g.numNodes where
  first := arrays.offsets.first
  next i hi := by
    rw [arrays.offsets.next i hi, List.length_map, neighbors_length, payload_length g sized]

theorem PermutedArrays.neighborRange_eq {h : Csr Time} {perm : List Nat}
    (arrays : PermutedArrays g h perm) {i : Nat} (hi : i < g.numNodes) :
    h.neighborRange i = (h.offsets.getD i 0, h.offsets.getD (i + 1) 0) := by
  have next := arrays.offsets.next i hi
  have rest := arrays.offsets.offset_add (i + 1) (g.numNodes - (i + 1)) (by omega)
  have last : h.offsets.getD g.numNodes 0 = h.edges.length := by
    rw [← arrays.numNodes, List.getD_eq_getElem?_getD, h.last_offset]
    rfl
  rw [Nat.add_sub_cancel' hi, last] at rest
  unfold neighborRange
  rw [if_pos (arrays.numNodes ▸ hi)]
  dsimp only
  rw [if_neg (by omega)]

/-- `h` is `g` with the nodes of `g` renamed by their places in `perm`. -/
structure Relabeled (g h : Csr Time) (perm : List Nat) : Prop where
  numNodes : h.numNodes = g.numNodes
  numDstNodes : h.numDstNodes = g.numNodes
  neighbors : ∀ i < g.numNodes,
    h.neighbors i = (g.neighbors (perm.getD i 0)).map perm.idxOf
  weights : ∀ i < g.numNodes, h.neighborWeights i = g.neighborWeights (perm.getD i 0)
  timestamps : ∀ i < g.numNodes, h.neighborTimestamps i = g.neighborTimestamps (perm.getD i 0)

theorem PermutedArrays.relabeled {h : Csr Time} {perm : List Nat}
    (arrays : PermutedArrays g h perm) : Relabeled g h perm where
  numNodes := arrays.numNodes
  numDstNodes := arrays.numDstNodes
  neighbors i hi := by
    rw [Csr.neighbors, arrays.neighborRange_eq hi, slice, arrays.edges]
    exact arrays.offsets.slice_eq hi
  weights i hi := by
    rw [neighborWeights, arrays.neighborRange_eq hi, arrays.weights, neighborWeights,
      Option.map_map]
    refine Option.map_congr fun w hw => ?_
    exact (arrays.payload_rows (g.weights_length w hw)).slice_eq hi
  timestamps i hi := by
    rw [neighborTimestamps, arrays.neighborRange_eq hi, arrays.timestamps, neighborTimestamps,
      Option.map_map]
    refine Option.map_congr fun ts hts => ?_
    exact (arrays.payload_rows (g.timestamps_length ts hts)).slice_eq hi

end Csr

theorem Relabeling.map_getD {perm : List Nat} {n : Nat} (length : perm.length = n) :
    (List.range n).map (fun i => perm.getD i 0) = perm := by
  refine List.ext_getElem (by rw [List.length_map, List.length_range, length]) fun i hi hi' => ?_
  rw [List.getElem_map, List.getElem_range, List.getD_eq_getElem _ _ hi']

namespace Csr

variable {g : Csr Time}

/-- The rows of a sorted graph hold its edges in any order of the nodes. -/
theorem Monotone.permuted_total (mono : g.Monotone) {perm : List Nat}
    (h : perm.Perm (List.range g.numNodes)) :
    ((List.range g.numNodes).flatMap fun i =>
      (g.neighbors (perm.getD i 0)).map perm.idxOf).length = g.edges.length := by
  have rows : ∀ l : List Nat, (l.flatMap g.neighbors).length = (l.map g.degree).sum := by
    intro l
    rw [List.length_flatMap]
    simp only [neighbors_length]
  have named : ((List.range g.numNodes).flatMap fun i =>
      (g.neighbors (perm.getD i 0)).map perm.idxOf).length =
        (((List.range g.numNodes).map fun i => perm.getD i 0).map g.degree).sum := by
    rw [List.length_flatMap, List.map_map]
    simp only [List.length_map, neighbors_length, Function.comp_def]
  rw [named, Relabeling.map_getD (Relabeling.length_eq h), (h.map g.degree).sum_nat, ← rows,
    mono.rows_eq]

/-- The offsets the sizes sum up to. -/
theorem Monotone.permuted_offsets (mono : g.Monotone) {perm : List Nat}
    (h : perm.Perm (List.range g.numNodes)) {sizes : List Nat}
    (sized : sizes = (List.range g.numNodes).map fun i => g.degree (perm.getD i 0)) :
    (CountingSort.sums g.numNodes (0 :: sizes)).length = g.numNodes + 1 ∧
      RowFill.Rows (CountingSort.sums g.numNodes (0 :: sizes))
        (fun i => (g.neighbors (perm.getD i 0)).map perm.idxOf) g.numNodes ∧
      (CountingSort.sums g.numNodes (0 :: sizes)).getD g.numNodes 0 = g.edges.length := by
  have length : (0 :: sizes).length = g.numNodes + 1 := by
    rw [sized, List.length_cons, List.length_map, List.length_range]
  let total := fun i =>
    ((List.range i).flatMap fun i => (g.neighbors (perm.getD i 0)).map perm.idxOf).length
  have grows : ∀ i, total (i + 1) = total i + g.degree (perm.getD i 0) := by
    intro i
    dsimp only [total]
    rw [List.range_succ, List.flatMap_append, List.flatMap_singleton, List.length_append,
      List.length_map, neighbors_length]
  have step : ∀ i < g.numNodes, total (i + 1) = total i + (0 :: sizes).getD (i + 1) 0 := by
    intro i hi
    have entry : sizes.getD i 0 = g.degree (perm.getD i 0) := by
      rw [sized, List.getD_eq_getElem?_getD, List.getElem?_map, List.getElem?_range hi]
      rfl
    rw [grows, List.getD_cons_succ, entry]
  obtain ⟨len, each⟩ := CountingSort.sums_spec length (show _ = total 0 from rfl) step
  refine ⟨len, ⟨each 0 (Nat.zero_le _), fun i hi => ?_⟩, ?_⟩
  · rw [each (i + 1) hi, each i (Nat.le_of_lt hi), grows, List.length_map, neighbors_length]
  · exact (each g.numNodes (Nat.le_refl _)).trans (mono.permuted_total h)

end Csr

namespace Csr

variable {g : Csr Time}

/-- The graph a permutation stands for. -/
theorem exists_permuted (mono : g.Monotone) (dests : g.DestinationsInRange)
    (homogeneous : g.Homogeneous) {perm : List Nat} (h : perm.Perm (List.range g.numNodes)) :
    ∃ csr : Csr Time, PermutedArrays g csr perm ∧ csr.Monotone ∧ csr.DestinationsInRange ∧
      csr.offsets = CountingSort.sums g.numNodes
        (0 :: (List.range g.numNodes).map fun i => g.degree (perm.getD i 0)) := by
  obtain ⟨length, rows, last⟩ := mono.permuted_offsets h rfl
  generalize CountingSort.sums g.numNodes _ = offsets at length rows last
  have payload : ∀ {α : Type} {xs : List α}, xs.length = g.edges.length →
      ((List.range g.numNodes).flatMap fun i =>
        slice xs (g.neighborRange (perm.getD i 0))).length = g.edges.length := by
    intro α xs sized
    rw [← mono.permuted_total h, List.length_flatMap, List.length_flatMap]
    simp only [payload_length g sized, List.length_map, neighbors_length]
  refine ⟨{
    numNodes := g.numNodes
    numDstNodes := g.numNodes
    offsets := offsets
    edges := (List.range g.numNodes).flatMap fun i =>
      (g.neighbors (perm.getD i 0)).map perm.idxOf
    weights := g.weights.map fun w =>
      (List.range g.numNodes).flatMap fun i => slice w (g.neighborRange (perm.getD i 0))
    timestamps := g.timestamps.map fun ts =>
      (List.range g.numNodes).flatMap fun i => slice ts (g.neighborRange (perm.getD i 0))
    numNodes_le := g.numNodes_le
    numDstNodes_le := g.numNodes_le
    offsets_length := length
    first_offset := ?_
    last_offset := ?_
    weights_length := ?_
    timestamps_length := ?_ }, ⟨rfl, rfl, rows, rfl, rfl, rfl⟩, fun i hi => ?_, fun d hd => ?_, rfl⟩
  · rw [List.getElem?_eq_getElem (by omega), ← List.getD_eq_getElem _ 0, rows.first]
  · rw [mono.permuted_total h, List.getElem?_eq_getElem (by omega), ← List.getD_eq_getElem _ 0,
      last]
  · intro w hw
    obtain ⟨xs, hxs, rfl⟩ := Option.map_eq_some_iff.mp hw
    rw [payload (g.weights_length xs hxs), mono.permuted_total h]
  · intro ts hts
    obtain ⟨xs, hxs, rfl⟩ := Option.map_eq_some_iff.mp hts
    rw [payload (g.timestamps_length xs hxs), mono.permuted_total h]
  · show offsets.getD i 0 ≤ offsets.getD (i + 1) 0
    rw [rows.next i hi]
    exact Nat.le_add_right _ _
  · obtain ⟨i, -, hd⟩ := List.mem_flatMap.mp hd
    obtain ⟨old, hold, rfl⟩ := List.mem_map.mp hd
    have inside := dests old (mem_edges_of_mem_neighbors hold)
    rw [homogeneous] at inside
    exact Relabeling.idxOf_lt h inside

end Csr

namespace ProvenGraph

theorem fromTrustedParts_eq (csr : Csr Time) (mono : csr.Monotone)
    (dests : csr.DestinationsInRange) : ∃ graph : ProvenGraph Time,
      fromTrustedParts csr.numNodes csr.numDstNodes csr.offsets csr.edges csr.weights =
        .ok graph ∧ graph.csr = csr.stored := by
  have proven : csr.stored.Monotone ∧ csr.stored.DestinationsInRange := ⟨mono, dests⟩
  refine ⟨⟨csr.stored, .full, fun _ => proven.1, fun _ => proven.2⟩, ?_, rfl⟩
  rw [fromTrustedParts, shaped_of_arrays]
  exact dif_pos proven

theorem setTimestamps_eq {g : ProvenGraph Time} {csr : Csr Time} (base : g.csr = csr.stored)
    {ts : List Time} (times : csr.timestamps = some ts) :
    ∃ graph : ProvenGraph Time, g.setTimestamps ts = .ok graph ∧ graph.csr = csr := by
  have sized : ts.length = g.csr.edges.length := by
    rw [base]
    exact csr.timestamps_length ts times
  refine ⟨_, dif_pos sized, ?_⟩
  obtain ⟨⟩ := csr
  obtain rfl := times
  simp only [base]
  rfl

section Fills

variable {g : Csr Time} {perm : List Nat}

theorem relabel_filled (dests : g.DestinationsInRange) (homogeneous : g.Homogeneous)
    (h : perm.Perm (List.range g.numNodes)) :
    ∀ i < g.numNodes, ∀ old : List Nat,
      old.length = ((g.neighbors (perm.getD i 0)).map perm.idxOf).length →
      fillFrom perm (fun v row => relabelRow (Relabeling.inverse perm) row (g.neighbors v)) i old =
        some ((g.neighbors (perm.getD i 0)).map perm.idxOf) := by
  intro i hi old sized
  have inside : i < perm.length := (Relabeling.length_eq h).symm ▸ hi
  rw [List.length_map] at sized
  rw [fillFrom, List.getElem?_eq_getElem inside, ← List.getD_eq_getElem _ 0 inside]
  refine relabelRow_eq sized fun d hd => ?_
  have below : d < g.numNodes := homogeneous ▸ dests d (Csr.mem_edges_of_mem_neighbors hd)
  rw [← Relabeling.inverse_getD h below, List.getD_eq_getElem?_getD, List.getElem?_eq_getElem]
  · rfl
  · rw [Relabeling.inverse_length, Relabeling.length_eq h]
    exact below

theorem copy_filled {α : Type} (h : perm.Perm (List.range g.numNodes)) {payload : List α}
    {rows : Nat → Option (List α)}
    (here : ∀ v, rows v = some (slice payload (g.neighborRange v))) :
    ∀ i < g.numNodes, ∀ old : List α,
      old.length = (slice payload (g.neighborRange (perm.getD i 0))).length →
      fillFrom perm (fun v row => copyRow (rows v) row) i old =
        some (slice payload (g.neighborRange (perm.getD i 0))) := by
  intro i hi old length
  have inside : i < perm.length := (Relabeling.length_eq h).symm ▸ hi
  rw [fillFrom, List.getElem?_eq_getElem inside, ← List.getD_eq_getElem _ 0 inside]
  show copyRow (rows (perm.getD i 0)) old = _
  rw [here, copyRow_some length]

end Fills

variable [Inhabited Time]

/-- A permutation of a full homogeneous graph's nodes is applied. -/
theorem permute_ok {g : ProvenGraph Time} (homogeneous : g.csr.Homogeneous)
    {proven : ProvenGraph Time} (valid : g.validateWithMode .full = .ok proven) {perm : List Nat}
    (h : perm.Perm (List.range g.csr.numNodes)) :
    ∃ out : ProvenGraph Time, g.permute perm = .ok out ∧
      Csr.PermutedArrays g.csr out.csr perm ∧ out.csr.Monotone ∧ out.csr.DestinationsInRange := by
  obtain ⟨mono, dests⟩ := validate_full valid
  obtain ⟨csr, arrays, mono', dests', offsets⟩ := Csr.exists_permuted mono dests homogeneous h
  have sizes : ((List.range g.csr.numNodes).mapM fun newId => perm[newId]?.map g.csr.degree) =
      some ((List.range g.csr.numNodes).map fun i => g.csr.degree (perm.getD i 0)) := by
    refine mapM_some fun i hi => ?_
    have inside : i < perm.length := (Relabeling.length_eq h).symm ▸ List.mem_range.mp hi
    rw [List.getElem?_eq_getElem inside, ← List.getD_eq_getElem _ 0 inside]
    rfl
  have length : csr.offsets.length = g.csr.numNodes + 1 := arrays.numNodes ▸ csr.offsets_length
  have total : csr.offsets.getD g.csr.numNodes 0 = g.csr.edges.length := by
    rw [offsets]
    exact (mono.permuted_offsets h rfl).2.2
  have room : (List.replicate g.csr.edges.length 0).length =
      csr.offsets.getD g.csr.numNodes 0 := by
    rw [List.length_replicate, total]
  have edges := parFillRows_eq arrays.offsets length room (relabel_filled dests homogeneous h)
  have payload : ∀ {α : Type} {xs : List α} {rows : Nat → Option (List α)} (zero : α),
      xs.length = g.csr.edges.length →
      (∀ v, rows v = some (slice xs (g.csr.neighborRange v))) →
      parFillRows (List.replicate g.csr.edges.length zero) csr.offsets
        (fillFrom perm fun v row => copyRow (rows v) row) =
        .ok ((List.range g.csr.numNodes).flatMap fun i =>
          slice xs (g.csr.neighborRange (perm.getD i 0))) := by
    intro α xs rows zero sized here
    exact parFillRows_eq (arrays.payload_rows sized) length
      (by rw [List.length_replicate, total]) (copy_filled h here)
  have weights : (g.csr.weights.mapM fun _ => parFillRows (List.replicate g.csr.edges.length 0)
      csr.offsets (fillFrom perm fun v row => copyRow (g.csr.neighborWeights v) row)) =
        .ok csr.weights := by
    rw [arrays.weights]
    cases stored : g.csr.weights with
    | none => rfl
    | some w =>
        rw [Option.mapM_some, payload 0 (g.csr.weights_length w stored) fun v => by
          rw [Csr.neighborWeights, stored]
          rfl]
        rfl
  have timestamps : (g.csr.timestamps.mapM fun _ =>
      parFillRows (List.replicate g.csr.edges.length default)
      csr.offsets (fillFrom perm fun v row => copyRow (g.csr.neighborTimestamps v) row)) =
        .ok csr.timestamps := by
    rw [arrays.timestamps]
    cases stored : g.csr.timestamps with
    | none => rfl
    | some ts =>
        rw [Option.mapM_some, payload default (g.csr.timestamps_length ts stored) fun v => by
          rw [Csr.neighborTimestamps, stored]
          rfl]
        rfl
  obtain ⟨graph, trusted, stored⟩ := fromTrustedParts_eq csr mono' dests'
  rw [arrays.numNodes, arrays.numDstNodes] at trusted
  have ran : g.permute perm = (match csr.timestamps with
      | none => pure graph
      | some ts => (graph.setTimestamps ts).mapError TimestampLengthMismatch.permuted) := by
    have sum := total
    rw [offsets] at edges weights timestamps trusted sum
    unfold permute
    rw [ByteReader.ensure_ok homogeneous, valid]
    show (do ensure _ _; _) = _
    rw [ByteReader.ensure_ok (Relabeling.length_eq h)]
    show Except.bind (invertPerm _ perm) _ = _
    rw [(invertPerm_spec (Relabeling.length_eq h) g.csr.numNodes_le).1 h]
    show Except.bind (orPanic _) _ = _
    rw [sizes]
    show (do ensure _ _; _) = _
    rw [ByteReader.ensure_ok sum]
    show Except.bind (parFillRows _ _ _) _ = _
    rw [edges]
    show Except.bind (Option.mapM _ g.csr.weights) _ = _
    rw [weights]
    show Except.bind (Option.mapM _ g.csr.timestamps) _ = _
    rw [timestamps, ← arrays.edges]
    show Except.bind (fromTrustedParts _ _ _ _ _) _ = _
    rw [trusted]
    rfl
  cases times : csr.timestamps with
  | none =>
      rw [times] at ran
      have same : graph.csr = csr := by
        rw [stored]
        obtain ⟨⟩ := csr
        obtain rfl := times
        rfl
      exact ⟨graph, ran, same ▸ arrays, same ▸ mono', same ▸ dests'⟩
  | some ts =>
      rw [times] at ran
      obtain ⟨out, set, same⟩ := setTimestamps_eq stored times
      dsimp only at ran
      rw [set] at ran
      exact ⟨out, ran, same ▸ arrays, same ▸ mono', same ▸ dests'⟩

/-- A list that is no permutation of the nodes is refused with an error. -/
theorem permute_refuses {g : ProvenGraph Time} (homogeneous : g.csr.Homogeneous)
    {proven : ProvenGraph Time} (valid : g.validateWithMode .full = .ok proven) {perm : List Nat}
    (other : ¬ perm.Perm (List.range g.csr.numNodes)) :
    ∃ text, g.permute perm = .error (.error [text]) := by
  unfold permute
  rw [ByteReader.ensure_ok homogeneous, valid]
  by_cases length : perm.length = g.csr.numNodes
  · obtain ⟨text, failed⟩ := (invertPerm_spec length g.csr.numNodes_le).2 other
    refine ⟨text, ?_⟩
    show (do ensure _ _; _) = _
    rw [ByteReader.ensure_ok length]
    show Except.bind (invertPerm _ perm) _ = _
    rw [failed]
    rfl
  · refine ⟨"permutation length mismatch", ?_⟩
    show (do ensure _ _; _) = _
    rw [ensure, if_neg length]
    rfl

end ProvenGraph

namespace Csr

variable {g h : Csr Time}

theorem eq_of_arrays (numNodes : h.numNodes = g.numNodes)
    (numDstNodes : h.numDstNodes = g.numDstNodes) (offsets : h.offsets = g.offsets)
    (edges : h.edges = g.edges) (weights : h.weights = g.weights)
    (timestamps : h.timestamps = g.timestamps) : h = g := by
  obtain ⟨⟩ := g
  obtain ⟨⟩ := h
  dsimp only at *
  subst numNodes numDstNodes offsets edges weights timestamps
  rfl

theorem Monotone.rows (mono : g.Monotone) : RowFill.Rows g.offsets g.neighbors g.numNodes where
  first := by
    rw [List.getD_eq_getElem?_getD, g.first_offset]
    rfl
  next i hi := by
    have step := mono i hi
    have last : g.offsets.getD g.numNodes 0 = g.edges.length := by
      rw [List.getD_eq_getElem?_getD, g.last_offset]
      rfl
    have within : g.offsets.getD (i + 1) 0 ≤ _ := mono.offsets_le hi (Nat.le_refl _)
    rw [neighbors_length, degree, neighborRange, if_pos hi]
    dsimp only
    rw [if_neg (by omega)]
    dsimp only
    omega

/-- Rows of the same sizes have the same offsets. -/
theorem offsets_unique {a b : List Nat} {α : Type} {content : Nat → List α} {n : Nat}
    (ha : RowFill.Rows a content n) (hb : RowFill.Rows b content n) (la : a.length = n + 1)
    (lb : b.length = n + 1) : a = b := by
  refine List.ext_getElem (la.trans lb.symm) fun i hi hi' => ?_
  have inside : i ≤ n := by omega
  rw [← List.getD_eq_getElem _ 0, ← List.getD_eq_getElem _ 0, ha.offset_eq inside,
    hb.offset_eq inside]

/-- Renaming back by the inverse gives the arrays back. -/
theorem PermutedArrays.back {back : Csr Time} {perm : List Nat} (mono : g.Monotone)
    (dests : g.DestinationsInRange) (homogeneous : g.Homogeneous)
    (bijective : perm.Perm (List.range g.numNodes)) (there : PermutedArrays g h perm)
    (again : PermutedArrays h back (Relabeling.inverse perm)) : back = g := by
  have nodes := there.numNodes
  have rename : ∀ i < g.numNodes, (Relabeling.inverse perm).getD i 0 < g.numNodes ∧
      perm.getD ((Relabeling.inverse perm).getD i 0) 0 = i := by
    intro i hi
    rw [Relabeling.inverse_getD bijective hi]
    exact ⟨Relabeling.idxOf_lt bijective hi, Relabeling.getD_idxOf bijective hi⟩
  have rows : ∀ i < g.numNodes, (h.neighbors ((Relabeling.inverse perm).getD i 0)).map
      (Relabeling.inverse perm).idxOf = g.neighbors i := by
    intro i hi
    obtain ⟨inside, same⟩ := rename i hi
    rw [there.relabeled.neighbors _ inside, same, List.map_map]
    refine (List.map_congr_left fun d hd => ?_).trans (List.map_id _)
    have below : d < g.numNodes := homogeneous ▸ dests d (mem_edges_of_mem_neighbors hd)
    show (Relabeling.inverse perm).idxOf (perm.idxOf d) = d
    rw [Relabeling.inverse_idxOf bijective (Relabeling.idxOf_lt bijective below),
      Relabeling.getD_idxOf bijective below]
  have flat : ∀ {α : Type} {f f' : Nat → List α}, (∀ i < g.numNodes, f i = f' i) →
      (List.range g.numNodes).flatMap f = (List.range g.numNodes).flatMap f' := fun same =>
    List.flatMap_congr fun i hi => same i (List.mem_range.mp hi)
  have slices : ∀ {α : Type} {xs ys : List α}, xs.length = g.edges.length →
      (∀ i < g.numNodes, slice ys (h.neighborRange i) =
        slice xs (g.neighborRange (perm.getD i 0))) →
      ((List.range g.numNodes).flatMap fun i =>
        slice ys (h.neighborRange ((Relabeling.inverse perm).getD i 0))) = xs := by
    intro α xs ys sized moved
    refine (flat fun i hi => ?_).trans (mono.slices_eq sized)
    obtain ⟨inside, same⟩ := rename i hi
    rw [moved _ inside, same]
  have payload : ∀ {α : Type} {old new : Option (List α)},
      new = old.map (fun xs => (List.range g.numNodes).flatMap fun i =>
        slice xs (g.neighborRange (perm.getD i 0))) →
      (∀ xs ∈ old, xs.length = g.edges.length) →
      (∀ i < g.numNodes, (new.map fun ys => slice ys (h.neighborRange i)) =
        old.map fun xs => slice xs (g.neighborRange (perm.getD i 0))) →
      (new.map fun ys => (List.range g.numNodes).flatMap fun i =>
        slice ys (h.neighborRange ((Relabeling.inverse perm).getD i 0))) = old := by
    intro α old new moved sized each
    cases old with
    | none =>
        rw [moved]
        rfl
    | some xs =>
        rw [Option.map_some] at moved
        rw [moved] at each ⊢
        exact congrArg some (slices (sized xs rfl) fun i hi => Option.some.inj (each i hi))
  refine eq_of_arrays (again.numNodes.trans nodes)
    (again.numDstNodes.trans (nodes.trans homogeneous.symm)) ?_ ?_ ?_ ?_
  · have stored := again.offsets
    rw [nodes] at stored
    have same : RowFill.Rows back.offsets g.neighbors g.numNodes :=
      ⟨stored.first, fun i hi => by rw [stored.next i hi, rows i hi]⟩
    refine offsets_unique same mono.rows ?_ g.offsets_length
    rw [back.offsets_length, again.numNodes, nodes]
  · rw [again.edges, nodes, flat rows]
    exact mono.rows_eq
  · rw [again.weights, nodes]
    exact payload there.weights g.weights_length there.relabeled.weights
  · rw [again.timestamps, nodes]
    exact payload there.timestamps g.timestamps_length there.relabeled.timestamps

theorem neighbors_nil {u : Nat} (hu : g.numNodes ≤ u) : g.neighbors u = [] := by
  rw [neighbors, neighborRange, if_neg (Nat.not_lt.mpr hu)]
  rfl

/-- Runs of the numbers below a bound hold each as often as its run is long. -/
theorem count_runs (times : Nat → Nat) (n u : Nat) :
    ((List.range n).flatMap fun s => List.replicate (times s) s).count u =
      if u < n then times u else 0 := by
  induction n with
  | zero => rfl
  | succ n ih =>
      rw [List.range_succ, List.flatMap_append, List.flatMap_singleton, List.count_append, ih,
        List.count_replicate]
      by_cases same : n = u
      · subst same
        simp
      · have other : (n == u) = false := beq_eq_false_iff_ne.mpr same
        rw [other]
        by_cases below : u < n
        · rw [if_pos below, if_pos (Nat.lt_succ_of_lt below)]
          rfl
        · rw [if_neg below, if_neg (show ¬ u < n + 1 by omega)]
          rfl

/-- The transpose lists for a vertex the sources of its arcs, ascending, each as often as it has
the arc. -/
theorem inNeighbors_spec (mono : g.Monotone) (inRange : ∀ d ∈ g.edges, d < g.numNodes) {v : Nat}
    (hv : v < g.numNodes) : (g.inNeighbors v).Pairwise (· ≤ ·) ∧
      ∀ u, (g.inNeighbors v).count u = (g.neighbors u).count v := by
  have runs : g.inNeighbors v =
      (List.range g.numNodes).flatMap fun s => List.replicate ((g.neighbors s).count v) s := by
    rw [inNeighbors_eq mono inRange hv, storedEdges, List.filter_flatMap, List.map_flatMap]
    refine List.flatMap_congr fun s _ => ?_
    rw [List.filter_map, List.map_map, List.count_eq_countP, List.countP_eq_length_filter]
    exact List.map_const' ..
  rw [runs]
  constructor
  · rw [List.pairwise_flatMap]
    refine ⟨fun s _ => List.pairwise_replicate.mpr (.inr (Nat.le_refl s)), ?_⟩
    refine List.pairwise_lt_range.imp fun {a b} below x hx y hy => ?_
    rw [List.eq_of_mem_replicate hx, List.eq_of_mem_replicate hy]
    exact Nat.le_of_lt below
  · intro u
    rw [count_runs]
    by_cases hu : u < g.numNodes
    · rw [if_pos hu]
    · rw [if_neg hu, neighbors_nil (Nat.not_lt.mp hu)]
      rfl

end Csr

section Main

variable [Inhabited Time]

/-- Permuting a full homogeneous graph fails, with an error, exactly for the lists that are no
permutation of its nodes, and renames it otherwise; the inverse renames it back. The transpose
holds the sources of a vertex in order. -/
theorem permute_relabels {g proven : ProvenGraph Time} (homogeneous : g.csr.Homogeneous)
    (valid : g.validateWithMode .full = .ok proven) :
    (∀ perm : List Nat,
      (perm.Perm (List.range g.csr.numNodes) → ∃ out back : ProvenGraph Time,
        g.permute perm = .ok out ∧ Csr.Relabeled g.csr out.csr perm ∧
          out.permute (Relabeling.inverse perm) = .ok back ∧ back.csr = g.csr) ∧
      (¬ perm.Perm (List.range g.csr.numNodes) →
        ∃ text, g.permute perm = .error (.error [text]))) ∧
    ∀ v < g.csr.numNodes, (g.csr.inNeighbors v).Pairwise (· ≤ ·) ∧
      ∀ u, (g.csr.inNeighbors v).count u = (g.csr.neighbors u).count v := by
  obtain ⟨mono, dests⟩ := ProvenGraph.validate_full valid
  refine ⟨fun perm => ⟨fun bijective => ?_, ProvenGraph.permute_refuses homogeneous valid⟩,
    fun v hv => Csr.inNeighbors_spec mono (fun d hd => homogeneous ▸ dests d hd) hv⟩
  obtain ⟨out, there, arrays, mono', dests'⟩ :=
    ProvenGraph.permute_ok homogeneous valid bijective
  obtain ⟨proven', valid', -⟩ := ProvenGraph.validate_of_full mono' dests' .full
  have homogeneous' : out.csr.Homogeneous := arrays.numDstNodes.trans arrays.numNodes.symm
  have inverse : (Relabeling.inverse perm).Perm (List.range out.csr.numNodes) := by
    rw [arrays.numNodes]
    exact Relabeling.inverse_perm bijective
  obtain ⟨back, again, arrays', -, -⟩ := ProvenGraph.permute_ok homogeneous' valid' inverse
  exact ⟨out, back, there, arrays.relabeled, again,
    arrays.back mono dests homogeneous bijective arrays'⟩

/-- Two nodes with a loop and an arc. -/
def loopAndArc : ProvenGraph Nat where
  csr := {
    numNodes := 2
    numDstNodes := 2
    offsets := [0, 2, 2]
    edges := [1, 0]
    weights := none
    timestamps := some [7, 5]
    numNodes_le := two_le_maxNodes
    numDstNodes_le := two_le_maxNodes
    offsets_length := rfl
    first_offset := rfl
    last_offset := rfl
    weights_length := nofun
    timestamps_length := by rintro _ ⟨⟩; rfl }
  validated := .full
  monotone _ := by decide
  destinations _ := by decide

theorem permute_relabels_loop : ∃ out back : ProvenGraph Nat,
    loopAndArc.permute [1, 0] = .ok out ∧ Csr.Relabeled loopAndArc.csr out.csr [1, 0] ∧
      out.permute (Relabeling.inverse [1, 0]) = .ok back ∧ back.csr = loopAndArc.csr :=
  ((permute_relabels (g := loopAndArc) rfl rfl).1 [1, 0]).1 (List.Perm.swap 0 1 [])

end Main

end AetherGraph
