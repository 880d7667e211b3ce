import AetherGraph.FeatureGather
import AetherGraph.Foundation.FoldM

/-! The coalesced gather lands every distinct row once and returns what reading row by row returns;
what an accepted header makes of a batch. -/

namespace AetherGraph

open Foundation

section Buffers

theorem le_nextMultiple {n k : Nat} (positive : 0 < k) : n ≤ nextMultiple n k := by
  have split := Nat.div_add_mod (n + (k - 1)) k
  have rest := Nat.mod_lt (n + (k - 1)) positive
  rw [nextMultiple, Nat.mul_comm]
  omega

theorem nextMultiple_lt {n k : Nat} (positive : 0 < k) : nextMultiple n k < n + k := by
  have le := Nat.div_mul_le_self (n + (k - 1)) k
  unfold nextMultiple
  omega

theorem nextMultiple_least {n k m : Nat} (positive : 0 < k) (le : n ≤ m) (multiple : m % k = 0) :
    nextMultiple n k ≤ m := by
  obtain ⟨q, rfl⟩ := Nat.dvd_of_mod_eq_zero multiple
  have turns : (n + (k - 1)) / k < q + 1 := by
    rw [Nat.div_lt_iff_lt_mul positive, Nat.succ_mul, Nat.mul_comm]
    omega
  rw [nextMultiple, Nat.mul_comm k q]
  exact Nat.mul_le_mul_right k (by omega)

theorem AlignedBufferPool.tryNew_ok {numSlots slotSize : Nat} (slots : 0 < numSlots)
    (size : 0 < slotSize)
    (small : numSlots * nextMultiple slotSize directIoAlignment + directIoAlignment < 2 ^ 64) :
    ∃ pool, AlignedBufferPool.tryNew numSlots slotSize = .ok pool ∧ pool.numSlots = numSlots ∧
      pool.slotSize = nextMultiple slotSize directIoAlignment := by
  have wide : slotSize ≤ numSlots * nextMultiple slotSize directIoAlignment :=
    Nat.le_trans (le_nextMultiple (by decide)) (Nat.le_mul_of_pos_left _ slots)
  have page : directIoAlignment = 4096 := rfl
  unfold tryNew
  rw [if_neg (by omega), checkedAdd_eq (by omega), if_neg (by simp)]
  dsimp only
  rw [checkedMul_eq (by omega)]
  dsimp only
  rw [checkedAdd_eq (by omega), if_neg (by simp)]
  exact ⟨_, rfl, rfl, rfl⟩

namespace UringLane

variable {lane : UringLane} {directIo : Bool}

theorem landing_ok (lane : UringLane) (directIo : Bool) {bytes featureSize : Nat}
    (size : 0 < featureSize) (some_ : 0 < bytes) (small : bytes + featureSize < 2 ^ 63) :
    ∃ lane', lane.landing directIo bytes featureSize = .ok lane' ∧
      bytes ≤ (lane'.region directIo).length := by
  have page : directIoAlignment = 4096 := rfl
  unfold landing
  cases directIo with
  | false =>
      refine ⟨_, rfl, ?_⟩
      have lanes := le_nextMultiple (n := bytes) (k := 4) (by decide)
      show bytes ≤ (lane.scratch ++ List.replicate _ 0).length
      rw [List.length_append, List.length_replicate]
      omega
  | true =>
      rw [if_pos rfl]
      have slot := le_nextMultiple (n := featureSize) (k := directIoAlignment) (by decide)
      have slotSmall := nextMultiple_lt (n := featureSize) (k := directIoAlignment) (by decide)
      generalize slotSize : nextMultiple featureSize directIoAlignment = aligned at slot slotSmall ⊢
      -- whole slots that cover the packed rows
      have covers : bytes ≤ (bytes + (aligned - 1)) / aligned * aligned :=
        le_nextMultiple (k := aligned) (by omega)
      have few : (bytes + (aligned - 1)) / aligned * aligned < bytes + aligned :=
        nextMultiple_lt (by omega)
      have positive : 0 < (bytes + (aligned - 1)) / aligned := Nat.div_pos (by omega) (by omega)
      generalize (bytes + (aligned - 1)) / aligned = slots at covers few positive ⊢
      obtain ⟨fresh, built, numSlots, size'⟩ := AlignedBufferPool.tryNew_ok positive size
        (show slots * nextMultiple featureSize directIoAlignment + directIoAlignment < 2 ^ 64 by
          rw [slotSize]
          omega)
      have freshOk : bytes ≤ fresh.region.length := by
        rw [fresh.size, numSlots, size', slotSize]
        exact covers
      unfold directPool
      cases kept : lane.pool with
      | none =>
          rw [built]
          exact ⟨_, rfl, freshOk⟩
      | some pool =>
          dsimp only
          split_ifs with outgrown
          · rw [built]
            exact ⟨_, rfl, freshOk⟩
          · refine ⟨lane, rfl, ?_⟩
            rw [not_or, Nat.not_lt, Nat.not_lt] at outgrown
            have least := nextMultiple_least (by decide) outgrown.2 pool.aligned
            rw [slotSize] at least
            rw [region, if_pos rfl, kept]
            show bytes ≤ pool.region.length
            rw [pool.size]
            exact Nat.le_trans covers (Nat.mul_le_mul outgrown.1 least)

theorem region_land (bytes : List U8) (same : bytes.length = (lane.region directIo).length) :
    (lane.land directIo bytes same).region directIo = bytes := by
  obtain ⟨scratch, pool⟩ := lane
  cases directIo with
  | false => rfl
  | true =>
      cases pool with
      | none => exact (List.eq_nil_of_length_eq_zero same).symm
      | some pool => rfl

end UringLane

end Buffers

section Decoding

theorem sliceExact_ok {xs : List U8} {start len : Nat} (fits : start + len ≤ xs.length) :
    sliceExact xs start len = some ((xs.drop start).take len) := if_pos fits

/-- A row of the packed landing. -/
def rowAt (featureSize : Nat) (landed : List U8) (slot : Nat) : List U8 :=
  (landed.drop (slot * featureSize)).take featureSize

variable {layout : RowLayout} {decoder : RowDecoder}

/-- What landed, row by row in the order of the slots. -/
def decodeSlots (layout : RowLayout) (half : HalfToFloat) (landed : List U8) (slotOf : List Nat) :
    List U32 :=
  slotOf.flatMap fun slot => decodeAll half layout.dtype (rowAt layout.featureSize landed slot)

theorem rowAt_length {featureSize rows slot : Nat} {landed : List U8}
    (total : landed.length = rows * featureSize) (inside : slot < rows) :
    slot * featureSize + featureSize ≤ landed.length ∧
      (rowAt featureSize landed slot).length = featureSize := by
  have fits : (slot + 1) * featureSize ≤ rows * featureSize := Nat.mul_le_mul_right _ inside
  rw [Nat.succ_mul] at fits
  refine ⟨by omega, ?_⟩
  rw [rowAt, List.length_take, List.length_drop]
  omega

theorem castF32_ok (half : HalfToFloat) {row : List U8} {len : Nat} (whole : row.length = len * 4) :
    castF32 row = some (decodeAll half .f32 row) := by
  unfold castF32
  rw [if_pos (by omega)]
  rfl

theorem scatterRows_eq (size : layout.featureSize = layout.featureDim * layout.dtype.elementSize)
    (dim : 0 < layout.featureDim) {landed : List U8} {slotOf : List Nat} {rows : Nat}
    (total : landed.length = rows * layout.featureSize) (slots : ∀ slot ∈ slotOf, slot < rows) :
    layout.scatterRows decoder landed slotOf =
      some (decodeSlots layout decoder.half landed slotOf) := by
  have row : ∀ slot ∈ slotOf, sliceExact landed (slot * layout.featureSize) layout.featureSize =
      some (rowAt layout.featureSize landed slot) := fun slot mem =>
    sliceExact_ok (rowAt_length total (slots slot mem)).1
  have length : ∀ slot ∈ slotOf, (rowAt layout.featureSize landed slot).length =
      layout.featureDim * layout.dtype.elementSize := fun slot mem => by
    rw [← size]
    exact (rowAt_length total (slots slot mem)).2
  have decoded : ∀ slot ∈ slotOf,
      ((sliceExact landed (slot * layout.featureSize) layout.featureSize).bind fun row =>
        decodeRow decoder.half decoder.path layout.dtype row layout.featureDim) =
      some (decodeAll decoder.half layout.dtype (rowAt layout.featureSize landed slot)) :=
    fun slot mem => by
      rw [row slot mem]
      exact decodeRow_eq decoder.half decoder.path (length slot mem)
  unfold RowLayout.scatterRows decodeSlots
  rw [List.flatMap_def]
  cases dtype : layout.dtype with
  | f32 =>
      rw [dtype] at length
      dsimp only
      rw [mapM_some fun slot mem => by
        rw [row slot mem]
        exact castF32_ok decoder.half (length slot mem)]
      rfl
  | f16 =>
      rw [dtype] at decoded
      dsimp only
      rw [if_neg (Nat.ne_of_gt dim), mapM_some decoded]
      rfl
  | bf16 =>
      rw [dtype] at decoded
      dsimp only
      rw [if_neg (Nat.ne_of_gt dim), mapM_some decoded]
      rfl

/-- The shortcut decodes what the scatter would. -/
theorem decodeScratch_eq (size : layout.featureSize = layout.featureDim * layout.dtype.elementSize)
    {scratch : List U8} {rows : Nat} (room : rows * layout.featureSize ≤ scratch.length) :
    layout.decodeScratch decoder scratch (rows * layout.featureSize) (rows * layout.featureDim) =
      some (decodeSlots layout decoder.half (scratch.take (rows * layout.featureSize))
        (List.range rows)) := by
  have length : (scratch.take (rows * layout.featureSize)).length =
      rows * layout.featureDim * layout.dtype.elementSize := by
    rw [List.length_take, Nat.min_eq_left room, size, Nat.mul_assoc]
  have pieces : decodeSlots layout decoder.half (scratch.take (rows * layout.featureSize))
      (List.range rows) =
      decodeAll decoder.half layout.dtype (scratch.take (rows * layout.featureSize)) := by
    unfold decodeSlots
    rw [← decodeAll_flatMap decoder.half layout.dtype layout.featureDim fun slot mem => ?_]
    · unfold rowAt
      rw [flatMap_range_pieces, List.take_take, Nat.min_self]
    · rw [← size]
      refine (rowAt_length ?_ (List.mem_range.mp mem)).2
      rw [List.length_take, Nat.min_eq_left room]
  have front : sliceExact scratch 0 (rows * layout.featureSize) =
      some (scratch.take (rows * layout.featureSize)) := by
    rw [sliceExact_ok (by omega), List.drop_zero]
  have decoded := decodeRow_eq decoder.half decoder.path length
  rw [pieces]
  unfold RowLayout.decodeScratch
  cases dtype : layout.dtype with
  | f32 =>
      rw [dtype] at length size
      have lanes : rows * layout.featureDim * 4 = rows * layout.featureSize := by
        rw [size, Nat.mul_assoc]
        rfl
      dsimp only
      rw [lanes, front]
      exact castF32_ok decoder.half length
  | f16 =>
      rw [dtype] at decoded
      dsimp only
      rw [front]
      exact decoded
  | bf16 =>
      rw [dtype] at decoded
      dsimp only
      rw [front]
      exact decoded

theorem decodeLanding_eq (decoder : RowDecoder) (lane : UringLane) {directIo : Bool}
    {plan : LandingPlan} (size : layout.featureSize = layout.featureDim * layout.dtype.elementSize)
    (dim : 0 < layout.featureDim) (slots : ∀ slot ∈ plan.slotOf, slot < plan.rows)
    (room : plan.rows * layout.featureSize ≤ (lane.region directIo).length) :
    layout.decodeLanding decoder lane directIo plan (plan.rows * layout.featureSize)
        plan.slotOf.length =
      some (decodeSlots layout decoder.half
        ((lane.region directIo).take (plan.rows * layout.featureSize)) plan.slotOf) := by
  unfold RowLayout.decodeLanding
  split_ifs with shortcut
  · rw [Bool.and_eq_true, Bool.not_eq_true'] at shortcut
    obtain ⟨rfl, identity⟩ := shortcut
    have same := LandingPlan.slotOf_of_identity identity
    have length : plan.slotOf.length = plan.rows := by rw [same, List.length_range]
    rw [length, same]
    exact decodeScratch_eq size room
  · rw [sliceExact_ok (by omega), List.drop_zero]
    refine scatterRows_eq size dim ?_ slots
    rw [List.length_take, Nat.min_eq_left room]

end Decoding

section Landed

variable {file region : List U8}

/-- Reads that fit the buffer write their pieces of the file. -/
theorem foldl_landRead {reads : List Read} (room : ∀ r ∈ reads, r.dest + r.len ≤ region.length) :
    reads.foldl (landRead file) region =
      (reads.map fun r => (r.dest, (file.drop r.offset).take r.len)).foldl
        (fun out w => writeAt out w.1 w.2) region := by
  induction reads generalizing region with
  | nil => rfl
  | cons r reads ih =>
      obtain ⟨here, room⟩ := List.forall_mem_cons.mp room
      rw [List.map_cons, List.foldl_cons, List.foldl_cons, ih fun q mem => by
        rw [landRead_length]
        exact room q mem, landRead, if_pos here]

/-- The bytes of a node's row. -/
def fileRow (layout : RowLayout) (file : List U8) (node : Nat) : List U8 :=
  (file.drop (layout.featuresStartOffset + node * layout.featureSize)).take layout.featureSize

variable {h : FeatureHeader} {plan : LandingPlan} {rows : List Nat} {maxRunRows : Nat}

theorem fileRow_length (checked : h.Checked file.length) {node : Nat} (inside : node < h.numNodes) :
    (fileRow h.layout file node).length = h.layout.featureSize := by
  obtain ⟨offset, stop, -⟩ := checked.row inside
  have within := checked.inside
  have size : h.layout.featureSize = h.featureSize := checked.featureSize.symm
  have start : h.layout.featuresStartOffset = h.featuresStartOffset := rfl
  rw [fileRow, List.length_take, List.length_drop, size, start]
  omega

/-- The packed landing of the rows. -/
def landedRows (layout : RowLayout) (file : List U8) (rows : List Nat) : List U8 :=
  rows.flatMap (fileRow layout file)

theorem landedRows_length (checked : h.Checked file.length) (inside : ∀ v ∈ rows, v < h.numNodes) :
    (landedRows h.layout file rows).length = rows.length * h.layout.featureSize :=
  flatMap_length fun v mem => fileRow_length checked (inside v mem)

/-- A run's bytes in the file are its rows' place in the landing. -/
theorem read_piece (checked : h.Checked file.length) (inside : ∀ v ∈ rows, v < h.numNodes)
    (covers : LandingPlan.Covers maxRunRows plan rows) {run : RowRun} (mem : run ∈ plan.runs) :
    ((landedRows h.layout file rows).drop (h.layout.read run).dest).take (h.layout.read run).len =
      (file.drop (h.layout.read run).offset).take (h.layout.read run).len := by
  have first : run.first < h.numNodes := by
    have at_ := covers.row_at mem (covers.lengths run mem).1
    exact inside _ (List.mem_of_getElem? at_)
  have offset : h.layout.rowOffset run.first =
      h.layout.featuresStartOffset + run.first * h.layout.featureSize := by
    rw [(checked.row first).1, checked.featureSize]
    rfl
  show ((landedRows h.layout file rows).drop (run.at_ * h.layout.featureSize)).take
      (run.rows * h.layout.featureSize) =
    (file.drop (h.layout.rowOffset run.first)).take (run.rows * h.layout.featureSize)
  rw [offset, ← flatMap_range_pieces, ← flatMap_range_pieces, List.flatMap_def, List.flatMap_def]
  refine congrArg List.flatten (List.map_congr_left fun k mem' => ?_)
  have row := covers.row_at mem (List.mem_range.mp mem')
  rw [List.drop_drop, List.drop_drop, ← Nat.add_mul, Nat.add_assoc, ← Nat.add_mul]
  exact take_drop_flatMap (fun v here => fileRow_length checked (inside v here)) row

theorem read_room {featureSize : Nat} (covers : LandingPlan.Covers maxRunRows plan rows)
    (room : rows.length * featureSize ≤ region.length) {run : RowRun} (mem : run ∈ plan.runs) :
    run.at_ * featureSize + run.rows * featureSize ≤ region.length := by
  rw [← Nat.add_mul]
  exact Nat.le_trans (Nat.mul_le_mul_right _ (covers.run_inside mem)) room

/-- However the reads are ordered, the rows land packed. -/
theorem landed_rows (checked : h.Checked file.length) (inside : ∀ v ∈ rows, v < h.numNodes)
    (covers : LandingPlan.Covers maxRunRows plan rows)
    (room : rows.length * h.layout.featureSize ≤ region.length) {landed : List Read}
    (all : landed.Perm (plan.runs.map h.layout.read)) :
    (landed.foldl (landRead file) region).take (rows.length * h.layout.featureSize) =
      landedRows h.layout file rows := by
  have readOf : ∀ r ∈ landed, ∃ run ∈ plan.runs, h.layout.read run = r := fun r mem =>
    List.mem_map.mp (all.mem_iff.mp mem)
  have fits : ∀ r ∈ landed, r.dest + r.len ≤ region.length := fun r mem => by
    obtain ⟨run, here, rfl⟩ := readOf r mem
    exact read_room covers room here
  have length := landedRows_length checked inside
  have whole : ∀ r ∈ landed, ((file.drop r.offset).take r.len).length = r.len := fun r mem => by
    obtain ⟨run, here, rfl⟩ := readOf r mem
    have within := read_room covers (Nat.le_of_eq length.symm) here
    rw [← read_piece checked inside covers here, List.length_take, List.length_drop]
    exact Nat.min_eq_left (Nat.le_sub_of_add_le' within)
  rw [foldl_landRead fits, ← length]
  refine foldl_writeAt_covering (List.forall_mem_map.mpr fun r mem => ?_)
    (List.forall_mem_map.mpr fun r mem => ?_) fun p within => ?_
  · obtain ⟨run, here, rfl⟩ := readOf r mem
    dsimp only
    rw [whole _ mem]
    exact read_piece checked inside covers here
  · dsimp only
    rw [whole r mem]
    exact fits r mem
  · rw [length] at within
    have size : 0 < h.layout.featureSize := Nat.pos_of_mul_pos_left (Nat.zero_lt_of_lt within)
    obtain ⟨run, here, k, turn, place⟩ := covers.run_of (Nat.div_lt_of_lt_mul (by
      rw [Nat.mul_comm]
      exact within))
    have mem : h.layout.read run ∈ landed := all.mem_iff.mpr (List.mem_map_of_mem here)
    refine ⟨_, List.mem_map_of_mem mem, ?_⟩
    dsimp only
    rw [whole _ mem]
    have split := Nat.div_add_mod p h.layout.featureSize
    have rest := Nat.mod_lt p size
    rw [← place] at split
    have turns : (k + 1) * h.layout.featureSize ≤ run.rows * h.layout.featureSize :=
      Nat.mul_le_mul_right _ turn
    show run.at_ * h.layout.featureSize ≤ p ∧
      p < run.at_ * h.layout.featureSize + run.rows * h.layout.featureSize
    rw [Nat.mul_comm, Nat.add_mul] at split
    rw [Nat.succ_mul] at turns
    omega

end Landed

section Gather

variable {file : List U8}

theorem batchRead_eq (device : Device file) {region : List U8} {reads : List Read}
    (some_ : reads ≠ []) (fits : ∀ r ∈ reads, r.dest + r.len ≤ region.length)
    (narrow : ∀ r ∈ reads, r.len ≤ u32Max) :
    batchRead device region reads =
      (match (device.complete reads).error with
        | none => .ok ()
        | some (errno, text) => .error (.failed errno text),
        (device.complete reads).landed.foldl (landRead file) region) := by
  have inside : (reads.any fun r => decide (region.length < r.dest + r.len)) = false := by
    rw [List.any_eq_false]
    intro r mem
    have here := fits r mem
    simp only [decide_eq_true_eq]
    omega
  have within : reads.find? (fun r => decide (u32Max < r.len)) = none := by
    rw [List.find?_eq_none]
    intro r mem
    have here := narrow r mem
    simp only [decide_eq_true_eq]
    omega
  unfold batchRead
  rw [if_neg some_, inside, within]
  rfl

variable {h : FeatureHeader} {nodes : List U32} {rows : List Nat}

theorem layout_featureSize_le (checked : h.Checked file.length) : h.layout.featureSize ≤ 400000 := by
  have dim := checked.featureDim
  have wide : h.dtype.elementSize ≤ 4 := by cases h.dtype <;> decide
  exact Nat.mul_le_mul dim wide

/-- The plan of a batch over rows of a positive size. -/
def planOf (h : FeatureHeader) (nodes : List U32) : LandingPlan :=
  landRows (max (maxRunBytes / h.layout.featureSize) 1) nodes

/-- A batch's plan and the rows it lands. -/
structure Planned (h : FeatureHeader) (nodes : List U32) (rows : List Nat) : Prop where
  covers : LandingPlan.Covers (max (maxRunBytes / h.layout.featureSize) 1) (planOf h nodes) rows
  members : ∀ v, v ∈ rows ↔ v ∈ (rowOrder nodes).map Prod.fst
  length : (planOf h nodes).slotOf.length = nodes.length
  bounded : ∀ slot ∈ (planOf h nodes).slotOf, slot = 0 ∨ slot < rows.length
  serves : nodes.length ≤ 2 ^ 32 → LandingPlan.Serves (planOf h nodes) nodes rows

theorem exists_planned (h : FeatureHeader) (nodes : List U32) : ∃ rows, Planned h nodes rows := by
  obtain ⟨rows, covers, members, length, bounded, serves⟩ := LandingPlan.landRows_covers
    (max (maxRunBytes / h.layout.featureSize) 1) nodes
  exact ⟨rows, covers, members, length, bounded, serves⟩

theorem Planned.count (plan : Planned h nodes rows) (few : rows.length < 2 ^ 32) :
    (planOf h nodes).rows = rows.length := by
  rw [plan.covers.count, Nat.mod_eq_of_lt few]

theorem Planned.rows_pos (plan : Planned h nodes rows) (nonempty : nodes ≠ []) :
    0 < rows.length := by
  have some_ : (rowOrder nodes).map Prod.fst ≠ [] := by
    rw [Ne, ← List.length_eq_zero_iff, List.length_map, rowOrder_length, List.length_eq_zero_iff]
    exact nonempty
  obtain ⟨v, mem⟩ := List.exists_mem_of_ne_nil _ some_
  exact List.length_pos_of_mem ((plan.members v).mpr mem)

theorem new_eq (size : 0 < h.layout.featureSize) :
    LandingPlan.new nodes h.layout.featureSize = some (planOf h nodes) := by
  rw [LandingPlan.new, if_neg (Nat.ne_of_gt size)]
  rfl

/-- The reads of a batch. -/
def readsOf (h : FeatureHeader) (nodes : List U32) : List Read :=
  (planOf h nodes).runs.map h.layout.read

/-- The reads of a plan are narrow and land inside its landing buffer. -/
theorem readsOf_fit (checked : h.Checked file.length) {region : List U8}
    (plan : Planned h nodes rows) (room : rows.length * h.layout.featureSize ≤ region.length) :
    ∀ r ∈ readsOf h nodes, r.dest + r.len ≤ region.length ∧ r.len ≤ u32Max := by
  have covers := plan.covers
  refine List.forall_mem_map.mpr fun run mem => ⟨read_room covers room mem, ?_⟩
  show run.rows * h.layout.featureSize ≤ 2 ^ 32 - 1
  by_cases several : 1 < run.rows
  · exact Nat.le_trans (covers.run_bytes mem several) (by decide)
  · have positive := (covers.lengths run mem).1
    have single : run.rows = 1 := by omega
    rw [single, Nat.one_mul]
    exact Nat.le_trans (layout_featureSize_le checked) (by decide)

/-- The gather over a plan whose row count did not wrap: the device's own failure, or the rows
decoded from what landed. -/
theorem uringGatherRows_eq (checked : h.Checked file.length) (dim : 0 < h.featureDim)
    (plan : Planned h nodes rows) (few : rows.length < 2 ^ 32) (nonempty : nodes ≠ [])
    (decoder : RowDecoder) (device : Device file) (lane : UringLane) (directIo : Bool) :
    ∃ region : List U8, rows.length * h.layout.featureSize ≤ region.length ∧
      (h.layout.uringGatherRows decoder device lane nodes directIo).1 =
        match (device.complete (readsOf h nodes)).error with
        | some (errno, text) => .error (.failed errno text)
        | none => .ok (decodeSlots h.layout decoder.half
            (((device.complete (readsOf h nodes)).landed.foldl (landRead file) region).take
              (rows.length * h.layout.featureSize)) (planOf h nodes).slotOf) := by
  have size : 0 < h.layout.featureSize := Nat.mul_pos dim h.dtype.elementSize_pos
  have small := layout_featureSize_le checked
  have some_ := plan.rows_pos nonempty
  have count := plan.count few
  have bytes : rows.length * h.layout.featureSize ≤ 2 ^ 32 * 400000 :=
    Nat.mul_le_mul (Nat.le_of_lt few) small
  obtain ⟨ready, prepared, room⟩ := lane.landing_ok directIo size (Nat.mul_pos some_ size)
    (show rows.length * h.layout.featureSize + h.layout.featureSize < 2 ^ 63 by omega)
  have fit := readsOf_fit checked plan room
  have runs : readsOf h nodes ≠ [] := by
    obtain ⟨run, mem, -⟩ := plan.covers.run_of some_
    exact List.ne_nil_of_mem (List.mem_map_of_mem mem)
  have batch := batchRead_eq device runs (fun r mem => (fit r mem).1) fun r mem => (fit r mem).2
  refine ⟨ready.region directIo, room, ?_⟩
  unfold RowLayout.uringGatherRows
  rw [if_neg nonempty, new_eq size]
  dsimp only
  rw [count, checkedMul_eq (by omega)]
  dsimp only
  rw [prepared]
  dsimp only
  generalize_proofs same
  revert same
  rw [show (planOf h nodes).runs.map h.layout.read = readsOf h nodes from rfl, batch]
  intro same
  dsimp only
  cases (device.complete (readsOf h nodes)).error with
  | some e => rfl
  | none =>
      have landed := UringLane.region_land _ same
      have within : ∀ slot ∈ (planOf h nodes).slotOf, slot < (planOf h nodes).rows :=
        fun slot mem => by
          rw [count]
          exact (plan.bounded slot mem).elim (fun zero => zero ▸ some_) id
      have fits : (planOf h nodes).rows * h.layout.featureSize ≤
          ((ready.land directIo _ same).region directIo).length := by
        rw [landed, count, foldl_landRead_length]
        exact room
      have decoded := decodeLanding_eq decoder _ (show h.layout.featureSize =
        h.layout.featureDim * h.layout.dtype.elementSize from rfl) dim within fits
      rw [count, plan.length, landed] at decoded
      dsimp only
      rw [decoded]
      rfl

/-- The elements of the rows, in the order of the requests. -/
def decodedRows (h : FeatureHeader) (half : HalfToFloat) (file : List U8) (nodes : List U32) :
    List U32 :=
  nodes.flatMap fun node => decodeAll half h.dtype (fileRow h.layout file node.toNat)

/-- Slots into the packed rows lead to the requests' own rows. -/
theorem decodeSlots_landedRows (checked : h.Checked file.length)
    (inside : ∀ v ∈ rows, v < h.numNodes) (serves : LandingPlan.Serves (planOf h nodes) nodes rows)
    (length : (planOf h nodes).slotOf.length = nodes.length) (half : HalfToFloat) :
    decodeSlots h.layout half (landedRows h.layout file rows) (planOf h nodes).slotOf =
      decodedRows h half file nodes := by
  unfold decodeSlots decodedRows
  rw [List.flatMap_def, List.flatMap_def]
  refine congrArg List.flatten (List.ext_getElem? fun i => ?_)
  rw [List.getElem?_map, List.getElem?_map]
  rcases Nat.lt_or_ge i nodes.length with within | outside
  · have at_ := List.getElem?_eq_getElem within
    obtain ⟨slot, found, row⟩ := serves.slots i _ at_
    have bytes : rowAt h.layout.featureSize (landedRows h.layout file rows) slot = _ :=
      take_drop_flatMap (fun v mem => fileRow_length checked (inside v mem)) row
    rw [found, at_, Option.map_some, Option.map_some, bytes]
    rfl
  · rw [List.getElem?_eq_none outside, List.getElem?_eq_none (by omega)]
    rfl

theorem readExactAt_row (checked : h.Checked file.length) {device : Device file}
    (quiet : ∀ offset len, device.pread offset len = none) {node : Nat}
    (inside : node < h.numNodes) :
    RowLayout.readExactAt device h.layout.featureSize (h.layout.rowOffset node) =
      .ok (fileRow h.layout file node) := by
  obtain ⟨offset, stop, -⟩ := checked.row inside
  have within := checked.inside
  have size : h.layout.featureSize = h.featureSize := checked.featureSize.symm
  have start : h.layout.featuresStartOffset = h.featuresStartOffset := rfl
  unfold RowLayout.readExactAt fileRow
  split_ifs with empty
  · rw [empty, List.take_zero]
  · rw [quiet]
    dsimp only
    rw [sliceExact_ok (by omega), offset, size, start]
    rfl

theorem batchReadSync_eq (checked : h.Checked file.length) {device : Device file}
    (quiet : ∀ offset len, device.pread offset len = none)
    (inside : ∀ node ∈ nodes, node.toNat < h.numNodes) (decoder : RowDecoder) :
    h.layout.batchReadSync decoder device nodes = .ok (decodedRows h decoder.half file nodes) := by
  unfold RowLayout.batchReadSync decodedRows
  rw [List.flatMap_def]
  rw [mapM_ok (g := fun node : U32 => decodeAll decoder.half h.dtype
    (fileRow h.layout file node.toNat)) fun node mem => ?_]
  · rfl
  · unfold RowLayout.readRow
    rw [readExactAt_row checked quiet (inside node mem)]
    show (decodeRow decoder.half decoder.path h.dtype (fileRow h.layout file node.toNat)
      h.featureDim).elim _ _ = _
    rw [decodeRow_eq decoder.half decoder.path (fileRow_length checked (inside node mem))]
    rfl

/-- A batch that the device completes is what the fallback reads, row by row in the order of the
requests; and what the plan behind it does. -/
theorem uring_gather_eq_batch_read_sync {filePrefix file : List U8} {h : FeatureHeader}
    (parsed : parseFeatureHeaderBytes filePrefix file.length = .ok h) (dim : 1 ≤ h.featureDim)
    (nodes : List U32) (short : nodes.length < 2 ^ 32)
    (inside : ∀ node ∈ nodes, node.toNat < h.numNodes) (decoder : RowDecoder)
    (device : Device file) (lane : UringLane) (directIo : Bool) :
    ((∀ offset len, device.pread offset len = none) →
        h.layout.batchReadSync decoder device nodes =
          .ok (decodedRows h decoder.half file nodes)) ∧
      ∃ plan, LandingPlan.new nodes h.layout.featureSize = some plan ∧
        ((device.complete (plan.runs.map h.layout.read)).error = none →
          (h.layout.uringGatherRows decoder device lane nodes directIo).1 =
            .ok (decodedRows h decoder.half file nodes)) ∧
        (∀ errno text, nodes ≠ [] →
          (device.complete (plan.runs.map h.layout.read)).error = some (errno, text) →
          (h.layout.uringGatherRows decoder device lane nodes directIo).1 =
            .error (.failed errno text)) ∧
        plan.runs.Pairwise (fun a b =>
          (h.layout.read a).offset + (h.layout.read a).len ≤ (h.layout.read b).offset ∧
            (h.layout.read a).dest + (h.layout.read a).len ≤ (h.layout.read b).dest) ∧
        (plan.runs.flatMap RowRun.nodes).Nodup ∧
        (∀ v, v ∈ plan.runs.flatMap RowRun.nodes ↔ v ∈ nodes.map BitVec.toNat) ∧
        ∀ run ∈ plan.runs,
          (h.layout.read run).dest + (h.layout.read run).len ≤ plan.rows * h.layout.featureSize ∧
            (1 < run.rows → (h.layout.read run).len ≤ maxRunBytes) := by
  have checked := parse_checked parsed
  have size : 0 < h.layout.featureSize := Nat.mul_pos dim h.dtype.elementSize_pos
  obtain ⟨rows, planned⟩ := exists_planned h nodes
  have covers := planned.covers
  have serves := planned.serves (Nat.le_of_lt short)
  have below : ∀ v ∈ rows, v < h.numNodes := fun v mem => by
    obtain ⟨node, here, rfl⟩ := List.mem_map.mp ((serves.members v).mp mem)
    exact inside node here
  have few : rows.length < 2 ^ 32 := by
    have sub : rows ⊆ nodes.map BitVec.toNat := fun v mem => (serves.members v).mp mem
    have nodup : rows.Nodup := covers.ascending.imp fun lt => Nat.ne_of_lt lt
    have shorter := (List.Nodup.subperm nodup sub).length_le
    rw [List.length_map] at shorter
    omega
  refine ⟨fun quiet => batchReadSync_eq checked quiet inside decoder, planOf h nodes,
    new_eq size, fun done => ?_, fun errno text nonempty failed => ?_, ?_, ?_, fun v => ?_,
    fun run mem => ⟨?_, fun several => covers.run_bytes mem several⟩⟩
  · rcases Decidable.em (nodes = []) with rfl | nonempty
    · unfold RowLayout.uringGatherRows
      rw [if_pos rfl]
      rfl
    · obtain ⟨region, room, eq⟩ := uringGatherRows_eq checked dim planned few nonempty decoder
        device lane directIo
      change (device.complete (readsOf h nodes)).error = none at done
      have all := (device.whole (readsOf h nodes) done).1
      rw [eq, done]
      dsimp only
      rw [landed_rows checked below covers room all,
        decodeSlots_landedRows checked below serves planned.length]
  · obtain ⟨region, room, eq⟩ := uringGatherRows_eq checked dim planned few nonempty decoder
      device lane directIo
    change (device.complete (readsOf h nodes)).error = some (errno, text) at failed
    rw [eq, failed]
  · refine covers.apart.imp_of_mem fun {a b} memA memB apart => ?_
    have firstOf : ∀ run ∈ (planOf h nodes).runs,
        (h.layout.read run).offset = h.featuresStartOffset + run.first * h.layout.featureSize :=
      fun run mem => by
        have at_ : rows[run.at_]? = some run.first := covers.row_at mem (covers.lengths run mem).1
        rw [show (h.layout.read run).offset = h.layout.rowOffset run.first from rfl,
          (checked.row (below _ (List.mem_of_getElem? at_))).1, checked.featureSize]
        rfl
    have file_ := Nat.mul_le_mul_right h.layout.featureSize apart.1
    have landing := Nat.mul_le_mul_right h.layout.featureSize apart.2
    rw [Nat.add_mul] at file_ landing
    rw [firstOf a memA, firstOf b memB]
    show _ + a.rows * h.layout.featureSize ≤ _ ∧ a.at_ * h.layout.featureSize + _ ≤ _
    refine ⟨?_, landing⟩
    omega
  · rw [covers.runs_nodes]
    exact covers.ascending.imp fun lt => Nat.ne_of_lt lt
  · rw [covers.runs_nodes]
    exact serves.members v
  · rw [planned.count few]
    exact Nat.le_trans (Nat.le_of_eq (Nat.add_mul _ _ _).symm)
      (Nat.mul_le_mul_right _ (covers.run_inside mem))

/-- A file of the `f16` rows `1` and `0`. -/
def halfRows : List U8 :=
  featureMagic ++ toLe 8 2 ++ toLe 8 1 ++ toLe 8 36 ++ [1, 0, 0, 0] ++ [0x00, 0x3c, 0x00, 0x00]

def halfHeader : FeatureHeader := ⟨2, 1, 36, 2, 4, .f16⟩

/-- A device that completes a batch backwards. -/
def backwardDevice (file : List U8) : Device file where
  complete reads :=
    if reads.all fun r => decide (r.offset + r.len ≤ file.length) then ⟨reads.reverse, none⟩
    else ⟨[], some (none, "short read")⟩
  whole reads done := by
    split_ifs at done ⊢ with all
    exact ⟨List.reverse_perm reads, fun r mem => of_decide_eq_true (List.all_eq_true.mp all r mem)⟩
  pread _ _ := none

/-- The conversion of the two values of the file. -/
def halfDecoder : RowDecoder :=
  ⟨⟨fun x => if x = 0x3c00 then 0x3f800000 else 0, fun _ x => if x = 0x3c00 then 0x3f800000 else 0,
    fun _ _ => rfl⟩, .f16c⟩

theorem parse_halfRows :
    parseFeatureHeaderBytes halfRows 40 = .ok halfHeader := by decide +kernel

theorem rowOrder_halfRows : rowOrder [1, 0, 1] = [(0, 1), (1, 0), (1, 2)] := by
  have sorted : ([4294967296, 1, 4294967298].mergeSort fun a b => decide (a ≤ b)) =
      [1, 4294967296, 4294967298] :=
    List.Perm.eq_of_pairwise (fun _ _ _ _ => Nat.le_antisymm) (mergeSort_ascending _) (by decide)
      ((List.mergeSort_perm _ _).trans (by decide))
  show ([4294967296, 1, 4294967298].mergeSort fun a b => decide (a ≤ b)).map unpackRow = _
  rw [sorted]
  decide

theorem uring_gather_half_rows :
    (halfHeader.layout.uringGatherRows halfDecoder (backwardDevice halfRows) ⟨[], none⟩ [1, 0, 1]
      true).1 = .ok (decodedRows halfHeader halfDecoder.half halfRows [1, 0, 1]) := by
  obtain ⟨-, plan, planned, gathered, -⟩ := uring_gather_eq_batch_read_sync
    (show parseFeatureHeaderBytes halfRows halfRows.length = .ok halfHeader from parse_halfRows)
    (Nat.le_refl 1) [1, 0, 1] (by decide) (by simp [halfHeader]) halfDecoder
    (backwardDevice halfRows) ⟨[], none⟩ true
  obtain rfl : plan = ⟨[1, 0, 1], [⟨0, 0, 2⟩], 2⟩ :=
    Option.some.inj (planned.symm.trans (by
      rw [LandingPlan.new, if_neg (by decide), landRows, rowOrder_halfRows]
      decide +kernel))
  exact gathered (by decide +kernel)

end Gather

end AetherGraph
