import AetherGraph.GatherFaithful

/-! What an accepted header makes of a store's batches: the rows and hints inside the payload, and
when a batch cannot panic. -/

namespace AetherGraph

open Foundation

section Hints

/-- Hints and an open run between two file offsets. -/
structure Hints.Inside (lo hi : Nat) (s : Hints) : Prop where
  issued : ∀ hint ∈ s.issued, lo ≤ hint.1 ∧ hint.1 + hint.2 ≤ hi
  run : ∀ run, s.run = some run → lo ≤ run.1 ∧ run.1 ≤ run.2 ∧ run.2 ≤ hi

namespace Hints

variable {lo hi : Nat} {s : Hints}

theorem range_inside {run : Nat × Nat} (inside : lo ≤ run.1 ∧ run.1 ≤ run.2 ∧ run.2 ≤ hi)
    (narrow : hi < 2 ^ 64) : lo ≤ (range run).1 ∧ (range run).1 + (range run).2 ≤ hi := by
  unfold range
  dsimp only
  rw [show run.2 + 2 ^ 64 - run.1 = run.2 - run.1 + 2 ^ 64 by omega, Nat.add_mod_right,
    Nat.mod_eq_of_lt (by omega)]
  omega

theorem Inside.row (h : Inside lo hi s) (narrow : hi < 2 ^ 64) {start stop : Nat}
    (inside : lo ≤ start ∧ start ≤ stop ∧ stop ≤ hi)
    (after : ∀ run, s.run = some run → run.1 ≤ start) : Inside lo hi (s.row start stop) := by
  unfold Hints.row
  cases open_ : s.run with
  | none => exact ⟨h.issued, fun run eq => Option.some.inj eq ▸ inside⟩
  | some run =>
      have before := h.run run open_
      have first := after run open_
      dsimp only
      split_ifs with merges
      · refine ⟨h.issued, fun run' eq => ?_⟩
        obtain rfl := Option.some.inj eq
        exact ⟨before.1, Nat.le_trans first inside.2.1, inside.2.2⟩
      · exact ⟨List.forall_mem_cons.mpr ⟨range_inside before narrow, h.issued⟩,
          fun run' eq => Option.some.inj eq ▸ inside⟩

theorem Inside.finish (h : Inside lo hi s) (narrow : hi < 2 ^ 64) :
    ∀ hint ∈ s.finish, lo ≤ hint.1 ∧ hint.1 + hint.2 ≤ hi := by
  intro hint mem
  rw [Hints.finish, List.mem_reverse, List.mem_append] at mem
  rcases mem with last | issued
  · cases open_ : s.run with
    | none =>
        rw [open_] at last
        exact absurd last List.not_mem_nil
    | some run =>
        rw [open_] at last
        obtain rfl := List.mem_singleton.mp last
        exact range_inside (h.run run open_) narrow
  · exact h.issued hint issued

/-- The open run begins at or before the row. -/
theorem row_run (s : Hints) (start stop : Nat) (after : ∀ run, s.run = some run → run.1 ≤ start) :
    ∀ run, (s.row start stop).run = some run → run.1 ≤ start := by
  intro run eq
  unfold Hints.row at eq
  cases open_ : s.run with
  | none =>
      rw [open_] at eq
      exact Option.some.inj eq ▸ Nat.le_refl start
  | some first =>
      rw [open_] at eq
      dsimp only at eq
      split_ifs at eq with merges
      · exact Option.some.inj eq ▸ after first open_
      · exact Option.some.inj eq ▸ Nat.le_refl start

/-- Rows in ascending order. -/
theorem Inside.foldl {start stop : Nat → Nat} {nodes : List Nat} (h : Inside lo hi s)
    (narrow : hi < 2 ^ 64)
    (inside : ∀ v ∈ nodes, lo ≤ start v ∧ start v ≤ stop v ∧ stop v ≤ hi)
    (sorted : nodes.Pairwise fun a b => start a ≤ start b)
    (after : ∀ v ∈ nodes, ∀ run, s.run = some run → run.1 ≤ start v) :
    Inside lo hi (nodes.foldl (fun s v => s.row (start v) (stop v)) s) := by
  induction nodes generalizing s with
  | nil => exact h
  | cons v nodes ih =>
      obtain ⟨here, inside⟩ := List.forall_mem_cons.mp inside
      obtain ⟨first, after⟩ := List.forall_mem_cons.mp after
      obtain ⟨least, sorted⟩ := List.pairwise_cons.mp sorted
      refine ih (h.row narrow here first) inside sorted fun w mem run eq => ?_
      exact Nat.le_trans (row_run s _ _ first run eq) (least w mem)

end Hints

variable {h : FeatureHeader} {fileSize : Nat} {nodes : List U32}

theorem load_layout (h : FeatureHeader) (direct : Bool) (uring : Option UringLane) :
    (SyncFeatureStore.load h direct uring).layout = h.layout := rfl

/-- Every hint is inside the payload. -/
theorem prefetchNodes_inside (checked : h.Checked fileSize)
    (inside : ∀ node ∈ nodes, node.toNat < h.numNodes) (direct : Bool) (uring : Option UringLane) :
    ∀ hint ∈ (SyncFeatureStore.load h direct uring).prefetchNodes nodes,
      h.featuresStartOffset ≤ hint.1 ∧
        hint.1 + hint.2 ≤ h.featuresStartOffset + h.payloadBytes := by
  unfold SyncFeatureStore.prefetchNodes
  split_ifs with bypass
  · exact fun _ mem => absurd mem List.not_mem_nil
  · have narrow := checked.narrow
    have size : (SyncFeatureStore.load h direct uring).rowBytes = h.featureSize :=
      checked.featureSize.symm
    dsimp only
    rw [size, load_layout]
    generalize sortedRows : (nodes.map BitVec.toNat).mergeSort (fun a b => decide (a ≤ b)) = sorted
    have order : sorted.Pairwise (· ≤ ·) := sortedRows ▸ mergeSort_ascending _
    have below : ∀ v ∈ sorted, v < h.numNodes := by
      rw [← sortedRows]
      intro v mem
      obtain ⟨node, here, rfl⟩ := List.mem_map.mp (List.mem_mergeSort.mp mem)
      exact inside node here
    have sub := List.destutter_sublist (· ≠ ·) sorted
    have rows : ∀ v ∈ sorted.destutter (· ≠ ·),
        h.layout.rowOffset v = h.featuresStartOffset + v * h.featureSize ∧
          h.layout.rowOffset v + h.featureSize ≤ h.featuresStartOffset + h.payloadBytes :=
      fun v mem => by
        obtain ⟨offset, stop, -⟩ := checked.row (below v (sub.subset mem))
        exact ⟨offset, stop⟩
    have empty : Hints.Inside h.featuresStartOffset (h.featuresStartOffset + h.payloadBytes)
        ⟨[], none⟩ := ⟨fun _ mem => absurd mem List.not_mem_nil, nofun⟩
    refine (empty.foldl narrow (fun v mem => ?_) ?_ fun _ _ => nofun).finish narrow
    · obtain ⟨offset, stop⟩ := rows v mem
      rw [Nat.mod_eq_of_lt (by omega)]
      omega
    · refine (order.sublist sub).imp_of_mem fun {a b} memA memB le => ?_
      rw [(rows a memA).1, (rows b memB).1]
      have := Nat.mul_le_mul_right h.featureSize le
      omega

end Hints

section Panics

variable {file : List U8} {h : FeatureHeader} {nodes : List U32} {rows : List Nat}

/-- A buffer that was filled is as long as asked. -/
theorem readExactAt_cases (device : Device file) (len offset : Nat) :
    (∃ errno text, RowLayout.readExactAt device len offset = .error (.failed errno text)) ∨
      ∃ buffer : List U8, RowLayout.readExactAt device len offset = .ok buffer ∧
        buffer.length = len := by
  unfold RowLayout.readExactAt
  split_ifs with empty
  · exact .inr ⟨[], rfl, empty.symm⟩
  · cases device.pread offset len with
    | some e => exact .inl ⟨e.1, e.2, rfl⟩
    | none =>
        unfold sliceExact
        dsimp only
        split_ifs with fits
        · refine .inr ⟨_, rfl, ?_⟩
          rw [List.length_take, List.length_drop]
          omega
        · exact .inl ⟨_, _, rfl⟩

/-- The fallback fails only as the kernel does. -/
theorem batchReadSync_ne_panic (decoder : RowDecoder) (device : Device file) :
    h.layout.batchReadSync decoder device nodes ≠ .error .panic := by
  intro panicked
  unfold RowLayout.batchReadSync at panicked
  cases ran : nodes.mapM (h.layout.readRow decoder device) with
  | ok bytes =>
      rw [ran] at panicked
      cases panicked
  | error e =>
      rw [ran] at panicked
      obtain rfl := Except.error.inj panicked
      obtain ⟨node, -, failed⟩ := mapM_failed ran
      unfold RowLayout.readRow at failed
      rcases readExactAt_cases device h.layout.featureSize (h.layout.rowOffset node.toNat) with
        ⟨errno, text, read⟩ | ⟨buffer, read, whole⟩
      · rw [read] at failed
        cases failed
      · rw [read] at failed
        change (decodeRow decoder.half decoder.path h.dtype buffer h.featureDim).elim _ _ = _
          at failed
        rw [decodeRow_eq decoder.half decoder.path whole] at failed
        cases failed

/-- Every `u32` value is the node of a packed request: the row count comes back to zero. -/
def RowCountWraps (nodes : List U32) : Prop :=
  ∀ v < 2 ^ 32, v ∈ (rowOrder nodes).map Prod.fst

theorem Planned.few_iff (plan : Planned h nodes rows) :
    rows.length < 2 ^ 32 ↔ ¬RowCountWraps nodes := by
  have nodup : rows.Nodup := plan.covers.ascending.imp fun lt => Nat.ne_of_lt lt
  have narrow : ∀ v ∈ rows, v < 2 ^ 32 := fun v mem => by
    obtain ⟨e, here, rfl⟩ := List.mem_map.mp ((plan.members v).mp mem)
    exact rowOrder_narrow nodes e here
  constructor
  · intro few wraps
    have sub : List.range (2 ^ 32) ⊆ rows := fun v mem =>
      (plan.members v).mpr (wraps v (List.mem_range.mp mem))
    have longer := (List.Nodup.subperm List.nodup_range sub).length_le
    rw [List.length_range] at longer
    omega
  · intro some_
    unfold RowCountWraps at some_
    push Not at some_
    obtain ⟨v, small, absent⟩ := some_
    have fresh : (v :: rows).Nodup :=
      List.nodup_cons.mpr ⟨fun mem => absent ((plan.members v).mp mem), nodup⟩
    have sub : v :: rows ⊆ List.range (2 ^ 32) := fun w mem =>
      List.mem_range.mpr ((List.mem_cons.mp mem).elim (fun eq => eq ▸ small) (narrow w))
    have shorter := (List.Nodup.subperm fresh sub).length_le
    rw [List.length_range, List.length_cons] at shorter
    omega

theorem uringGatherRows_ne_panic (checked : h.Checked file.length)
    (sound : nodes = [] ∨ 0 < h.featureDim ∧ ¬RowCountWraps nodes) (decoder : RowDecoder)
    (device : Device file) (lane : UringLane) (directIo : Bool) :
    (h.layout.uringGatherRows decoder device lane nodes directIo).1 ≠ .error .panic := by
  rcases Decidable.em (nodes = []) with rfl | nonempty
  · unfold RowLayout.uringGatherRows
    rw [if_pos rfl]
    exact nofun
  · obtain ⟨dim, narrow⟩ := sound.resolve_left nonempty
    obtain ⟨rows, plan⟩ := exists_planned h nodes
    obtain ⟨region, -, eq⟩ := uringGatherRows_eq checked dim plan (plan.few_iff.mpr narrow) nonempty
      decoder device lane directIo
    rw [eq]
    cases (device.complete (readsOf h nodes)).error with
    | none => exact nofun
    | some e => exact nofun

theorem getBatch_ne_panic (checked : h.Checked file.length)
    (sound : nodes = [] ∨ 0 < h.featureDim ∧ ¬RowCountWraps nodes) (decoder : RowDecoder)
    (device : Device file) (direct : Bool) (uring : Option UringLane) :
    ((SyncFeatureStore.load h direct uring).getBatch device decoder nodes).1 ≠ .error .panic := by
  have fallback : h.layout.batchReadSync decoder device nodes ≠ .error .panic :=
    batchReadSync_ne_panic decoder device
  unfold SyncFeatureStore.getBatch
  cases bounds : (SyncFeatureStore.load h direct uring).checkBounds nodes with
  | error e =>
      unfold SyncFeatureStore.checkBounds at bounds
      split at bounds
      · cases bounds
        exact nofun
      · cases bounds
  | ok =>
      cases uring with
      | none => exact fallback
      | some lane =>
          have gathered := uringGatherRows_ne_panic checked sound decoder device lane direct
          dsimp only
          rw [load_layout]
          dsimp only [SyncFeatureStore.load]
          cases ran : h.layout.uringGatherRows decoder device lane nodes direct with
          | mk outcome after =>
              rw [ran] at gathered
              cases outcome with
              | ok features => exact nofun
              | error e =>
                  dsimp only
                  split_ifs with unsupported
                  · exact fallback
                  · exact gathered

/-- A row of no bytes divides by zero. -/
theorem uringGatherRows_no_bytes (dim : h.featureDim = 0) (nonempty : nodes ≠ [])
    (decoder : RowDecoder) (device : Device file) (lane : UringLane) (directIo : Bool) :
    (h.layout.uringGatherRows decoder device lane nodes directIo).1 = .error .panic := by
  have size : h.layout.featureSize = 0 := by
    show h.featureDim * h.dtype.elementSize = 0
    rw [dim, Nat.zero_mul]
  unfold RowLayout.uringGatherRows
  rw [if_neg nonempty, LandingPlan.new, if_pos size]

/-- A row count that came back to zero lands rows outside a buffer of no bytes. -/
theorem uringGatherRows_wrapped (dim : 0 < h.featureDim) (wraps : RowCountWraps nodes)
    (nonempty : nodes ≠ []) (decoder : RowDecoder) (device : Device file) :
    (h.layout.uringGatherRows decoder device ⟨[], none⟩ nodes false).1 = .error .panic := by
  have size : 0 < h.layout.featureSize := Nat.mul_pos dim h.dtype.elementSize_pos
  obtain ⟨rows, plan⟩ := exists_planned h nodes
  have narrow : rows.length ≤ 2 ^ 32 := Landing.ascending_length_le plan.covers.ascending
    fun v mem => by
      obtain ⟨e, here, rfl⟩ := List.mem_map.mp ((plan.members v).mp mem)
      exact rowOrder_narrow nodes e here
  have full : rows.length = 2 ^ 32 := by
    have few := mt plan.few_iff.mp (not_not.mpr wraps)
    omega
  have count : (planOf h nodes).rows = 0 := by
    rw [plan.covers.count, full, Nat.mod_self]
  obtain ⟨run, mem, -⟩ := plan.covers.run_of (plan.rows_pos nonempty)
  have outside : ((planOf h nodes).runs.map h.layout.read).any
      (fun r => decide (([] : List U8).length < r.dest + r.len)) = true := by
    rw [List.any_eq_true]
    refine ⟨_, List.mem_map_of_mem mem, decide_eq_true ?_⟩
    have long := Nat.mul_pos (plan.covers.lengths run mem).1 size
    show 0 < run.at_ * h.layout.featureSize + run.rows * h.layout.featureSize
    omega
  have some_ : (planOf h nodes).runs.map h.layout.read ≠ [] :=
    List.ne_nil_of_mem (List.mem_map_of_mem mem)
  have broken : batchRead device (UringLane.region ⟨[], none⟩ false)
      ((planOf h nodes).runs.map h.layout.read) = (.error .panic, []) := by
    show batchRead device [] _ = _
    unfold batchRead
    rw [if_neg some_, outside]
    rfl
  unfold RowLayout.uringGatherRows
  rw [if_neg nonempty, new_eq size]
  dsimp only
  have product : checkedMul 0 h.layout.featureSize = some 0 := by
    rw [checkedMul_eq (by omega), Nat.zero_mul]
  have ready : UringLane.landing ⟨[], none⟩ false 0 h.layout.featureSize = .ok ⟨[], none⟩ := rfl
  rw [count, product]
  dsimp only
  rw [ready]
  dsimp only
  generalize_proofs same
  revert same
  rw [broken]
  exact fun _ => rfl

/-- Every run of a batch's plan reads inside the payload: every packed request is a row's. -/
theorem runs_inside_iff (checked : h.Checked file.length) (dim : 0 < h.featureDim) :
    (∀ run ∈ (planOf h nodes).runs, h.featuresStartOffset ≤ (h.layout.read run).offset ∧
        (h.layout.read run).offset + (h.layout.read run).len ≤
          h.featuresStartOffset + h.payloadBytes) ↔
      ∀ v ∈ (rowOrder nodes).map Prod.fst, v < h.numNodes := by
  have size : 0 < h.layout.featureSize := Nat.mul_pos dim h.dtype.elementSize_pos
  have same : h.layout.featureSize = h.featureSize := checked.featureSize.symm
  have start : h.layout.featuresStartOffset = h.featuresStartOffset := rfl
  have payload := checked.payload
  have narrow := checked.narrow
  obtain ⟨rows, plan⟩ := exists_planned h nodes
  constructor
  · intro all v mem
    obtain ⟨pos, at_⟩ := List.mem_iff_getElem?.mp ((plan.members v).mpr mem)
    obtain ⟨run, here, k, turn, rfl⟩ := plan.covers.run_of (List.getElem?_eq_some_iff.mp at_).1
    obtain rfl := Option.some.inj ((plan.covers.row_at here turn).symm.trans at_)
    obtain ⟨low, high⟩ := all run here
    -- an offset that wrapped would stand before the payload
    have firstRow : run.first * h.layout.featureSize < 2 ^ 64 := by
      have first := plan.covers.row_at here (plan.covers.lengths run here).1
      obtain ⟨e, mem', same'⟩ := List.mem_map.mp ((plan.members _).mp (List.mem_of_getElem? first))
      have small := rowOrder_narrow nodes e mem'
      have wide := layout_featureSize_le checked
      have product : run.first * h.layout.featureSize ≤ 2 ^ 32 * 400000 :=
        Nat.mul_le_mul (by omega) wide
      omega
    have offset : (h.layout.read run).offset =
        h.featuresStartOffset + run.first * h.layout.featureSize := by
      show (h.layout.featuresStartOffset + run.first * h.layout.featureSize % 2 ^ 64) % 2 ^ 64 = _
      change h.featuresStartOffset ≤
        (h.layout.featuresStartOffset + run.first * h.layout.featureSize % 2 ^ 64) % 2 ^ 64 at low
      rw [Nat.mod_eq_of_lt firstRow, start] at low ⊢
      omega
    have len : (h.layout.read run).len = run.rows * h.layout.featureSize := rfl
    rw [offset, len, payload, ← same] at high
    have rowsFit : (run.first + run.rows) * h.layout.featureSize ≤
        h.numNodes * h.layout.featureSize := by
      rw [Nat.add_mul]
      omega
    have := Nat.le_of_mul_le_mul_right rowsFit size
    omega
  · intro below run mem
    have positive := (plan.covers.lengths run mem).1
    have rowOf : ∀ k < run.rows, run.first + k < h.numNodes := fun k turn =>
      below _ ((plan.members _).mp (List.mem_of_getElem? (plan.covers.row_at mem turn)))
    have first : run.first < h.numNodes := rowOf 0 positive
    have offset : (h.layout.read run).offset =
        h.featuresStartOffset + run.first * h.layout.featureSize := by
      show h.layout.rowOffset run.first = _
      rw [(checked.row first).1, same]
    have last := rowOf (run.rows - 1) (by omega)
    have rowsFit : (run.first + run.rows) * h.layout.featureSize ≤
        h.numNodes * h.layout.featureSize := Nat.mul_le_mul_right _ (by omega)
    have len : (h.layout.read run).len = run.rows * h.layout.featureSize := rfl
    rw [Nat.add_mul] at rowsFit
    rw [offset, len, payload, ← same]
    omega

end Panics

section Accepted

/-- Every row access of a batch is defined: the sizes, the byte range of each row and of each hint
and read, and a batch over any file of the size, device, lane and mode. -/
structure AccessesDefined (h : FeatureHeader) (fileSize : Nat) (nodes : List U32) : Prop where
  payload : h.payloadBytes = h.numNodes * h.featureSize
  rows : ∀ node < h.numNodes,
    h.layout.rowOffset node = h.featuresStartOffset + node * h.featureSize ∧
      h.layout.rowOffset node + h.featureSize ≤ fileSize ∧
      h.layout.rowOffset node % h.dtype.elementSize = 0
  hints : ∀ direct uring,
    ∀ hint ∈ (SyncFeatureStore.load h direct uring).prefetchNodes nodes,
      h.featuresStartOffset ≤ hint.1 ∧ hint.1 + hint.2 ≤ h.featuresStartOffset + h.payloadBytes
  reads : ∀ plan, LandingPlan.new nodes h.layout.featureSize = some plan → ∀ run ∈ plan.runs,
    h.featuresStartOffset ≤ (h.layout.read run).offset ∧
      (h.layout.read run).offset + (h.layout.read run).len ≤ h.featuresStartOffset + h.payloadBytes
  batch : ∀ file : List U8, file.length = fileSize → ∀ (device : Device file) decoder direct uring,
    ((SyncFeatureStore.load h direct uring).getBatch device decoder nodes).1 ≠ .error .panic

/-- A device that declines every batch. -/
def deadDevice (file : List U8) : Device file where
  complete _ := ⟨[], some (none, "I/O error")⟩
  whole _ ok := nomatch ok
  pread _ _ := none

/-- Conversions that a batch without elements never calls. -/
def anyDecoder : RowDecoder := ⟨⟨fun _ => 0, fun _ _ => 0, fun _ _ => rfl⟩, .scalar⟩

theorem getBatch_of_panic {file : List U8} {h : FeatureHeader} {nodes : List U32}
    (inside : ∀ node ∈ nodes, node.toNat < h.numNodes) {decoder : RowDecoder}
    {device : Device file} {lane : UringLane} {direct : Bool}
    (panicked : (h.layout.uringGatherRows decoder device lane nodes direct).1 = .error .panic) :
    ((SyncFeatureStore.load h direct (some lane)).getBatch device decoder nodes).1 =
      .error .panic := by
  have bounds : (SyncFeatureStore.load h direct (some lane)).checkBounds nodes = .ok () := by
    unfold SyncFeatureStore.checkBounds
    rw [List.find?_eq_none.mpr fun node mem => ?_]
    have here := inside node mem
    rw [decide_eq_true_eq]
    exact Nat.not_le_of_lt here
  unfold SyncFeatureStore.getBatch
  rw [bounds]
  dsimp only
  rw [load_layout]
  dsimp only [SyncFeatureStore.load]
  cases ran : h.layout.uringGatherRows decoder device lane nodes direct with
  | mk outcome after =>
      rw [ran] at panicked
      cases panicked
      rfl

/-- Over an accepted header the accesses of a batch are defined exactly when the batch is empty, or
the rows have bytes, the row count does not come back to zero, and every packed request names a row.
The last two can fail only in a list of 2^32 entries or more. -/
theorem accesses_defined_iff {filePrefix : List U8} {fileSize : Nat} {h : FeatureHeader}
    (parsed : parseFeatureHeaderBytes filePrefix fileSize = .ok h) (nodes : List U32)
    (inside : ∀ node ∈ nodes, node.toNat < h.numNodes) :
    AccessesDefined h fileSize nodes ↔
      nodes = [] ∨ 0 < h.featureDim ∧ ¬RowCountWraps nodes ∧
        ∀ v ∈ (rowOrder nodes).map Prod.fst, v < h.numNodes := by
  have checked := parse_checked parsed
  have length : (List.replicate fileSize (0 : U8)).length = fileSize := List.length_replicate
  have checkedFile : h.Checked (List.replicate fileSize (0 : U8)).length := length.symm ▸ checked
  constructor
  · intro defined
    refine Decidable.or_iff_not_imp_left.mpr fun nonempty => ?_
    have calm := fun lane => defined.batch (List.replicate fileSize 0) length
      (deadDevice _) anyDecoder false (some lane)
    have dim : 0 < h.featureDim := Nat.pos_of_ne_zero fun zero => calm ⟨[], none⟩
      (getBatch_of_panic inside (uringGatherRows_no_bytes zero nonempty _ _ _ _))
    refine ⟨dim, fun wraps => calm ⟨[], none⟩
      (getBatch_of_panic inside (uringGatherRows_wrapped dim wraps nonempty _ _)), ?_⟩
    exact (runs_inside_iff checkedFile dim).mp
      (defined.reads _ (new_eq (Nat.mul_pos dim h.dtype.elementSize_pos)))
  · intro sound
    have weaker : nodes = [] ∨ 0 < h.featureDim ∧ ¬RowCountWraps nodes :=
      sound.imp_right fun all => ⟨all.1, all.2.1⟩
    refine ⟨checked.payload, fun node below => ?_, prefetchNodes_inside checked inside,
      fun plan planned => ?_, fun file size device decoder direct uring =>
        getBatch_ne_panic (size.symm ▸ checked) weaker decoder device direct uring⟩
    · obtain ⟨offset, stop, aligned⟩ := checked.row below
      exact ⟨offset, Nat.le_trans stop checked.inside, aligned⟩
    · unfold LandingPlan.new at planned
      split_ifs at planned with empty
      obtain rfl := Option.some.inj planned
      have dim : 0 < h.featureDim := Nat.pos_of_mul_pos_right (Nat.pos_of_ne_zero empty)
      refine (runs_inside_iff checkedFile dim).mpr fun v mem => ?_
      rcases sound with rfl | ⟨-, -, below⟩
      · rw [List.eq_nil_of_length_eq_zero (rowOrder_length [])] at mem
        exact absurd mem List.not_mem_nil
      · exact below v mem

theorem accesses_defined_half_rows :
    AccessesDefined halfHeader 40 [0, 1] ↔
      [0, 1] = ([] : List U32) ∨ 0 < 1 ∧ ¬RowCountWraps [0, 1] ∧
        ∀ v ∈ (rowOrder [0, 1]).map Prod.fst, v < 2 :=
  accesses_defined_iff parse_halfRows [0, 1] (by simp [halfHeader])

/-- One node, no features. -/
def noFeatures : List U8 := featureMagic ++ toLe 8 1 ++ toLe 8 0 ++ toLe 8 36 ++ [0, 0, 0, 0]

theorem accesses_undefined :
    ¬∀ (filePrefix : List U8) (fileSize : Nat) (h : FeatureHeader),
      parseFeatureHeaderBytes filePrefix fileSize = .ok h →
      ∀ nodes : List U32, (∀ node ∈ nodes, node.toNat < h.numNodes) →
        AccessesDefined h fileSize nodes := by
  intro all
  have inside : ∀ node ∈ [(0 : U32)], node.toNat < 1 := by simp
  have defined := all noFeatures 36 ⟨1, 0, 36, 0, 0, .f32⟩ (by decide +kernel) [0] inside
  exact defined.batch noFeatures rfl (deadDevice noFeatures) anyDecoder false (some ⟨[], none⟩)
    (getBatch_of_panic inside (uringGatherRows_no_bytes rfl (by decide) _ _ _ _))

end Accepted

end AetherGraph
