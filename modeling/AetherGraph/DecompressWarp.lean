import AetherGraph.DecompressKernels

/-! The warp decoder of StreamVByte: a wave gathers the deltas of the data stream in step with
their tags, and the waves in turn store every value once. -/

namespace AetherGraph

open Foundation

theorem eachThread_some {n : Nat} {α : Type} {f : Fin n → Option α} {g : Fin n → α}
    (all : ∀ tid, f tid = some (g tid)) : eachThread f = some g := by
  obtain rfl : f = fun tid => some (g tid) := funext all
  have all : ∀ tid : Fin n, (some (g tid)).isSome := fun _ => rfl
  rw [eachThread, dif_pos all]
  rfl

theorem cInt_some {x : Nat} (h : x < 2 ^ 31) : cInt x = some x := if_pos h

section Gather

/-- One more byte below a little-endian number. -/
theorem ofNat_ofLe_cons (b : U8) (bs : List U8) :
    BitVec.ofNat 32 (ofLe (b :: bs)) = b.setWidth 32 ||| BitVec.ofNat 32 (ofLe bs) <<< 8 := by
  refine BitVec.eq_of_getLsbD_eq fun j hj => ?_
  have bound : b.toNat < 2 ^ 8 := b.isLt
  have sum : ofLe (b :: bs) = 2 ^ 8 * ofLe bs + b.toNat := Nat.add_comm _ _
  rw [BitVec.getLsbD_or, BitVec.getLsbD_shiftLeft, BitVec.getLsbD_setWidth, BitVec.getLsbD_ofNat,
    BitVec.getLsbD_ofNat, sum, Nat.testBit_two_pow_mul_add _ bound]
  by_cases low : j < 8
  · simp only [low, hj, decide_true, Bool.true_and, if_true, Bool.not_true, Bool.false_and,
      Bool.or_false]
    rfl
  · have far : b.getLsbD j = false := BitVec.getLsbD_of_ge b j (Nat.le_of_not_lt low)
    simp [low, hj, far, show j - 8 < 32 by omega]

theorem ofLe_nil : BitVec.ofNat 32 (ofLe []) = 0 := rfl

/-- Four bytes, zero past the end, make the delta. -/
theorem deltaOf_bytes (bs : List U8) (length : bs.length ≤ 4) :
    deltaOf bs = ((bs.getD 0 0).setWidth 32 <<< 0 ||| (bs.getD 1 0).setWidth 32 <<< 8 |||
      (bs.getD 2 0).setWidth 32 <<< 16 ||| (bs.getD 3 0).setWidth 32 <<< 24 : U32) := by
  have tail : ∀ (k : Nat) (bs : List U8), BitVec.ofNat 32 (ofLe (bs.drop k)) =
      (bs.getD k 0).setWidth 32 ||| BitVec.ofNat 32 (ofLe (bs.drop (k + 1))) <<< 8 := by
    intro k bs
    rcases Nat.lt_or_ge k bs.length with inside | outside
    · rw [List.drop_eq_getElem_cons inside, ofNat_ofLe_cons, List.getD_eq_getElem?_getD,
        List.getElem?_eq_getElem inside]
      rfl
    · rw [List.drop_eq_nil_of_le outside, List.drop_eq_nil_of_le (by omega),
        List.getD_eq_getElem?_getD, List.getElem?_eq_none outside, ofLe_nil]
      rfl
  have none : BitVec.ofNat 32 (ofLe (bs.drop 4)) = 0 := by
    rw [List.drop_eq_nil_of_le length, ofLe_nil]
  have whole := tail 0 bs
  rw [tail 1, tail 2, tail 3, none, List.drop_zero] at whole
  rw [deltaOf, whole]
  generalize (bs.getD 0 0).setWidth 32 = b0, (bs.getD 1 0).setWidth 32 = b1,
    (bs.getD 2 0).setWidth 32 = b2, (bs.getD 3 0).setWidth 32 = b3
  have zero : (0 : U32) <<< 8 = 0#32 := by decide
  rw [zero, BitVec.or_zero, BitVec.shiftLeft_or_distrib, BitVec.shiftLeft_or_distrib,
    BitVec.shiftLeft_or_distrib, ← BitVec.shiftLeft_add, ← BitVec.shiftLeft_add,
    ← BitVec.shiftLeft_add, BitVec.shiftLeft_zero, BitVec.or_assoc, BitVec.or_assoc]

end Gather

namespace StreamVByteDevice

variable {dev : StreamVByteDevice} {p : Nat} {nbytes : U32}

theorem deltaByte_some (pos : 0 < nbytes.toNat) (room : p + nbytes.toNat ≤ dev.data.length)
    (k : Nat) : dev.deltaByte p nbytes k =
      some ((((dev.data.drop p).take nbytes.toNat).getD k 0).setWidth 32 <<< (8 * k)) := by
  rw [deltaByte, List.getD_eq_getElem?_getD]
  by_cases inside : k < nbytes.toNat
  · rw [if_pos (.inr inside), List.getElem?_take_of_lt inside, List.getElem?_drop,
      List.getElem?_eq_getElem (by omega)]
    rfl
  · rw [if_neg (by omega), List.getElem?_eq_none (by rw [List.length_take]; omega)]
    simp

/-- The gather reads exactly the delta's bytes. -/
theorem gatherDelta_some (pos : 0 < nbytes.toNat) (short : nbytes.toNat ≤ 4)
    (room : p + nbytes.toNat ≤ dev.data.length) :
    dev.gatherDelta p nbytes = some (deltaOf ((dev.data.drop p).take nbytes.toNat)) := by
  rw [deltaOf_bytes _ (by rw [List.length_take]; omega), gatherDelta]
  simp only [deltaByte_some pos room, Option.bind_eq_bind, Option.bind_some]

end StreamVByteDevice

namespace StreamVByte

variable (sv : StreamVByte)

/-- The value after `j` deltas. -/
def valueAt (j : Nat) : U32 := sv.first + ∑ i ∈ Finset.range j, sv.deltaAt i

theorem scanl_map (f : Nat → U32) (start n : Nat) (a : U32) :
    ((List.range' start n).map f).scanl (· + ·) a =
      (List.range (n + 1)).map fun j => a + ∑ i ∈ Finset.range j, f (start + i) := by
  induction n generalizing start a with
  | zero => simp
  | succ n ih =>
      rw [List.range'_succ, List.map_cons, List.scanl_cons, ih, List.range_succ_eq_map (n := n + 1),
        List.map_cons, List.map_map, Finset.sum_range_zero, add_zero]
      congr 1
      refine List.map_congr_left fun j _ => ?_
      rw [Function.comp_apply, Finset.sum_range_succ', add_zero, add_assoc,
        add_comm (f start)]
      congr 2
      refine Finset.sum_congr rfl fun i _ => ?_
      rw [Nat.add_assoc, Nat.add_comm 1]

theorem values_eq_map (some_ : sv.len ≠ 0) : sv.values = (List.range sv.len).map sv.valueAt := by
  have len : sv.numDeltas + 1 = sv.len := by
    rw [numDeltas]
    omega
  rw [values, if_neg some_, List.range_eq_range', scanl_map, len]
  refine List.map_congr_left fun j _ => ?_
  simp only [Nat.zero_add]
  rfl

variable {sv}

theorem offsetAt_add (k j : Nat) :
    sv.offsetAt (k + j) = sv.offsetAt k + ∑ i ∈ Finset.range j, sv.lengthAt (k + i) := by
  induction j with
  | zero => rfl
  | succ j ih => rw [← Nat.add_assoc, offsetAt_succ, ih, Finset.sum_range_succ, Nat.add_assoc]

theorem lengthAt_le (i : Nat) : sv.lengthAt i ≤ 4 := by
  rw [lengthAt]
  cases read : controlTag sv.control i with
  | none => exact Nat.le_succ_of_le (by decide)
  | some tag =>
      obtain ⟨byte, -, rfl⟩ := Option.map_eq_some_iff.mp read
      rw [Option.getD_some, BitVec.toNat_and]
      exact Nat.succ_le_succ Nat.and_le_right

theorem valueAt_add (k j : Nat) :
    sv.valueAt (k + j) = sv.valueAt k + ∑ i ∈ Finset.range j, sv.deltaAt (k + i) := by
  rw [valueAt, valueAt, Finset.sum_range_add, add_assoc]

end StreamVByte

/-- The lanes below a bound, in order. -/
theorem filterMap_lanes {α : Type} (f : Nat → α) {w : Nat} (h : w ≤ 32) :
    ((List.finRange 32).filterMap fun lane : Lane => if lane < w then some (f lane) else none) =
      (List.range w).map f := by
  have below : ∀ m, w ≤ m → ((List.range m).filterMap fun i => if i < w then some (f i) else none) =
      (List.range w).map f := by
    intro m
    induction m with
    | zero =>
        intro h
        rw [Nat.le_zero.mp h]
        rfl
    | succ m ih =>
        intro h
        rw [List.range_succ, List.filterMap_append]
        rcases Nat.lt_or_eq_of_le h with less | rfl
        · rw [ih (Nat.le_of_lt_succ less), List.filterMap_cons, if_neg (by omega)]
          exact List.append_nil _
        · have all : ((List.range m).filterMap fun i => if i < m + 1 then some (f i) else none) =
              (List.range m).map f := by
            rw [← List.filterMap_eq_map']
            refine List.filterMap_congr fun i hi => if_pos ?_
            have := List.mem_range.mp hi
            omega
          rw [all, List.filterMap_cons, if_pos (Nat.lt_succ_self m), List.range_succ,
            List.map_append]
          rfl
  rw [← below 32 h, ← List.map_coe_finRange_eq_range, List.filterMap_map]
  rfl

namespace StreamVByteDevice

/-- A value on the device. -/
structure Holds (dev : StreamVByteDevice) (sv : StreamVByte) : Prop where
  control : dev.control = sv.control
  data : dev.data = sv.data
  len : dev.len = sv.len
  first : dev.first = sv.first
  len_lt : sv.len < 2 ^ 31
  data_lt : sv.data.length < 2 ^ 31

theorem holds_of_upload {sv : StreamVByte} {dev : StreamVByteDevice} (h : upload sv = .ok dev) :
    dev.Holds sv := by
  unfold upload at h
  split at h
  · cases h
  · rename_i small
    obtain rfl := Except.ok.inj h
    exact ⟨rfl, rfl, rfl, rfl, by omega, by omega⟩

section Wave

variable {dev : StreamVByteDevice} {sv : StreamVByte} {k w : Nat}

theorem Holds.laneLength_some (holds : dev.Holds sv) (shaped : sv.Shaped)
    (room : k + 31 < 2 ^ 31) (last : k + w ≤ sv.numDeltas) (lane : Lane) :
    dev.laneLength (k + 1) w lane =
      some (if lane < w then BitVec.ofNat 32 (sv.lengthAt (k + lane)) else 0) := by
  have lane_lt := lane.isLt
  rw [laneLength, Nat.add_sub_cancel, cInt_some (by omega)]
  show (if (lane : Nat) < w then _ else _) = _
  split
  · have below : k + lane < sv.numDeltas := by omega
    obtain ⟨tag, read, length⟩ := shaped.tag_some below
    rw [holds.control, read, length]
    have small : tag.toNat < 256 := tag.isLt
    refine congrArg some (BitVec.eq_of_toNat_eq ?_)
    rw [BitVec.toNat_add, BitVec.toNat_setWidth, BitVec.toNat_ofNat,
      Nat.mod_eq_of_lt (show tag.toNat < 2 ^ 32 by omega)]
    rfl
  · rfl

/-- The exclusive scan of the lengths counts the bytes before a lane's delta. -/
theorem exclusive_lengths (lane : Lane) (inside : (lane : Nat) < w) :
    warpExclusiveScanU32
      (fun lane : Lane => if lane < w then BitVec.ofNat 32 (sv.lengthAt (k + lane)) else 0) lane =
      BitVec.ofNat 32 (sv.offsetAt (k + lane) - sv.offsetAt k) := by
  rw [warpExclusiveScanU32, warpInclusiveScanU32,
    inclusiveScan_range (fun i => BitVec.ofNat 32 (sv.lengthAt (k + i))) lane.isLt
      fun i hi => if_pos (Nat.lt_of_le_of_lt hi inside), if_pos inside, Finset.sum_range_succ,
    add_sub_cancel_right, StreamVByte.offsetAt_add, Nat.add_sub_cancel_left]
  simp only [← BitVec.natCast_eq_ofNat]
  exact (Nat.cast_sum _ _).symm

theorem inclusive_deltas (lane : Lane) (inside : (lane : Nat) < w) :
    sv.valueAt k + warpInclusiveScanU32
      (fun lane : Lane => if lane < w then sv.deltaAt (k + lane) else 0) lane =
      sv.valueAt (k + 1 + lane) := by
  rw [warpInclusiveScanU32, inclusiveScan_range (fun i => sv.deltaAt (k + i)) lane.isLt
    fun i hi => if_pos (Nat.lt_of_le_of_lt hi inside), ← StreamVByte.valueAt_add]
  congr 1
  omega

/-- A lane gathers its own delta. -/
theorem Holds.laneDelta_some (holds : dev.Holds sv) (shaped : sv.Shaped)
    (last : k + w ≤ sv.numDeltas) (lane : Lane) :
    dev.laneDelta (sv.offsetAt k) w
      (warpExclusiveScanU32
        fun lane : Lane => if lane < w then BitVec.ofNat 32 (sv.lengthAt (k + lane)) else 0)
      (fun lane : Lane => if lane < w then BitVec.ofNat 32 (sv.lengthAt (k + lane)) else 0) lane =
      some (if lane < w then sv.deltaAt (k + lane) else 0) := by
  rw [laneDelta]
  split
  · rename_i inside
    have small := holds.data_lt
    have below : k + lane < sv.numDeltas := by omega
    have room := shaped.bytes_some below
    have before : sv.offsetAt k ≤ sv.offsetAt (k + lane) :=
      StreamVByte.offsetAt_le (Nat.le_add_right _ _)
    have short : sv.lengthAt (k + lane) ≤ 4 := StreamVByte.lengthAt_le _
    have length : (BitVec.ofNat 32 (sv.lengthAt (k + lane))).toNat = sv.lengthAt (k + lane) := by
      rw [BitVec.toNat_ofNat, Nat.mod_eq_of_lt (by omega)]
    have place : sv.offsetAt k + (warpExclusiveScanU32 (fun lane : Lane =>
        if lane < w then BitVec.ofNat 32 (sv.lengthAt (k + lane)) else 0) lane).toNat =
        sv.offsetAt (k + lane) := by
      rw [exclusive_lengths lane inside, BitVec.toNat_ofNat, Nat.mod_eq_of_lt (by omega)]
      omega
    have gathered : dev.gatherDelta (sv.offsetAt (k + lane))
        (BitVec.ofNat 32 (sv.lengthAt (k + lane))) = some (sv.deltaAt (k + lane)) := by
      rw [gatherDelta_some (by rw [length]; exact Nat.succ_pos _) (by rwa [length])
        (by rwa [length, holds.data]), length, holds.data]
      rfl
    rw [place]
    exact gathered
  · rfl

/-- One wave stores the next values in place and carries the last one on. -/
theorem Holds.wave_some (holds : dev.Holds sv) (shaped : sv.Shaped) (room : k + 31 < 2 ^ 31)
    (more : k < sv.numDeltas)
    (width : w = if sv.numDeltas - k < 32 then sv.numDeltas - k else 32) :
    dev.wave ⟨sv.valueAt k, sv.offsetAt k, k + 1⟩ =
      some ((List.range w).map fun i => (k + 1 + i, sv.valueAt (k + 1 + i)),
        ⟨sv.valueAt (k + w), sv.offsetAt (k + w), k + 1 + w⟩) := by
  have bounds : 0 < w ∧ w ≤ 32 ∧ k + w ≤ sv.numDeltas := by
    rw [width]
    split <;> omega
  obtain ⟨pos, le, last⟩ := bounds
  have remaining : sv.len - (k + 1) = sv.numDeltas - k := by
    rw [StreamVByte.numDeltas]
    omega
  have small := holds.data_lt
  have lengths := eachThread_some (holds.laneLength_some shaped room last)
  have deltas := eachThread_some (holds.laneDelta_some shaped last)
  have final : ((Fin.ofNat 32 (w - 1) : Lane) : Nat) = w - 1 := Nat.mod_eq_of_lt (by omega)
  have inside : ((Fin.ofNat 32 (w - 1) : Lane) : Nat) < w := by omega
  have reached : sv.offsetAt (k + (w - 1)) + sv.lengthAt (k + (w - 1)) = sv.offsetAt (k + w) := by
    rw [← StreamVByte.offsetAt_succ, show k + (w - 1) + 1 = k + w by omega]
  have data : sv.offsetAt (k + w) ≤ sv.data.length := by
    rw [shaped.data]
    exact StreamVByte.offsetAt_le last
  have before : sv.offsetAt k ≤ sv.offsetAt (k + (w - 1)) :=
    StreamVByte.offsetAt_le (Nat.le_add_right _ _)
  have bytes : (warpExclusiveScanU32 (fun lane : Lane =>
      if lane < w then BitVec.ofNat 32 (sv.lengthAt (k + lane)) else 0) (Fin.ofNat 32 (w - 1)) +
      if ((Fin.ofNat 32 (w - 1) : Lane) : Nat) < w then
        BitVec.ofNat 32 (sv.lengthAt (k + (Fin.ofNat 32 (w - 1) : Lane))) else 0).toNat =
      sv.offsetAt (k + w) - sv.offsetAt k := by
    rw [exclusive_lengths _ inside, if_pos inside, ← BitVec.ofNat_add, final,
      BitVec.toNat_ofNat, Nat.mod_eq_of_lt (by omega)]
    omega
  have carried : sv.valueAt k + warpInclusiveScanU32 (fun lane : Lane =>
      if lane < w then sv.deltaAt (k + lane) else 0) (Fin.ofNat 32 (w - 1)) =
      sv.valueAt (k + 1 + (Fin.ofNat 32 (w - 1) : Lane)) := inclusive_deltas _ inside
  rw [final, show k + 1 + (w - 1) = k + w by omega] at carried
  have next : cInt (sv.offsetAt k + (sv.offsetAt (k + w) - sv.offsetAt k)) =
      some (sv.offsetAt (k + w)) := by
    rw [Nat.add_sub_cancel' (by omega)]
    exact cInt_some (by omega)
  have stores : ((List.finRange 32).filterMap fun lane : Lane => if lane < w then
      some (k + 1 + (lane : Nat), sv.valueAt k + warpInclusiveScanU32 (fun lane : Lane =>
        if lane < w then sv.deltaAt (k + lane) else 0) lane) else none) =
      (List.range w).map fun i => (k + 1 + i, sv.valueAt (k + 1 + i)) := by
    rw [← filterMap_lanes _ le]
    refine List.filterMap_congr fun lane _ => ?_
    split
    · rename_i active
      rw [inclusive_deltas lane active]
    · rfl
  rw [wave]
  simp only [holds.len, remaining, ← width, lengths, deltas, Option.bind_eq_bind,
    Option.bind_some, bytes, carried, next, stores]

end Wave

variable {dev : StreamVByteDevice} {sv : StreamVByte}

/-- The waves from delta `k` on store the values still to come. -/
theorem Holds.waves_some (holds : dev.Holds sv) (shaped : sv.Shaped) (fuel k : Nat)
    (aligned : k % 32 = 0 ∨ k = sv.numDeltas) (inside : k ≤ sv.numDeltas) (pos : sv.len ≠ 0)
    (enough : sv.numDeltas - k ≤ fuel) :
    dev.waves fuel ⟨sv.valueAt k, sv.offsetAt k, k + 1⟩ =
      some ((List.range' (k + 1) (sv.numDeltas - k)).map fun j => (j, sv.valueAt j)) := by
  have len : sv.numDeltas + 1 = sv.len := by
    rw [StreamVByte.numDeltas]
    omega
  have bound := holds.len_lt
  induction fuel generalizing k with
  | zero =>
      obtain rfl : k = sv.numDeltas := by omega
      rw [waves, holds.len, if_neg (by dsimp only; omega), Nat.sub_self]
      rfl
  | succ fuel ih =>
      rw [waves, holds.len]
      by_cases more : k < sv.numDeltas
      · have bounds : ∃ w, w = (if sv.numDeltas - k < 32 then sv.numDeltas - k else 32) ∧ 0 < w ∧
            k + w ≤ sv.numDeltas ∧ ((k + w) % 32 = 0 ∨ k + w = sv.numDeltas) := by
          refine ⟨_, rfl, ?_⟩
          split <;> omega
        obtain ⟨w, width, positive, last, aligned'⟩ := bounds
        have step := ih (k + w) aligned' last (by omega)
        have range : List.range' (k + 1) (sv.numDeltas - k) =
            List.range' (k + 1) w ++ List.range' (k + w + 1) (sv.numDeltas - (k + w)) := by
          rw [show k + w + 1 = k + 1 + w by omega, List.range'_append_1]
          congr 1
          omega
        have first : ((List.range w).map fun i => (k + 1 + i, sv.valueAt (k + 1 + i))) =
            (List.range' (k + 1) w).map fun j => (j, sv.valueAt j) := by
          rw [List.range'_eq_map_range, List.map_map]
          rfl
        rw [if_pos (by dsimp only; omega), holds.wave_some shaped (by omega) more width]
        rw [show k + w + 1 = k + 1 + w by omega] at step
        simp only [Option.bind_eq_bind, Option.bind_some, step, first, range, List.map_append]
        rw [show k + w + 1 = k + 1 + w by omega]
      · obtain rfl : k = sv.numDeltas := by omega
        rw [if_neg (by dsimp only; omega), Nat.sub_self]
        rfl

/-- The kernel stores every value at its index, in order. -/
theorem Holds.kernel_some (holds : dev.Holds sv) (shaped : sv.Shaped) :
    dev.streamvbyteDeltaDecode = some (sv.values.zipIdx.map Prod.swap) := by
  rw [streamvbyteDeltaDecode, holds.len]
  by_cases empty : sv.len = 0
  · rw [if_pos empty, StreamVByte.values, if_pos empty]
    rfl
  · have start : sv.valueAt 0 = dev.first := by
      rw [StreamVByte.valueAt, Finset.sum_range_zero, add_zero, holds.first]
    have run : dev.waves sv.len ⟨dev.first, 0, 1⟩ =
        some ((List.range' 1 sv.numDeltas).map fun j => (j, sv.valueAt j)) := by
      rw [← start]
      exact holds.waves_some shaped sv.len 0 (.inl rfl) (Nat.zero_le _) empty
        (by rw [StreamVByte.numDeltas]; omega)
    have len : sv.len = sv.numDeltas + 1 := by
      rw [StreamVByte.numDeltas]
      omega
    have swapped : sv.values.zipIdx.map Prod.swap =
        (List.range sv.len).map fun j => (j, sv.valueAt j) := by
      rw [StreamVByte.values_eq_map sv empty]
      refine List.ext_getElem? fun j => ?_
      rw [List.getElem?_map, List.getElem?_zipIdx, List.getElem?_map, List.getElem?_map]
      rcases Nat.lt_or_ge j sv.len with inside | outside
      · rw [List.getElem?_range inside]
        simp
      · rw [List.getElem?_eq_none (by rwa [List.length_range])]
        rfl
    rw [if_neg empty, run, swapped, Option.map_some, ← start, len, List.range_eq_range',
      List.range'_succ]
    rfl

end StreamVByteDevice

end AetherGraph
