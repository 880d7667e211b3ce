import AetherGraph.DecompressWarp

/-! The block decoder of Elias-Fano, and the device decoders against the host's codecs. -/

namespace AetherGraph

open Foundation

namespace EliasFanoDeviceParts

/-- A value on the device. -/
structure Holds (parts : EliasFanoDeviceParts) (ef : EliasFano) : Prop where
  low : parts.low = ef.low
  high : parts.high = ef.high
  lowBits : parts.lowBits = ef.lowBits
  len : parts.len = ef.len
  highWords : parts.highWords = ef.high.length
  len_lt : ef.len < 2 ^ 31
  high_lt : ef.high.length < 2 ^ 31

theorem holds_of_upload {ef : EliasFano} {parts : EliasFanoDeviceParts}
    (h : upload ef = .ok parts) : parts.Holds ef := by
  unfold upload at h
  split at h
  · cases h
  · rename_i small
    obtain rfl := Except.ok.inj h
    exact ⟨rfl, rfl, rfl, rfl, rfl, by omega, by omega⟩

variable {parts : EliasFanoDeviceParts} {ef : EliasFano}

theorem bitMask_some {bits : Nat} (h : bits < 64) : bitMask bits = some ((1#64 <<< bits) - 1) := by
  rw [bitMask, checkedShl, if_pos h]
  rfl

/-- The device reads the same field of the low array as the host. -/
theorem Holds.readLowBits_some (holds : parts.Holds ef) (shaped : ef.Shaped) {i : Nat}
    (hi : i < ef.len) :
    ∃ x, parts.readLowBits i = some x ∧ FieldAt ef.low (i * ef.lowBits) ef.lowBits x := by
  rw [readLowBits, holds.lowBits, holds.low]
  by_cases none : ef.lowBits = 0
  · rw [if_pos none, none]
    exact ⟨0, rfl, EliasFano.fieldAt_zero⟩
  have width := shaped.lowBits_lt
  have last : i * ef.lowBits + ef.lowBits ≤ 64 * ef.low.length := by
    have := Nat.mul_le_mul_right ef.lowBits (Nat.succ_le_of_lt hi)
    rw [Nat.succ_mul] at this
    exact Nat.le_trans this shaped.low_covers
  have small : i * ef.lowBits ≤ 2 ^ 31 * 63 :=
    Nat.mul_le_mul (Nat.le_of_lt (Nat.lt_trans hi holds.len_lt)) (Nat.le_of_lt_succ width)
  have split := Nat.div_add_mod (i * ef.lowBits) 64
  have inside := Nat.mod_lt (i * ef.lowBits) (show 0 < 64 by omega)
  have here : i * ef.lowBits / 64 < ef.low.length := by omega
  have word : i * ef.lowBits / 64 % 2 ^ 32 = i * ef.lowBits / 64 := Nat.mod_eq_of_lt (by omega)
  rw [if_neg none]
  simp only [word, EliasFano.lowMask_lt width, EliasFano.getD_eq_of_getElem? here,
    Option.bind_eq_bind, Option.bind_some]
  by_cases one : i * ef.lowBits % 64 + ef.lowBits ≤ 64
  · rw [if_pos one]
    refine ⟨_, rfl, fun j => ?_⟩
    rw [BitVec.getLsbD_and, BitVec.getLsbD_ushiftRight, EliasFano.getLsbD_mask width]
    by_cases low : j < ef.lowBits
    · rw [bitAt_add _ _ (by omega), if_pos (by omega), Bool.and_comm]
    · simp [low]
  · have next : i * ef.lowBits / 64 + 1 < ef.low.length := by omega
    have loLt : 64 - i * ef.lowBits % 64 < 64 := by omega
    have hiLt : ef.lowBits - (64 - i * ef.lowBits % 64) < 64 := by omega
    rw [if_neg one]
    simp only [bitMask_some loLt, bitMask_some hiLt, EliasFano.getD_eq_of_getElem? next,
      Option.bind_some]
    refine ⟨_, rfl, fun j => ?_⟩
    rw [BitVec.getLsbD_or, BitVec.getLsbD_and, BitVec.getLsbD_shiftLeft, BitVec.getLsbD_and,
      BitVec.getLsbD_ushiftRight, EliasFano.getLsbD_mask loLt, EliasFano.getLsbD_mask hiLt]
    by_cases low : j < ef.lowBits
    · rw [bitAt_add _ _ (by omega)]
      by_cases same : i * ef.lowBits % 64 + j < 64
      · simp [same, low, show j < 64 - i * ef.lowBits % 64 by omega]
      · have back : j - (64 - i * ef.lowBits % 64) = i * ef.lowBits % 64 + j - 64 := by omega
        rw [back, if_neg same]
        simp [low, show ¬ j < 64 - i * ef.lowBits % 64 by omega, show j < 64 by omega,
          show i * ef.lowBits % 64 + j - 64 < ef.lowBits - (64 - i * ef.lowBits % 64) by omega]
    · simp [low, show ¬ j < 64 - i * ef.lowBits % 64 by omega,
        show ¬ j - (64 - i * ef.lowBits % 64) < ef.lowBits - (64 - i * ef.lowBits % 64) by omega]

/-- A set position stores the host's element. -/
theorem Holds.element_some (holds : parts.Holds ef) (shaped : ef.Shaped) {i setPos : Nat}
    (at_ : (scanOnes ef.high)[i]? = some setPos) :
    ∃ v, ef.elements[i]? = some v ∧ parts.element setPos i = some (i, v) := by
  obtain ⟨inside, -⟩ := List.getElem?_eq_some_iff.mp at_
  have hi : i < ef.len := shaped.ones ▸ inside
  have le := le_of_ascending (scanOnes_sorted _) at_
  obtain ⟨x, read, field⟩ := holds.readLowBits_some shaped hi
  obtain ⟨y, field', value⟩ := EliasFano.valueAt_spec shaped hi le
  obtain rfl := field.unique field'
  have high : BitVec.ofNat 64 setPos - BitVec.ofNat 64 i = BitVec.ofNat 64 (setPos - i) := by
    have sum := BitVec.ofNat_add (n := 64) (setPos - i) i
    rw [Nat.sub_add_cancel le] at sum
    rw [sum, BitVec.add_sub_cancel]
  have shifted : checkedShl (BitVec.ofNat 64 (setPos - i)) ef.lowBits =
      some (BitVec.ofNat 64 (setPos - i) <<< ef.lowBits) := if_pos shaped.lowBits_lt
  refine ⟨_, (EliasFano.elements_getElem? shaped at_).symm.trans value, ?_⟩
  rw [element, high, read, holds.lowBits]
  simp only [Option.bind_eq_bind, Option.bind_some, shifted]

/-- The stores the kernel owes. -/
def storesOf (ef : EliasFano) : List (Nat × U64) := ef.elements.zipIdx.map Prod.swap

theorem storesOf_drop {i : Nat} {v : U64} (at_ : ef.elements[i]? = some v) :
    (storesOf ef).drop i = (i, v) :: (storesOf ef).drop (i + 1) := by
  obtain ⟨inside, rfl⟩ := List.getElem?_eq_some_iff.mp at_
  have there : i < (storesOf ef).length := by
    rw [storesOf, List.length_map, List.length_zipIdx]
    exact inside
  rw [List.drop_eq_getElem_cons there]
  congr 1
  simp [storesOf]

theorem storesOf_length (shaped : ef.Shaped) : (storesOf ef).length = ef.len := by
  rw [storesOf, List.length_map, List.length_zipIdx, EliasFano.elements_length shaped]

/-- The linear pass stores every element once. -/
theorem Holds.linearFrom_some (holds : parts.Holds ef) (shaped : ef.Shaped) (rest : List Nat)
    (i : Nat) (suffix : (scanOnes ef.high).drop i = rest) :
    parts.linearFrom rest i = some ((storesOf ef).drop i) := by
  induction rest generalizing i with
  | nil =>
      rw [List.drop_eq_nil_iff, shaped.ones] at suffix
      rw [List.drop_eq_nil_of_le (by rwa [storesOf_length shaped])]
      rfl
  | cons setPos rest ih =>
      have at_ : (scanOnes ef.high)[i]? = some setPos := by
        rw [← List.head?_drop, suffix]
        rfl
      have next : (scanOnes ef.high).drop (i + 1) = rest := by
        rw [← List.tail_drop, suffix]
        rfl
      obtain ⟨v, value, stored⟩ := holds.element_some shaped at_
      obtain ⟨inside, -⟩ := List.getElem?_eq_some_iff.mp at_
      rw [shaped.ones] at inside
      have small := holds.len_lt
      have counter : cInt (i + 1) = some (i + 1) := cInt_some (by omega)
      rw [linearFrom, holds.len, if_pos inside, stored, storesOf_drop value]
      simp only [Option.bind_eq_bind, Option.bind_some, counter, ih (i + 1) next]

section Block

/-- How many elements the words before a thread's hold. -/
def before (ef : EliasFano) (tid : Nat) : Nat := (scanOnes (ef.high.take tid)).length

theorem scan_at {tid : Nat} {w : U64} (at_ : ef.high[tid]? = some w) :
    ∃ after, (scanOnes ef.high).drop (before ef tid) = (setBits w).map (tid * 64 + ·) ++ after := by
  obtain ⟨inside, rfl⟩ := List.getElem?_eq_some_iff.mp at_
  have split : ef.high = ef.high.take tid ++ (ef.high[tid] :: ef.high.drop (tid + 1)) := by
    rw [← List.drop_eq_getElem_cons inside, List.take_append_drop]
  have length : (ef.high.take tid).length = tid := by
    rw [List.length_take, Nat.min_eq_left (Nat.le_of_lt inside)]
  have whole := scanOnes_append (ef.high.take tid) (ef.high[tid] :: ef.high.drop (tid + 1))
  rw [← split, length, scanOnes_cons, List.map_append] at whole
  exact ⟨_, by rw [whole, before, List.drop_left]⟩

theorem before_succ {tid : Nat} {w : U64} (at_ : ef.high[tid]? = some w) :
    before ef (tid + 1) = before ef tid + (setBits w).length := by
  have one : scanOnes [w] = setBits w := by
    rw [scanOnes_cons]
    exact List.append_nil _
  rw [before, before, List.take_add_one, at_, Option.toList_some, scanOnes_append, one,
    List.length_append, List.length_map]

/-- A thread stores the elements of its word. -/
theorem Holds.threadFrom_some (holds : parts.Holds ef) (shaped : ef.Shaped) (tid start : Nat)
    (bits : List Nat) (count : Nat) (after : List Nat)
    (suffix : (scanOnes ef.high).drop (start + count) = bits.map (tid * 64 + ·) ++ after) :
    parts.threadFrom tid (BitVec.ofNat 32 start) bits (BitVec.ofNat 32 count) =
      some (((storesOf ef).drop (start + count)).take bits.length) := by
  induction bits generalizing count with
  | nil => rfl
  | cons bit bits ih =>
      have at_ : (scanOnes ef.high)[start + count]? = some (tid * 64 + bit) := by
        rw [← List.head?_drop, suffix]
        rfl
      have next : (scanOnes ef.high).drop (start + (count + 1)) =
          bits.map (tid * 64 + ·) ++ after := by
        rw [← Nat.add_assoc, ← List.tail_drop, suffix]
        rfl
      obtain ⟨v, value, stored⟩ := holds.element_some shaped at_
      obtain ⟨inside, -⟩ := List.getElem?_eq_some_iff.mp at_
      rw [shaped.ones] at inside
      have small := holds.len_lt
      have index : (BitVec.ofNat 32 (start + count)).toNat = start + count := by
        rw [BitVec.toNat_ofNat, Nat.mod_eq_of_lt (by omega)]
      have signed : (BitVec.ofNat 32 (start + count)).toInt = (start + count : Nat) := by
        rw [BitVec.toInt_eq_toNat_of_lt (by rw [index]; omega), index]
      have more : ¬ (parts.len : Int) ≤ (BitVec.ofNat 32 (start + count)).toInt := by
        rw [signed, holds.len]
        omega
      have rest := ih (count + 1) next
      rw [BitVec.ofNat_add, ← Nat.add_assoc] at rest
      rw [threadFrom, ← BitVec.ofNat_add, if_neg more, index, stored, storesOf_drop value]
      show (parts.threadFrom tid (BitVec.ofNat 32 start) bits
        (BitVec.ofNat 32 count + BitVec.ofNat 32 1)).bind _ = _
      rw [rest]
      rfl

/-- The elements of a word, none past the last word. -/
def countAt (ef : EliasFano) (tid : Nat) : Nat := (setBits (ef.high.getD tid 0)).length

theorem Holds.pops_some (holds : parts.Holds ef) (tid : Thread) :
    parts.pops tid = some (BitVec.ofNat 32 (countAt ef tid)) := by
  rw [pops, holds.highWords, holds.high, countAt, List.getD_eq_getElem?_getD]
  split
  · rename_i inside
    rw [List.getElem?_eq_getElem inside, Option.map_some, Option.getD_some]
    refine congrArg some (BitVec.eq_of_toNat_eq ?_)
    rw [BitVec.toNat_setWidth, BitVec.toNat_ofNat, cpop_eq_length]
  · rename_i outside
    rw [List.getElem?_eq_none (Nat.le_of_not_lt outside), Option.getD_none, setBits_zero]
    rfl

theorem before_eq_sum (tid : Nat) :
    before ef tid = ∑ t ∈ Finset.range tid, countAt ef t := by
  induction tid with
  | zero => rfl
  | succ tid ih =>
      rw [Finset.sum_range_succ, ← ih]
      rcases Nat.lt_or_ge tid ef.high.length with inside | outside
      · rw [before_succ (List.getElem?_eq_getElem inside), countAt, List.getD_eq_getElem?_getD,
          List.getElem?_eq_getElem inside, Option.getD_some]
      · rw [before, before, List.take_of_length_le outside,
          List.take_of_length_le (Nat.le_succ_of_le outside), countAt,
          List.getD_eq_getElem?_getD, List.getElem?_eq_none outside, Option.getD_none,
          setBits_zero]
        rfl

/-- The scan leaves with every thread the elements before its word. -/
theorem Holds.threadStores_some (holds : parts.Holds ef) (shaped : ef.Shaped) (tid : Thread) :
    parts.threadStores (blockInclusiveScanU32
      (fun tid : Thread => BitVec.ofNat 32 (countAt ef tid)) parts.highWords) tid =
      some (((storesOf ef).drop (before ef tid)).take (countAt ef tid)) := by
  rw [threadStores]
  split
  · rename_i inside
    rw [holds.highWords] at inside
    have at_ := List.getElem?_eq_getElem inside
    obtain ⟨after, suffix⟩ := scan_at at_
    have base : (if (tid : Nat) = 0 then 0 else blockInclusiveScanU32
        (fun tid : Thread => BitVec.ofNat 32 (countAt ef tid)) parts.highWords
        (Fin.ofNat 256 (tid - 1))) = BitVec.ofNat 32 (before ef tid) := by
      split
      · rename_i zero
        rw [zero]
        rfl
      · rename_i positive
        have lt := tid.isLt
        have prev : ((Fin.ofNat 256 (tid - 1) : Thread) : Nat) = tid - 1 :=
          Nat.mod_eq_of_lt (by omega)
        have count : ((Fin.ofNat 256 (tid - 1) : Thread) : Nat) + 1 = tid := by omega
        rw [blockInclusiveScanU32, inclusiveScan_range
          (fun i => BitVec.ofNat 32 (countAt ef i)) (by rw [holds.highWords]; omega)
          fun i _ => rfl, count, before_eq_sum]
        simp only [← BitVec.natCast_eq_ofNat]
        exact (Nat.cast_sum _ _).symm
    have run := holds.threadFrom_some shaped tid (before ef tid) (setBits ef.high[(tid : Nat)]) 0
      after suffix
    rw [holds.high, at_]
    simp only [Option.bind_eq_bind, Option.bind_some, base, drain_width]
    rw [Nat.add_zero] at run
    rw [countAt, List.getD_eq_getElem?_getD, at_]
    exact run
  · rename_i outside
    rw [holds.highWords] at outside
    rw [countAt, List.getD_eq_getElem?_getD, List.getElem?_eq_none (Nat.le_of_not_lt outside),
      Option.getD_none, setBits_zero]
    rfl

/-- The pieces of the threads make the whole. -/
theorem flatMap_pieces (m : Nat) :
    ((List.range m).flatMap fun tid =>
      ((storesOf ef).drop (before ef tid)).take (countAt ef tid)) =
      (storesOf ef).take (before ef m) := by
  induction m with
  | zero => rfl
  | succ m ih =>
      rw [List.range_succ, List.flatMap_append, ih, List.flatMap_singleton, before_eq_sum (m + 1),
        Finset.sum_range_succ, ← before_eq_sum, List.take_add]

/-- Block-parallel or linear, the kernel stores every element once. -/
theorem Holds.kernel_some (holds : parts.Holds ef) (shaped : ef.Shaped) :
    parts.eliasFanoDecodeAll = some (storesOf ef) := by
  have whole := storesOf_length shaped
  rw [eliasFanoDecodeAll, holds.len]
  split
  · rename_i empty
    rw [empty, List.length_eq_zero_iff] at whole
    rw [whole]
  · split
    · rw [efLinearDecode, holds.high]
      exact holds.linearFrom_some shaped _ 0 rfl
    · rename_i narrow
      rw [holds.highWords] at narrow
      have pops := eachThread_some holds.pops_some
      have stores := eachThread_some (holds.threadStores_some shaped)
      rw [blockDecode]
      simp only [pops, stores, Option.bind_eq_bind, Option.bind_some]
      have threads : ((List.finRange 256).flatMap fun tid : Thread =>
          ((storesOf ef).drop (before ef tid)).take (countAt ef tid)) =
          (List.range 256).flatMap fun tid =>
            ((storesOf ef).drop (before ef tid)).take (countAt ef tid) := by
        rw [← List.map_coe_finRange_eq_range, List.flatMap_map]
      have all : before ef 256 = ef.len := by
        rw [before, List.take_of_length_le (Nat.le_of_not_lt narrow), shaped.ones]
      rw [threads, flatMap_pieces, all, List.take_of_length_le (Nat.le_of_eq whole)]

end Block

end EliasFanoDeviceParts

/-- A launch whose stores, each to its own index, put the host's list at the front of the output
buffer in whatever order they land. -/
def DecodesAs {α : Type} (maxLen : Nat) (launch : Except String (Option (List (Nat × α))))
    (host : Option (List α)) : Prop :=
  ∃ values stores, host = some values ∧ launch = .ok (some stores) ∧
    (stores.map Prod.fst).Perm (List.range values.length) ∧
    ∀ order : List (Nat × α), order.Perm stores → ∀ out : List α, out.length = max maxLen 1 →
      ∃ out', order.foldlM scatter out = some out' ∧ out'.take values.length = values

theorem decodesAs_of_stores {α : Type} {maxLen : Nat} {values : List α}
    (room : values.length ≤ maxLen) :
    DecodesAs maxLen (.ok (some (values.zipIdx.map Prod.swap))) (some values) := by
  refine ⟨values, _, rfl, rfl, ?_, fun order perm out length => ?_⟩
  · rw [List.map_map]
    show (values.zipIdx.map Prod.snd).Perm _
    rw [List.zipIdx_map_snd, List.range_eq_range']
  · obtain ⟨out', ran, -, front, -⟩ := scatter_list out perm
      (by rw [length]; exact Nat.le_trans room (Nat.le_max_left _ _))
    exact ⟨out', ran, front⟩

/-- The device decoders write what the host's codecs decode, inside their streams. -/
theorem device_decoders_match {sv : StreamVByte} {dev : StreamVByteDevice} {ef : EliasFano}
    {parts : EliasFanoDeviceParts} {maxLen : Nat} (built : sv.Built)
    (uploaded : StreamVByteDevice.upload sv = .ok dev) (builtEf : ef.Built)
    (uploadedEf : EliasFanoDeviceParts.upload ef = .ok parts)
    (room : dev.len ≤ maxLen ∧ parts.len ≤ maxLen) :
    DecodesAs maxLen (dev.decode maxLen) sv.decode ∧
      DecodesAs maxLen (parts.decodeAll maxLen) ef.toVec := by
  have holds := StreamVByteDevice.holds_of_upload uploaded
  have holdsEf := EliasFanoDeviceParts.holds_of_upload uploadedEf
  have shaped := built.shaped
  have shapedEf := builtEf.shaped
  constructor
  · have stores : dev.decode maxLen = .ok (some (sv.values.zipIdx.map Prod.swap)) := by
      rw [StreamVByteDevice.decode, if_neg (Nat.not_lt.mpr room.1), holds.kernel_some shaped,
        holds.len]
      split
      · rename_i empty
        rw [StreamVByte.values, if_pos empty]
        rfl
      · rfl
    rw [stores, shaped.decode_eq]
    refine decodesAs_of_stores ?_
    rw [StreamVByte.values_length, ← holds.len]
    exact room.1
  · have stores : parts.decodeAll maxLen = .ok (some (ef.elements.zipIdx.map Prod.swap)) := by
      have whole := EliasFanoDeviceParts.storesOf_length shapedEf
      rw [EliasFanoDeviceParts.decodeAll, if_neg (Nat.not_lt.mpr room.2),
        holdsEf.kernel_some shapedEf, holdsEf.len]
      split
      · rename_i empty
        rw [empty, List.length_eq_zero_iff] at whole
        exact congrArg (fun stores => Except.ok (some stores)) whole.symm
      · rfl
    rw [stores, EliasFano.toVec_eq shapedEf]
    refine decodesAs_of_stores ?_
    rw [EliasFano.elements_length shapedEf, ← holdsEf.len]
    exact room.2

theorem device_decoders_match_pair :
    ∃ sv dev ef parts, StreamVByte.encodeDeltas [7, 300] = some sv ∧
      EliasFano.encode [1, 5] = some ef ∧ StreamVByteDevice.upload sv = .ok dev ∧
      EliasFanoDeviceParts.upload ef = .ok parts ∧
      DecodesAs 2 (dev.decode 2) sv.decode ∧ DecodesAs 2 (parts.decodeAll 2) ef.toVec := by
  have encoded : StreamVByte.encodeDeltas [7, 300] = some ⟨2, 7, [1], [37, 1]⟩ := by decide
  have encodedEf : EliasFano.encode [1, 5] = some ⟨2, 1, [3], [9], 5⟩ := by decide
  have uploaded : StreamVByteDevice.upload ⟨2, 7, [1], [37, 1]⟩ = .ok ⟨[1], [37, 1], 2, 7⟩ := by
    decide
  have uploadedEf : EliasFanoDeviceParts.upload ⟨2, 1, [3], [9], 5⟩ = .ok ⟨[3], [9], 1, 2, 1⟩ := by
    decide
  exact ⟨_, _, _, _, encoded, encodedEf, uploaded, uploadedEf,
    device_decoders_match (.encoded encoded) uploaded (.encoded encodedEf) uploadedEf
      ⟨Nat.le_refl 2, Nat.le_refl 2⟩⟩

end AetherGraph
