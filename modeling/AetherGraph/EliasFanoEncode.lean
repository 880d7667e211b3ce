import AetherGraph.EliasFano

/-! The Elias-Fano encoder: every non-decreasing sequence encodes, and the two streams stand for
the sequence again. -/

namespace AetherGraph

open Foundation

namespace EliasFano

def encodeStep (lowBits : Nat) (mask : U64) (streams : BitWriter × List U64)
    (entry : U64 × Nat) : Option (BitWriter × List U64) := do
  let low ← (if 0 < lowBits then streams.1.pushBits (entry.1 &&& mask) lowBits else some streams.1)
  let high ← orBit streams.2 ((entry.1 >>> lowBits).toNat + entry.2)
  some (low, high)

/-- The low-bit count that balances the two streams. -/
def lowBitsFor (len : Nat) (universeValue : U64) : Nat :=
  if len = 0 ∨ universeValue.toNat < len then 0 else (universeValue.toNat / len).log2

def encode (values : List U64) : Option EliasFano :=
  -- an unsorted sequence panics
  if values.IsChain (· ≤ ·) then do
    let len := values.length
    let universeValue := values.getLast?.getD 0
    let lowBits := lowBitsFor len universeValue
    let highLen := len + (universeValue >>> lowBits).toNat + 1
    let mask := if lowBits = 0 then 0 else (1#64 <<< lowBits) - 1
    let streams ← values.zipIdx.foldlM (encodeStep lowBits mask)
      (.new, List.replicate ((highLen + 63) / 64) 0)
    some ⟨len, lowBits, streams.1.words, streams.2, universeValue⟩
  else none

theorem lowBitsFor_lt (len : Nat) (universeValue : U64) : lowBitsFor len universeValue < 64 := by
  rw [lowBitsFor]
  split
  · omega
  · rename_i some_
    rw [Nat.log2_lt]
    · exact Nat.lt_of_le_of_lt (Nat.div_le_self _ _) universeValue.isLt
    · rw [Nat.div_ne_zero_iff]
      omega

section

variable (values : List U64) (lowBits : Nat)

/-- Where the set bit of each element stands. -/
def setPositions : List Nat :=
  values.zipIdx.map fun entry : U64 × Nat => (entry.1 >>> lowBits).toNat + entry.2

/-- The streams after the first `n` elements. -/
structure Encoded (n width : Nat) (streams : BitWriter × List U64) : Prop where
  sized : streams.1.Sized
  bitLen : streams.1.bitLen = n * lowBits
  fields : ∀ i v, i < n → values[i]? = some v → ∀ j < lowBits,
    bitAt streams.1.words (i * lowBits + j) = v.getLsbD j
  fresh : ∀ p, n * lowBits ≤ p → bitAt streams.1.words p = false
  width : streams.2.length = width
  ones : ∀ q, bitAt streams.2 q = true ↔ q ∈ (setPositions values lowBits).take n

variable {values lowBits}

theorem setPositions_getElem? (lowBits : Nat) {i : Nat} {v : U64} (at_ : values[i]? = some v) :
    (setPositions values lowBits)[i]? = some ((v >>> lowBits).toNat + i) := by
  rw [setPositions, List.getElem?_map, List.getElem?_zipIdx, at_]
  simp

/-- Encoding one more element. -/
theorem Encoded.step (lt : lowBits < 64) {n width : Nat} {streams : BitWriter × List U64} {v : U64}
    (h : Encoded values lowBits n width streams) (at_ : values[n]? = some v)
    (room : ((v >>> lowBits).toNat + n) / 64 < width) :
    ∃ streams', encodeStep lowBits (if lowBits = 0 then 0 else (1#64 <<< lowBits) - 1) streams
        (v, n) = some streams' ∧ Encoded values lowBits (n + 1) width streams' := by
  have maskBits : ∀ j, (v &&& (1#64 <<< lowBits) - 1).getLsbD j =
      (v.getLsbD j && decide (j < lowBits)) := fun j => by
    rw [BitVec.getLsbD_and, getLsbD_mask lt]
  have lower : ∃ low, (if 0 < lowBits then
      streams.1.pushBits (v &&& if lowBits = 0 then 0 else (1#64 <<< lowBits) - 1) lowBits
      else some streams.1) = some low ∧ low.bitLen = (n + 1) * lowBits ∧ low.Sized ∧
      ∀ p, bitAt low.words p = (bitAt streams.1.words p ||
        (decide (n * lowBits ≤ p) && (decide (p - n * lowBits < lowBits) &&
          v.getLsbD (p - n * lowBits)))) := by
    rcases Nat.eq_zero_or_pos lowBits with rfl | positive
    · refine ⟨streams.1, if_neg (Nat.lt_irrefl 0), ?_, h.sized, fun p => ?_⟩
      · rw [h.bitLen, Nat.mul_zero, Nat.mul_zero]
      · simp
    · rw [if_pos positive, if_neg (Nat.ne_of_gt positive)]
      have fits : ∀ j, lowBits ≤ j → (v &&& (1#64 <<< lowBits) - 1).getLsbD j = false :=
        fun j hj => by rw [maskBits, decide_eq_false (Nat.not_lt.mpr hj), Bool.and_false]
      obtain ⟨low, pushed, bitLen, sized, bits⟩ :=
        BitWriter.pushBits_spec h.sized (Nat.le_of_lt lt) fits
      refine ⟨low, pushed, ?_, sized, fun p => ?_⟩
      · rw [bitLen, h.bitLen, Nat.succ_mul]
      · rw [bits, h.bitLen, maskBits, Bool.and_comm (v.getLsbD _)]
  obtain ⟨low, pushed, bitLen, sized, bits⟩ := lower
  rw [← h.width] at room
  obtain ⟨high, set, length⟩ := orWord_some room (1#64 <<< (((v >>> lowBits).toNat + n) % 64))
  have pos := setPositions_getElem? lowBits at_
  refine ⟨(low, high), ?_, sized, bitLen, ?_, ?_, length.trans h.width, fun q => ?_⟩
  · rw [encodeStep]
    dsimp only
    rw [pushed]
    show (orBit streams.2 _).bind _ = _
    rw [orBit, set]
    rfl
  · intro i u hi hu j hj
    dsimp only
    rw [bits]
    have place : i * lowBits + j < (i + 1) * lowBits := by
      rw [Nat.succ_mul]
      omega
    rcases Nat.lt_or_eq_of_le (Nat.le_of_lt_succ hi) with before | rfl
    · have : (i + 1) * lowBits ≤ n * lowBits := Nat.mul_le_mul_right _ before
      rw [h.fields i u before hu j hj, decide_eq_false (by omega), Bool.false_and, Bool.or_false]
    · obtain rfl : v = u := Option.some.inj (at_.symm.trans hu)
      rw [h.fresh _ (Nat.le_add_right _ _), Nat.add_sub_cancel_left, decide_eq_true hj,
        decide_eq_true (Nat.le_add_right _ _), Bool.false_or, Bool.true_and, Bool.true_and]
  · intro p hp
    dsimp only
    rw [Nat.succ_mul] at hp
    rw [bits, h.fresh p (by omega), decide_eq_false (show ¬ p - n * lowBits < lowBits by omega)]
    simp
  · dsimp only
    rw [bitAt_orBit (by omega) set, Bool.or_eq_true, decide_eq_true_eq, h.ones,
      List.take_add_one, pos, Option.toList_some, List.mem_append, List.mem_singleton]

theorem nonDecreasing_pairwise (sorted : values.IsChain (· ≤ ·)) : values.Pairwise (· ≤ ·) :=
  List.isChain_iff_pairwise.mp sorted

/-- The last element bounds the others. -/
theorem le_universe (sorted : values.IsChain (· ≤ ·)) {v : U64} (mem : v ∈ values) :
    v ≤ values.getLast?.getD 0 := by
  have nonempty : values ≠ [] := List.ne_nil_of_mem mem
  rw [List.getLast?_eq_getLast_of_ne_nil nonempty, Option.getD_some]
  rcases List.mem_iff_getElem.mp mem with ⟨i, hi, rfl⟩
  rw [List.getLast_eq_getElem]
  rcases Nat.lt_or_eq_of_le (Nat.le_sub_one_of_lt hi) with before | last
  · exact List.pairwise_iff_getElem.mp (nonDecreasing_pairwise sorted) _ _ hi _ before
  · subst last
    exact BitVec.le_refl _

theorem shift_mono (lowBits : Nat) {a b : U64} (h : a ≤ b) : (a >>> lowBits).toNat ≤ (b >>> lowBits).toNat := by
  rw [BitVec.toNat_ushiftRight, BitVec.toNat_ushiftRight, Nat.shiftRight_eq_div_pow,
    Nat.shiftRight_eq_div_pow]
  exact Nat.div_le_div_right (BitVec.le_def.mp h)

theorem setPositions_sorted (sorted : values.IsChain (· ≤ ·)) :
    (setPositions values lowBits).Pairwise (· < ·) := by
  refine List.pairwise_iff_getElem.mpr fun i j hi hj less => ?_
  have len : (setPositions values lowBits).length = values.length := by
    rw [setPositions, List.length_map, List.length_zipIdx]
  have atI := setPositions_getElem? lowBits (List.getElem?_eq_getElem (len ▸ hi))
  have atJ := setPositions_getElem? lowBits (List.getElem?_eq_getElem (len ▸ hj))
  rw [List.getElem?_eq_getElem hi] at atI
  rw [List.getElem?_eq_getElem hj] at atJ
  have mono := shift_mono lowBits (List.pairwise_iff_getElem.mp
    (nonDecreasing_pairwise sorted) i j (len ▸ hi) (len ▸ hj) less)
  rw [Option.some.inj atI, Option.some.inj atJ]
  omega

/-- What the encoder builds from a sequence. -/
structure Encodes (values : List U64) (ef : EliasFano) : Prop where
  len : ef.len = values.length
  universeValue : ef.universeValue = values.getLast?.getD 0
  lowBits : ef.lowBits = lowBitsFor values.length ef.universeValue
  low_length : ef.low.length = (values.length * ef.lowBits + 63) / 64
  high_length : ef.high.length =
    (values.length + (ef.universeValue >>> ef.lowBits).toNat + 1 + 63) / 64
  ones : scanOnes ef.high = setPositions values ef.lowBits
  fields : ∀ i v, values[i]? = some v → ∀ j < ef.lowBits,
    bitAt ef.low (i * ef.lowBits + j) = v.getLsbD j

theorem encode_encodes (sorted : values.IsChain (· ≤ ·)) :
    ∃ ef, encode values = some ef ∧ Encodes values ef := by
  have lt := lowBitsFor_lt values.length (values.getLast?.getD 0)
  generalize bits : lowBitsFor values.length (values.getLast?.getD 0) = lowBits at lt
  have len : (setPositions values lowBits).length = values.length := by
    rw [setPositions, List.length_map, List.length_zipIdx]
  obtain ⟨streams, ran, encoded⟩ := foldlM_zipIdx
    (f := encodeStep lowBits (if lowBits = 0 then 0 else (1#64 <<< lowBits) - 1))
    (P := fun n streams => Encoded values lowBits n
      ((values.length + (values.getLast?.getD 0 >>> lowBits).toNat + 1 + 63) / 64) streams)
    (b := (.new, List.replicate
      ((values.length + (values.getLast?.getD 0 >>> lowBits).toNat + 1 + 63) / 64) 0))
    (fun n v streams at_ encoded => by
      obtain ⟨inside, -⟩ := List.getElem?_eq_some_iff.mp at_
      have high := shift_mono lowBits (le_universe sorted (List.mem_of_getElem? at_))
      exact encoded.step lt at_ (by omega))
    (by
      refine ⟨(show 0 = (0 + 63) / 64 by rfl), (Nat.zero_mul _).symm,
        fun i v hi => absurd hi (Nat.not_lt_zero i), fun p _ => ?_, List.length_replicate,
        fun q => ?_⟩
      · simp [BitWriter.new, bitAt]
      · rw [bitAt_replicate]
        simp)
  refine ⟨⟨values.length, lowBits, streams.1.words, streams.2, values.getLast?.getD 0⟩, ?_,
    rfl, rfl, bits.symm, ?_, encoded.width, ?_, fun i v at_ => ?_⟩
  · rw [encode, if_pos sorted]
    simp only [bits, ran, Option.bind_eq_bind, Option.bind_some]
  · dsimp only
    rw [encoded.sized, encoded.bitLen]
  · refine eq_of_mem_iff (scanOnes_sorted _) (setPositions_sorted sorted) fun q => ?_
    rw [mem_scanOnes, encoded.ones, List.take_of_length_le (Nat.le_of_eq len)]
  · obtain ⟨inside, -⟩ := List.getElem?_eq_some_iff.mp at_
    exact encoded.fields i v inside at_

section

variable {ef : EliasFano}

theorem Encodes.shaped (h : Encodes values ef) : ef.Shaped where
  lowBits_lt := h.lowBits ▸ lowBitsFor_lt _ _
  low_covers := by
    have := h.low_length
    rw [h.len]
    omega
  ones := by rw [h.ones, setPositions, List.length_map, List.length_zipIdx, h.len]

/-- The streams stand for the sequence. -/
theorem Encodes.elements_eq (h : Encodes values ef) : ef.elements = values := by
  refine List.ext_getElem? fun i => ?_
  cases at_ : values[i]? with
  | none =>
      rw [List.getElem?_eq_none_iff] at at_ ⊢
      rwa [elements_length h.shaped, h.len]
  | some v =>
      obtain ⟨inside, -⟩ := List.getElem?_eq_some_iff.mp at_
      have pos := setPositions_getElem? ef.lowBits at_
      rw [← h.ones] at pos
      obtain ⟨x, field, value⟩ := valueAt_spec h.shaped (h.len ▸ inside)
        (Nat.le_add_left i (v >>> ef.lowBits).toNat)
      rw [← elements_getElem? h.shaped pos, value, Nat.add_sub_cancel, BitVec.ofNat_toNat]
      congr 1
      refine BitVec.eq_of_getLsbD_eq fun j hj => ?_
      rw [BitVec.getLsbD_or, BitVec.getLsbD_shiftLeft, BitVec.setWidth_eq,
        BitVec.getLsbD_ushiftRight, field j]
      by_cases low : j < ef.lowBits
      · rw [decide_eq_true low, h.fields i v at_ j low]
        simp
      · rw [decide_eq_false low, Nat.add_sub_cancel' (Nat.le_of_not_lt low)]
        simp [hj]

end

end

end EliasFano

end AetherGraph
