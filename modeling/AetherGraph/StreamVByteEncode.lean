import AetherGraph.StreamVByte

/-! The StreamVByte encoder: every sequence encodes, and the two streams stand for it again. -/

namespace AetherGraph

open Foundation

/-- What the length of a delta promises. -/
theorem svbLen_spec (v : U32) : (svbLen v).2.toNat + 1 = (svbLen v).1 ∧ (svbLen v).1 ≤ 4 ∧
    v.toNat < 256 ^ (svbLen v).1 := by
  have bound := v.isLt
  unfold svbLen
  split
  · rename_i small
    exact ⟨rfl, by decide, BitVec.lt_def.mp small⟩
  · split
    · rename_i small
      exact ⟨rfl, by decide, BitVec.lt_def.mp small⟩
    · split
      · rename_i small
        exact ⟨rfl, by decide, BitVec.lt_def.mp small⟩
      · exact ⟨rfl, by decide, bound⟩

theorem getLsbD_three (j : Nat) : (3#8).getLsbD j = decide (j < 2) := by
  show (2 ^ 2 - 1).testBit j = _
  rw [Nat.testBit_two_pow_sub_one]

/-- A tag is its two bits of the control stream. -/
theorem controlTag_bits {control : List U8} {i : Nat} (inside : i / 4 < control.length) :
    ∃ tag, controlTag control i = some tag ∧ FieldAt control (2 * i) 2 tag := by
  refine ⟨(control[i / 4] >>> (i % 4 * 2)) &&& 3#8, ?_, fun j => ?_⟩
  · rw [controlTag, List.getElem?_eq_getElem inside]
    rfl
  · rw [BitVec.getLsbD_and, BitVec.getLsbD_ushiftRight, getLsbD_three, Bool.and_comm]
    by_cases low : j < 2
    · have word : 2 * i / 8 = i / 4 := by omega
      have off : 2 * i % 8 = i % 4 * 2 := by omega
      rw [bitAt_add _ _ (by omega), word, off, if_pos (by omega), List.getD_eq_getElem?_getD,
        List.getElem?_eq_getElem inside]
      rfl
    · rw [decide_eq_false low, Bool.false_and, Bool.false_and]

/-- The data bytes of a delta. -/
def deltaBytes (delta : U32) : List U8 := (u32Bytes delta).take (svbLen delta).1

theorem deltaBytes_length (delta : U32) : (deltaBytes delta).length = (svbLen delta).1 := by
  rw [deltaBytes, List.length_take, u32Bytes_length]
  exact Nat.min_eq_left (svbLen_spec delta).2.1

theorem take_toLe {m k : Nat} (h : m ≤ k) (n : Nat) : (toLe k n).take m = toLe m n := by
  induction m generalizing k n with
  | zero => rfl
  | succ m ih =>
      match k, h with
      | k + 1, h => rw [toLe, toLe, List.take_succ_cons, ih (Nat.le_of_succ_le_succ h)]

theorem deltaOf_deltaBytes (delta : U32) : deltaOf (deltaBytes delta) = delta := by
  obtain ⟨-, short, bound⟩ := svbLen_spec delta
  rw [deltaOf, deltaBytes, u32Bytes, take_toLe short, ofLe_toLe_of_lt bound, BitVec.ofNat_toNat,
    BitVec.setWidth_eq]

namespace StreamVByte

section

variable (first : U32) (rest : List U32)

/-- The wrapping deltas of a sequence. -/
def deltas : List U32 := List.zipWith (· - ·) rest (first :: rest)

theorem deltas_length : (deltas first rest).length = rest.length := by
  rw [deltas, List.length_zipWith, List.length_cons]
  omega

theorem scanl_deltas : (deltas first rest).scanl (· + ·) first = first :: rest := by
  induction rest generalizing first with
  | nil => rfl
  | cons v rest ih =>
      rw [deltas, List.zipWith_cons_cons, List.scanl_cons]
      have whole : first + (v - first) = v := by
        rw [BitVec.add_comm, BitVec.sub_add_cancel]
      rw [whole]
      exact congrArg (first :: ·) (ih v)

/-- The streams after the first `n` deltas. -/
structure Encoded (n : Nat) (streams : Streams) : Prop where
  width : streams.control.length = (rest.length + 3) / 4
  prev : (first :: rest)[n]? = some streams.prev
  tags : ∀ i delta, i < n → (deltas first rest)[i]? = some delta →
    FieldAt streams.control (2 * i) 2 (svbLen delta).2
  fresh : ∀ p, 2 * n ≤ p → bitAt streams.control p = false
  data : streams.data = ((deltas first rest).take n).flatMap deltaBytes

variable {first rest}

theorem svbLen_tag_bits (v : U32) {j : Nat} (h : 2 ≤ j) : (svbLen v).2.getLsbD j = false := by
  unfold svbLen
  have high : ∀ t : U8, t.toNat < 4 → t.getLsbD j = false := fun t small => by
    refine Nat.testBit_lt_two_pow (Nat.lt_of_lt_of_le small ?_)
    exact Nat.pow_le_pow_right (n := 2) (by decide) h
  split
  · exact high 0 (by decide)
  · split
    · exact high 1 (by decide)
    · split
      · exact high 2 (by decide)
      · exact high 3 (by decide)

/-- Encoding one more delta. -/
theorem Encoded.step {n : Nat} {streams : Streams} {v : U32} (h : Encoded first rest n streams)
    (at_ : rest[n]? = some v) :
    ∃ streams', encodeStep streams (v, n) = some streams' ∧ Encoded first rest (n + 1) streams' := by
  obtain ⟨inside, rfl⟩ := List.getElem?_eq_some_iff.mp at_
  have delta : (deltas first rest)[n]? = some (rest[n] - streams.prev) := by
    rw [deltas, List.getElem?_zipWith, h.prev, at_]
  have room : n / 4 < streams.control.length := by
    rw [h.width]
    omega
  obtain ⟨control, written, length⟩ := orWord_some room
    ((svbLen (rest[n] - streams.prev)).2 <<< (n % 4 * 2))
  have bits : ∀ p, bitAt control p = (bitAt streams.control p || (decide (2 * n ≤ p) &&
      (svbLen (rest[n] - streams.prev)).2.getLsbD (p - 2 * n))) := by
    intro p
    have split := Nat.div_add_mod p 8
    have low := Nat.mod_lt p (show 0 < 8 by omega)
    rw [bitAt_orWord written, BitVec.getLsbD_shiftLeft, decide_eq_true low, Bool.true_and]
    congr 1
    by_cases word : p / 8 = n / 4
    · by_cases below : p % 8 < n % 4 * 2
      · simp [word, below, show ¬ 2 * n ≤ p by omega]
      · simp [word, below, show 2 * n ≤ p by omega, show p - 2 * n = p % 8 - n % 4 * 2 by omega]
    · rw [decide_eq_false word, Bool.false_and]
      by_cases before : 2 * n ≤ p
      · rw [svbLen_tag_bits _ (by omega), Bool.and_false]
      · rw [decide_eq_false before, Bool.false_and]
  refine ⟨⟨control, streams.data ++ deltaBytes (rest[n] - streams.prev), rest[n]⟩, ?_,
    length.trans h.width, ?_, fun i d hi hd j => ?_, fun p hp => ?_, ?_⟩
  · simp only [encodeStep, written]
    rfl
  · rw [List.getElem?_cons_succ]
    exact at_
  · dsimp only
    rw [bits]
    rcases Nat.lt_or_eq_of_le (Nat.le_of_lt_succ hi) with before | rfl
    · rw [h.tags i d before hd j]
      by_cases low : j < 2
      · simp [low, show ¬ 2 * n ≤ 2 * i + j by omega]
      · rw [decide_eq_false low, Bool.false_and, Bool.false_and]
    · obtain rfl := Option.some.inj (delta.symm.trans hd)
      rw [h.fresh _ (Nat.le_add_right _ _), Nat.add_sub_cancel_left,
        decide_eq_true (Nat.le_add_right _ _), Bool.false_or, Bool.true_and]
      by_cases low : j < 2
      · rw [decide_eq_true low, Bool.true_and]
      · rw [svbLen_tag_bits _ (Nat.le_of_not_lt low), Bool.and_false]
  · dsimp only
    rw [bits, h.fresh p (by omega), svbLen_tag_bits _ (by omega), Bool.and_false]
    rfl
  · dsimp only
    rw [List.take_add_one, delta, Option.toList_some, List.flatMap_append, ← h.data,
      List.flatMap_singleton]

/-- What the encoder builds from a sequence. -/
structure Encodes (first : U32) (rest : List U32) (sv : StreamVByte) : Prop where
  len : sv.len = rest.length + 1
  head : sv.first = first
  control : sv.control.length = (rest.length + 3) / 4
  tags : ∀ i delta, (deltas first rest)[i]? = some delta →
    controlTag sv.control i = some (svbLen delta).2
  data : sv.data = (deltas first rest).flatMap deltaBytes

theorem encodeDeltas_encodes (first : U32) (rest : List U32) :
    ∃ sv, encodeDeltas (first :: rest) = some sv ∧ Encodes first rest sv := by
  have length := deltas_length first rest
  obtain ⟨streams, ran, encoded⟩ := foldlM_zipIdx (f := encodeStep) (α := U32)
    (P := Encoded first rest) (b := ⟨List.replicate ((rest.length + 3) / 4) 0, [], first⟩)
    (fun n v streams at_ encoded => encoded.step at_)
    ⟨List.length_replicate, rfl, fun i delta hi => absurd hi (Nat.not_lt_zero i),
      fun p _ => bitAt_replicate _ p, rfl⟩
  refine ⟨⟨rest.length + 1, first, streams.control, streams.data⟩, ?_, rfl, rfl, encoded.width,
    fun i delta at_ => ?_, ?_⟩
  · rw [encodeDeltas, ran]
    rfl
  · obtain ⟨hi, -⟩ := List.getElem?_eq_some_iff.mp at_
    have room : i / 4 < streams.control.length := by
      rw [encoded.width]
      omega
    obtain ⟨tag, read, field⟩ := controlTag_bits room
    rw [read, field.unique (encoded.tags i delta (length ▸ hi) at_)]
  · rw [encoded.data, List.take_of_length_le (Nat.le_of_eq length)]

variable {sv : StreamVByte}

theorem Encodes.numDeltas_eq (h : Encodes first rest sv) :
    sv.numDeltas = (deltas first rest).length := by
  rw [numDeltas, h.len, deltas_length, Nat.add_sub_cancel]

theorem Encodes.lengthAt_eq (h : Encodes first rest sv) {i : Nat} {delta : U32}
    (at_ : (deltas first rest)[i]? = some delta) : sv.lengthAt i = (deltaBytes delta).length := by
  rw [lengthAt, h.tags i delta at_, deltaBytes_length]
  exact (svbLen_spec delta).1

theorem Encodes.offsetAt_eq (h : Encodes first rest sv) {i : Nat}
    (hi : i ≤ (deltas first rest).length) :
    sv.offsetAt i = (((deltas first rest).take i).flatMap deltaBytes).length := by
  induction i with
  | zero => rfl
  | succ i ih =>
      have at_ := List.getElem?_eq_getElem (Nat.lt_of_succ_le hi)
      rw [offsetAt_succ, ih (Nat.le_of_succ_le hi), h.lengthAt_eq at_, List.take_add_one, at_,
        Option.toList_some, List.flatMap_append, List.length_append, List.flatMap_singleton]

theorem Encodes.shaped (h : Encodes first rest sv) : sv.Shaped where
  control := by
    rw [h.control, h.numDeltas_eq, deltas_length]
  data := by
    rw [h.numDeltas_eq, h.offsetAt_eq (Nat.le_refl _), List.take_length, h.data]

theorem Encodes.deltaAt_eq (h : Encodes first rest sv) {i : Nat} {delta : U32}
    (at_ : (deltas first rest)[i]? = some delta) : sv.deltaAt i = delta := by
  obtain ⟨hi, -⟩ := List.getElem?_eq_some_iff.mp at_
  rw [deltaAt, h.lengthAt_eq at_, h.offsetAt_eq (Nat.le_of_lt hi), h.data,
    take_drop_pieces deltaBytes at_, deltaOf_deltaBytes]

/-- The streams stand for the sequence. -/
theorem Encodes.values_eq (h : Encodes first rest sv) : sv.values = first :: rest := by
  have each : (List.range sv.numDeltas).map sv.deltaAt = deltas first rest := by
    rw [h.numDeltas_eq]
    refine List.ext_getElem (by simp) fun i hi hd => ?_
    rw [List.getElem_map, List.getElem_range]
    exact h.deltaAt_eq (List.getElem?_eq_getElem hd)
  rw [values, if_neg (by rw [h.len]; omega), each, h.head, scanl_deltas]

end

end StreamVByte

end AetherGraph
