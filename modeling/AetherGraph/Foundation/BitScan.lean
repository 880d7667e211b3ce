import AetherGraph.Foundation.SortedList
import Mathlib.Algebra.GroupWithZero.Nat

/-! Set bits of packed words, found from the lowest upwards: clearing the lowest set bit visits
every set bit of a word once, so a scan of the words lists the set positions in order and a
select reads that list at its rank. -/

namespace Foundation

variable {w : Nat}

/-- The bit at a position of a vector of packed words. -/
def bitAt (words : List (BitVec w)) (p : Nat) : Bool := (words.getD (p / w) 0).getLsbD (p % w)

def clearLowest (word : BitVec w) : BitVec w := word &&& (word - 1)

def setBits (word : BitVec w) : List Nat := (List.range w).filter word.getLsbD

/-- Lowest set bit first: `while word != 0` with at most `fuel` rounds. -/
def drain : Nat → BitVec w → List Nat
  | 0, _ => []
  | fuel + 1, word =>
      if word = 0 then [] else word.ctz.toNat :: drain fuel (clearLowest word)

/-- The set positions of the words, word by word. -/
def scanOnes (words : List (BitVec w)) : List Nat :=
  words.zipIdx.flatMap fun entry => (drain w entry.1).map (entry.2 * w + ·)

/-- The position of the set bit of a rank, found word by word. -/
def selectFrom : Nat → List (BitVec w) → Nat → Option Nat
  | _, [], _ => none
  | index, word :: words, rank =>
      if rank < word.cpop.toNat then some (index * w + (clearLowest^[rank] word).ctz.toNat)
      else selectFrom (index + 1) words (rank - word.cpop.toNat)

section Word

theorem ctz_lt {word : BitVec w} (h : word ≠ 0) : word.ctz.toNat < w := by
  have below := BitVec.ctz_lt_iff_ne_zero.mpr h
  rw [BitVec.lt_def] at below
  exact Nat.lt_of_lt_of_le below (by simp)

theorem mem_setBits {word : BitVec w} {j : Nat} : j ∈ setBits word ↔ word.getLsbD j = true := by
  rw [setBits, List.mem_filter, List.mem_range]
  exact ⟨fun h => h.2, fun h => ⟨BitVec.lt_of_getLsbD h, h⟩⟩

theorem setBits_sorted (word : BitVec w) : (setBits word).Pairwise (· < ·) :=
  List.pairwise_lt_range.filter _

theorem cpop_eq_length (word : BitVec w) : word.cpop.toNat = (setBits word).length := by
  have count : ∀ n, BitVec.cpopNatRec word n 0 = ((List.range n).filter word.getLsbD).length := by
    intro n
    induction n with
    | zero => rfl
    | succ n ih =>
        rw [BitVec.cpopNatRec_succ, BitVec.cpopNatRec_add, ih, List.range_succ, List.filter_append]
        cases bit : word.getLsbD n <;> simp [bit]
  rw [BitVec.toNat_cpop, count]
  rfl

theorem getLsbD_clearLowest {word : BitVec w} (h : word ≠ 0) (j : Nat) :
    (clearLowest word).getLsbD j = (word.getLsbD j && decide (j ≠ word.ctz.toNat)) := by
  have bit := BitVec.getLsbD_true_ctz_of_ne_zero h
  have low : ∀ i < word.ctz.toNat, word.getLsbD i = false :=
    fun i hi => BitVec.getLsbD_false_of_lt_ctz hi
  have inside := ctz_lt h
  generalize word.ctz.toNat = t at bit low inside ⊢
  -- the word is an odd multiple of `2 ^ t`
  have split : word.toNat = 2 ^ (t + 1) * (word.toNat / 2 ^ (t + 1)) + 2 ^ t := by
    apply Nat.eq_of_testBit_eq
    intro i
    have lt : (2 : Nat) ^ t < 2 ^ (t + 1) := Nat.pow_lt_pow_right (by omega) (Nat.lt_succ_self t)
    rw [Nat.testBit_two_pow_mul_add _ lt]
    split
    · rename_i below
      rcases Nat.lt_or_eq_of_le (Nat.le_of_lt_succ below) with less | rfl
      · rw [Nat.testBit_two_pow_of_ne (Nat.ne_of_gt less)]
        exact low i less
      · rw [Nat.testBit_two_pow_self]
        exact bit
    · rename_i above
      rw [Nat.testBit_div_two_pow, Nat.sub_add_cancel (Nat.le_of_not_lt above)]
  have before : (word - 1).toNat = 2 ^ (t + 1) * (word.toNat / 2 ^ (t + 1)) + (2 ^ t - 1) := by
    have positive : 0 < 2 ^ t := Nat.two_pow_pos t
    have bound := word.isLt
    have one : (1 : BitVec w).toNat = 1 := by
      have big : 1 < 2 ^ w := Nat.one_lt_two_pow (by omega)
      simpa using Nat.mod_eq_of_lt big
    rw [BitVec.toNat_sub, one]
    have : 2 ^ w - 1 + word.toNat = word.toNat - 1 + 2 ^ w := by omega
    rw [this, Nat.add_mod_right, Nat.mod_eq_of_lt (by omega)]
    omega
  rw [clearLowest, BitVec.getLsbD_and]
  cases here : word.getLsbD j with
  | false => rw [Bool.false_and, Bool.false_and]
  | true =>
      rw [Bool.true_and, Bool.true_and]
      show (word - 1).toNat.testBit j = _
      have lt : 2 ^ t - 1 < 2 ^ (t + 1) := by
        have : (2 : Nat) ^ t < 2 ^ (t + 1) := Nat.pow_lt_pow_right (by omega) (Nat.lt_succ_self t)
        omega
      rw [before, Nat.testBit_two_pow_mul_add _ lt]
      split
      · rename_i below
        rw [Nat.testBit_two_pow_sub_one]
        have notLow : ¬ j < t := fun less => by
          rw [low j less] at here
          cases here
        obtain rfl : j = t := by omega
        simp
      · rename_i above
        rw [Nat.testBit_div_two_pow, Nat.sub_add_cancel (Nat.le_of_not_lt above)]
        have apart : j ≠ t := by omega
        rw [decide_eq_true apart]
        exact here

/-- Clearing the lowest set bit leaves the others. -/
theorem setBits_step {word : BitVec w} (h : word ≠ 0) :
    setBits word = word.ctz.toNat :: setBits (clearLowest word) := by
  refine eq_of_mem_iff (setBits_sorted word) ?_ fun j => ?_
  · refine List.pairwise_cons.mpr ⟨fun j hj => ?_, setBits_sorted _⟩
    rw [mem_setBits, getLsbD_clearLowest h, Bool.and_eq_true, decide_eq_true_eq] at hj
    refine Nat.lt_of_le_of_ne (Nat.le_of_not_lt fun less => ?_) (Ne.symm hj.2)
    rw [BitVec.getLsbD_false_of_lt_ctz less] at hj
    cases hj.1
  · rw [List.mem_cons, mem_setBits, mem_setBits, getLsbD_clearLowest h, Bool.and_eq_true,
      decide_eq_true_eq]
    constructor
    · intro bit
      by_cases same : j = word.ctz.toNat
      · exact .inl same
      · exact .inr ⟨bit, same⟩
    · rintro (rfl | ⟨bit, -⟩)
      · exact BitVec.getLsbD_true_ctz_of_ne_zero h
      · exact bit

@[simp] theorem setBits_zero : setBits (0 : BitVec w) = [] := by
  rw [setBits, List.filter_eq_nil_iff]
  intro j _
  simp

theorem drain_eq : ∀ (fuel : Nat) (word : BitVec w), (setBits word).length ≤ fuel →
    drain fuel word = setBits word := by
  intro fuel
  induction fuel with
  | zero =>
      intro word enough
      exact (List.length_eq_zero_iff.mp (Nat.le_zero.mp enough)).symm
  | succ fuel ih =>
      intro word enough
      rw [drain]
      split
      · rename_i zero
        rw [zero, setBits_zero]
      · rename_i nonzero
        rw [setBits_step nonzero, ih]
        rw [setBits_step nonzero] at enough
        exact Nat.le_of_succ_le_succ enough

theorem setBits_length_le (word : BitVec w) : (setBits word).length ≤ w := by
  have := List.length_filter_le word.getLsbD (List.range w)
  rwa [List.length_range] at this

theorem drain_width (word : BitVec w) : drain w word = setBits word :=
  drain_eq w word (setBits_length_le word)

/-- Skipping `rank` set bits leaves the bit of that rank lowest. -/
theorem ctz_clearLowest {word : BitVec w} {rank : Nat} (h : rank < (setBits word).length) :
    (setBits word)[rank]? = some (clearLowest^[rank] word).ctz.toNat := by
  induction rank generalizing word with
  | zero =>
      have nonzero : word ≠ 0 := by
        rintro rfl
        rw [setBits_zero] at h
        cases h
      rw [setBits_step nonzero]
      rfl
  | succ rank ih =>
      have nonzero : word ≠ 0 := by
        rintro rfl
        rw [setBits_zero] at h
        cases h
      rw [setBits_step nonzero] at h ⊢
      rw [List.getElem?_cons_succ, ih (Nat.lt_of_succ_lt_succ h), Function.iterate_succ_apply]

end Word

section Words

theorem scanOnes_from (words : List (BitVec w)) (index : Nat) :
    (words.zipIdx index).flatMap (fun entry => (drain w entry.1).map (entry.2 * w + ·)) =
      (scanOnes words).map (index * w + ·) := by
  rw [scanOnes, List.map_flatMap, List.zipIdx_eq_map_add, List.flatMap_map]
  refine List.flatMap_congr fun entry _ => ?_
  rw [List.map_map]
  refine List.map_congr_left fun j _ => ?_
  rw [Function.comp_apply, Nat.add_mul]
  omega

theorem scanOnes_cons (word : BitVec w) (words : List (BitVec w)) :
    scanOnes (word :: words) = setBits word ++ (scanOnes words).map (w + ·) := by
  rw [scanOnes, List.zipIdx_cons, List.flatMap_cons, scanOnes_from, drain_width]
  simp

theorem selectFrom_eq (words : List (BitVec w)) (index rank : Nat) :
    selectFrom index words rank = (scanOnes words)[rank]?.map (index * w + ·) := by
  induction words generalizing index rank with
  | nil => rfl
  | cons word words ih =>
      rw [selectFrom, scanOnes_cons, cpop_eq_length]
      split
      · rename_i inside
        rw [List.getElem?_append_left inside, ctz_clearLowest inside]
        rfl
      · rename_i outside
        rw [List.getElem?_append_right (Nat.le_of_not_lt outside), ih, List.getElem?_map,
          Option.map_map]
        congr 1
        funext p
        rw [Function.comp_apply, Nat.add_mul]
        omega

theorem mem_scanOnes {words : List (BitVec w)} {p : Nat} :
    p ∈ scanOnes words ↔ bitAt words p = true := by
  induction words generalizing p with
  | nil => simp [scanOnes, bitAt]
  | cons word words ih =>
      rw [scanOnes_cons, List.mem_append, mem_setBits, List.mem_map]
      rcases Nat.lt_or_ge p w with inside | outside
      · rw [bitAt, Nat.div_eq_of_lt inside, Nat.mod_eq_of_lt inside]
        refine ⟨fun h => h.resolve_right ?_, fun h => .inl h⟩
        rintro ⟨q, -, rfl⟩
        omega
      · have shifted : bitAt (word :: words) p = bitAt words (p - w) := by
          rcases Nat.eq_zero_or_pos w with rfl | positive
          · simp [bitAt]
          · rw [bitAt, bitAt, Nat.div_eq_sub_div positive outside, Nat.mod_eq_sub_mod outside]
            rfl
        rw [shifted]
        constructor
        · rintro (bit | ⟨q, hq, rfl⟩)
          · exact absurd (BitVec.lt_of_getLsbD bit) (Nat.not_lt.mpr outside)
          · rw [Nat.add_sub_cancel_left]
            exact ih.mp hq
        · exact fun bit => .inr ⟨p - w, ih.mpr bit, Nat.add_sub_cancel' outside⟩

theorem scanOnes_sorted (words : List (BitVec w)) : (scanOnes words).Pairwise (· < ·) := by
  induction words with
  | nil => exact List.Pairwise.nil
  | cons word words ih =>
      rw [scanOnes_cons]
      refine List.pairwise_append.mpr ⟨setBits_sorted word, ?_, ?_⟩
      · exact ih.map _ fun a b less => Nat.add_lt_add_left less w
      · intro a ha b hb
        obtain ⟨q, -, rfl⟩ := List.mem_map.mp hb
        exact Nat.lt_of_lt_of_le (BitVec.lt_of_getLsbD (mem_setBits.mp ha)) (Nat.le_add_right w q)

theorem scanOnes_append (words rest : List (BitVec w)) :
    scanOnes (words ++ rest) = scanOnes words ++ (scanOnes rest).map (words.length * w + ·) := by
  have tail := scanOnes_from rest words.length
  rw [scanOnes, List.zipIdx_append, List.flatMap_append, Nat.zero_add, tail]
  rfl

theorem scanOnes_length (words : List (BitVec w)) :
    (scanOnes words).length = (words.map fun word => word.cpop.toNat).sum := by
  induction words with
  | nil => rfl
  | cons word words ih =>
      rw [scanOnes_cons, List.length_append, List.length_map, ih, List.map_cons, List.sum_cons,
        cpop_eq_length]

/-- A strictly ascending list of naturals reaches its `i`-th element at `i` or later. -/
theorem le_of_ascending {ps : List Nat} (sorted : ps.Pairwise (· < ·)) {i p : Nat}
    (at_ : ps[i]? = some p) : i ≤ p := by
  induction i generalizing p with
  | zero => exact Nat.zero_le p
  | succ i ih =>
      obtain ⟨inside, rfl⟩ := List.getElem?_eq_some_iff.mp at_
      have before := List.pairwise_iff_getElem.mp sorted i (i + 1) (by omega) inside (by omega)
      have := ih (List.getElem?_eq_getElem (by omega))
      omega

end Words

end Foundation
