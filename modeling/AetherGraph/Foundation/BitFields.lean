import AetherGraph.Foundation.BitScan

/-! Bits written into packed words: what one or into a word, one appended word and one single
set bit do to every position, and fields of bits that may span two words. -/

namespace Foundation

variable {w : Nat}

theorem bitAt_replicate (n p : Nat) : bitAt (List.replicate n (0 : BitVec w)) p = false := by
  rw [bitAt, List.getD_eq_getElem?_getD, List.getElem?_replicate]
  split <;> simp

theorem bitAt_modify (words : List (BitVec w)) (k : Nat) (v : BitVec w) (p : Nat) :
    bitAt (words.modify k (· ||| v)) p =
      (bitAt words p || (decide (p / w = k ∧ k < words.length) && v.getLsbD (p % w))) := by
  rw [bitAt, bitAt, List.getD_eq_getElem?_getD, List.getD_eq_getElem?_getD, List.getElem?_modify]
  by_cases here : k = p / w
  · subst here
    rcases Nat.lt_or_ge (p / w) words.length with inside | outside
    · simp [inside]
    · simp [Nat.not_lt.mpr outside]
  · have apart : ¬ (p / w = k ∧ k < words.length) := fun h => here h.1.symm
    rw [decide_eq_false apart]
    cases words[p / w]? <;> simp [here]

theorem bitAt_append (words : List (BitVec w)) (v : BitVec w) (p : Nat) :
    bitAt (words ++ [v]) p =
      (bitAt words p || (decide (p / w = words.length) && v.getLsbD (p % w))) := by
  rw [bitAt, bitAt, List.getD_eq_getElem?_getD, List.getD_eq_getElem?_getD]
  rcases Nat.lt_trichotomy (p / w) words.length with inside | here | outside
  · rw [List.getElem?_append_left inside, decide_eq_false (Nat.ne_of_lt inside)]
    simp
  · rw [here, List.getElem?_append_right (Nat.le_refl _), Nat.sub_self]
    simp
  · rw [List.getElem?_eq_none (by simp; omega), List.getElem?_eq_none (Nat.le_of_lt outside),
      decide_eq_false (Nat.ne_of_gt outside)]
    simp

/-- `words[k] |= v`, where an index past the end panics. -/
def orWord (words : List (BitVec w)) (k : Nat) (v : BitVec w) : Option (List (BitVec w)) :=
  if k < words.length then some (words.modify k (· ||| v)) else none

theorem bitAt_orWord {words words' : List (BitVec w)} {k : Nat} {v : BitVec w}
    (h : orWord words k v = some words') (p : Nat) :
    bitAt words' p = (bitAt words p || (decide (p / w = k) && v.getLsbD (p % w))) := by
  unfold orWord at h
  split at h
  · rename_i inside
    cases h
    rw [bitAt_modify]
    simp only [inside, and_true]
  · cases h

theorem orWord_some {words : List (BitVec w)} {k : Nat} (inside : k < words.length)
    (v : BitVec w) : ∃ words', orWord words k v = some words' ∧ words'.length = words.length :=
  ⟨_, if_pos inside, List.length_modify ..⟩

/-- One bit set at a position. -/
def orBit (words : List (BitVec w)) (p : Nat) : Option (List (BitVec w)) :=
  orWord words (p / w) (1#w <<< (p % w))

theorem bitAt_orBit (positive : 0 < w) {words words' : List (BitVec w)} {p : Nat}
    (h : orBit words p = some words') (q : Nat) :
    bitAt words' q = (bitAt words q || decide (q = p)) := by
  have inside := Nat.mod_lt q positive
  have split := Nat.div_add_mod q w
  have split' := Nat.div_add_mod p w
  rw [bitAt_orWord h, BitVec.getLsbD_shiftLeft, BitVec.getLsbD_one]
  congr 1
  by_cases same : q = p
  · subst same
    simp [inside, positive]
  · rw [decide_eq_false same, Bool.and_eq_false_iff]
    by_cases word : q / w = p / w
    · right
      have apart : q % w ≠ p % w := by
        intro bit
        rw [word, bit] at split
        exact same (split.symm.trans split')
      simp only [Bool.and_eq_false_iff, decide_eq_false_iff_not, Bool.not_eq_false',
        decide_eq_true_eq]
      omega
    · exact .inl (decide_eq_false word)

/-- A position counted from a start inside word `start / w`, at most one word on. -/
theorem bitAt_add (words : List (BitVec w)) (start : Nat) {j : Nat} (h : j < w) :
    bitAt words (start + j) =
      if start % w + j < w then (words.getD (start / w) 0).getLsbD (start % w + j)
      else (words.getD (start / w + 1) 0).getLsbD (start % w + j - w) := by
  have positive : 0 < w := by omega
  have inside := Nat.mod_lt start positive
  have split := Nat.div_add_mod start w
  have whole : start + j = start % w + j + w * (start / w) := by omega
  rw [bitAt, whole, Nat.add_mul_div_left _ _ positive, Nat.add_mul_mod_self_left]
  split
  · rename_i same
    rw [Nat.div_eq_of_lt same, Nat.mod_eq_of_lt same, Nat.zero_add]
  · rename_i next
    have : start % w + j = start % w + j - w + w := by omega
    rw [this, Nat.add_div_right _ positive, Nat.add_mod_right, Nat.div_eq_of_lt (by omega),
      Nat.mod_eq_of_lt (by omega), Nat.add_sub_cancel, Nat.zero_add, Nat.add_comm 1]

/-- The value whose bits are the `width` bits from a position. -/
def FieldAt (words : List (BitVec w)) (start width : Nat) (x : BitVec w) : Prop :=
  ∀ j, x.getLsbD j = (decide (j < width) && bitAt words (start + j))

theorem FieldAt.unique {words : List (BitVec w)} {start width : Nat} {x y : BitVec w}
    (hx : FieldAt words start width x) (hy : FieldAt words start width y) : x = y :=
  BitVec.eq_of_getLsbD_eq fun j _ => (hx j).trans (hy j).symm

end Foundation
