import Mathlib.Data.List.Basic
import Mathlib.Data.Nat.ModEq

/-! Rings addressed by free-running counters.  Counters wrap at a word size, slots are counters
modulo the depth, and the ring holds a window of the sequence written to it. -/

namespace Foundation

/-- Wrapping subtraction of counters below `size`. -/
def wrapSub (size a b : Nat) : Nat := (a + (size - b)) % size

theorem wrapSub_eq {size a b : Nat} (pos : 0 < size) (le : b ≤ a) :
    wrapSub size (a % size) (b % size) = (a - b) % size := by
  have hb := Nat.mod_lt b pos
  obtain ⟨d, rfl⟩ := Nat.exists_eq_add_of_le le
  rw [wrapSub, Nat.add_sub_cancel_left]
  have shift : (b + d) % size + (size - b % size) ≡ d [MOD size] := by
    have same : (b + d) % size + (size - b % size) ≡ b + d + (size - b % size) [MOD size] :=
      (Nat.mod_modEq _ _).add_right _
    have whole : b + d + (size - b % size) = d + size * (b / size + 1) := by
      have := Nat.div_add_mod b size
      rw [Nat.mul_add, Nat.mul_one]
      omega
    rw [whole] at same
    exact same.trans ((Nat.ModEq.refl d).add (Nat.modEq_zero_iff_dvd.mpr (Nat.dvd_mul_right _ _)))
  exact shift

theorem wrapSub_mod {size a b : Nat} (le : b ≤ a) (near : a < b + size) :
    wrapSub size (a % size) (b % size) = a - b := by
  rw [wrapSub_eq (by omega) le, Nat.mod_eq_of_lt (by omega)]

theorem succ_mod_mod (size a : Nat) : (a % size + 1) % size = (a + 1) % size :=
  Nat.mod_add_mod a size 1

/-- Masking a counter that wrapped at `2 ^ w` gives its slot among `2 ^ k`. -/
theorem mask_mod {w k : Nat} (fits : k ≤ w) (a : Nat) : a % 2 ^ w &&& (2 ^ k - 1) = a % 2 ^ k := by
  rw [Nat.and_two_pow_sub_one_eq_mod, Nat.mod_mod_of_dvd _ (Nat.pow_dvd_pow 2 fits)]

/-- Two counters less than `depth` apart that share a slot are the same. -/
theorem eq_of_slot_eq {depth i j : Nat} (near : i < j + depth) (near' : j < i + depth)
    (same : i % depth = j % depth) : i = j := by
  rcases Nat.le_total i j with le | le
  · have dvd := (Nat.modEq_iff_dvd' le).mp same
    have := Nat.eq_zero_of_dvd_of_lt dvd (by omega)
    omega
  · have dvd := (Nat.modEq_iff_dvd' le).mp same.symm
    have := Nat.eq_zero_of_dvd_of_lt dvd (by omega)
    omega

variable {α : Type}

/-- The ring's slots hold what was written from index `lo` on. -/
structure RingWindow (depth : Nat) (ring : Nat → α) (written : List α) (lo : Nat) : Prop where
  lo_le : lo ≤ written.length
  fits : written.length ≤ lo + depth
  holds : ∀ i, lo ≤ i → ∀ a, written[i]? = some a → ring (i % depth) = a

namespace RingWindow

variable {depth lo : Nat} {ring : Nat → α} {written : List α}

theorem nil (depth : Nat) (ring : Nat → α) : RingWindow depth ring [] 0 where
  lo_le := Nat.le_refl 0
  fits := Nat.zero_le _
  holds i _ a absent := by cases absent

/-- A write to the slot of the next index, with a slot to spare, moves no entry of the window. -/
theorem push (h : RingWindow depth ring written lo) (room : written.length < lo + depth) (a : α) :
    RingWindow depth (Function.update ring (written.length % depth) a) (written ++ [a]) lo where
  lo_le := by
    have := h.lo_le
    rw [List.length_append]
    omega
  fits := by
    rw [List.length_append]
    exact room
  holds i hi b at_ := by
    rcases Nat.lt_trichotomy i written.length with old | rfl | past
    · rw [List.getElem?_append_left old] at at_
      rw [Function.update_of_ne, h.holds i hi b at_]
      intro same
      exact Nat.ne_of_lt old (eq_of_slot_eq (by omega) (by omega) same)
    · rw [List.getElem?_concat_length, Option.some.injEq] at at_
      rw [Function.update_self, at_]
    · rw [List.getElem?_eq_none (by rw [List.length_append]; exact past)] at at_
      cases at_

theorem pop (h : RingWindow depth ring written lo) (more : lo < written.length) :
    RingWindow depth ring written (lo + 1) where
  lo_le := more
  fits := by
    have := h.fits
    omega
  holds i hi := h.holds i (by omega)

/-- The oldest entry of the window is in its slot. -/
theorem front (h : RingWindow depth ring written lo) (more : lo < written.length) :
    written[lo]? = some (ring (lo % depth)) := by
  obtain ⟨a, at_⟩ : ∃ a, written[lo]? = some a := ⟨_, List.getElem?_eq_getElem more⟩
  rw [at_, h.holds lo (Nat.le_refl lo) a at_]

/-- A write to a slot no entry of the window has moves none of them. -/
theorem update_free (h : RingWindow depth ring written lo) {j : Nat} (past : written.length ≤ j)
    (room : j < lo + depth) (a : α) :
    RingWindow depth (Function.update ring (j % depth) a) written lo where
  lo_le := h.lo_le
  fits := h.fits
  holds i hi b at_ := by
    obtain ⟨inside, -⟩ := List.getElem?_eq_some_iff.mp at_
    rw [Function.update_of_ne, h.holds i hi b at_]
    intro same
    have here : i = j := eq_of_slot_eq (by omega) (by omega) same
    omega

/-- Entries that already stand in the slots behind the window join it. -/
theorem extend (h : RingWindow depth ring written lo) {more : List α}
    (room : written.length + more.length ≤ lo + depth)
    (held : ∀ i a, more[i]? = some a → ring ((written.length + i) % depth) = a) :
    RingWindow depth ring (written ++ more) lo where
  lo_le := by
    have := h.lo_le
    rw [List.length_append]
    omega
  fits := by rwa [List.length_append]
  holds i hi a at_ := by
    rcases Nat.lt_or_ge i written.length with old | new
    · rw [List.getElem?_append_left old] at at_
      exact h.holds i hi a at_
    · rw [List.getElem?_append_right new] at at_
      have kept := held (i - written.length) a at_
      rwa [Nat.add_sub_cancel' new] at kept

end RingWindow

/-- Taking one more element than `n` appends the element at `n`. -/
theorem take_concat {l : List α} {n : Nat} {a : α} (at_ : l[n]? = some a) :
    l.take n ++ [a] = l.take (n + 1) := by
  rw [List.take_add_one, at_, Option.toList_some]

end Foundation
