import Mathlib.Data.Set.Card
import Mathlib.Order.Interval.Finset.Nat

/-! Reservoir sampling with the drawn slots as input. The step that offers item `t` draws a slot
up to `t`; over all draw sequences every set of positions is kept equally often. -/

namespace Foundation

namespace AlgorithmR

variable {α β : Type} {size n : Nat}

/-- What is kept once the item's slot is drawn. -/
def place (size : Nat) (kept : List α) (entry : α × Nat) : List α :=
  if entry.2 < size then kept.set entry.2 entry.1 else kept

/-- The first `size` items, each later one offered the slot drawn for it. -/
def sample (size : Nat) (items : List α) (slots : List Nat) : List α :=
  ((items.drop size).zip slots).foldl (place size) (items.take size)

/-- One slot for each of the `n` items after the first `size`, none above the item's position. -/
def SlotsDrawn (size n : Nat) (slots : List Nat) : Prop :=
  slots.length = n ∧ ∀ i (h : i < slots.length), slots[i] ≤ size + i

theorem place_map (f : α → β) (kept : List α) (item : α) (slot : Nat) :
    place size (kept.map f) (f item, slot) = (place size kept (item, slot)).map f := by
  simp only [place]
  split
  · exact List.map_set.symm
  · rfl

/-- The loop moves items about without looking at them. -/
theorem sample_map (f : α → β) (items : List α) (slots : List Nat) :
    sample size (items.map f) slots = (sample size items slots).map f := by
  rw [sample, sample, ← List.map_drop, ← List.map_take]
  generalize items.drop size = later
  generalize items.take size = kept
  induction later generalizing slots kept with
  | nil => rfl
  | cons item later ih =>
      cases slots with
      | nil => rfl
      | cons slot slots =>
          rw [List.map_cons, List.zip_cons_cons, List.zip_cons_cons, List.foldl_cons,
            List.foldl_cons, place_map]
          exact ih slots _

theorem drop_range_succ (size n : Nat) :
    (List.range (size + (n + 1))).drop size = (List.range (size + n)).drop size ++ [size + n] := by
  rw [← Nat.add_assoc, List.range_succ, List.drop_append_of_le_length]
  rw [List.length_range]
  exact Nat.le_add_right size n

theorem take_range_succ (size n : Nat) :
    (List.range (size + (n + 1))).take size = (List.range (size + n)).take size := by
  rw [← Nat.add_assoc, List.range_succ, List.take_append_of_le_length]
  rw [List.length_range]
  exact Nat.le_add_right size n

/-- The positions kept after one more item. -/
theorem sample_append {slots : List Nat} (length : slots.length = n) (slot : Nat) :
    sample size (List.range (size + (n + 1))) (slots ++ [slot]) =
      place size (sample size (List.range (size + n)) slots) (size + n, slot) := by
  have same : ((List.range (size + n)).drop size).length = slots.length := by
    rw [List.length_drop, List.length_range, length, Nat.add_sub_cancel_left]
  rw [sample, drop_range_succ, take_range_succ, List.zip_append same, List.foldl_append]
  rfl

/-- The positions kept are distinct positions of the list's first `size + n`. -/
structure Kept (size n : Nat) (kept : List Nat) : Prop where
  length : kept.length = size
  nodup : kept.Nodup
  below : ∀ p ∈ kept, p < size + n

theorem Kept.fresh {kept : List Nat} (h : Kept size n kept) : size + n ∉ kept := fun mem =>
  Nat.lt_irrefl _ (h.below _ mem)

/-- Overwriting a slot trades its item for the new one. -/
theorem mem_set_iff {l : List Nat} (nodup : l.Nodup) {j : Nat} (within : j < l.length)
    (item p : Nat) : p ∈ l.set j item ↔ p = item ∨ p ∈ l ∧ p ≠ l[j] := by
  rw [List.mem_iff_getElem]
  constructor
  · rintro ⟨i, hi, rfl⟩
    rw [List.length_set] at hi
    rw [List.getElem_set]
    split
    · exact Or.inl rfl
    · rename_i other
      refine Or.inr ⟨List.getElem_mem hi, fun same => other ?_⟩
      exact ((nodup.getElem_inj_iff).1 same).symm
  · rintro (rfl | ⟨mem, other⟩)
    · exact ⟨j, by rwa [List.length_set], List.getElem_set_self _⟩
    · obtain ⟨i, hi, rfl⟩ := List.mem_iff_getElem.1 mem
      refine ⟨i, by rwa [List.length_set], List.getElem_set_ne ?_ _⟩
      rintro rfl
      exact other rfl

theorem sample_first (size : Nat) :
    sample size (List.range (size + 0)) [] = List.range size := by
  rw [sample, List.zip_nil_right, List.foldl_nil, Nat.add_zero, List.take_of_length_le]
  rw [List.length_range]

theorem Kept.first (size : Nat) : Kept size 0 (sample size (List.range (size + 0)) []) := by
  rw [sample_first]
  exact ⟨List.length_range, List.nodup_range, fun p mem => List.mem_range.1 mem⟩

theorem Kept.place {kept : List Nat} (h : Kept size n kept) (slot : Nat) :
    Kept size (n + 1) (place size kept (size + n, slot)) := by
  rw [AlgorithmR.place]
  split
  · refine ⟨by rw [List.length_set, h.length], h.nodup.set h.fresh, fun p mem => ?_⟩
    rcases List.mem_or_eq_of_mem_set mem with old | rfl
    · have := h.below p old
      omega
    · omega
  · refine ⟨h.length, h.nodup, fun p mem => ?_⟩
    have := h.below p mem
    omega

theorem SlotsDrawn.of_append {slots : List Nat} {slot : Nat}
    (h : SlotsDrawn size (n + 1) (slots ++ [slot])) : SlotsDrawn size n slots ∧ slot ≤ size + n := by
  obtain ⟨length, bounds⟩ := h
  rw [List.length_append, List.length_singleton] at length
  refine ⟨⟨by omega, fun i hi => ?_⟩, ?_⟩
  · have bound := bounds i (by rw [List.length_append]; omega)
    rwa [List.getElem_append_left hi] at bound
  · have bound := bounds n (by rw [List.length_append, List.length_singleton]; omega)
    rwa [List.getElem_append_right (by omega), List.getElem_singleton] at bound

theorem SlotsDrawn.append {slots : List Nat} {slot : Nat} (h : SlotsDrawn size n slots)
    (bound : slot ≤ size + n) : SlotsDrawn size (n + 1) (slots ++ [slot]) := by
  obtain ⟨length, bounds⟩ := h
  refine ⟨by rw [List.length_append, length, List.length_singleton], fun i hi => ?_⟩
  rw [List.getElem_append]
  split
  · exact bounds i _
  · rw [List.length_append, List.length_singleton] at hi
    rw [List.getElem_singleton]
    omega

theorem SlotsDrawn.eq_append {slots : List Nat} (h : SlotsDrawn size (n + 1) slots) :
    ∃ before slot, slots = before ++ [slot] := by
  rcases List.eq_nil_or_concat slots with rfl | ⟨before, slot, rfl⟩
  · exact absurd h.1 (by simp)
  · exact ⟨before, slot, List.concat_eq_append⟩

theorem SlotsDrawn.kept {slots : List Nat} (h : SlotsDrawn size n slots) :
    Kept size n (sample size (List.range (size + n)) slots) := by
  induction n generalizing slots with
  | zero =>
      obtain rfl := List.length_eq_zero_iff.1 h.1
      exact Kept.first size
  | succ n ih =>
      obtain ⟨before, slot, rfl⟩ := h.eq_append
      have drawn := h.of_append.1
      rw [sample_append drawn.1]
      exact (ih drawn).place slot

/-- All draw sequences, longest step last. -/
def draws (size : Nat) : Nat → Finset (List Nat)
  | 0 => {[]}
  | n + 1 => (draws size n ×ˢ Finset.range (size + n + 1)).image fun d => d.1 ++ [d.2]

theorem mem_draws {slots : List Nat} : slots ∈ draws size n ↔ SlotsDrawn size n slots := by
  induction n generalizing slots with
  | zero =>
      rw [draws, Finset.mem_singleton]
      constructor
      · rintro rfl
        exact ⟨rfl, fun i hi => absurd hi (Nat.not_lt_zero i)⟩
      · exact fun h => List.length_eq_zero_iff.1 h.1
  | succ n ih =>
      rw [draws, Finset.mem_image]
      constructor
      · rintro ⟨⟨before, slot⟩, mem, rfl⟩
        obtain ⟨drawn, bound⟩ := Finset.mem_product.1 mem
        exact (ih.1 drawn).append (Nat.le_of_lt_succ (Finset.mem_range.1 bound))
      · intro h
        obtain ⟨before, slot, rfl⟩ := h.eq_append
        obtain ⟨drawn, bound⟩ := h.of_append
        exact ⟨(before, slot), Finset.mem_product.2
          ⟨ih.2 drawn, Finset.mem_range.2 (Nat.lt_succ_of_le bound)⟩, rfl⟩

/-- The draw sequences of `n + 1` steps that keep a set, counted by their last step. -/
theorem card_draws_succ (S : Finset Nat) :
    ((draws size (n + 1)).filter fun slots =>
      (sample size (List.range (size + (n + 1))) slots).toFinset = S).card =
    ∑ slots ∈ draws size n, ((Finset.range (size + n + 1)).filter fun slot =>
      (place size (sample size (List.range (size + n)) slots) (size + n, slot)).toFinset =
        S).card := by
  have injective : ∀ d₁ ∈ draws size n ×ˢ Finset.range (size + n + 1),
      ∀ d₂ ∈ draws size n ×ˢ Finset.range (size + n + 1),
      d₁.1 ++ [d₁.2] = d₂.1 ++ [d₂.2] → d₁ = d₂ := by
    rintro ⟨before₁, slot₁⟩ - ⟨before₂, slot₂⟩ - same
    obtain ⟨rfl, last⟩ := List.append_inj' same rfl
    obtain rfl := List.singleton_inj.1 last
    rfl
  simp only [Finset.card_filter]
  rw [draws, Finset.sum_image injective, Finset.sum_product]
  refine Finset.sum_congr rfl fun slots mem => Finset.sum_congr rfl fun slot _ => ?_
  rw [sample_append (mem_draws.1 mem).1]

/-- A last item that is not wanted leaves the kept set alone for every slot past the reservoir. -/
theorem card_place_of_not_mem {kept : List Nat} (h : Kept size n kept) {S : Finset Nat}
    (skipped : size + n ∉ S) :
    ((Finset.range (size + n + 1)).filter fun slot =>
      (place size kept (size + n, slot)).toFinset = S).card =
      if kept.toFinset = S then n + 1 else 0 := by
  have slots : ((Finset.range (size + n + 1)).filter fun slot =>
      (place size kept (size + n, slot)).toFinset = S) =
      if kept.toFinset = S then Finset.Ico size (size + n + 1) else ∅ := by
    ext slot
    rw [Finset.mem_filter, Finset.mem_range, place]
    by_cases inside : slot < size
    · rw [if_pos inside]
      have taken : (kept.set slot (size + n)).toFinset ≠ S := by
        rintro rfl
        refine skipped (List.mem_toFinset.2 (List.mem_set ?_ _))
        rwa [h.length]
      split
      · simp [taken]
        omega
      · simp [taken]
    · rw [if_neg inside]
      split
      · rename_i same
        simp [same]
        omega
      · rename_i other
        simp [other]
  rw [slots]
  split
  · rw [Nat.card_Ico]
    omega
  · rfl

/-- Overwriting a slot gives the wanted set when only that slot's position was unwanted. -/
theorem set_toFinset_iff {kept : List Nat} (h : Kept size n kept) {S : Finset Nat}
    (wanted : size + n ∈ S) {slot : Nat} (inside : slot < kept.length) :
    (kept.set slot (size + n)).toFinset = S ↔
      kept[slot] ∉ S ∧ kept.toFinset = insert kept[slot] (S.erase (size + n)) := by
  have mem := mem_set_iff h.nodup inside (size + n)
  have old : kept[slot] ∈ kept := List.getElem_mem inside
  have fresh : ∀ p ∈ kept, p ≠ size + n := fun p mem same => h.fresh (same ▸ mem)
  constructor
  · rintro rfl
    refine ⟨fun taken => ?_, ?_⟩
    · rcases (mem _).1 (List.mem_toFinset.1 taken) with same | ⟨-, other⟩
      · exact fresh _ old same
      · exact other rfl
    · ext p
      rw [List.mem_toFinset, Finset.mem_insert, Finset.mem_erase, List.mem_toFinset, mem]
      by_cases same : p = kept[slot]
      · exact ⟨fun _ => Or.inl same, fun _ => same ▸ old⟩
      · exact ⟨fun m => Or.inr ⟨fresh p m, Or.inr ⟨m, same⟩⟩, by tauto⟩
  · rintro ⟨unwanted, same⟩
    ext p
    have unchanged : p ∈ kept ↔ p = kept[slot] ∨ p ≠ size + n ∧ p ∈ S := by
      rw [← List.mem_toFinset, same, Finset.mem_insert, Finset.mem_erase]
    rw [List.mem_toFinset, mem, unchanged]
    constructor
    · rintro (rfl | ⟨rfl | ⟨-, kept⟩, other⟩)
      · exact wanted
      · exact absurd rfl other
      · exact kept
    · intro mem
      by_cases last : p = size + n
      · exact Or.inl last
      · exact Or.inr ⟨Or.inr ⟨last, mem⟩, fun same => unwanted (same ▸ mem)⟩

/-- A wanted last item must land in the slot of the one position the set does not want. -/
theorem card_place_of_mem {kept : List Nat} (h : Kept size n kept) {S : Finset Nat}
    (wanted : size + n ∈ S) :
    ((Finset.range (size + n + 1)).filter fun slot =>
      (place size kept (size + n, slot)).toFinset = S).card =
      ((Finset.range (size + n) \ S).filter fun p =>
        kept.toFinset = insert p (S.erase (size + n))).card := by
  have landed : ∀ slot, (place size kept (size + n, slot)).toFinset = S →
      ∃ inside : slot < kept.length, kept[slot] ∉ S ∧
        kept.toFinset = insert kept[slot] (S.erase (size + n)) := by
    intro slot same
    by_cases inside : slot < kept.length
    · rw [place, if_pos (h.length ▸ inside)] at same
      exact ⟨inside, (set_toFinset_iff h wanted inside).1 same⟩
    · rw [place, if_neg (h.length ▸ inside)] at same
      rw [← same] at wanted
      exact absurd (List.mem_toFinset.1 wanted) h.fresh
  refine Finset.card_bij (fun slot _ => kept.getD slot 0) ?_ ?_ ?_
  · intro slot mem
    obtain ⟨inside, unwanted, same⟩ := landed slot (Finset.mem_filter.1 mem).2
    rw [List.getD_eq_getElem?_getD, List.getElem?_eq_getElem inside, Option.getD_some]
    exact Finset.mem_filter.2 ⟨Finset.mem_sdiff.2
      ⟨Finset.mem_range.2 (h.below _ (List.getElem_mem inside)), unwanted⟩, same⟩
  · intro slot₁ mem₁ slot₂ mem₂ same
    obtain ⟨inside₁, -⟩ := landed slot₁ (Finset.mem_filter.1 mem₁).2
    obtain ⟨inside₂, -⟩ := landed slot₂ (Finset.mem_filter.1 mem₂).2
    rw [List.getD_eq_getElem?_getD, List.getElem?_eq_getElem inside₁,
      List.getD_eq_getElem?_getD, List.getElem?_eq_getElem inside₂] at same
    exact h.nodup.getElem_inj_iff.1 same
  · intro p mem
    obtain ⟨outside, same⟩ := Finset.mem_filter.1 mem
    have kept_p : p ∈ kept := by
      rw [← List.mem_toFinset, same]
      exact Finset.mem_insert_self _ _
    obtain ⟨slot, inside, rfl⟩ := List.mem_iff_getElem.1 kept_p
    have short : slot < size := h.length ▸ inside
    refine ⟨slot, Finset.mem_filter.2 ⟨Finset.mem_range.2 (by omega), ?_⟩, ?_⟩
    · rw [place, if_pos short]
      exact (set_toFinset_iff h wanted inside).2 ⟨(Finset.mem_sdiff.1 outside).2, same⟩
    · rw [List.getD_eq_getElem?_getD, List.getElem?_eq_getElem inside, Option.getD_some]

/-- Each set of `size` positions is kept by as many draw sequences as there are orders of the
steps. -/
theorem card_kept {S : Finset Nat} (inside : S ⊆ Finset.range (size + n)) (card : S.card = size) :
    ((draws size n).filter fun slots =>
      (sample size (List.range (size + n)) slots).toFinset = S).card = n.factorial := by
  induction n generalizing S with
  | zero =>
      have whole : S = Finset.range size :=
        Finset.eq_of_subset_of_card_le inside (by rw [card, Finset.card_range])
      rw [draws, Finset.filter_singleton, sample_first, if_pos, Finset.card_singleton,
        Nat.factorial_zero]
      rw [whole, List.toFinset_range]
  | succ n ih =>
      rw [card_draws_succ]
      by_cases wanted : size + n ∈ S
      · have each : ∀ p ∈ Finset.range (size + n) \ S,
            ((draws size n).filter fun slots =>
              (sample size (List.range (size + n)) slots).toFinset =
                insert p (S.erase (size + n))).card = n.factorial := by
          intro p mem
          obtain ⟨below, unwanted⟩ := Finset.mem_sdiff.1 mem
          refine ih (Finset.insert_subset below fun q kept => ?_) ?_
          · obtain ⟨other, kept⟩ := Finset.mem_erase.1 kept
            have := Finset.mem_range.1 (inside kept)
            exact Finset.mem_range.2 (by omega)
          · rw [Finset.card_insert_of_notMem fun kept => unwanted (Finset.mem_erase.1 kept).2,
              Finset.card_erase_of_mem wanted, card]
            have := Finset.card_pos.2 ⟨_, wanted⟩
            omega
        have choices : (Finset.range (size + n) \ S).card = n + 1 := by
          have rest : S ∩ Finset.range (size + n) = S.erase (size + n) := by
            ext q
            rw [Finset.mem_inter, Finset.mem_erase, Finset.mem_range, and_comm]
            refine and_congr_left fun kept => ⟨Nat.ne_of_lt, fun other => ?_⟩
            have := Finset.mem_range.1 (inside kept)
            omega
          have := Finset.card_pos.2 ⟨_, wanted⟩
          rw [Finset.card_sdiff, rest, Finset.card_erase_of_mem wanted, card, Finset.card_range]
          omega
        calc ∑ slots ∈ draws size n, _
            = ∑ slots ∈ draws size n, ((Finset.range (size + n) \ S).filter fun p =>
                (sample size (List.range (size + n)) slots).toFinset =
                  insert p (S.erase (size + n))).card :=
              Finset.sum_congr rfl fun slots mem =>
                card_place_of_mem (mem_draws.1 mem).kept wanted
          _ = ∑ p ∈ Finset.range (size + n) \ S, ((draws size n).filter fun slots =>
                (sample size (List.range (size + n)) slots).toFinset =
                  insert p (S.erase (size + n))).card := by
              simp only [Finset.card_filter]
              exact Finset.sum_comm
          _ = (n + 1).factorial := by
              rw [Finset.sum_const_nat each, choices, Nat.factorial_succ]
      · have short : S ⊆ Finset.range (size + n) := by
          intro q kept
          have := Finset.mem_range.1 (inside kept)
          have other : q ≠ size + n := fun same => wanted (same ▸ kept)
          exact Finset.mem_range.2 (by omega)
        rw [Finset.sum_congr rfl fun slots mem =>
          card_place_of_not_mem (mem_draws.1 mem).kept wanted, ← Finset.sum_filter,
          Finset.sum_const_nat fun _ _ => rfl, ih short card, Nat.mul_comm, Nat.factorial_succ]

theorem ncard_kept {S : Finset Nat} (inside : S ⊆ Finset.range (size + n)) (card : S.card = size) :
    {slots | SlotsDrawn size n slots ∧
      (sample size (List.range (size + n)) slots).toFinset = S}.ncard = n.factorial := by
  have finite : {slots | SlotsDrawn size n slots ∧
      (sample size (List.range (size + n)) slots).toFinset = S} =
      ((draws size n).filter fun slots =>
        (sample size (List.range (size + n)) slots).toFinset = S : Finset (List Nat)) := by
    ext slots
    rw [Set.mem_ofPred_eq, Finset.mem_coe, Finset.mem_filter, mem_draws]
  rw [finite, Set.ncard_coe_finset, card_kept inside card]

end AlgorithmR

end Foundation
