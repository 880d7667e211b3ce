import AetherGraph.Foundation.Floyd
import Mathlib.Algebra.BigOperators.Ring.Finset
import Mathlib.Algebra.Order.BigOperators.Group.Finset
import Mathlib.Data.Set.Card

/-! Floyd's sampling over all sequences of draws: a loop over any membership structure makes the
same picks, and every subset of the positions is picked by as many sequences. -/

namespace Foundation

open Finset

/-- The picks of the draws at the upper ends from `lo` on, after those in `taken`. -/
def floydPicks : List Nat → Nat → List Nat → List Nat
  | taken, _, [] => taken
  | taken, lo, j :: js => floydPicks (taken ++ [floydPick taken lo j]) (lo + 1) js

/-- `k` draws at the upper ends from `lo` on, each at most its end. -/
structure Drawn (lo k : Nat) (js : List Nat) : Prop where
  length : js.length = k
  below : ∀ i (h : i < js.length), js[i] ≤ lo + i

theorem floydPicks_concat (taken : List Nat) (lo : Nat) (js : List Nat) (j : Nat) :
    floydPicks taken lo (js ++ [j]) =
      floydPicks taken lo js ++ [floydPick (floydPicks taken lo js) (lo + js.length) j] := by
  induction js generalizing taken lo with
  | nil => rfl
  | cons i js ih =>
      rw [List.cons_append, floydPicks, ih, floydPicks, List.length_cons, Nat.add_right_comm,
        Nat.add_assoc]

theorem Drawn.concat {lo k : Nat} {js : List Nat} (h : Drawn lo k js) {j : Nat}
    (hj : j ≤ lo + k) : Drawn lo (k + 1) (js ++ [j]) where
  length := by rw [List.length_append, h.length, List.length_singleton]
  below i hi := by
    rw [List.getElem_append]
    split
    · exact h.below i _
    · rw [List.length_append, h.length, List.length_singleton] at hi
      rename_i late
      rw [h.length] at late
      rw [List.getElem_singleton, show i = k by omega]
      exact hj

theorem Drawn.split {lo k : Nat} {js : List Nat} (h : Drawn lo (k + 1) js) :
    ∃ js' j, js = js' ++ [j] ∧ Drawn lo k js' ∧ j ≤ lo + k := by
  have some_ : js ≠ [] := by
    rw [← List.length_pos_iff, h.length]
    exact Nat.succ_pos k
  obtain ⟨js', j, rfl⟩ : ∃ js' j, js = js' ++ [j] :=
    ⟨js.dropLast, js.getLast some_, (List.dropLast_append_getLast some_).symm⟩
  have size := h.length
  rw [List.length_append, List.length_singleton, Nat.add_right_cancel_iff] at size
  refine ⟨js', j, rfl, ⟨size, fun i hi => ?_⟩, ?_⟩
  · have here := h.below i (by rw [List.length_append]; omega)
    rwa [List.getElem_append_left hi] at here
  · have here := h.below k (by rw [List.length_append, List.length_singleton]; omega)
    rw [List.getElem_append_right (Nat.le_of_eq size)] at here
    simpa using here

/-- The picks are as many as the draws, distinct, and below the last end. -/
theorem Drawn.picked {lo k : Nat} {js : List Nat} (h : Drawn lo k js) :
    Picked (floydPicks [] lo js) (lo + k) ∧ (floydPicks [] lo js).length = k := by
  induction k generalizing js with
  | zero =>
      obtain rfl := List.length_eq_zero_iff.mp h.length
      exact ⟨Picked.nil _, rfl⟩
  | succ k ih =>
      obtain ⟨js', j, rfl, before, last⟩ := h.split
      obtain ⟨picked, length⟩ := ih before
      rw [floydPicks_concat, before.length]
      refine ⟨picked.snoc (Nat.lt_succ_of_le last), ?_⟩
      rw [List.length_append, length, List.length_singleton]

/-- All sequences of `k` draws. -/
def drawSequences (lo : Nat) : Nat → Finset (List Nat)
  | 0 => {[]}
  | k + 1 => (drawSequences lo k ×ˢ range (lo + k + 1)).image fun p => p.1 ++ [p.2]

theorem mem_drawSequences {lo k : Nat} {js : List Nat} :
    js ∈ drawSequences lo k ↔ Drawn lo k js := by
  induction k generalizing js with
  | zero =>
      rw [drawSequences, mem_singleton]
      constructor
      · rintro rfl
        exact ⟨rfl, nofun⟩
      · exact fun h => List.length_eq_zero_iff.mp h.length
  | succ k ih =>
      simp only [drawSequences, mem_image, mem_product, mem_range, Prod.exists]
      constructor
      · rintro ⟨js', j, ⟨before, last⟩, rfl⟩
        exact (ih.mp before).concat (Nat.le_of_lt_succ last)
      · intro h
        obtain ⟨js', j, rfl, before, last⟩ := h.split
        exact ⟨js', j, ⟨ih.mpr before, Nat.lt_succ_of_le last⟩, rfl⟩

/-- How many sequences pick the set. -/
def picksOf (lo k : Nat) (chosen : Finset Nat) : Nat :=
  #{js ∈ drawSequences lo k | (floydPicks [] lo js).toFinset = chosen}

theorem picksOf_succ (lo k : Nat) (chosen : Finset Nat) :
    picksOf lo (k + 1) chosen = ∑ js ∈ drawSequences lo k, #{j ∈ range (lo + k + 1) |
      insert (floydPick (floydPicks [] lo js) (lo + k) j) (floydPicks [] lo js).toFinset =
        chosen} := by
  have apart : Set.InjOn (fun p : List Nat × Nat => p.1 ++ [p.2])
      (drawSequences lo k ×ˢ range (lo + k + 1) : Finset (List Nat × Nat)) := by
    rintro ⟨js, j⟩ - ⟨js', j'⟩ - same
    obtain ⟨front, last⟩ := List.append_inj' same rfl
    exact Prod.ext front (List.singleton_inj.mp last)
  rw [picksOf, drawSequences, card_filter, sum_image apart, sum_product]
  refine sum_congr rfl fun js hjs => ?_
  rw [card_filter]
  refine sum_congr rfl fun j _ => ?_
  rw [floydPicks_concat, (mem_drawSequences.mp hjs).length, List.toFinset_append,
    List.toFinset_cons, List.toFinset_nil, insert_empty_eq, union_comm, ← insert_eq]

section Last

variable {taken : List Nat} {i k : Nat} {chosen : Finset Nat}

/-- Where the set holds the last end, the draw fell on the end or on an earlier pick. -/
theorem card_last_mem (h : Picked taken i) (length : taken.length = k) (mem : i ∈ chosen) :
    #{j ∈ range (i + 1) | insert (floydPick taken i j) taken.toFinset = chosen} =
      if taken.toFinset = chosen.erase i then k + 1 else 0 := by
  have fresh : i ∉ taken.toFinset := fun old =>
    Nat.lt_irrefl i (h.lt i (List.mem_toFinset.mp old))
  have picks : ∀ j, insert (floydPick taken i j) taken.toFinset = chosen →
      floydPick taken i j = i ∧ taken.toFinset = chosen.erase i := by
    intro j same
    have last : floydPick taken i j = i := by
      rw [← same, mem_insert] at mem
      exact (mem.resolve_right fresh).symm
    rw [last] at same
    exact ⟨last, by rw [← same, erase_insert fresh]⟩
  split
  · rename_i before
    have draws : {j ∈ range (i + 1) | insert (floydPick taken i j) taken.toFinset = chosen} =
        insert i taken.toFinset := by
      ext j
      rw [mem_filter, mem_range, mem_insert, List.mem_toFinset]
      constructor
      · rintro ⟨-, same⟩
        have last := (picks j same).1
        by_cases old : j ∈ taken
        · exact .inr old
        · rw [floydPick, if_neg old] at last
          exact .inl last
      · intro either
        have last : floydPick taken i j = i := by
          rcases either with rfl | old
          · rw [floydPick, ite_self]
          · rw [floydPick, if_pos old]
        refine ⟨?_, by rw [last, before, insert_erase mem]⟩
        rcases either with rfl | old
        · exact Nat.lt_succ_self j
        · exact Nat.lt_succ_of_lt (h.lt j old)
    rw [draws, card_insert_of_notMem fresh, List.toFinset_card_of_nodup h.nodup, length]
  · rename_i other
    rw [card_eq_zero, filter_eq_empty_iff]
    exact fun j _ same => other (picks j same).2

/-- Where the set does not hold the last end, the draw is its new element. -/
theorem card_last_notMem (below : chosen ⊆ range (i + 1))
    (absent : i ∉ chosen) :
    #{j ∈ range (i + 1) | insert (floydPick taken i j) taken.toFinset = chosen} =
      ∑ x ∈ chosen, if taken.toFinset = chosen.erase x then 1 else 0 := by
  rw [← card_filter]
  congr 1
  ext j
  rw [mem_filter, mem_filter, mem_range]
  constructor
  · rintro ⟨-, same⟩
    have pick : floydPick taken i j ≠ i := by
      intro last
      rw [last] at same
      exact absent (same ▸ mem_insert_self i _)
    have new : j ∉ taken := fun old => pick (if_pos old)
    rw [floydPick, if_neg new] at same
    refine ⟨same ▸ mem_insert_self j _, ?_⟩
    rw [← same, erase_insert fun old => new (List.mem_toFinset.mp old)]
  · rintro ⟨mem, before⟩
    have new : j ∉ taken := by
      rw [← List.mem_toFinset, before]
      exact notMem_erase j chosen
    refine ⟨mem_range.mp (below mem), ?_⟩
    rw [floydPick, if_neg new, before, insert_erase mem]

end Last

/-- Every set of `k` positions is picked by `k !` of the sequences. -/
theorem picksOf_eq {lo k : Nat} {chosen : Finset Nat} (below : chosen ⊆ range (lo + k))
    (size : chosen.card = k) : picksOf lo k chosen = k.factorial := by
  induction k generalizing chosen with
  | zero =>
      obtain rfl := card_eq_zero.mp size
      rfl
  | succ k ih =>
      have fewer : ∀ x ∈ chosen, #(chosen.erase x) = k := by
        intro x hx
        rw [card_erase_of_mem hx, size, Nat.add_sub_cancel]
      rw [← Nat.add_assoc] at below
      rw [picksOf_succ]
      by_cases last : lo + k ∈ chosen
      · have inside : chosen.erase (lo + k) ⊆ range (lo + k) := by
          intro x hx
          obtain ⟨other, hx⟩ := mem_erase.mp hx
          have := mem_range.mp (below hx)
          exact mem_range.mpr (by omega)
        calc ∑ js ∈ drawSequences lo k, #{j ∈ range (lo + k + 1) |
              insert (floydPick (floydPicks [] lo js) (lo + k) j)
                (floydPicks [] lo js).toFinset = chosen}
            = ∑ js ∈ drawSequences lo k,
                if (floydPicks [] lo js).toFinset = chosen.erase (lo + k) then k + 1 else 0 := by
              refine sum_congr rfl fun js hjs => ?_
              obtain ⟨picked, length⟩ := (mem_drawSequences.mp hjs).picked
              exact card_last_mem picked length last
          _ = picksOf lo k (chosen.erase (lo + k)) * (k + 1) := by
              rw [← sum_filter, picksOf]
              exact sum_const_nat fun _ _ => rfl
          _ = (k + 1).factorial := by
              rw [ih inside (fewer _ last), Nat.factorial_succ, Nat.mul_comm]
      · have inside : ∀ x, chosen.erase x ⊆ range (lo + k) := by
          intro x y hy
          have mem := (mem_erase.mp hy).2
          have other : y ≠ lo + k := fun same => last (same ▸ mem)
          have := mem_range.mp (below mem)
          exact mem_range.mpr (by omega)
        calc ∑ js ∈ drawSequences lo k, #{j ∈ range (lo + k + 1) |
              insert (floydPick (floydPicks [] lo js) (lo + k) j)
                (floydPicks [] lo js).toFinset = chosen}
            = ∑ js ∈ drawSequences lo k, ∑ x ∈ chosen,
                if (floydPicks [] lo js).toFinset = chosen.erase x then 1 else 0 := by
              refine sum_congr rfl fun js _ => ?_
              exact card_last_notMem below last
          _ = ∑ x ∈ chosen, picksOf lo k (chosen.erase x) := by
              rw [sum_comm]
              exact sum_congr rfl fun x _ => (card_filter ..).symm
          _ = (k + 1).factorial := by
              rw [sum_const_nat fun x hx => ih (inside x) (fewer x hx), size,
                Nat.factorial_succ]

/-- The same count, over the sequences as a set. -/
theorem ncard_picks {lo k : Nat} {chosen : Finset Nat} (below : chosen ⊆ range (lo + k))
    (size : chosen.card = k) :
    {js | Drawn lo k js ∧ (floydPicks [] lo js).toFinset = chosen}.ncard = k.factorial := by
  have same : {js | Drawn lo k js ∧ (floydPicks [] lo js).toFinset = chosen} =
      ({js ∈ drawSequences lo k | (floydPicks [] lo js).toFinset = chosen} : Finset _) := by
    ext js
    rw [Set.mem_ofPred_eq, mem_coe, mem_filter, mem_drawSequences]
  rw [same, Set.ncard_coe_finset]
  exact picksOf_eq below size

section Loop

variable {μ : Type}

/-- The pick of a draw at an upper end, and the membership structure with it. -/
def drawPick (testAndSet : μ → Nat → Bool × μ) (m : μ) (i j : Nat) : Nat × μ :=
  match testAndSet m j with
  | (true, m) => (j, m)
  | (false, m) => (i, (testAndSet m i).2)

def drawPicks (testAndSet : μ → Nat → Bool × μ) : μ → Nat → List Nat → List Nat × μ
  | m, _, [] => ([], m)
  | m, lo, j :: js =>
      let picked := drawPick testAndSet m lo j
      let rest := drawPicks testAndSet picked.2 (lo + 1) js
      (picked.1 :: rest.1, rest.2)

/-- A structure that answers for the positions `inside` which are taken. -/
structure Membership (testAndSet : μ → Nat → Bool × μ) (inside : Nat → Prop)
    (marks : μ → List Nat → Prop) : Prop where
  untaken : ∀ {m taken i}, marks m taken → inside i → (testAndSet m i).1 = decide (i ∉ taken)
  marked : ∀ {m taken i}, marks m taken → inside i →
    marks (testAndSet m i).2 (if i ∈ taken then taken else taken ++ [i])

variable {testAndSet : μ → Nat → Bool × μ} {inside : Nat → Prop} {marks : μ → List Nat → Prop}

theorem Membership.pick (h : Membership testAndSet inside marks) {m : μ} {taken : List Nat}
    {i j : Nat} (marked : marks m taken) (picked : Picked taken i) (hi : inside i)
    (hj : inside j) :
    (drawPick testAndSet m i j).1 = floydPick taken i j ∧
      marks (drawPick testAndSet m i j).2 (taken ++ [floydPick taken i j]) := by
  have fresh : i ∉ taken := fun old => Nat.lt_irrefl i (picked.lt i old)
  have first := h.untaken marked hj
  have after := h.marked marked hj
  unfold drawPick floydPick
  generalize testAndSet m j = tested at first after
  obtain ⟨new, m'⟩ := tested
  by_cases old : j ∈ taken
  · rw [if_pos old] at after
    obtain rfl : new = false := first.trans (decide_eq_false (not_not_intro old))
    have last := h.marked after hi
    rw [if_neg fresh] at last
    rw [if_pos old]
    exact ⟨rfl, last⟩
  · rw [if_neg old] at after
    obtain rfl : new = true := first.trans (decide_eq_true old)
    rw [if_neg old]
    exact ⟨rfl, after⟩

/-- The loop over a membership structure makes Floyd's picks. -/
theorem Membership.picks (h : Membership testAndSet inside marks) {m : μ} {taken : List Nat}
    {lo : Nat} {js : List Nat} (marked : marks m taken) (picked : Picked taken lo)
    (drawn : Drawn lo js.length js) (room : ∀ i < lo + js.length, inside i) :
    taken ++ (drawPicks testAndSet m lo js).1 = floydPicks taken lo js := by
  induction js generalizing m taken lo with
  | nil => exact List.append_nil taken
  | cons j js ih =>
      rw [List.length_cons] at room
      have first : j ≤ lo := drawn.below 0 (Nat.succ_pos _)
      obtain ⟨same, after⟩ := h.pick marked picked (room lo (by omega)) (room j (by omega))
      have later : Drawn (lo + 1) js.length js := ⟨rfl, fun i hi => by
        have here := drawn.below (i + 1) (Nat.succ_lt_succ hi)
        rw [List.getElem_cons_succ] at here
        omega⟩
      have rest := ih after (picked.snoc (Nat.lt_succ_of_le first)) later fun i hi =>
        room i (by omega)
      rw [drawPicks, floydPicks, ← rest, List.append_assoc]
      dsimp only
      rw [same]
      rfl

variable {σ S : Type}

/-- The draws a generator makes at the upper ends from `lo` on. -/
def drawsFrom (draw : σ → Nat → Nat × σ) : σ → Nat → Nat → List Nat × σ
  | r, _, 0 => ([], r)
  | r, lo, k + 1 =>
      let drawn := draw r (lo + 1)
      let rest := drawsFrom draw drawn.2 (lo + 1) k
      (drawn.1 :: rest.1, rest.2)

theorem drawsFrom_drawn {draw : σ → Nat → Nat × σ} (bounded : ∀ r s, 0 < s → (draw r s).1 < s)
    (r : σ) (lo k : Nat) : Drawn lo k (drawsFrom draw r lo k).1 := by
  induction k generalizing r lo with
  | zero => exact ⟨rfl, nofun⟩
  | succ k ih =>
      obtain ⟨length, below⟩ := ih (draw r (lo + 1)).2 (lo + 1)
      refine ⟨congrArg Nat.succ length, fun i hi => ?_⟩
      cases i with
      | zero => exact Nat.le_of_lt_succ (bounded r (lo + 1) (Nat.succ_pos lo))
      | succ i =>
          have here := below i (Nat.lt_of_succ_lt_succ hi)
          exact Nat.le_trans here (by omega)

/-- Where a state keeps its generator and its membership structure. -/
structure Scratchpad (σ μ S : Type) where
  rng : S → σ
  mem : S → μ
  put : S → σ → μ → S
  rng_put : ∀ s r m, rng (put s r m) = r
  mem_put : ∀ s r m, mem (put s r m) = m
  put_put : ∀ s r m r' m', put (put s r m) r' m' = put s r' m'
  put_get : ∀ s, put s (rng s) (mem s) = s

/-- A loop that acts on each pick acts on the picks of the draws its generator makes. -/
theorem Scratchpad.loop (pad : Scratchpad σ μ S) (draw : σ → Nat → Nat × σ)
    (pick : S → Nat → Nat × S) (act : S → Nat → S)
    (picks : ∀ s i, pick s i = ((drawPick testAndSet (pad.mem s) i (draw (pad.rng s) (i + 1)).1).1,
      pad.put s (draw (pad.rng s) (i + 1)).2
        (drawPick testAndSet (pad.mem s) i (draw (pad.rng s) (i + 1)).1).2))
    (apart : ∀ s r m p, act (pad.put s r m) p = pad.put (act s p) r m) (lo k : Nat) (s : S) :
    (List.range' lo k).foldl (fun s i => act (pick s i).2 (pick s i).1) s =
      pad.put
        ((drawPicks testAndSet (pad.mem s) lo (drawsFrom draw (pad.rng s) lo k).1).1.foldl act s)
        (drawsFrom draw (pad.rng s) lo k).2
        (drawPicks testAndSet (pad.mem s) lo (drawsFrom draw (pad.rng s) lo k).1).2 := by
  induction k generalizing lo s with
  | zero => exact (pad.put_get s).symm
  | succ k ih =>
      have spread : ∀ (ps : List Nat) (s : S) (r : σ) (m : μ),
          ps.foldl act (pad.put s r m) = pad.put (ps.foldl act s) r m := by
        intro ps
        induction ps with
        | nil => exact fun _ _ _ => rfl
        | cons p ps more =>
            intro s r m
            rw [List.foldl_cons, List.foldl_cons, apart, more]
      rw [List.range'_succ, List.foldl_cons, picks, apart, ih, pad.rng_put, pad.mem_put, spread,
        pad.put_put]
      rfl

end Loop

end Foundation
