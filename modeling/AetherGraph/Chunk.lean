import AetherGraph.Foundation.LeafTree
import Mathlib.Data.List.FinRange
import Mathlib.Data.List.GetD
import Mathlib.Data.List.TakeWhile

/-! Cache-line chunks: at most fifteen strictly ascending neighbour ids.  A `u32`
is a `Nat`; the four bytes in front of the keys are the count and the padding,
which a freed slot's link overwrites. -/

namespace AetherGraph

/-- Maximum neighbours per chunk. -/
def chunkCap : Nat := 15

structure Chunk where
  count : Nat
  pad : Nat
  data : Vector Nat chunkCap
  deriving DecidableEq, Repr

namespace Chunk

def empty : Chunk := ⟨0, 0, Vector.replicate chunkCap 0⟩

/-- `from_sorted` and `from_sorted_unchecked`; the callers bound the length. -/
def fromSorted (sorted : List Nat) : Chunk :=
  ⟨sorted.length, 0, Vector.ofFn fun i => sorted.getD i.val 0⟩

def asSlice (c : Chunk) : List Nat := c.data.toList.take c.count

def isFull (c : Chunk) : Bool := c.count == chunkCap

/-- Counts the smaller lanes of all fifteen; `ok` carries the index of `val`,
`error` the position it would be inserted at. -/
def search (c : Chunk) (val : Nat) : Except Nat Nat :=
  let lanes := (List.finRange chunkCap).foldl (fun (acc : Nat × Bool) i =>
    let inRange := decide (i.val < c.count)
    (acc.1 + (inRange && decide (c.data[i] < val)).toNat,
      acc.2 || (inRange && decide (c.data[i] = val)))) (0, false)
  if lanes.2 then .ok lanes.1 else .error lanes.1

def contains (c : Chunk) (val : Nat) : Bool := (c.search val).isOk

/-- Prefix, value, suffix in one pass. -/
def insertAt (c : Chunk) (pos val : Nat) : Chunk :=
  ⟨c.count + 1, 0, Vector.ofFn fun i =>
    if i.val < pos then c.data.toList.getD i.val 0
    else if i.val = pos then val
    else if i.val < c.count + 1 then c.data.toList.getD (i.val - 1) 0
    else 0⟩

/-- `none` on a duplicate.  The caller splits a full chunk first. -/
def insert (c : Chunk) (val : Nat) : Option Chunk :=
  match c.search val with
  | .ok _ => none
  | .error pos => some (c.insertAt pos val)

def split (c : Chunk) : Chunk × Chunk :=
  let mid := c.count / 2
  (fromSorted (c.data.toList.take mid), fromSorted ((c.data.toList.take c.count).drop mid))

/-- Smallest value, the split key of a right half. -/
def min (c : Chunk) : Nat := c.data.get ⟨0, by decide⟩

theorem asSlice_length {c : Chunk} (h : c.count ≤ chunkCap) : c.asSlice.length = c.count := by
  simp [asSlice, h]

theorem asSlice_fromSorted {l : List Nat} (h : l.length ≤ chunkCap) :
    (fromSorted l).asSlice = l := by
  apply List.ext_getElem
  · simp [asSlice, fromSorted, h]
  · intro i h₁ h₂
    simp [asSlice, fromSorted, List.getElem_take, h₂]

theorem countP_finRange_lt {m : Nat} (f : Fin m → Nat) (p : Nat → Bool) (n : Nat) :
    (List.finRange m).countP (fun i => decide (i.val < n) && p (f i)) =
      ((List.ofFn f).take n).countP p := by
  induction m generalizing n with
  | zero => simp
  | succ m ih =>
      cases n with
      | zero => simp
      | succ n =>
          have rest := ih (fun i => f i.succ) n
          simp only [List.finRange_succ, List.ofFn_succ, List.take_succ_cons, List.countP_cons,
            List.countP_map, ← rest]
          simp [Function.comp_def]

theorem any_finRange_lt (c : Chunk) (val : Nat) :
    (List.finRange chunkCap).any (fun i => decide (i.val < c.count) && decide (c.data[i] = val)) =
      decide (val ∈ c.asSlice) := by
  rw [Bool.eq_iff_iff, List.any_eq_true, decide_eq_true_iff, asSlice,
    List.mem_take_iff_getElem]
  constructor
  · rintro ⟨i, _, hi⟩
    simp only [Bool.and_eq_true, decide_eq_true_iff] at hi
    exact ⟨i.val, by simpa using hi.1, by simpa using hi.2⟩
  · rintro ⟨i, hi, hv⟩
    have hc : i < chunkCap := by simpa using hi.trans_le (Nat.min_le_right ..)
    refine ⟨⟨i, hc⟩, List.mem_finRange _, ?_⟩
    simp only [Bool.and_eq_true, decide_eq_true_iff]
    exact ⟨hi.trans_le (Nat.min_le_left ..), by simpa using hv⟩

theorem foldl_lanes (l : List (Fin chunkCap)) (small hit : Fin chunkCap → Bool)
    (acc : Nat × Bool) :
    l.foldl (fun (acc : Nat × Bool) i => (acc.1 + (small i).toNat, acc.2 || hit i)) acc =
      (acc.1 + l.countP small, acc.2 || l.any hit) := by
  induction l generalizing acc with
  | nil => simp
  | cons i l ih =>
      rw [List.foldl_cons, ih, List.countP_cons, List.any_cons, Bool.or_assoc]
      cases small i
      · simp
      · simp
        omega

/-- The branchless scan finds `val` or counts the keys below it. -/
theorem search_eq (c : Chunk) (val : Nat) :
    c.search val =
      if val ∈ c.asSlice then .ok (c.asSlice.countP (· < val))
      else .error (c.asSlice.countP (· < val)) := by
  have lanes : List.ofFn (fun i : Fin chunkCap => c.data[i]) = c.data.toList := by
    apply List.ext_getElem <;> simp
  have small := countP_finRange_lt (fun i : Fin chunkCap => c.data[i])
    (fun x => decide (x < val)) c.count
  rw [lanes] at small
  change _ = c.asSlice.countP _ at small
  unfold search
  rw [foldl_lanes, any_finRange_lt, small]
  simp only [Nat.zero_add, Bool.false_or, decide_eq_true_eq]

theorem contains_iff (c : Chunk) (val : Nat) : c.contains val = true ↔ val ∈ c.asSlice := by
  rw [contains, search_eq]
  by_cases h : val ∈ c.asSlice
  · simp only [h, if_true, Except.isOk, Except.toBool]
  · simp only [h, if_false, Except.isOk, Except.toBool, Bool.false_eq_true]

theorem takeWhile_length_eq_countP {l : List Nat} (sorted : l.Pairwise (· < ·)) (val : Nat) :
    (l.takeWhile fun x => decide (x < val)).length = l.countP (fun x => decide (x < val)) := by
  induction l with
  | nil => rfl
  | cons x l ih =>
      obtain ⟨hx, hl⟩ := List.pairwise_cons.mp sorted
      by_cases h : x < val
      · simp [h, ih hl]
      · have none : l.countP (fun x => decide (x < val)) = 0 := by
          rw [List.countP_eq_zero]
          intro y hy
          have := hx y hy
          simp only [decide_eq_true_eq]
          omega
        simp [h, none]

theorem orderedInsert_eq_take_drop_countP {l : List Nat} (sorted : l.Pairwise (· < ·))
    (val : Nat) :
    l.orderedInsert (· ≤ ·) val =
      l.take (l.countP (· < val)) ++ val :: l.drop (l.countP (· < val)) := by
  have cond : (fun b => decide ¬ val ≤ b) = fun x => decide (x < val) := by
    funext b
    simp only [not_le]
  have len := takeWhile_length_eq_countP sorted val
  have front := List.prefix_iff_eq_take.mp (List.takeWhile_prefix (fun x => decide (x < val)) (l := l))
  have back : l.drop (l.countP (· < val)) = l.dropWhile fun x => decide (x < val) := by
    have whole := List.takeWhile_append_dropWhile (p := fun x => decide (x < val)) (l := l)
    calc
      _ = (l.takeWhile (fun x => decide (x < val)) ++ l.dropWhile fun x => decide (x < val)).drop
          (l.takeWhile fun x => decide (x < val)).length := by rw [whole, len]
      _ = _ := List.drop_left
  rw [List.orderedInsert_eq_take_drop, cond, back, front, len]

theorem insertAt_asSlice {c : Chunk} {pos val : Nat} (room : c.count < chunkCap)
    (hpos : pos ≤ c.count) :
    (c.insertAt pos val).asSlice = c.asSlice.take pos ++ val :: c.asSlice.drop pos := by
  have size : c.data.toList.length = chunkCap := by simp
  apply List.ext_getElem
  · simp only [asSlice, insertAt, Vector.toList_ofFn, List.length_take, List.length_ofFn,
      List.length_append, List.length_cons, List.length_drop, size]
    omega
  · intro i h₁ h₂
    have hi : i < c.count + 1 := by
      simp only [asSlice, insertAt, Vector.toList_ofFn, List.length_take, List.length_ofFn] at h₁
      omega
    simp only [asSlice, insertAt, Vector.toList_ofFn, List.getElem_take, List.getElem_ofFn,
      List.getElem_append, List.getElem_cons, List.getElem_drop, List.length_take, size]
    rcases Nat.lt_trichotomy i pos with below | same | above
    · rw [if_pos below, dif_pos (by omega), List.getD_eq_getElem _ _ (by omega)]
    · rw [if_neg (by omega), if_pos same, dif_neg (by omega), dif_pos (by omega)]
    · rw [if_neg (by omega), if_neg (by omega), if_pos hi, dif_neg (by omega),
        dif_neg (by omega), List.getD_eq_getElem _ _ (by omega)]
      congr 1
      omega

/-- On a strictly ascending chunk with room, `insert` is ordered insertion. -/
theorem insert_eq {c : Chunk} {val : Nat} (room : c.count < chunkCap)
    (sorted : c.asSlice.Pairwise (· < ·)) (fresh : val ∉ c.asSlice) :
    ∃ c', c.insert val = some c' ∧ c'.count = c.count + 1 ∧
      c'.asSlice = c.asSlice.orderedInsert (· ≤ ·) val := by
  have bound : c.asSlice.countP (· < val) ≤ c.count :=
    List.countP_le_length.trans (asSlice_length room.le).le
  refine ⟨c.insertAt (c.asSlice.countP (· < val)) val, ?_, rfl, ?_⟩
  · unfold insert
    rw [search_eq]
    rw [if_neg fresh]
  · rw [insertAt_asSlice room bound, orderedInsert_eq_take_drop_countP sorted]

theorem insert_duplicate {c : Chunk} {val : Nat} (h : val ∈ c.asSlice) : c.insert val = none := by
  unfold insert
  rw [search_eq]
  rw [if_pos h]

theorem split_asSlice {c : Chunk} (h : c.count ≤ chunkCap) :
    c.split.1.asSlice = c.asSlice.take (c.count / 2) ∧
      c.split.2.asSlice = c.asSlice.drop (c.count / 2) := by
  have size : c.data.toList.length = chunkCap := by simp
  constructor
  · rw [split, asSlice_fromSorted]
    · rw [asSlice, List.take_take]
      congr 1
      omega
    · simp only [List.length_take, size]
      omega
  · rw [split, asSlice_fromSorted]
    · rfl
    · simp only [List.length_drop, List.length_take, size]
      omega

theorem min_eq {c : Chunk} {x : Nat} {l : List Nat} (h : c.asSlice = x :: l) : c.min = x := by
  have first : c.asSlice[0]? = some x := by rw [h]; rfl
  rw [asSlice, List.getElem?_take] at first
  split at first
  · change c.data[0] = x
    simpa [Vector.getElem?_eq_getElem (show 0 < chunkCap by decide)] using first
  · exact absurd first (by simp)

end Chunk

end AetherGraph
