import Mathlib.Data.List.GetD
import Mathlib.Data.List.Range

/-! A buffer cut into rows by their offsets and filled row by row, the rows in chunks that each
own a piece of the buffer. -/

namespace Foundation.RowFill

variable {α : Type}

/-- Fill one row of a chunk that starts at `base`; a slice out of bounds is none. -/
def fillRow (offsets : List Nat) (fill : Nat → List α → Option (List α)) (base : Nat)
    (chunk : List α) (row : Nat) : Option (List α) :=
  let lo := offsets.getD row 0 - base
  let hi := offsets.getD (row + 1) 0 - base
  if lo ≤ hi ∧ hi ≤ chunk.length then
    (fill row ((chunk.drop lo).take (hi - lo))).map fun filled =>
      chunk.take lo ++ filled ++ chunk.drop hi
  else none

def fillChunk (offsets : List Nat) (fill : Nat → List α → Option (List α)) (start stop : Nat)
    (chunk : List α) : Option (List α) :=
  (List.range' start (stop - start)).foldlM (fillRow offsets fill (offsets.getD start 0)) chunk

/-- Split the rest of the buffer into the chunks of `size` rows and fill each. -/
def fillChunks (size : Nat) (offsets : List Nat) (fill : Nat → List α → Option (List α))
    (rows start : Nat) (rest : List α) : Option (List α) :=
  if start < rows ∧ 0 < size then
    let stop := min (start + size) rows
    let len := offsets.getD stop 0 - offsets.getD start 0
    if len ≤ rest.length then do
      let head ← fillChunk offsets fill start stop (rest.take len)
      let tail ← fillChunks size offsets fill rows stop (rest.drop len)
      some (head ++ tail)
    else none
  else some rest
termination_by rows - start

/-- The rows `content` fill a buffer cut by `offsets`. -/
structure Rows (offsets : List Nat) (content : Nat → List α) (rows : Nat) : Prop where
  first : offsets.getD 0 0 = 0
  next : ∀ i < rows, offsets.getD (i + 1) 0 = offsets.getD i 0 + (content i).length

section Filled

variable {offsets : List Nat} {content : Nat → List α} {rows : Nat}

/-- A row's offset is what the rows before it hold. -/
theorem Rows.offset_eq (h : Rows offsets content rows) {k : Nat} (hk : k ≤ rows) :
    offsets.getD k 0 = ((List.range k).flatMap content).length := by
  induction k with
  | zero => exact h.first
  | succ k ih =>
      rw [h.next k hk, ih (Nat.le_of_succ_le hk), List.range_succ, List.flatMap_append,
        List.flatMap_singleton, List.length_append]

theorem Rows.offset_add (h : Rows offsets content rows) (start count : Nat)
    (inside : start + count ≤ rows) :
    offsets.getD (start + count) 0 =
      offsets.getD start 0 + ((List.range' start count).flatMap content).length := by
  rw [h.offset_eq inside, h.offset_eq (by omega), ← List.length_append, ← List.flatMap_append,
    List.range_eq_range', List.range_eq_range']
  congr 2
  have whole := (List.range'_append_1 (s := 0) (m := start) (n := count)).symm
  rwa [Nat.zero_add] at whole

/-- A row is the slice between its offsets. -/
theorem Rows.slice_eq (h : Rows offsets content rows) {i : Nat} (hi : i < rows) :
    (((List.range rows).flatMap content).drop (offsets.getD i 0)).take
      (offsets.getD (i + 1) 0 - offsets.getD i 0) = content i := by
  have split : List.range rows = List.range i ++ i :: List.range' (i + 1) (rows - (i + 1)) := by
    have whole := List.range'_append_1 (s := 0) (m := i) (n := rows - i)
    rw [Nat.zero_add, Nat.add_sub_cancel' (Nat.le_of_lt hi)] at whole
    rw [List.range_eq_range', ← whole, List.range_eq_range']
    congr 1
    have rest : rows - i = rows - (i + 1) + 1 := by omega
    rw [rest, List.range'_succ]
  rw [h.next i hi, Nat.add_sub_cancel_left, h.offset_eq (Nat.le_of_lt hi), split,
    List.flatMap_append, List.drop_left, List.flatMap_cons, List.take_left]

variable {fill : Nat → List α → Option (List α)}

theorem fillRow_eq (h : Rows offsets content rows) {start i : Nat} (hs : start ≤ i) (hi : i < rows)
    (filled : ∀ old, old.length = (content i).length → fill i old = some (content i))
    {before rest : List α}
    (done : before.length = offsets.getD i 0 - offsets.getD start 0)
    (room : (content i).length ≤ rest.length) :
    fillRow offsets fill (offsets.getD start 0) (before ++ rest) i =
      some (before ++ content i ++ rest.drop (content i).length) := by
  have next := h.next i hi
  have base : offsets.getD start 0 ≤ offsets.getD i 0 := by
    obtain ⟨gap, rfl⟩ := Nat.exists_eq_add_of_le hs
    rw [h.offset_add start gap (Nat.le_of_lt hi)]
    exact Nat.le_add_right _ _
  have hlo : offsets.getD i 0 - offsets.getD start 0 = before.length := done.symm
  have hhi : offsets.getD (i + 1) 0 - offsets.getD start 0 =
      before.length + (content i).length := by omega
  unfold fillRow
  dsimp only
  rw [hlo, hhi, Nat.add_sub_cancel_left, if_pos ⟨Nat.le_add_right _ _, by
    rw [List.length_append]
    omega⟩, List.drop_left, filled _ (by rw [List.length_take]; omega)]
  rw [Option.map_some, List.take_left, List.drop_append]
  congr 2
  rw [List.drop_eq_nil_of_le (Nat.le_add_right _ _), List.nil_append, Nat.add_sub_cancel_left]

theorem fillChunk_eq (h : Rows offsets content rows) {start count : Nat}
    (inside : start + count ≤ rows)
    (filled : ∀ i < rows, ∀ old, old.length = (content i).length → fill i old = some (content i))
    {chunk : List α}
    (size : chunk.length = offsets.getD (start + count) 0 - offsets.getD start 0) :
    fillChunk offsets fill start (start + count) chunk =
      some ((List.range' start count).flatMap content) := by
  have upTo : ∀ k ≤ count,
      (List.range' start k).foldlM (fillRow offsets fill (offsets.getD start 0)) chunk =
        some ((List.range' start k).flatMap content ++
          chunk.drop ((List.range' start k).flatMap content).length) := by
    intro k
    induction k with
    | zero => exact fun _ => rfl
    | succ k ih =>
        intro hk
        have here := h.offset_add start k (by omega)
        have next := h.next (start + k) (by omega)
        have total := h.offset_add start count inside
        have later := h.offset_add (start + (k + 1)) (count - (k + 1)) (by omega)
        rw [Nat.add_assoc, Nat.add_sub_cancel' hk, ← Nat.add_assoc] at later
        rw [List.range'_concat, List.foldlM_append, ih (by omega), Nat.one_mul, Option.bind_eq_bind,
          Option.bind_some, List.foldlM_cons, fillRow_eq h (Nat.le_add_right start k) (by omega)
          (filled _ (by omega)) (by omega) (by rw [List.length_drop]; omega)]
        show some _ = _
        rw [List.flatMap_append, List.flatMap_singleton, List.drop_drop, List.length_append]
  have whole := upTo count (Nat.le_refl count)
  have total := h.offset_add start count inside
  rw [List.drop_eq_nil_of_le (by omega), List.append_nil] at whole
  rw [fillChunk, Nat.add_sub_cancel_left]
  exact whole

/-- The chunks cover the rows, whatever their size. -/
theorem fillChunks_eq (h : Rows offsets content rows)
    (filled : ∀ i < rows, ∀ old, old.length = (content i).length → fill i old = some (content i))
    {size : Nat} (positive : 0 < size) {start : Nat} (hs : start ≤ rows) {rest : List α}
    (total : rest.length = offsets.getD rows 0 - offsets.getD start 0) :
    fillChunks size offsets fill rows start rest =
      some ((List.range' start (rows - start)).flatMap content) := by
  induction gap : rows - start using Nat.strong_induction_on generalizing start rest with
  | _ gap ih =>
      subst gap
      rw [fillChunks]
      split
      · rename_i more
        obtain ⟨count, stop⟩ : ∃ count, min (start + size) rows = start + count :=
          Nat.exists_eq_add_of_le (by omega)
        have inside : start + count ≤ rows := by omega
        have grows : 0 < count := by omega
        have here := h.offset_add start count inside
        have later := h.offset_add (start + count) (rows - (start + count)) (by omega)
        rw [Nat.add_sub_cancel' inside] at later
        dsimp only
        rw [stop, if_pos (by omega), fillChunk_eq h inside filled (by rw [List.length_take]; omega)]
        have left : (rest.drop (offsets.getD (start + count) 0 - offsets.getD start 0)).length =
            offsets.getD rows 0 - offsets.getD (start + count) 0 := by
          rw [List.length_drop]
          omega
        have tail := ih (rows - (start + count)) (by omega) inside left rfl
        show (fillChunks _ _ _ _ _ _ >>= _) = _
        rw [tail]
        show some _ = _
        rw [← List.flatMap_append, List.range'_append_1]
        congr 3
        omega
      · rename_i done
        have last : start = rows := by
          by_contra other
          exact done ⟨by omega, positive⟩
        subst last
        have empty : rest = [] := List.length_eq_zero_iff.mp (by omega)
        rw [empty, Nat.sub_self]
        rfl

end Filled

end Foundation.RowFill
