import Mathlib.Data.List.Nodup
import Mathlib.Data.List.Range

/-! A list sorted by a key cut into its runs of one key, and lists dealt out in batches of one
size. -/

namespace Foundation.KeyRuns

variable {α : Type}

/-- One turn of the cutting loop: the runs cut so far and the start of the open one. -/
def cutAt (key : α → Nat) (xs : List α) (s : List (Nat × Nat) × Nat) (i : Nat) :
    Option (List (Nat × Nat) × Nat) :=
  if i = xs.length then some (s.1 ++ [(s.2, i)], i)
  else do
    let here ← xs[i]?
    let start ← xs[s.2]?
    if key here ≠ key start then some (s.1 ++ [(s.2, i)], i) else some s

def cut (key : α → Nat) (xs : List α) : Option (List (Nat × Nat)) :=
  ((List.range' 1 xs.length).foldlM (cutAt key xs) ([], 0)).map Prod.fst

/-- The key a run starts with. -/
def firstKey (key : α → Nat) (xs : List α) (r : Nat × Nat) : Nat := (xs[r.1]?.map key).getD 0

/-- The runs cut before `start` hold all of each key they hold. -/
structure Cut (key : α → Nat) (xs : List α) (runs : List (Nat × Nat)) (start : Nat) : Prop where
  inside : ∀ r ∈ runs, r.1 ≤ r.2 ∧ r.2 ≤ xs.length
  whole : ∀ r ∈ runs, (xs.drop r.1).take (r.2 - r.1) = xs.filter fun x => key x = firstKey key xs r
  ascending : (runs.map (firstKey key xs)).Pairwise (· < ·)
  before : ∀ x ∈ xs.take start, key x ∈ runs.map (firstKey key xs)
  after : ∀ k ∈ runs.map (firstKey key xs), ∀ x ∈ xs.drop start, k < key x

section Sorted

variable {key : α → Nat} {xs : List α}

/-- Closing the open run at the end of its key keeps the runs whole. -/
theorem Cut.close (sorted : xs.Pairwise fun a b => key a ≤ key b)
    {runs : List (Nat × Nat)} {start i : Nat} (h : Cut key xs runs start) (opened : start < i)
    (inside : i ≤ xs.length) {first : α} (here : xs[start]? = some first)
    (same : ∀ x ∈ (xs.drop start).take (i - start), key x = key first)
    (ended : ∀ x ∈ xs.drop i, key first ≠ key x) :
    Cut key xs (runs ++ [(start, i)]) i := by
  have split : xs = xs.take start ++ ((xs.drop start).take (i - start) ++ xs.drop i) := by
    have rest : xs.drop i = (xs.drop start).drop (i - start) := by
      rw [List.drop_drop, Nat.add_sub_cancel' (Nat.le_of_lt opened)]
    rw [rest, List.take_append_drop, List.take_append_drop]
  have label : firstKey key xs (start, i) = key first := by
    rw [firstKey, here]
    rfl
  have labels : (runs ++ [(start, i)]).map (firstKey key xs) =
      runs.map (firstKey key xs) ++ [key first] := by
    rw [List.map_append, List.map_singleton, label]
  have later : first ∈ xs.drop start := by
    rw [List.mem_iff_getElem?]
    exact ⟨0, by rw [List.getElem?_drop]; exact here⟩
  have opens : first ∈ (xs.drop start).take (i - start) := by
    rw [List.mem_iff_getElem?]
    exact ⟨0, by rw [List.getElem?_take_of_lt (by omega), List.getElem?_drop]; exact here⟩
  have below : ∀ k ∈ runs.map (firstKey key xs), k < key first :=
    fun k hk => h.after k hk first later
  have above : ∀ y ∈ xs.drop i, key first < key y := by
    intro y hy
    rw [split, List.pairwise_append, List.pairwise_append] at sorted
    exact Nat.lt_of_le_of_ne (sorted.2.1.2.2 first opens y hy) (ended y hy)
  refine ⟨fun r hr => ?_, fun r hr => ?_, ?_, fun y hy => ?_, fun k hk y hy => ?_⟩
  · rcases List.mem_append.mp hr with early | last
    · exact h.inside r early
    · rw [List.mem_singleton.mp last]
      exact ⟨Nat.le_of_lt opened, inside⟩
  · rcases List.mem_append.mp hr with early | last
    · exact h.whole r early
    · rw [List.mem_singleton.mp last, label]
      have head : (xs.take start).filter (fun y => key y = key first) = [] := by
        refine List.filter_eq_nil_iff.mpr fun y hy => ?_
        have taken := below _ (h.before y hy)
        simp only [decide_eq_true_eq]
        omega
      have tail : (xs.drop i).filter (fun y => key y = key first) = [] := by
        refine List.filter_eq_nil_iff.mpr fun y hy => ?_
        have later := above y hy
        simp only [decide_eq_true_eq]
        omega
      have middle : ((xs.drop start).take (i - start)).filter (fun y => key y = key first) =
          (xs.drop start).take (i - start) :=
        List.filter_eq_self.mpr fun y hy => decide_eq_true (same y hy)
      calc (xs.drop start).take (i - start)
          = (xs.take start ++ ((xs.drop start).take (i - start) ++ xs.drop i)).filter
              (fun y => key y = key first) := by
            rw [List.filter_append, List.filter_append, head, tail, middle, List.nil_append,
              List.append_nil]
        _ = xs.filter fun y => key y = key first := by rw [← split]
  · rw [labels]
    refine List.pairwise_append.mpr ⟨h.ascending, List.pairwise_singleton .., fun k hk j hj => ?_⟩
    rw [List.mem_singleton.mp hj]
    exact below k hk
  · rw [labels]
    rw [← Nat.add_sub_cancel' (Nat.le_of_lt opened), List.take_add, List.mem_append] at hy
    rcases hy with early | here
    · exact List.mem_append_left _ (h.before y early)
    · rw [same y here]
      exact List.mem_append_right _ List.mem_cons_self
  · rw [labels] at hk
    rcases List.mem_append.mp hk with early | last
    · exact Nat.lt_trans (below k early) (above y hy)
    · rw [List.mem_singleton.mp last]
      exact above y hy

/-- The loop's state before turn `i`. -/
structure Cutting (key : α → Nat) (xs : List α) (s : List (Nat × Nat) × Nat) (i : Nat) :
    Prop where
  cut : Cut key xs s.1 s.2
  opened : s.2 < i
  same : ∀ j, s.2 ≤ j → j < i → xs[j]?.map key = xs[s.2]?.map key

theorem cutting_first (key : α → Nat) (xs : List α) : Cutting key xs ([], 0) 1 where
  cut := ⟨nofun, nofun, List.Pairwise.nil, fun _ hx => absurd hx List.not_mem_nil, nofun⟩
  opened := Nat.zero_lt_one
  same j _ hj := by
    obtain rfl : j = 0 := by omega
    rfl

/-- The entries of the open run have the key it starts with. -/
theorem Cutting.run {s : List (Nat × Nat) × Nat} {i : Nat} (h : Cutting key xs s i) {start : α}
    (first : xs[s.2]? = some start) :
    ∀ x ∈ (xs.drop s.2).take (i - s.2), key x = key start := by
  intro x hx
  obtain ⟨j, hj⟩ := List.mem_iff_getElem?.mp hx
  rw [List.getElem?_take] at hj
  split at hj
  · rename_i small
    rw [List.getElem?_drop] at hj
    have same := h.same (s.2 + j) (Nat.le_add_right _ _) (by omega)
    rw [hj, first] at same
    exact Option.some.inj same
  · cases hj

theorem Cutting.step {s : List (Nat × Nat) × Nat} {i : Nat} (h : Cutting key xs s i)
    (sorted : xs.Pairwise fun a b => key a ≤ key b) (inside : i < xs.length) :
    ∃ s', cutAt key xs s i = some s' ∧ Cutting key xs s' (i + 1) := by
  have opened := h.opened
  have first : xs[s.2]? = some xs[s.2] := List.getElem?_eq_getElem (by omega)
  have here : xs[i]? = some xs[i] := List.getElem?_eq_getElem inside
  unfold cutAt
  rw [if_neg (Nat.ne_of_lt inside), here, first]
  by_cases same : key xs[i] = key xs[s.2]
  · refine ⟨s, if_neg (not_not_intro same), h.cut, Nat.lt_succ_of_lt opened, fun j hj hj' => ?_⟩
    by_cases last : j = i
    · rw [last, here, first, Option.map_some, Option.map_some, same]
    · exact h.same j hj (by omega)
  · have ordered : key xs[s.2] ≤ key xs[i] :=
      List.pairwise_iff_getElem.mp sorted s.2 i (by omega) inside opened
    refine ⟨(s.1 ++ [(s.2, i)], i), if_pos same,
      h.cut.close sorted opened (Nat.le_of_lt inside) first (h.run first) fun x hx => ?_,
      Nat.lt_succ_self i, fun j hj hj' => ?_⟩
    · obtain ⟨j, hj⟩ := List.mem_iff_getElem?.mp hx
      rw [List.getElem?_drop] at hj
      obtain ⟨within, rfl⟩ := List.getElem?_eq_some_iff.mp hj
      have later : key xs[i] ≤ key xs[i + j] := by
        by_cases zero : j = 0
        · subst zero
          exact Nat.le_refl _
        · exact List.pairwise_iff_getElem.mp sorted i (i + j) inside within (by omega)
      omega
    · obtain rfl : j = i := by dsimp only at hj; omega
      rfl

theorem Cutting.upTo (sorted : xs.Pairwise fun a b => key a ≤ key b) (n : Nat)
    (inside : n < xs.length) : ∃ s,
      (List.range' 1 n).foldlM (cutAt key xs) ([], 0) = some s ∧ Cutting key xs s (n + 1) := by
  induction n with
  | zero => exact ⟨_, rfl, cutting_first key xs⟩
  | succ n ih =>
      obtain ⟨s, ran, cutting⟩ := ih (by omega)
      obtain ⟨s', stepped, cutting'⟩ := cutting.step sorted inside
      refine ⟨s', ?_, cutting'⟩
      rw [List.range'_concat, List.foldlM_append, ran, Nat.one_mul, Nat.add_comm 1 n]
      show (List.foldlM (cutAt key xs) s [n + 1]) = _
      rw [List.foldlM_cons, stepped]
      rfl

/-- A sorted list is cut into its runs. -/
theorem cut_eq (sorted : xs.Pairwise fun a b => key a ≤ key b) :
    ∃ runs, cut key xs = some runs ∧ Cut key xs runs xs.length := by
  unfold cut
  cases size : xs.length with
  | zero =>
      obtain rfl := List.length_eq_zero_iff.mp size
      exact ⟨[], rfl, (cutting_first key []).cut⟩
  | succ n =>
      obtain ⟨s, ran, cutting⟩ := Cutting.upTo sorted n (by omega)
      have opened := cutting.opened
      have first : xs[s.2]? = some xs[s.2] := List.getElem?_eq_getElem (by omega)
      refine ⟨s.1 ++ [(s.2, n + 1)], ?_, cutting.cut.close sorted opened
        (Nat.le_of_eq size.symm) first (cutting.run first) fun x hx => ?_⟩
      · rw [List.range'_concat, List.foldlM_append, ran, Nat.one_mul, Nat.add_comm 1 n]
        show Option.map _ (List.foldlM (cutAt key xs) s [n + 1]) = _
        rw [List.foldlM_cons, cutAt, if_pos size.symm]
        rfl
      · rw [List.drop_eq_nil_of_le (Nat.le_of_eq size)] at hx
        cases hx

end Sorted

/-- Classes taken in any order, each once, hold the list. -/
theorem classes_perm {κ : Type} [DecidableEq κ] (f : α → κ) (xs : List α) {ks : List κ}
    (distinct : ks.Nodup) :
    (ks.flatMap fun k => xs.filter fun x => f x = k).Perm (xs.filter fun x => f x ∈ ks) := by
  induction ks with
  | nil => simp
  | cons k ks ih =>
      obtain ⟨fresh, distinct⟩ := List.nodup_cons.mp distinct
      have parts := List.filter_append_perm (fun x => decide (f x = k))
        (xs.filter fun x => f x ∈ k :: ks)
      rw [List.filter_filter, List.filter_filter] at parts
      have first : (xs.filter fun x => decide (f x = k) && decide (f x ∈ k :: ks)) =
          xs.filter fun x => f x = k := by
        refine List.filter_congr fun x _ => ?_
        by_cases same : f x = k <;> simp [same]
      have rest : (xs.filter fun x => !decide (f x = k) && decide (f x ∈ k :: ks)) =
          xs.filter fun x => f x ∈ ks := by
        refine List.filter_congr fun x _ => ?_
        by_cases same : f x = k
        · simp [same, fresh]
        · simp [same]
      rw [first, rest] at parts
      rw [List.flatMap_cons]
      exact ((ih distinct).append_left _).trans parts

section Batches

/-- A batch that reached its size is sent off. -/
def fillBatch (size : Nat) (s : List (List α) × List α) (x : α) : List (List α) × List α :=
  let current := s.2 ++ [x]
  if current.length = size then (s.1 ++ [current], []) else (s.1, current)

/-- The last batch is sent off as far as it is filled. -/
def sendLast (s : List (List α) × List α) : List (List α) :=
  if s.2.isEmpty then s.1 else s.1 ++ [s.2]

/-- The batches sent off are full, and the open one is not. -/
structure Filled (size : Nat) (xs : List α) (s : List (List α) × List α) : Prop where
  dealt : s.1.flatten ++ s.2 = xs
  full : ∀ b ∈ s.1, b.length = size
  opened : s.2.length < size

theorem Filled.step {size : Nat} (positive : 0 < size) {xs : List α}
    {s : List (List α) × List α} (h : Filled size xs s) (x : α) :
    Filled size (xs ++ [x]) (fillBatch size s x) := by
  have opened := h.opened
  unfold fillBatch
  dsimp only
  split
  · rename_i sent
    refine ⟨?_, fun b hb => ?_, positive⟩
    · rw [List.flatten_append, List.flatten_singleton, List.append_nil, ← h.dealt,
        List.append_assoc]
    · rcases List.mem_append.mp hb with before | last
      · exact h.full b before
      · rw [List.mem_singleton.mp last]
        exact sent
  · rename_i kept
    refine ⟨?_, h.full, ?_⟩
    · rw [← h.dealt, List.append_assoc]
    · rw [List.length_append, List.length_singleton] at kept ⊢
      omega

theorem Filled.run {size : Nat} (positive : 0 < size) {xs : List α}
    {s : List (List α) × List α} (h : Filled size xs s) (rest : List α) :
    Filled size (xs ++ rest) (rest.foldl (fillBatch size) s) := by
  induction rest generalizing xs s with
  | nil =>
      rw [List.append_nil]
      exact h
  | cons x rest ih =>
      rw [List.append_cons]
      exact ih (h.step positive x)

/-- The batches hold the list in order, each but the last full and none empty. -/
theorem batches_spec {size : Nat} (positive : 0 < size) (xs : List α) :
    let batches := sendLast (xs.foldl (fillBatch size) ([], []))
    batches.flatten = xs ∧ (∀ b ∈ batches.dropLast, b.length = size) ∧
      ∀ b ∈ batches, b ≠ [] ∧ b.length ≤ size := by
  have filled : Filled size xs (xs.foldl (fillBatch size) ([], [])) := by
    have start : Filled size ([] : List α) ([], []) :=
      ⟨rfl, fun _ hb => absurd hb List.not_mem_nil, positive⟩
    exact start.run positive xs
  have whole : ∀ b : List α, b.length = size → b ≠ [] ∧ b.length ≤ size := by
    intro b hb
    refine ⟨fun empty => ?_, Nat.le_of_eq hb⟩
    rw [empty] at hb
    exact Nat.ne_of_lt positive hb
  unfold sendLast
  dsimp only
  generalize xs.foldl (fillBatch size) ([], []) = s at filled
  split
  · rename_i empty
    refine ⟨?_, fun b hb => filled.full b (List.dropLast_subset _ hb),
      fun b hb => whole b (filled.full b hb)⟩
    have dealt := filled.dealt
    rwa [List.isEmpty_iff.mp empty, List.append_nil] at dealt
  · rename_i left
    refine ⟨?_, fun b hb => ?_, fun b hb => ?_⟩
    · rw [List.flatten_append, List.flatten_singleton]
      exact filled.dealt
    · rw [List.dropLast_concat] at hb
      exact filled.full b hb
    · rcases List.mem_append.mp hb with before | last
      · exact whole b (filled.full b before)
      · rw [List.mem_singleton.mp last]
        exact ⟨fun empty => left (List.isEmpty_iff.mpr empty), Nat.le_of_lt filled.opened⟩

end Batches

end Foundation.KeyRuns
