import Mathlib.Data.List.Pairwise

/-! Ranges of numbers, each from its start to its exclusive end, and the longest contiguous run of
them from a given start. -/

namespace Foundation

/-- Each range is after the other or before it. -/
def Apart (r r' : Nat × Nat) : Prop := r.2 ≤ r'.1 ∨ r'.2 ≤ r.1

instance : Std.Symm Apart := ⟨fun _ _ => Or.symm⟩

/-- Where a contiguous run of `ranges` from `start` ends. -/
inductive RunEnd (ranges : List (Nat × Nat)) (start : Nat) : Nat → Prop where
  | start : RunEnd ranges start start
  | next {mid finish : Nat} : RunEnd ranges start mid → (mid, finish) ∈ ranges →
      RunEnd ranges start finish

/-- The end of the longest run. -/
structure LongestRun (ranges : List (Nat × Nat)) (start finish : Nat) : Prop where
  run : RunEnd ranges start finish
  longest : ∀ e, RunEnd ranges start e → e ≤ finish

section Runs

variable {ranges ranges' : List (Nat × Nat)} {start finish finish' : Nat}

theorem RunEnd.mono (h : RunEnd ranges start finish) (sub : ranges ⊆ ranges') :
    RunEnd ranges' start finish := by
  induction h with
  | start => exact .start
  | next _ mem ih => exact ih.next (sub mem)

theorem LongestRun.le (h : LongestRun ranges start finish) (h' : LongestRun ranges' start finish')
    (sub : ranges ⊆ ranges') : finish ≤ finish' :=
  h'.longest finish (h.run.mono sub)

theorem LongestRun.unique (h : LongestRun ranges start finish)
    (h' : LongestRun ranges' start finish') (same : ∀ r, r ∈ ranges ↔ r ∈ ranges') :
    finish = finish' :=
  Nat.le_antisymm (h.le h' fun r mem => (same r).mp mem) (h'.le h fun r mem => (same r).mpr mem)

variable (forward : ∀ r ∈ ranges, r.1 < r.2)

include forward

theorem RunEnd.start_le (h : RunEnd ranges start finish) : start ≤ finish := by
  induction h with
  | start => exact Nat.le_refl _
  | next _ mem ih => exact Nat.le_trans ih (Nat.le_of_lt (forward _ mem))

/-- A number passed by a run is in one of the ranges, which the run passes whole. -/
theorem RunEnd.covers (h : RunEnd ranges start finish) {x : Nat} (low : start ≤ x)
    (high : x < finish) : ∃ r ∈ ranges, r.1 ≤ x ∧ x < r.2 ∧ r.2 ≤ finish := by
  induction h with
  | start => omega
  | @next mid finish _ mem ih =>
      by_cases before : x < mid
      · obtain ⟨r, here, lower, upper, inside⟩ := ih before
        exact ⟨r, here, lower, upper, Nat.le_trans inside (Nat.le_of_lt (forward _ mem))⟩
      · exact ⟨_, mem, Nat.le_of_not_lt before, high, Nat.le_refl _⟩

variable (apart : ranges.Pairwise Apart)

include apart

omit forward in
theorem eq_of_shared {r r' : Nat × Nat} (mem : r ∈ ranges) (mem' : r' ∈ ranges) {x : Nat}
    (here : r.1 ≤ x ∧ x < r.2) (here' : r'.1 ≤ x ∧ x < r'.2) : r = r' := by
  by_contra ne
  rcases apart.forall mem mem' ne with h | h <;> omega

/-- A run none of the ranges goes on from is the longest. -/
theorem RunEnd.longestRun (h : RunEnd ranges start finish)
    (last : ∀ e, (finish, e) ∉ ranges) : LongestRun ranges start finish where
  run := h
  longest := fun e run => by
    induction run with
    | start => exact h.start_le forward
    | @next mid e earlier mem ih =>
        rcases Nat.lt_or_eq_of_le ih with before | rfl
        · obtain ⟨r, passed, lower, upper, inside⟩ :=
            h.covers forward (earlier.start_le forward) before
          obtain rfl := eq_of_shared apart mem passed
            ⟨Nat.le_refl mid, forward _ mem⟩ ⟨lower, upper⟩
          exact inside
        · exact absurd mem (last e)

end Runs

section Ascending

variable {α : Type} {lo hi : α → Nat} {xs : List α}

/-- Ranges in ascending order are those that end by a number and then those that end past it. -/
theorem partitioned_at (ascending : xs.Pairwise fun a b => hi a ≤ lo b)
    (forward : ∀ a ∈ xs, lo a ≤ hi a) (x : Nat) :
    ∃ front back, xs = front ++ back ∧ (∀ a ∈ front, hi a ≤ x) ∧ ∀ a ∈ back, x < hi a := by
  induction xs with
  | nil => exact ⟨[], [], rfl, nofun, nofun⟩
  | cons a rest ih =>
      obtain ⟨first, ascending⟩ := List.pairwise_cons.mp ascending
      obtain ⟨_, later⟩ := List.forall_mem_cons.mp forward
      by_cases passed : hi a ≤ x
      · obtain ⟨front, back, rfl, early, late⟩ := ih ascending later
        exact ⟨a :: front, back, rfl, List.forall_mem_cons.mpr ⟨passed, early⟩, late⟩
      · refine ⟨[], a :: rest, rfl, nofun, List.forall_mem_cons.mpr ⟨by omega, fun b mem => ?_⟩⟩
        have := first b mem
        have := later b mem
        omega

/-- Only the first range that ends past a number can hold it. -/
theorem holds_iff_first (ascending : xs.Pairwise fun a b => hi a ≤ lo b) {front back : List α}
    {x : Nat} (split : xs = front ++ back) (early : ∀ a ∈ front, hi a ≤ x)
    (late : ∀ a ∈ back, x < hi a) {a : α} :
    xs[front.length]? = some a ∧ lo a ≤ x ↔ a ∈ xs ∧ lo a ≤ x ∧ x < hi a := by
  subst split
  rw [List.getElem?_append_right (Nat.le_refl _), Nat.sub_self]
  constructor
  · rintro ⟨at_, low⟩
    have mem := List.mem_of_getElem? at_
    exact ⟨List.mem_append_right _ mem, low, late a mem⟩
  · rintro ⟨mem, low, high⟩
    refine ⟨?_, low⟩
    rcases List.mem_append.mp mem with old | mem
    · exact absurd (early a old) (Nat.not_le.mpr high)
    · cases back with
      | nil => cases mem
      | cons b rest =>
          rcases List.mem_cons.mp mem with rfl | behind
          · rfl
          · have before := (List.pairwise_cons.mp (List.pairwise_append.mp ascending).2.1).1 a behind
            have := late b List.mem_cons_self
            omega

end Ascending

end Foundation
