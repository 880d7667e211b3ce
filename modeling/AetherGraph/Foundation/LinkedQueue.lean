import Mathlib.Data.List.Induction
import Mathlib.Data.List.Nodup

/-! A doubly linked queue over indices: `prev` leads to the older neighbour, `next` to the newer
one, and `nil` ends both ways. -/

namespace Foundation

variable {ι : Type}

/-- The links through `xs`, between the neighbours `before` and `after`. -/
def Chain (prev next : ι → ι) : ι → List ι → ι → Prop
  | _, [], _ => True
  | before, x :: xs, after =>
      prev x = before ∧ next x = xs.head?.getD after ∧ Chain prev next x xs after

variable {nil before after : ι} {prev next prev' next' : ι → ι} {xs ys : List ι}

theorem chain_append :
    Chain prev next before (xs ++ ys) after ↔
      Chain prev next before xs (ys.head?.getD after) ∧
        Chain prev next (xs.getLast?.getD before) ys after := by
  induction xs generalizing before with
  | nil => simp [Chain]
  | cons x xs ih =>
      have first : (xs ++ ys).head?.getD after = xs.head?.getD (ys.head?.getD after) := by
        cases xs <;> rfl
      have last : (x :: xs).getLast?.getD before = xs.getLast?.getD x := by
        rw [List.getLast?_cons, Option.getD_some]
      rw [List.cons_append, Chain, Chain, ih, first, last]
      tauto

theorem Chain.congr (h : Chain prev next before xs after) (prevs : ∀ x ∈ xs, prev' x = prev x)
    (nexts : ∀ x ∈ xs, next' x = next x) : Chain prev' next' before xs after := by
  induction xs generalizing before with
  | nil => trivial
  | cons x xs ih =>
      obtain ⟨older, newer, rest⟩ := h
      obtain ⟨prevX, prevs⟩ := List.forall_mem_cons.mp prevs
      obtain ⟨nextX, nexts⟩ := List.forall_mem_cons.mp nexts
      exact ⟨prevX.trans older, nextX.trans newer, ih rest prevs nexts⟩

theorem chain_concat {x : ι} :
    Chain prev next before (xs ++ [x]) after ↔
      Chain prev next before xs x ∧ prev x = xs.getLast?.getD before ∧ next x = after := by
  rw [chain_append]
  simp [Chain]

/-- The indices a walk meets until it meets `nil`. -/
def walk [DecidableEq ι] (nil : ι) (step : ι → ι) : Nat → ι → List ι
  | 0, _ => []
  | fuel + 1, x => if x = nil then [] else x :: walk nil step fuel (step x)

theorem walk_nil [DecidableEq ι] (nil : ι) (step : ι → ι) (fuel : Nat) :
    walk nil step fuel nil = [] := by
  cases fuel with
  | zero => rfl
  | succ fuel => exact if_pos rfl

/-- The queue of the indices `xs`, oldest first. -/
structure Linked (nil : ι) (prev next : ι → ι) (tail head : ι) (xs : List ι) : Prop where
  tail : tail = xs.head?.getD nil
  head : head = xs.getLast?.getD nil
  chain : Chain prev next nil xs nil
  nodup : xs.Nodup
  proper : nil ∉ xs

theorem linked_empty (nil : ι) (prev next : ι → ι) : Linked nil prev next nil nil [] :=
  ⟨rfl, rfl, trivial, List.nodup_nil, List.not_mem_nil⟩

variable {tail head : ι}

section Walks

variable [DecidableEq ι]

theorem Chain.forward (h : Chain prev next before xs nil) (proper : nil ∉ xs) {fuel : Nat}
    (enough : xs.length ≤ fuel) : walk nil next fuel (xs.head?.getD nil) = xs := by
  induction xs generalizing before fuel with
  | nil => exact walk_nil nil next fuel
  | cons x xs ih =>
      obtain ⟨-, newer, rest⟩ := h
      obtain ⟨ne, proper⟩ := List.ne_and_not_mem_of_not_mem_cons proper
      obtain ⟨fuel, rfl⟩ : ∃ n, fuel = n + 1 := Nat.exists_eq_succ_of_ne_zero (by
        rw [List.length_cons] at enough
        omega)
      rw [List.head?_cons, Option.getD_some, walk, if_neg (Ne.symm ne), newer,
        ih rest proper (Nat.le_of_succ_le_succ enough)]

theorem Chain.backward (h : Chain prev next nil xs after) (proper : nil ∉ xs) {fuel : Nat}
    (enough : xs.length ≤ fuel) : walk nil prev fuel (xs.getLast?.getD nil) = xs.reverse := by
  induction xs using List.reverseRecOn generalizing after fuel with
  | nil => exact walk_nil nil prev fuel
  | append_singleton xs x ih =>
      obtain ⟨rest, older, -⟩ := chain_concat.mp h
      rw [List.length_append, List.length_singleton] at enough
      obtain ⟨fuel, rfl⟩ : ∃ n, fuel = n + 1 := Nat.exists_eq_succ_of_ne_zero (by omega)
      have ne : x ≠ nil := fun same =>
        proper (List.mem_append_right _ (same ▸ List.mem_singleton_self x))
      rw [List.getLast?_concat, Option.getD_some, walk, if_neg ne, older,
        ih rest (fun mem => proper (List.mem_append_left _ mem)) (Nat.le_of_succ_le_succ enough),
        List.reverse_concat]

/-- From its oldest index on, the queue is met in order. -/
theorem Linked.forward (h : Linked nil prev next tail head xs) {fuel : Nat}
    (enough : xs.length ≤ fuel) : walk nil next fuel tail = xs :=
  h.tail ▸ h.chain.forward h.proper enough

/-- From its newest index back, the queue is met in reverse. -/
theorem Linked.backward (h : Linked nil prev next tail head xs) {fuel : Nat}
    (enough : xs.length ≤ fuel) : walk nil prev fuel head = xs.reverse :=
  h.head ▸ h.chain.backward h.proper enough

end Walks

theorem getLast_mem (ne : xs ≠ []) (nil : ι) : xs.getLast?.getD nil ∈ xs := by
  rw [List.getLast?_eq_getLast_of_ne_nil ne, Option.getD_some]
  exact List.getLast_mem ne

/-- The neighbours of an index. -/
theorem Linked.neighbours {r : ι} (h : Linked nil prev next tail head (xs ++ r :: ys)) :
    prev r = xs.getLast?.getD nil ∧ next r = ys.head?.getD nil :=
  have links := (chain_append.mp h.chain).2
  ⟨links.1, links.2.1⟩

variable [DecidableEq ι]

/-- The last index of a chain hands over to the chain's new end. -/
theorem Chain.handOver (h : Chain prev next nil xs before) (nodup : xs.Nodup)
    (prevs : ∀ x ∈ xs, prev' x = prev x)
    (nexts : ∀ x ∈ xs, next' x = if x = xs.getLast?.getD nil then after else next x) :
    Chain prev' next' nil xs after := by
  induction xs using List.reverseRecOn with
  | nil => trivial
  | append_singleton xs x =>
      obtain ⟨rest, older, -⟩ := chain_concat.mp h
      have last : (xs ++ [x]).getLast?.getD nil = x := by
        rw [List.getLast?_concat, Option.getD_some]
      have mem : x ∈ xs ++ [x] := List.mem_append_right _ (List.mem_singleton_self x)
      refine chain_concat.mpr ⟨rest.congr (fun y hy => prevs y (List.mem_append_left _ hy))
        (fun y hy => ?_), (prevs x mem).trans older, ?_⟩
      · have ne : y ≠ x := (List.nodup_append.mp nodup).2.2 y hy x (List.mem_singleton_self x)
        rw [nexts y (List.mem_append_left _ hy), last, if_neg ne]
      · rw [nexts x mem, last, if_pos rfl]

/-- Splicing `r` in as the newest index. -/
theorem Linked.push (h : Linked nil prev next tail head xs) {r : ι} (new : r ∉ xs)
    (proper : r ≠ nil) (prevR : prev' r = head) (nextR : next' r = nil)
    (prevs : ∀ x ∈ xs, prev' x = prev x)
    (nexts : ∀ x ∈ xs, next' x = if x = head then r else next x) :
    Linked nil prev' next' (if head = nil then r else tail) r (xs ++ [r]) := by
  refine ⟨?_, ?_, chain_concat.mpr ⟨h.chain.handOver h.nodup prevs (h.head ▸ nexts),
    prevR.trans h.head, nextR⟩, ?_, ?_⟩
  · cases xs with
    | nil => exact if_pos h.head
    | cons x xs =>
        have last : head ∈ x :: xs := h.head ▸ getLast_mem (List.cons_ne_nil x xs) nil
        have ne : head ≠ nil := fun same => h.proper (same ▸ last)
        rw [if_neg ne, h.tail]
        rfl
  · rw [List.getLast?_concat, Option.getD_some]
  · exact List.nodup_append.mpr ⟨h.nodup, List.nodup_singleton r, fun x hx y hy same =>
      new (List.mem_singleton.mp hy ▸ same ▸ hx)⟩
  · exact fun mem => (List.mem_append.mp mem).elim h.proper fun here =>
      proper (List.mem_singleton.mp here).symm

/-- Removing `r` and mending the links of its neighbours. -/
theorem Linked.unlink {r : ι} (h : Linked nil prev next tail head (xs ++ r :: ys))
    (prevs : ∀ x ∈ xs ++ ys, prev' x = if x = next r then prev r else prev x)
    (nexts : ∀ x ∈ xs ++ ys, next' x = if x = prev r then next r else next x) :
    Linked nil prev' next' (if prev r = nil then next r else tail)
      (if next r = nil then prev r else head) (xs ++ ys) := by
  obtain ⟨older, newer⟩ := h.neighbours
  obtain ⟨before, -, -, after⟩ := chain_append.mp h.chain
  have sub : xs ++ ys ⊆ xs ++ r :: ys := fun x hx => by
    simp only [List.mem_append, List.mem_cons] at hx ⊢
    tauto
  have nodup : (xs ++ ys).Nodup :=
    h.nodup.sublist (List.Sublist.append_left (List.sublist_cons_self r ys) xs)
  have proper : nil ∉ xs ++ ys := fun mem => h.proper (sub mem)
  have apart := (List.nodup_append.mp nodup).2.2
  have notNext : ∀ x ∈ xs, x ≠ next r := by
    intro x hx same
    cases ys with
    | nil =>
        have ends : next r = nil := newer
        exact proper (List.mem_append_left _ (ends ▸ same ▸ hx))
    | cons y ys => exact apart x hx y List.mem_cons_self (same.trans newer)
  have notPrev : ∀ y ∈ ys, y ≠ prev r := by
    intro y hy same
    rcases eq_or_ne xs [] with rfl | ne
    · have ends : prev r = nil := older
      exact proper (ends ▸ same ▸ hy)
    · exact apart _ (getLast_mem ne nil) y hy (older ▸ same.symm)
  refine ⟨?_, ?_, chain_append.mpr ⟨?_, ?_⟩, nodup, proper⟩
  · cases xs with
    | nil =>
        have ends : prev r = nil := older
        rw [if_pos ends, newer]
        rfl
    | cons x xs =>
        have ne : prev r ≠ nil := fun same => proper (List.mem_append_left _
          (same ▸ older ▸ getLast_mem (List.cons_ne_nil x xs) nil))
        rw [if_neg ne, h.tail]
        rfl
  · cases ys with
    | nil =>
        have ends : next r = nil := newer
        rw [if_pos ends, older, List.append_nil]
    | cons y ys =>
        have ne : next r ≠ nil := fun same => proper (List.mem_append_right _
          (same ▸ newer ▸ List.mem_cons_self))
        rw [if_neg ne, h.head, List.getLast?_append, List.getLast?_append, List.getLast?_cons_cons]
  · refine before.handOver (List.nodup_append.mp nodup).1 (fun x hx => ?_) (fun x hx => ?_)
    · rw [prevs x (List.mem_append_left _ hx), if_neg (notNext x hx)]
    · rw [nexts x (List.mem_append_left _ hx), older, newer]
  · cases ys with
    | nil => trivial
    | cons y ys =>
        obtain ⟨-, newerY, rest⟩ := after
        have first : next r = y := newer
        have here : y ∈ xs ++ y :: ys := List.mem_append_right _ List.mem_cons_self
        have distinct := (List.nodup_cons.mp (List.nodup_append.mp nodup).2.1).1
        refine ⟨?_, ?_, rest.congr (fun x hx => ?_) (fun x hx => ?_)⟩
        · rw [prevs y here, if_pos first.symm, older]
        · rw [nexts y here, if_neg (notPrev y List.mem_cons_self), newerY]
        · have ne : x ≠ next r := fun same => distinct (first ▸ same ▸ hx)
          rw [prevs x (List.mem_append_right _ (List.mem_cons_of_mem y hx)), if_neg ne]
        · rw [nexts x (List.mem_append_right _ (List.mem_cons_of_mem y hx)),
            if_neg (notPrev x (List.mem_cons_of_mem y hx))]

end Foundation
