import Mathlib.Data.List.Nodup
import AetherGraph.SlotFreeList

/-! The free list under calls made one at a time with any indices at all, and what a release that
is rejected leaves behind. -/

namespace AetherGraph

open SlotPool (Linked)

namespace FreeList

def write (l : FreeList) (i value : Nat) : FreeList :=
  { l with next := Function.update l.next i value }

/-- A successful compare-exchange of the head. -/
def exchange (l : FreeList) (index : Nat) : FreeList :=
  { l with head := index, tag := (l.tag + 1) % 2 ^ 32 }

def acquire (l : FreeList) : Option Nat × FreeList :=
  if l.head = freeListEmpty ∨ l.slotCount ≤ l.head then (none, l)
  else (some l.head, (l.exchange (l.next l.head)).write l.head freeListLeased)

/-- One turn of the loop in `release_many`, on the list and the chain's first and last slot; the
error is a panic with the list it leaves.  `debug` has debug assertions on. -/
def linkOne (debug : Bool) (st : FreeList × Option (Nat × Nat)) (index : Nat) :
    Except FreeList (FreeList × Option (Nat × Nat)) :=
  if st.1.slotCount ≤ index then if debug then .error st.1 else .ok st
  else
    let observed := st.1.next index
    let l := st.1.write index freeListEmpty
    if observed ≠ freeListLeased then .error l
    else
      match st.2 with
      | some (first, prev) => .ok (l.write prev index, some (first, index))
      | none => .ok (l, some (index, index))

/-- The chain's last slot takes the head for its next, and its first becomes the head. -/
def splice (st : FreeList × Option (Nat × Nat)) : FreeList :=
  match st.2 with
  | none => st.1
  | some (first, last) => (st.1.write last st.1.head).exchange first

def releaseMany (debug : Bool) (l : FreeList) (indices : List Nat) : Except FreeList FreeList :=
  (indices.foldlM (linkOne debug) (l, none)).map splice

def release (debug : Bool) (l : FreeList) (index : Nat) : Except FreeList FreeList :=
  l.releaseMany debug [index]

/-- The lists after any interleaving of threads that release what they hold, and after further
calls, rejected ones too. -/
inductive Reached (n : Nat) : FreeList → Prop where
  | run {p : SlotPool} : SlotPool.Reachable n p → Reached n p.list
  | acquire {l : FreeList} : Reached n l → Reached n l.acquire.2
  | released {l l' : FreeList} {debug : Bool} {indices : List Nat} :
      Reached n l → l.releaseMany debug indices = .ok l' → Reached n l'
  | rejected {l l' : FreeList} {debug : Bool} {indices : List Nat} :
      Reached n l → l.releaseMany debug indices = .error l' → Reached n l'

/-- The free indices, from the head on. -/
structure Stack (l : FreeList) (stack : List Nat) : Prop where
  linked : Linked l.next l.head stack
  inRange : ∀ i ∈ stack, i < l.slotCount

/-- `l'` has the free indices of `l`, behind the same links, and its leases. -/
structure Unchanged (l l' : FreeList) (indices : List Nat) : Prop where
  stack : ∀ stack, l'.Stack stack ↔ l.Stack stack
  links : ∀ stack, l.Stack stack → ∀ i ∈ stack, l'.next i = l.next i
  leases : ∀ i < l.slotCount, l'.next i = freeListLeased ↔ l.next i = freeListLeased
  placed : ∀ i ∈ indices, (l.next i = freeListLeased ∨ ∃ stack, l.Stack stack ∧ i ∈ stack) →
    l'.next i = freeListLeased ∨ ∃ stack, l'.Stack stack ∧ i ∈ stack

/-- The first index the call looks at is the one it rejects, and no free index is behind it. -/
def Harmless (debug : Bool) (l : FreeList) (indices : List Nat) : Prop :=
  ∃ index, indices.find? (fun i => debug || decide (i < l.slotCount)) = some index ∧
    (l.slotCount ≤ index ∨
      l.next index ≠ freeListLeased ∧ ∀ stack, l.Stack stack → index ∉ stack.dropLast)

section Cells

variable {l : FreeList} {n : Nat}

@[simp] theorem write_next_self (l : FreeList) (i value : Nat) : (l.write i value).next i = value :=
  Function.update_self ..

theorem write_next_ne (l : FreeList) {i j : Nat} (other : j ≠ i) (value : Nat) :
    (l.write i value).next j = l.next j := Function.update_of_ne other ..

theorem write_next_off (l : FreeList) {i : Nat} {others : List Nat} (off : i ∉ others) (value : Nat) :
    ∀ j ∈ others, (l.write i value).next j = l.next j := fun j hj =>
  l.write_next_ne (fun same : j = i => off (same ▸ hj)) value

/-- Every list has at most one stack. -/
theorem Stack.unique (small : l.slotCount ≤ freeListLeased) {xs ys : List Nat} (hx : l.Stack xs)
    (hy : l.Stack ys) : xs = ys := by
  have from_ : ∀ {head} {xs ys : List Nat}, Linked l.next head xs → Linked l.next head ys →
      (∀ i ∈ xs, i < l.slotCount) → (∀ i ∈ ys, i < l.slotCount) → xs = ys := by
    have proper : ∀ {i}, i < l.slotCount → i ≠ freeListEmpty := fun inside same => by
      unfold freeListLeased at small
      unfold freeListEmpty at same
      omega
    intro head xs
    induction xs generalizing head with
    | nil =>
        intro ys hx hy _ insideY
        cases ys with
        | nil => rfl
        | cons y ys => exact absurd (hy.1.symm.trans hx) (proper (insideY y List.mem_cons_self))
    | cons x xs ih =>
        intro ys hx hy insideX insideY
        cases ys with
        | nil => exact absurd (hx.1.symm.trans hy) (proper (insideX x List.mem_cons_self))
        | cons y ys =>
            obtain rfl : x = y := hx.1.symm.trans hy.1
            exact congrArg (x :: ·) (ih hx.2 hy.2 (fun i hi => insideX i (List.mem_cons_of_mem _ hi))
              fun i hi => insideY i (List.mem_cons_of_mem _ hi))
  exact from_ hx.linked hy.linked hx.inRange hy.inRange

/-- The cell of a free index leads to the next free one, or ends the list. -/
theorem linked_next {next : Nat → Nat} {head i : Nat} {before after : List Nat}
    (linked : Linked next head (before ++ i :: after)) : Linked next (next i) after := by
  induction before generalizing head with
  | nil => exact linked.2
  | cons j before ih => exact ih linked.2

theorem Stack.next_ne_leased (small : l.slotCount ≤ freeListLeased) {stack : List Nat}
    (h : l.Stack stack) {i : Nat} (mem : i ∈ stack) : l.next i ≠ freeListLeased := by
  obtain ⟨before, after, rfl⟩ := List.append_of_mem mem
  have linked := linked_next h.linked
  cases after with
  | nil =>
      rw [show l.next i = freeListEmpty from linked]
      decide
  | cons j after =>
      have inside := h.inRange j (List.mem_append_right _ (List.mem_cons_of_mem _ List.mem_cons_self))
      rw [linked.1]
      exact Nat.ne_of_lt (Nat.lt_of_lt_of_le inside small)

/-- A list in use: one stack of distinct indices. -/
structure Sound (n : Nat) (l : FreeList) : Prop where
  slotCount : l.slotCount = n
  small : n ≤ freeListLeased
  stack : ∃ stack, l.Stack stack ∧ stack.Nodup

theorem sound_of_inv {p : SlotPool} (h : SlotPool.Inv n p) : Sound n p.list := by
  obtain ⟨stack, linked, perm⟩ := h.stack
  have nodup := perm.nodup_iff.mpr List.nodup_range
  refine ⟨h.slotCount, h.small, stack, ⟨linked, fun i hi => ?_⟩, (List.nodup_append.mp nodup).1⟩
  rw [h.slotCount]
  exact List.mem_range.mp (perm.mem_iff.mp (List.mem_append_left _ hi))

theorem Sound.acquire (h : Sound n l) : Sound n l.acquire.2 := by
  obtain ⟨stack, at_stack, nodup⟩ := h.stack
  unfold FreeList.acquire
  split
  · exact h
  · rename_i proper
    obtain ⟨some_, -⟩ := not_or.mp proper
    have linked := at_stack.linked
    cases stack with
    | nil => exact absurd linked some_
    | cons top stack =>
        obtain ⟨new, nodup⟩ := List.nodup_cons.mp nodup
        obtain ⟨same, linked⟩ := linked
        rw [same]
        refine ⟨h.slotCount, h.small, stack, ⟨?_, fun i hi => ?_⟩, nodup⟩
        · exact Linked.congr linked (write_next_off _ new _)
        · exact at_stack.inRange i (List.mem_cons_of_mem _ hi)

end Cells

section Loop

variable {n : Nat} {debug : Bool} {l₀ : FreeList} {stack : List Nat}

/-- The slots of `chain` are linked behind one another, off the stack. -/
structure Linking (l₀ : FreeList) (stack chain : List Nat) (st : FreeList × Option (Nat × Nat)) :
    Prop where
  head : st.1.head = l₀.head
  slotCount : st.1.slotCount = l₀.slotCount
  cells : ∀ i ∈ stack, st.1.next i = l₀.next i
  ends : st.2 = chain.head?.bind fun first => chain.getLast?.map fun last => (first, last)
  inRange : ∀ i ∈ chain, i < l₀.slotCount
  nodup : chain.Nodup
  apart : ∀ i ∈ chain, i ∉ stack
  linked : chain.IsChain fun i j => st.1.next i = j
  marks : ∀ i ∈ chain, st.1.next i ≠ freeListLeased

theorem linking_nil : Linking l₀ stack [] (l₀, none) where
  head := rfl
  slotCount := rfl
  cells := fun _ _ => rfl
  ends := rfl
  inRange := fun _ mem => absurd mem List.not_mem_nil
  nodup := List.nodup_nil
  apart := fun _ mem => absurd mem List.not_mem_nil
  linked := List.isChain_nil
  marks := fun _ mem => absurd mem List.not_mem_nil

theorem Linking.stack_same {chain : List Nat} {st : FreeList × Option (Nat × Nat)}
    (h : Linking l₀ stack chain st) (at_stack : l₀.Stack stack) : st.1.Stack stack where
  linked := h.head.symm ▸ at_stack.linked.congr h.cells
  inRange := h.slotCount.symm ▸ at_stack.inRange

/-- A leased slot goes behind the chain. -/
theorem Linking.join {chain : List Nat} {st : FreeList × Option (Nat × Nat)}
    (h : Linking l₀ stack chain st) (debug : Bool) (at_stack : l₀.Stack stack)
    (small : l₀.slotCount ≤ freeListLeased) {index : Nat} (inside : index < l₀.slotCount)
    (leased : st.1.next index = freeListLeased) :
    ∃ st', linkOne debug st index = .ok st' ∧ Linking l₀ stack (chain ++ [index]) st' := by
  have off : index ∉ stack := fun mem =>
    at_stack.next_ne_leased small mem ((h.cells index mem).symm.trans leased)
  have new : index ∉ chain := fun mem => h.marks index mem leased
  have inRange : ∀ i ∈ chain ++ [index], i < l₀.slotCount :=
    List.forall_mem_append.mpr ⟨h.inRange, List.forall_mem_singleton.mpr inside⟩
  have nodup : (chain ++ [index]).Nodup :=
    List.nodup_append.mpr ⟨h.nodup, List.nodup_singleton _, fun a ha b hb same =>
      new (List.mem_singleton.mp hb ▸ same ▸ ha)⟩
  have apart : ∀ i ∈ chain ++ [index], i ∉ stack :=
    List.forall_mem_append.mpr ⟨h.apart, List.forall_mem_singleton.mpr off⟩
  have closed : freeListEmpty ≠ freeListLeased := by decide
  have swapped : linkOne debug st index = match st.2 with
      | some (first, prev) =>
          .ok ((st.1.write index freeListEmpty).write prev index, some (first, index))
      | none => .ok (st.1.write index freeListEmpty, some (index, index)) := by
    unfold linkOne
    rw [if_neg (Nat.not_le_of_lt (h.slotCount ▸ inside))]
    dsimp only
    rw [if_neg (not_not_intro leased)]
  rcases List.eq_nil_or_concat chain with rfl | ⟨front, prev, rfl⟩
  · have none_ : st.2 = none := h.ends
    rw [swapped, none_]
    refine ⟨_, rfl, { head := h.head, slotCount := h.slotCount, cells := ?_, ends := rfl
                      inRange := inRange, nodup := nodup, apart := apart
                      linked := List.isChain_singleton _, marks := ?_ }⟩
    · intro i hi
      exact (write_next_off _ off _ i hi).trans (h.cells i hi)
    · intro i hi
      obtain rfl := List.mem_singleton.mp hi
      exact (write_next_self ..).trans_ne closed
  · rw [List.concat_eq_append] at *
    obtain ⟨first, at_first⟩ : ∃ first, (front ++ [prev]).head? = some first := by
      cases front with
      | nil => exact ⟨prev, rfl⟩
      | cons first front => exact ⟨first, rfl⟩
    have ends : st.2 = some (first, prev) := by
      rw [h.ends, at_first, List.getLast?_concat]
      rfl
    have last : prev ∈ front ++ [prev] := List.mem_append_right _ List.mem_cons_self
    have other : prev ≠ index := fun same => new (same ▸ last)
    rw [swapped, ends]
    refine ⟨_, rfl, { head := h.head, slotCount := h.slotCount, cells := ?_, ends := ?_
                      inRange := inRange, nodup := nodup, apart := apart
                      linked := ?_, marks := ?_ }⟩
    · intro i hi
      refine (write_next_off _ (h.apart prev last) _ i hi).trans ?_
      exact (write_next_off _ off _ i hi).trans (h.cells i hi)
    · rw [List.head?_append, at_first, List.getLast?_concat]
      rfl
    · have kept : (front ++ [prev]).IsChain fun i j =>
          (st.1.write index freeListEmpty).next i = j :=
        SlotPool.isChain_congr h.linked (write_next_off _ new _)
      rw [List.append_assoc]
      exact SlotPool.isChain_join kept h.nodup
    · refine List.forall_mem_append.mpr ⟨fun i hi => ?_, List.forall_mem_singleton.mpr ?_⟩
      · by_cases same : i = prev
        · rw [same]
          exact (write_next_self ..).trans_ne (Nat.ne_of_lt (Nat.lt_of_lt_of_le inside small))
        · rw [write_next_ne _ same, write_next_ne _ fun eq : i = index => new (eq ▸ hi)]
          exact h.marks i hi
      · rw [write_next_ne _ other.symm]
        exact (write_next_self ..).trans_ne closed

/-- How the loop ends: with a longer chain, or rejecting an index behind one. -/
inductive LoopEnd (l₀ : FreeList) (stack chain : List Nat) :
    Except FreeList (FreeList × Option (Nat × Nat)) → Prop where
  | linked {more : List Nat} {st : FreeList × Option (Nat × Nat)} :
      Linking l₀ stack (chain ++ more) st → LoopEnd l₀ stack chain (.ok st)
  | outOfRange {more : List Nat} {st : FreeList × Option (Nat × Nat)} :
      Linking l₀ stack (chain ++ more) st → LoopEnd l₀ stack chain (.error st.1)
  | notLeased {more : List Nat} {st : FreeList × Option (Nat × Nat)} {index : Nat} :
      Linking l₀ stack (chain ++ more) st → index < l₀.slotCount →
      LoopEnd l₀ stack chain (.error (st.1.write index freeListEmpty))

theorem LoopEnd.behind {chain : List Nat} {index : Nat}
    {out : Except FreeList (FreeList × Option (Nat × Nat))}
    (h : LoopEnd l₀ stack (chain ++ [index]) out) : LoopEnd l₀ stack chain out := by
  cases h with
  | linked linking => exact .linked (List.append_assoc .. ▸ linking)
  | outOfRange linking => exact .outOfRange (List.append_assoc .. ▸ linking)
  | notLeased linking inside => exact .notLeased (List.append_assoc .. ▸ linking) inside

theorem linkOne_outside {st : FreeList × Option (Nat × Nat)} {index : Nat}
    (outside : st.1.slotCount ≤ index) :
    linkOne debug st index = if debug then .error st.1 else .ok st := if_pos outside

theorem linkOne_rejects {st : FreeList × Option (Nat × Nat)} {index : Nat}
    (inside : index < st.1.slotCount) (free : st.1.next index ≠ freeListLeased) :
    linkOne debug st index = .error (st.1.write index freeListEmpty) := by
  unfold linkOne
  rw [if_neg (Nat.not_le_of_lt inside)]
  exact if_pos free

theorem Linking.loop {chain : List Nat} {st : FreeList × Option (Nat × Nat)}
    (h : Linking l₀ stack chain st) (debug : Bool) (at_stack : l₀.Stack stack)
    (small : l₀.slotCount ≤ freeListLeased) (indices : List Nat) :
    LoopEnd l₀ stack chain (indices.foldlM (linkOne debug) st) := by
  have here : Linking l₀ stack (chain ++ []) st := (List.append_nil chain).symm ▸ h
  induction indices generalizing chain st with
  | nil => exact .linked here
  | cons index indices ih =>
      rw [List.foldlM_cons]
      rcases Nat.lt_or_ge index l₀.slotCount with inside | outside
      · by_cases leased : st.1.next index = freeListLeased
        · obtain ⟨st', step, next⟩ :
              ∃ st', linkOne debug st index = .ok st' ∧ Linking l₀ stack (chain ++ [index]) st' :=
            h.join debug at_stack small inside leased
          rw [step]
          exact (ih next ((List.append_nil _).symm ▸ next)).behind
        · rw [linkOne_rejects (h.slotCount.symm ▸ inside) leased]
          exact .notLeased here inside
      · rw [linkOne_outside (h.slotCount.symm ▸ outside)]
        cases debug with
        | true => exact .outOfRange here
        | false => exact ih h here

end Loop

section Calls

variable {n : Nat} {l l' : FreeList} {debug : Bool} {indices : List Nat}

/-- The chain goes on top of the stack. -/
theorem Linking.splice {stack chain : List Nat} {st : FreeList × Option (Nat × Nat)}
    (h : Linking l stack chain st) (at_stack : l.Stack stack) :
    (FreeList.splice st).slotCount = l.slotCount ∧ (FreeList.splice st).Stack (chain ++ stack) := by
  have below := h.stack_same at_stack
  unfold FreeList.splice
  rcases List.eq_nil_or_concat chain with rfl | ⟨front, last, rfl⟩
  · rw [show st.2 = none from h.ends]
    exact ⟨h.slotCount, below⟩
  · rw [List.concat_eq_append] at *
    obtain ⟨first, chain, eq⟩ : ∃ first chain, front ++ [last] = first :: chain :=
      List.exists_cons_of_ne_nil (by simp)
    have ends : st.2 = some (first, last) := by
      rw [h.ends, List.getLast?_concat, eq]
      rfl
    have mem : last ∈ front ++ [last] := List.mem_append_right _ List.mem_cons_self
    rw [ends]
    refine ⟨h.slotCount, ?_, ?_⟩
    · have tied : (front ++ [last]).IsChain
          fun i j => Function.update st.1.next last st.1.head i = j :=
        SlotPool.isChain_tie h.linked h.nodup
      have low : Linked (Function.update st.1.next last st.1.head) st.1.head stack :=
        below.linked.congr (write_next_off _ (h.apart last mem) _)
      show Linked (Function.update st.1.next last st.1.head) first (front ++ [last] ++ stack)
      rw [eq] at tied ⊢
      refine low.splice tied ?_
      have at_last : (first :: chain).getLast (List.cons_ne_nil _ _) = last := by
        simp only [← eq, List.getLast_append_singleton]
      rw [at_last]
      exact Function.update_self ..
    · show ∀ i ∈ front ++ [last] ++ stack, i < st.1.slotCount
      rw [h.slotCount]
      exact List.forall_mem_append.mpr ⟨h.inRange, at_stack.inRange⟩

/-- Ending the list at a free index leaves the indices before it. -/
theorem linked_cut {next : Nat → Nat} {head i : Nat} {before after : List Nat}
    (linked : Linked next head (before ++ i :: after)) (new : i ∉ before) :
    Linked (Function.update next i freeListEmpty) head (before ++ [i]) := by
  induction before generalizing head with
  | nil => exact ⟨linked.1, Function.update_self ..⟩
  | cons j before ih =>
      have other : j ≠ i := fun same => new (same ▸ List.mem_cons_self)
      refine ⟨linked.1, ?_⟩
      rw [Function.update_of_ne other]
      exact ih linked.2 fun mem => new (List.mem_cons_of_mem _ mem)

theorem Sound.ended (h : Sound n l) (debug : Bool) (indices : List Nat) : ∃ stack, l.Stack stack ∧ stack.Nodup ∧
    LoopEnd l stack [] (indices.foldlM (linkOne debug) (l, none)) := by
  obtain ⟨stack, at_stack, nodup⟩ := h.stack
  exact ⟨stack, at_stack, nodup,
    linking_nil.loop debug at_stack (h.slotCount.symm ▸ h.small) indices⟩

theorem Sound.released (h : Sound n l) (released : l.releaseMany debug indices = .ok l') :
    Sound n l' := by
  obtain ⟨stack, at_stack, nodup, ends⟩ := h.ended debug indices
  unfold releaseMany at released
  generalize indices.foldlM (linkOne debug) (l, none) = out at ends released
  cases ends with
  | outOfRange linking => cases released
  | notLeased linking inside => cases released
  | linked linking =>
      cases released
      obtain ⟨slotCount, spliced⟩ := linking.splice at_stack
      refine ⟨slotCount.trans h.slotCount, h.small, _, spliced, ?_⟩
      exact List.nodup_append.mpr ⟨linking.nodup, nodup, fun a ha b hb same =>
        linking.apart a ha (same ▸ hb)⟩

theorem Sound.rejected (h : Sound n l) (rejected : l.releaseMany debug indices = .error l') :
    Sound n l' := by
  obtain ⟨stack, at_stack, nodup, ends⟩ := h.ended debug indices
  unfold releaseMany at rejected
  generalize indices.foldlM (linkOne debug) (l, none) = out at ends rejected
  cases ends with
  | linked linking => cases rejected
  | outOfRange linking =>
      cases rejected
      exact ⟨linking.slotCount.trans h.slotCount, h.small, stack, linking.stack_same at_stack, nodup⟩
  | @notLeased more st index linking inside =>
      cases rejected
      have same := linking.stack_same at_stack
      refine ⟨linking.slotCount.trans h.slotCount, h.small, ?_⟩
      by_cases mem : index ∈ stack
      · obtain ⟨before, after, rfl⟩ := List.append_of_mem mem
        have inside : ∀ i ∈ before ++ [index], i ∈ before ++ index :: after := fun i hi =>
          (List.mem_append.mp hi).elim (List.mem_append_left _) fun one =>
            List.mem_append_right _ (List.mem_singleton.mp one ▸ List.mem_cons_self)
        have apart := (List.nodup_append.mp nodup).2.2
        have new : index ∉ before := fun early => apart index early index List.mem_cons_self rfl
        refine ⟨before ++ [index], ⟨linked_cut same.linked new, fun i hi =>
          same.inRange i (inside i hi)⟩, List.nodup_append.mpr ⟨(List.nodup_append.mp nodup).1,
          List.nodup_singleton _, fun a ha b hb eq => ?_⟩⟩
        exact new (List.mem_singleton.mp hb ▸ eq ▸ ha)
      · exact ⟨stack, ⟨same.linked.congr (write_next_off _ mem _), same.inRange⟩, nodup⟩

theorem Reached.sound (h : Reached n l) : Sound n l := by
  induction h with
  | run reachable => exact sound_of_inv reachable.inv
  | acquire _ ih => exact ih.acquire
  | released _ released ih => exact ih.released released
  | rejected _ rejected ih => exact ih.rejected rejected

/-- Indices that the loop skips. -/
theorem foldlM_skip {before : List Nat} (after : List Nat) (st : FreeList × Option (Nat × Nat))
    (skipped : ∀ i ∈ before, (debug || decide (i < st.1.slotCount)) = false) :
    (before ++ after).foldlM (linkOne debug) st = after.foldlM (linkOne debug) st := by
  induction before with
  | nil => rfl
  | cons i before ih =>
      obtain ⟨here, skipped⟩ := List.forall_mem_cons.mp skipped
      obtain ⟨rfl, outside⟩ := Bool.or_eq_false_iff.mp here
      have step : linkOne false st i = .ok st :=
        linkOne_outside (Nat.le_of_not_lt (of_decide_eq_false outside))
      rw [List.cons_append, List.foldlM_cons, step]
      exact ih skipped

/-- A call that rejects the first index it looks at leaves the list but for that index's cell. -/
theorem unchanged_write_iff (h : Sound n l) {index : Nat} (indices : List Nat)
    (free : l.next index ≠ freeListLeased) :
    Unchanged l (l.write index freeListEmpty) indices ↔
      ∀ stack, l.Stack stack → index ∉ stack.dropLast := by
  have small : l.slotCount ≤ freeListLeased := h.slotCount.symm ▸ h.small
  obtain ⟨stack, at_stack, nodup⟩ := h.stack
  constructor
  · intro same other at_other mem
    obtain rfl := Stack.unique small at_stack at_other
    obtain ⟨before, after, split⟩ := List.append_of_mem mem
    have ne : stack ≠ [] := fun none_ => by
      rw [none_] at mem
      exact absurd mem List.not_mem_nil
    have whole : stack = before ++ index :: (after ++ [stack.getLast ne]) := by
      rw [← List.cons_append, ← List.append_assoc, ← split, List.dropLast_append_getLast]
    have here : index ∈ stack := List.dropLast_subset _ mem
    have cell : l.next index = freeListEmpty :=
      (same.links stack at_stack index here).symm.trans (write_next_self ..)
    have linked := at_stack.linked
    rw [whole] at linked
    obtain ⟨next, rest, behind⟩ := List.exists_cons_of_ne_nil
      (show after ++ [stack.getLast ne] ≠ [] by simp)
    have after_ := linked_next linked
    rw [behind] at after_
    have inside : next < l.slotCount := at_stack.inRange next (by
      rw [whole, behind]
      simp)
    have := after_.1.symm.trans cell
    unfold freeListLeased at small
    unfold freeListEmpty at this
    omega
  · intro bottom
    -- a cell of the stack that is written holds the end mark already
    have cells : ∀ i ∈ stack, (l.write index freeListEmpty).next i = l.next i := by
      intro i hi
      by_cases same : i = index
      · subst same
        obtain ⟨before, after, rfl⟩ := List.append_of_mem hi
        have last : after = [] := by
          by_contra more
          refine bottom _ at_stack ?_
          rw [List.dropLast_append_of_ne_nil (List.cons_ne_nil _ _), List.dropLast_cons_of_ne_nil more]
          exact List.mem_append_right _ List.mem_cons_self
        subst last
        exact (write_next_self ..).trans (linked_next at_stack.linked).symm
      · exact write_next_ne _ same _
    have still : (l.write index freeListEmpty).Stack stack :=
      ⟨at_stack.linked.congr cells, at_stack.inRange⟩
    have leases : ∀ i, (l.write index freeListEmpty).next i = freeListLeased ↔
        l.next i = freeListLeased := by
      intro i
      by_cases same : i = index
      · subst same
        rw [write_next_self]
        exact ⟨fun no => absurd no (by decide), fun no => absurd no free⟩
      · rw [write_next_ne _ same]
    refine ⟨fun other => ⟨fun at_other => ?_, fun at_other => ?_⟩, fun other at_other => ?_,
      fun i _ => leases i, fun i _ => Or.imp (leases i).mpr fun ⟨_, at_other, mem⟩ => ?_⟩
    · exact Stack.unique (show (l.write index freeListEmpty).slotCount ≤ _ from small) still at_other ▸
        at_stack
    · exact Stack.unique small at_stack at_other ▸ still
    · exact Stack.unique small at_stack at_other ▸ cells
    · exact ⟨stack, still, Stack.unique small at_other at_stack ▸ mem⟩

/-- A rejected release leaves the stack and the leases alone exactly when it rejects the first index
it looks at, and that index has no free index behind it. -/
theorem rejected_unchanged_iff (reached : Reached n l)
    (rejected : l.releaseMany debug indices = .error l') :
    Unchanged l l' indices ↔ Harmless debug l indices := by
  have sound := reached.sound
  have small : l.slotCount ≤ freeListLeased := sound.slotCount.symm ▸ sound.small
  unfold releaseMany at rejected
  unfold Harmless
  cases found : indices.find? fun i => debug || decide (i < l.slotCount) with
  | none =>
      have skipped : ∀ i ∈ indices, (debug || decide (i < l.slotCount)) = false := fun i hi =>
        eq_false_of_ne_true (List.find?_eq_none.mp found i hi)
      have ran := foldlM_skip [] (l, none) skipped
      rw [List.append_nil] at ran
      rw [ran] at rejected
      cases rejected
  | some index =>
      obtain ⟨looked, before, after, rfl, skipped⟩ := List.find?_eq_some_iff_append.mp found
      rw [foldlM_skip _ (l, none) fun i hi => eq_false_of_ne_true (by simpa using skipped i hi),
        List.foldlM_cons] at rejected
      simp only [Option.some.injEq, exists_eq_left']
      rcases Nat.lt_or_ge index l.slotCount with inside | outside
      · by_cases leased : l.next index = freeListLeased
        · -- the index lost its lease and the call never came to the splice
          obtain ⟨stack, at_stack, nodup⟩ := sound.stack
          obtain ⟨st, step, linking⟩ := linking_nil.join debug at_stack small inside leased
          rw [step] at rejected
          have ends := linking.loop debug at_stack small after
          have lost : l'.next index ≠ freeListLeased := by
            change (after.foldlM (linkOne debug) st).map splice = .error l' at rejected
            generalize after.foldlM (linkOne debug) st = out at ends rejected
            cases ends with
            | linked linking => cases rejected
            | outOfRange linking =>
                cases rejected
                exact linking.marks index List.mem_cons_self
            | @notLeased more st other linking inside =>
                cases rejected
                by_cases same : index = other
                · rw [same]
                  exact (write_next_self ..).trans_ne (by decide)
                · rw [write_next_ne _ same]
                  exact linking.marks index List.mem_cons_self
          refine ⟨fun same => absurd ((same.leases index inside).mpr leased) lost, fun harmless => ?_⟩
          rcases harmless with out | ⟨no, -⟩
          · exact absurd inside (Nat.not_lt_of_le out)
          · exact absurd leased no
        · rw [linkOne_rejects inside leased] at rejected
          cases rejected
          refine (unchanged_write_iff sound _ leased).trans ⟨fun bottom => .inr ⟨leased, bottom⟩, ?_⟩
          rintro (out | ⟨-, bottom⟩)
          · exact absurd inside (Nat.not_lt_of_le out)
          · exact bottom
      · have checked : debug = true := by
          simpa [Nat.not_lt_of_le outside] using looked
        rw [linkOne_outside outside, if_pos checked] at rejected
        cases rejected
        exact ⟨fun _ => .inl outside, fun _ => ⟨fun _ => Iff.rfl, fun _ _ _ _ => rfl, fun _ _ => Iff.rfl,
          fun _ _ => id⟩⟩

end Calls

/-- Two slots, both free. -/
def twoFree : FreeList := ⟨0, 0, fun i => if i + 1 < 2 then i + 1 else freeListEmpty, 2⟩

theorem reached_twoFree : Reached 2 twoFree :=
  .run (p := ⟨twoFree, 0, []⟩) ⟨twoFree, rfl, .refl⟩

theorem rejected_unchanged_bottom : ∃ l', twoFree.release true 1 = .error l' ∧
    (Unchanged twoFree l' [1] ↔ Harmless true twoFree [1]) :=
  ⟨_, rfl, rejected_unchanged_iff reached_twoFree rfl⟩

/-- A release of the free slot on top cuts the other one off. -/
theorem rejected_release_cuts : ∃ l', Reached 2 twoFree ∧ twoFree.release true 0 = .error l' ∧
    ¬ Unchanged twoFree l' [0] := by
  refine ⟨_, reached_twoFree, rfl, fun same => ?_⟩
  have both : twoFree.Stack [0, 1] :=
    ⟨⟨rfl, rfl, rfl⟩, fun i hi => by
      rcases List.mem_cons.mp hi with rfl | hi
      · decide
      · exact List.mem_singleton.mp hi ▸ by decide⟩
  exact absurd (same.links [0, 1] both 0 List.mem_cons_self) (by decide)

end FreeList

end AetherGraph
