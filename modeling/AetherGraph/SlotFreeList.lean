import Mathlib.Algebra.GroupWithZero.Nat
import Mathlib.Data.List.Chain
import Mathlib.Data.List.Flatten
import Mathlib.Data.List.Perm.Basic
import Mathlib.Logic.Function.Basic
import Mathlib.Logic.Relation

/-! Lock-free slot free list of the shared-memory ring: a Treiber stack of free slot
indices whose head carries a 32-bit tag.  Threads interleave one atomic operation at a
time. -/

namespace AetherGraph

open Relation (ReflTransGen)

/-- Sentinel for the end of the free list. -/
def freeListEmpty : Nat := 2 ^ 32 - 1

/-- Mark in `next i` while slot `i` is leased. -/
def freeListLeased : Nat := 2 ^ 32 - 2

/-- The head packs an index and a tag into one word, so both change together. -/
structure FreeList where
  head : Nat
  tag : Nat
  next : Nat → Nat
  slotCount : Nat

/-- `none` is one of the two assertion failures. -/
def FreeList.new (slotCount : Nat) : Option FreeList :=
  if slotCount = 0 ∨ freeListLeased < slotCount then none
  else some ⟨0, 0, fun i => if i + 1 < slotCount then i + 1 else freeListEmpty, slotCount⟩

/-- Where a thread is inside `acquire` or `release_many`.  `since` counts the head changes
made before the load of the head that the attempt works from. -/
inductive Pc where
  | idle
  | acquiring
  | sawHead (head tag since : Nat)
  | sawNext (head tag next since : Nat)
  | marking (index : Nat)
  | linking (chain todo : List Nat)
  | joining (chain : List Nat) (index : Nat) (todo : List Nat)
  | tying (chain : List Nat) (head tag since : Nat)
  | splicing (chain : List Nat) (head tag since : Nat)

structure Thread where
  held : List Nat
  pc : Pc

namespace Thread

/-- Slots the thread has the lease of, `acquire` being past its exchange included. -/
def leases (t : Thread) : List Nat :=
  t.held ++ match t.pc with
    | .marking i => [i]
    | _ => []

/-- Slots the thread is giving back. -/
def hand (t : Thread) : List Nat :=
  match t.pc with
  | .linking chain todo => chain ++ todo
  | .joining chain i todo => chain ++ i :: todo
  | .tying chain _ _ _ => chain
  | .splicing chain _ _ _ => chain
  | _ => []

def owned (t : Thread) : List Nat := t.leases ++ t.hand

end Thread

/-- The free list, the number of head changes so far, and the threads that use it. -/
structure SlotPool where
  list : FreeList
  changes : Nat
  threads : List Thread

namespace SlotPool

def write (p : SlotPool) (i value : Nat) : SlotPool :=
  { p with list := { p.list with next := Function.update p.list.next i value } }

/-- A successful compare-exchange of the head. -/
def exchange (p : SlotPool) (index tag : Nat) : SlotPool :=
  { p with
    list := { p.list with head := index, tag := (tag + 1) % 2 ^ 32 }
    changes := p.changes + 1 }

def withThreads (p : SlotPool) (threads : List Thread) : SlotPool := { p with threads := threads }

/-- One atomic operation of thread `t`, which becomes `t'`; the flag is set when `acquire`
returns `None`.  An exchange succeeds only on the head it loaded, and fewer than `2 ^ 32`
changes have passed since. -/
inductive Act (p : SlotPool) : Thread → Thread → Bool → SlotPool → Prop where
  | acquire (held) : Act p ⟨held, .idle⟩ ⟨held, .acquiring⟩ false p
  | exhausted (held) (empty : p.list.head = freeListEmpty) :
      Act p ⟨held, .acquiring⟩ ⟨held, .idle⟩ true p
  | loadHead (held) (some : p.list.head ≠ freeListEmpty) :
      Act p ⟨held, .acquiring⟩ ⟨held, .sawHead p.list.head p.list.tag p.changes⟩ false p
  | outOfRange (held head tag since) (far : p.list.slotCount ≤ head) :
      Act p ⟨held, .sawHead head tag since⟩ ⟨held, .idle⟩ true p
  | loadNext (held head tag since) (near : head < p.list.slotCount) :
      Act p ⟨held, .sawHead head tag since⟩
        ⟨held, .sawNext head tag (p.list.next head) since⟩ false p
  | popFailed (held head tag next since) :
      Act p ⟨held, .sawNext head tag next since⟩ ⟨held, .acquiring⟩ false p
  | pop (held next since) (recent : p.changes < since + 2 ^ 32) :
      Act p ⟨held, .sawNext p.list.head p.list.tag next since⟩ ⟨held, .marking p.list.head⟩
        false (p.exchange next p.list.tag)
  | mark (held index) :
      Act p ⟨held, .marking index⟩ ⟨index :: held, .idle⟩ false (p.write index freeListLeased)
  | release (held kept todo) (own : held.Perm (todo ++ kept)) :
      Act p ⟨held, .idle⟩ ⟨kept, .linking [] todo⟩ false p
  -- the swap finds the lease mark, or the call panics
  | swapFirst (held index todo) (leased : p.list.next index = freeListLeased) :
      Act p ⟨held, .linking [] (index :: todo)⟩ ⟨held, .linking [index] todo⟩ false
        (p.write index freeListEmpty)
  | swap (held chain index todo) (started : chain ≠ [])
      (leased : p.list.next index = freeListLeased) :
      Act p ⟨held, .linking chain (index :: todo)⟩ ⟨held, .joining chain index todo⟩ false
        (p.write index freeListEmpty)
  | join (held chain prev index todo) :
      Act p ⟨held, .joining (chain ++ [prev]) index todo⟩
        ⟨held, .linking (chain ++ [prev, index]) todo⟩ false (p.write prev index)
  | nothing (held) : Act p ⟨held, .linking [] []⟩ ⟨held, .idle⟩ false p
  | loadTop (held chain) (started : chain ≠ []) :
      Act p ⟨held, .linking chain []⟩ ⟨held, .tying chain p.list.head p.list.tag p.changes⟩ false p
  | tie (held chain last head tag since) :
      Act p ⟨held, .tying (chain ++ [last]) head tag since⟩
        ⟨held, .splicing (chain ++ [last]) head tag since⟩ false (p.write last head)
  | pushFailed (held chain head tag since) :
      Act p ⟨held, .splicing chain head tag since⟩ ⟨held, .linking chain []⟩ false p
  | push (held first chain since) (recent : p.changes < since + 2 ^ 32) :
      Act p ⟨held, .splicing (first :: chain) p.list.head p.list.tag since⟩ ⟨held, .idle⟩ false
        (p.exchange first p.list.tag)

/-- A thread moves, or a new one appears. -/
inductive Step (p : SlotPool) : Bool → SlotPool → Prop where
  | spawn : Step p false (p.withThreads (⟨[], .idle⟩ :: p.threads))
  | act {before after : List Thread} {t t' : Thread} {failed : Bool} {p' : SlotPool}
      (at_ : p.threads = before ++ t :: after) (act : p.Act t t' failed p') :
      Step p failed (p'.withThreads (before ++ t' :: after))

/-- `p` in some run over a new list of `n` slots. -/
def Reachable (n : Nat) (p : SlotPool) : Prop :=
  ∃ list, FreeList.new n = some list ∧ ReflTransGen (fun p p' => ∃ failed, Step p failed p') ⟨list, 0, []⟩ p

/-- `stack` is linked from `head` through `next` to the end mark. -/
def Linked (next : Nat → Nat) : Nat → List Nat → Prop
  | head, [] => head = freeListEmpty
  | head, i :: stack => head = i ∧ Linked next (next i) stack

/-- Slots leased or on their way back, with multiplicity. -/
def outside (p : SlotPool) : List Nat :=
  p.threads.flatMap Thread.leases ++ p.threads.flatMap Thread.hand

/-- Every slot has one place: on the stack, with one leaseholder, or in one hand. -/
structure Exclusive (n : Nat) (p : SlotPool) : Prop where
  places : ∃ stack, Linked p.list.next p.list.head stack ∧
    (stack ++ p.outside).Perm (List.range n)
  exhausted : ∀ p', Step p true p' → Linked p.list.next p.list.head [] ∧
    p.outside.Perm (List.range n)
  returned : p.outside = [] → ∃ stack, Linked p.list.next p.list.head stack ∧
    stack.Perm (List.range n)
  -- no swap of a slot being given back can fail its assertion
  marked : ∀ t ∈ p.threads, (∀ i ∈ t.held, p.list.next i = freeListLeased) ∧
    ∀ chain index todo, t.pc = .linking chain (index :: todo) →
      p.list.next index = freeListLeased

theorem Linked.congr {next next' : Nat → Nat} {head : Nat} {stack : List Nat}
    (h : Linked next head stack) (same : ∀ i ∈ stack, next' i = next i) :
    Linked next' head stack := by
  induction stack generalizing head with
  | nil => exact h
  | cons i stack ih =>
      refine ⟨h.1, ?_⟩
      rw [same i List.mem_cons_self]
      exact ih h.2 fun j hj => same j (List.mem_cons_of_mem i hj)

/-- A chain whose last cell names the head extends the stack. -/
theorem Linked.splice {next : Nat → Nat} {head first : Nat} {chain stack : List Nat}
    (h : Linked next head stack) (linked : (first :: chain).IsChain fun i j => next i = j)
    (tied : next ((first :: chain).getLast (List.cons_ne_nil _ _)) = head) :
    Linked next first (first :: chain ++ stack) := by
  induction chain generalizing first with
  | nil => exact ⟨rfl, tied ▸ h⟩
  | cons second chain ih =>
      obtain ⟨rfl, rest⟩ := List.isChain_cons_cons.mp linked
      exact ⟨rfl, ih rest tied⟩

/-- An attempt that loaded `head` with `since` changes made: the stack has not moved unless
the count has. -/
structure Since (p : SlotPool) (head tag since : Nat) : Prop where
  le : since ≤ p.changes
  tag_eq : tag = since % 2 ^ 32
  head_eq : p.changes = since → p.list.head = head

/-- What holds of a thread at each point of its calls. -/
def PcGood (p : SlotPool) : Pc → Prop
  | .sawHead head tag since => head < p.list.slotCount ∧ head ≠ freeListEmpty ∧
      Since p head tag since
  | .sawNext head tag next since => head ≠ freeListEmpty ∧ Since p head tag since ∧
      (p.changes = since → p.list.next head = next)
  | .linking chain todo => chain.IsChain (fun i j => p.list.next i = j) ∧
      ∀ i ∈ todo, p.list.next i = freeListLeased
  | .joining chain _ todo => chain.IsChain (fun i j => p.list.next i = j) ∧
      ∀ i ∈ todo, p.list.next i = freeListLeased
  | .tying chain head tag since => chain.IsChain (fun i j => p.list.next i = j) ∧
      Since p head tag since
  | .splicing chain head tag since => chain.IsChain (fun i j => p.list.next i = j) ∧
      (∀ last ∈ chain.getLast?, p.list.next last = head) ∧ Since p head tag since
  | _ => True

structure Good (p : SlotPool) (t : Thread) : Prop where
  held : ∀ i ∈ t.held, p.list.next i = freeListLeased
  pc : PcGood p t.pc

structure Inv (n : Nat) (p : SlotPool) : Prop where
  slotCount : p.list.slotCount = n
  small : n ≤ freeListLeased
  tag : p.list.tag = p.changes % 2 ^ 32
  stack : ∃ stack, Linked p.list.next p.list.head stack ∧
    (stack ++ p.threads.flatMap Thread.owned).Perm (List.range n)
  good : ∀ t ∈ p.threads, Good p t

theorem isChain_congr {next next' : Nat → Nat} {chain : List Nat}
    (h : chain.IsChain fun i j => next i = j) (same : ∀ i ∈ chain, next' i = next i) :
    chain.IsChain fun i j => next' i = j := by
  induction chain with
  | nil => exact List.isChain_nil
  | cons i chain ih =>
      cases chain with
      | nil => exact List.isChain_singleton i
      | cons j chain =>
          obtain ⟨link, rest⟩ := List.isChain_cons_cons.mp h
          refine List.isChain_cons_cons.mpr ⟨(same i List.mem_cons_self).trans link, ?_⟩
          exact ih rest fun k hk => same k (List.mem_cons_of_mem i hk)

/-- What others do: the head moves only with the count, and cells on the stack or owned
here stay. -/
theorem Good.frame {p p' : SlotPool} {t : Thread} (h : Good p t)
    (count : p'.list.slotCount = p.list.slotCount) (later : p.changes ≤ p'.changes)
    (head : p'.changes = p.changes → p'.list.head = p.list.head)
    (cells : ∀ i ∈ t.owned, p'.list.next i = p.list.next i)
    (top : p'.changes = p.changes → p.list.head ≠ freeListEmpty →
      p'.list.next p.list.head = p.list.next p.list.head) : Good p' t := by
  obtain ⟨held, pc⟩ := t
  have still : ∀ {since}, since ≤ p.changes → p'.changes = since →
      p.changes = since ∧ p'.changes = p.changes := fun le now => by omega
  have since : ∀ {head tag since}, Since p head tag since → Since p' head tag since := fun s =>
    ⟨s.le.trans later, s.tag_eq, fun now =>
      (head (still s.le now).2).trans (s.head_eq (still s.le now).1)⟩
  have hand : ∀ i ∈ Thread.hand ⟨held, pc⟩, p'.list.next i = p.list.next i := fun i hi =>
    cells i (List.mem_append_right _ hi)
  refine ⟨fun i hi => ?_, ?_⟩
  · exact (cells i (List.mem_append_left _ (List.mem_append_left _ hi))).trans (h.held i hi)
  · have good := h.pc
    cases pc with
    | sawHead _ _ _ => exact ⟨count ▸ good.1, good.2.1, since good.2.2⟩
    | sawNext _ _ _ _ =>
        refine ⟨good.1, since good.2.1, fun now => ?_⟩
        obtain ⟨before, same⟩ := still good.2.1.le now
        have at_ := good.2.1.head_eq before
        rw [← good.2.2 before, ← at_]
        exact top same (at_ ▸ good.1)
    | linking chain todo =>
        refine ⟨isChain_congr good.1 fun i hi => hand i (List.mem_append_left _ hi), fun i hi => ?_⟩
        exact (hand i (List.mem_append_right _ hi)).trans (good.2 i hi)
    | joining chain index todo =>
        refine ⟨isChain_congr good.1 fun i hi => hand i (List.mem_append_left _ hi), fun i hi => ?_⟩
        exact (hand i (List.mem_append_right _ (List.mem_cons_of_mem _ hi))).trans (good.2 i hi)
    | tying chain _ _ _ => exact ⟨isChain_congr good.1 hand, since good.2⟩
    | splicing chain _ _ _ =>
        refine ⟨isChain_congr good.1 hand, fun last hl => ?_, since good.2.2⟩
        exact (hand last (List.mem_of_getLast? hl)).trans (good.2.1 last hl)
    | _ => exact trivial

theorem Good.withThreads {p : SlotPool} {t : Thread} (h : Good p t) (threads : List Thread) :
    Good (p.withThreads threads) t :=
  h.frame rfl (Nat.le_refl _) (fun _ => rfl) (fun _ _ => rfl) fun _ _ => rfl

section Thread

variable {n : Nat} {p : SlotPool} {before after : List Thread} {t t' : Thread}

theorem Inv.goodOf (h : Inv n p) (at_ : p.threads = before ++ t :: after) : Good p t :=
  h.good t (at_ ▸ List.mem_append_right _ List.mem_cons_self)

/-- The other threads after one of them has moved. -/
theorem mem_others {u : Thread} (hu : u ∈ before ++ t' :: after) :
    u = t' ∨ u ∈ before ++ after := by
  rcases List.mem_append.mp hu with hu | hu
  · exact .inr (List.mem_append_left _ hu)
  · exact (List.mem_cons.mp hu).imp_right (List.mem_append_right _)

theorem flatMap_owned_perm (owned : t'.owned.Perm t.owned) :
    ((before ++ t' :: after).flatMap Thread.owned).Perm
      ((before ++ t :: after).flatMap Thread.owned) := by
  rw [List.flatMap_append, List.flatMap_append, List.flatMap_cons, List.flatMap_cons]
  exact (owned.append_right _).append_left _

theorem Inv.local (h : Inv n p) (at_ : p.threads = before ++ t :: after)
    (owned : t'.owned.Perm t.owned) (good : Good p t') :
    Inv n (p.withThreads (before ++ t' :: after)) := by
  obtain ⟨stack, linked, perm⟩ := h.stack
  refine ⟨h.slotCount, h.small, h.tag, ⟨stack, linked, ?_⟩, fun u hu => ?_⟩
  · exact ((flatMap_owned_perm owned).append_left stack).trans (at_ ▸ perm)
  · rcases mem_others hu with rfl | hu
    · exact good.withThreads _
    · refine (h.good u (at_ ▸ ?_)).withThreads _
      exact (List.mem_append.mp hu).elim (List.mem_append_left _)
        fun hu => List.mem_append_right _ (List.mem_cons_of_mem _ hu)

/-- A thread writes the cell of a slot it owns. -/
theorem Inv.write (h : Inv n p) (at_ : p.threads = before ++ t :: after) {i value : Nat}
    (mine : i ∈ t.owned) (owned : t'.owned.Perm t.owned) (good : Good (p.write i value) t') :
    Inv n ((p.write i value).withThreads (before ++ t' :: after)) := by
  obtain ⟨stack, linked, perm⟩ := h.stack
  have nodup := perm.nodup_iff.mpr List.nodup_range
  rw [at_, List.flatMap_append, List.flatMap_cons] at nodup
  have offStack : ∀ j ∈ stack, j ≠ i := fun j hj same =>
    (List.nodup_append.mp nodup).2.2 j hj i (List.mem_append_right _ (List.mem_append_left _ mine)) same
  have cell : ∀ {j}, j ≠ i → (p.write i value).list.next j = p.list.next j := fun other =>
    Function.update_of_ne other _ _
  refine ⟨h.slotCount, h.small, h.tag, ⟨stack, ?_, ?_⟩, fun u hu => ?_⟩
  · exact linked.congr fun j hj => cell (offStack j hj)
  · exact ((flatMap_owned_perm owned).append_left stack).trans (at_ ▸ perm)
  · rcases mem_others hu with rfl | other
    · exact good.withThreads _
    · have here : u ∈ p.threads := at_ ▸ (List.mem_append.mp other).elim (List.mem_append_left _)
        fun later => List.mem_append_right _ (List.mem_cons_of_mem _ later)
      refine (h.good u here).frame rfl (Nat.le_refl _) (fun _ => rfl) (fun j hj => cell ?_)
        fun _ proper => cell ?_
      · rintro rfl
        obtain ⟨-, nodup, -⟩ := List.nodup_append.mp nodup
        obtain ⟨-, inner, early⟩ := List.nodup_append.mp nodup
        rcases List.mem_append.mp other with hu | hu
        · exact early j (List.mem_flatMap.mpr ⟨u, hu, hj⟩) j (List.mem_append_left _ mine) rfl
        · exact (List.nodup_append.mp inner).2.2 j mine j (List.mem_flatMap.mpr ⟨u, hu, hj⟩) rfl
      · cases stack with
        | nil => exact absurd linked proper
        | cons top stack =>
            rw [linked.1]
            exact offStack top List.mem_cons_self

/-- The head moves: slots pass between the stack and the thread that moves it. -/
theorem Inv.exchange (h : Inv n p) (at_ : p.threads = before ++ t :: after) {index : Nat}
    (moves : ∀ stack, Linked p.list.next p.list.head stack → ∃ stack',
      Linked p.list.next index stack' ∧ (stack' ++ t'.owned).Perm (stack ++ t.owned))
    (good : Good (p.exchange index p.list.tag) t') :
    Inv n ((p.exchange index p.list.tag).withThreads (before ++ t' :: after)) := by
  obtain ⟨stack, linked, perm⟩ := h.stack
  obtain ⟨stack', linked', moved⟩ := moves stack linked
  refine ⟨h.slotCount, h.small, ?_, ⟨stack', linked', ?_⟩, fun u hu => ?_⟩
  · change (p.list.tag + 1) % 2 ^ 32 = (p.changes + 1) % 2 ^ 32
    rw [h.tag, Nat.mod_add_mod]
  · refine List.Perm.trans ?_ perm
    rw [at_]
    change (stack' ++ (before ++ t' :: after).flatMap Thread.owned).Perm _
    simp only [List.flatMap_append, List.flatMap_cons]
    have front : ∀ s o : List Nat, (s ++ (before.flatMap Thread.owned ++
        (o ++ after.flatMap Thread.owned))).Perm
        ((s ++ o) ++ (before.flatMap Thread.owned ++ after.flatMap Thread.owned)) := fun s o => by
      rw [List.append_assoc]
      refine List.Perm.append_left s ?_
      rw [← List.append_assoc, ← List.append_assoc]
      exact List.perm_append_comm.append_right _
    exact (front _ _).trans ((moved.append_right _).trans (front _ _).symm)
  · rcases mem_others hu with rfl | other
    · exact good.withThreads _
    · have here : u ∈ p.threads := at_ ▸ (List.mem_append.mp other).elim (List.mem_append_left _)
        fun later => List.mem_append_right _ (List.mem_cons_of_mem _ later)
      exact (h.good u here).frame rfl (Nat.le_succ _) (fun same => absurd same (Nat.succ_ne_self _))
        (fun _ _ => rfl) fun same => absurd same (Nat.succ_ne_self _)

theorem Inv.head_lt (h : Inv n p) (some : p.list.head ≠ freeListEmpty) :
    p.list.head < p.list.slotCount := by
  obtain ⟨stack, linked, perm⟩ := h.stack
  cases stack with
  | nil => exact absurd linked some
  | cons top stack =>
      rw [linked.1, h.slotCount]
      exact List.mem_range.mp (perm.mem_iff.mp (List.mem_append_left _ List.mem_cons_self))

theorem Since.now (h : Inv n p) : Since p p.list.head p.list.tag p.changes :=
  ⟨Nat.le_refl _, h.tag, fun _ => rfl⟩

/-- With fewer than `2 ^ 32` changes in between, an equal tag means no change. -/
theorem Since.current (h : Inv n p) {since : Nat} (loaded : Since p p.list.head p.list.tag since)
    (recent : p.changes < since + 2 ^ 32) : p.changes = since := by
  have same : p.changes % 2 ^ 32 = since % 2 ^ 32 := h.tag.symm.trans loaded.tag_eq
  have := loaded.le
  omega

/-- Writing the next index into the last cell lengthens a chain. -/
theorem isChain_join {next : Nat → Nat} {chain : List Nat} {prev index : Nat}
    (linked : (chain ++ [prev]).IsChain fun i j => next i = j) (nodup : (chain ++ [prev]).Nodup) :
    (chain ++ [prev, index]).IsChain fun i j => Function.update next prev index i = j := by
  induction chain with
  | nil => exact List.isChain_cons_cons.mpr ⟨Function.update_self .., List.isChain_singleton _⟩
  | cons i chain ih =>
      obtain ⟨first, rest⟩ := List.nodup_cons.mp nodup
      have other : i ≠ prev := fun same =>
        first (same ▸ List.mem_append_right _ List.mem_cons_self)
      cases chain with
      | nil =>
          have link := (List.isChain_cons_cons.mp linked).1
          refine List.isChain_cons_cons.mpr ⟨(Function.update_of_ne other ..).trans link, ?_⟩
          exact ih (List.isChain_singleton _) rest
      | cons j chain =>
          obtain ⟨link, linked⟩ := List.isChain_cons_cons.mp linked
          exact List.isChain_cons_cons.mpr
            ⟨(Function.update_of_ne other ..).trans link, ih linked rest⟩

/-- Writing the last cell of a chain leaves its links. -/
theorem isChain_tie {next : Nat → Nat} {chain : List Nat} {last value : Nat}
    (linked : (chain ++ [last]).IsChain fun i j => next i = j) (nodup : (chain ++ [last]).Nodup) :
    (chain ++ [last]).IsChain fun i j => Function.update next last value i = j := by
  have joined : (chain ++ [last, value]).IsChain fun i j => Function.update next last value i = j :=
    isChain_join linked nodup
  rw [show chain ++ [last, value] = (chain ++ [last]) ++ [value] by simp] at joined
  exact (List.isChain_append.mp joined).1

theorem Inv.ownedNodup (h : Inv n p) (at_ : p.threads = before ++ t :: after) : t.owned.Nodup := by
  obtain ⟨stack, -, perm⟩ := h.stack
  have nodup := perm.nodup_iff.mpr List.nodup_range
  rw [at_, List.flatMap_append, List.flatMap_cons] at nodup
  exact ((List.nodup_append.mp (List.nodup_append.mp
    (List.nodup_append.mp nodup).2.1).2.1)).1

@[simp] theorem write_self (i value : Nat) : (p.write i value).list.next i = value :=
  Function.update_self ..

theorem write_ne {i j : Nat} (other : j ≠ i) (value : Nat) :
    (p.write i value).list.next j = p.list.next j := Function.update_of_ne other ..

theorem owned_split (held : List Nat) (pc : Pc) {hand : List Nat}
    (leases : Thread.leases ⟨held, pc⟩ = held) (eq : Thread.hand ⟨held, pc⟩ = hand) :
    Thread.owned ⟨held, pc⟩ = held ++ hand := by
  rw [Thread.owned, leases, eq]

theorem Inv.act (h : Inv n p) (at_ : p.threads = before ++ t :: after) {failed : Bool}
    {p' : SlotPool} (act : p.Act t t' failed p') :
    Inv n (p'.withThreads (before ++ t' :: after)) := by
  have good := h.goodOf at_
  have nodup := h.ownedNodup at_
  cases act with
  | acquire held => exact h.local at_ (.refl _) ⟨good.held, trivial⟩
  | exhausted held empty => exact h.local at_ (.refl _) ⟨good.held, trivial⟩
  | loadHead held some => exact h.local at_ (.refl _) ⟨good.held, h.head_lt some, some, .now h⟩
  | outOfRange held head tag since far => exact h.local at_ (.refl _) ⟨good.held, trivial⟩
  | loadNext held head tag since near =>
      exact h.local at_ (.refl _) ⟨good.held, good.pc.2.1, good.pc.2.2, fun _ => rfl⟩
  | popFailed held head tag next since => exact h.local at_ (.refl _) ⟨good.held, trivial⟩
  | pop held next since recent =>
      obtain ⟨proper, loaded, seen⟩ := good.pc
      refine h.exchange at_ (fun stack linked => ?_) ⟨good.held, trivial⟩
      cases stack with
      | nil => exact absurd linked proper
      | cons top stack =>
          obtain ⟨rfl, rest⟩ := linked
          rw [seen (loaded.current h recent)] at rest
          refine ⟨stack, rest, ?_⟩
          simp only [Thread.owned, Thread.leases, Thread.hand, List.append_nil]
          rw [← List.append_assoc]
          exact List.perm_append_singleton _ _
  | mark held index =>
      have owned : Thread.owned ⟨held, .marking index⟩ = held ++ [index] := List.append_nil _
      rw [owned] at nodup
      have other : ∀ i ∈ held, i ≠ index := fun i hi =>
        (List.nodup_append.mp nodup).2.2 i hi index List.mem_cons_self
      refine h.write at_ (owned ▸ List.mem_append_right _ List.mem_cons_self) ?_
        ⟨List.forall_mem_cons.mpr ⟨write_self .., fun i hi => ?_⟩, trivial⟩
      · rw [owned]
        simp only [Thread.owned, Thread.leases, Thread.hand, List.append_nil]
        exact (List.perm_append_singleton _ _).symm
      · exact (write_ne (other i hi) _).trans (good.held i hi)
  | release held kept todo own =>
      refine h.local at_ ?_ ⟨fun i hi => ?_, List.isChain_nil, fun i hi => ?_⟩
      · simp only [Thread.owned, Thread.leases, Thread.hand, List.append_nil, List.nil_append]
        exact (List.perm_append_comm.trans own.symm)
      · exact good.held i (own.mem_iff.mpr (List.mem_append_right _ hi))
      · exact good.held i (own.mem_iff.mpr (List.mem_append_left _ hi))
  | swapFirst held index todo leased =>
      have owned := owned_split held (.linking [] (index :: todo)) (List.append_nil _) rfl
      rw [owned] at nodup
      obtain ⟨-, hand, apart⟩ := List.nodup_append.mp nodup
      have first := (List.nodup_cons.mp hand).1
      refine h.write at_ (owned ▸ List.mem_append_right _ List.mem_cons_self) (.refl _)
        ⟨fun i hi => ?_, List.isChain_singleton _, fun i hi => ?_⟩
      · exact (write_ne (apart i hi index List.mem_cons_self) _).trans (good.held i hi)
      · exact (write_ne (fun same : i = index => first (same ▸ hi)) _).trans
          (good.pc.2 i (List.mem_cons_of_mem _ hi))
  | swap held chain index todo started leased =>
      have owned := owned_split held (.linking chain (index :: todo)) (List.append_nil _) rfl
      rw [owned] at nodup
      obtain ⟨-, hand, apart⟩ := List.nodup_append.mp nodup
      obtain ⟨-, later, early⟩ := List.nodup_append.mp hand
      have here : index ∈ chain ++ index :: todo := List.mem_append_right _ List.mem_cons_self
      refine h.write at_ (owned ▸ List.mem_append_right _ here) (.refl _)
        ⟨fun i hi => ?_, isChain_congr good.pc.1 fun i hi => write_ne ?_ _, fun i hi => ?_⟩
      · exact (write_ne (apart i hi index here) _).trans (good.held i hi)
      · exact early i hi index List.mem_cons_self
      · exact (write_ne (fun same : i = index => (List.nodup_cons.mp later).1 (same ▸ hi)) _).trans
          (good.pc.2 i (List.mem_cons_of_mem _ hi))
  | join held chain prev index todo =>
      have owned := owned_split held (.joining (chain ++ [prev]) index todo)
        (List.append_nil _) rfl
      rw [owned] at nodup
      obtain ⟨-, hand, apart⟩ := List.nodup_append.mp nodup
      obtain ⟨linked, -, early⟩ := List.nodup_append.mp hand
      have last : prev ∈ chain ++ [prev] := List.mem_append_right _ List.mem_cons_self
      have here := List.mem_append_left (index :: todo) last
      refine h.write at_ (owned ▸ List.mem_append_right _ here) ?_
        ⟨fun i hi => ?_, isChain_join good.pc.1 linked, fun i hi => ?_⟩
      · simp [Thread.owned, Thread.leases, Thread.hand]
      · exact (write_ne (apart i hi prev here) _).trans (good.held i hi)
      · exact (write_ne (early prev last i (List.mem_cons_of_mem _ hi)).symm _).trans
          (good.pc.2 i hi)
  | nothing held => exact h.local at_ (.refl _) ⟨good.held, trivial⟩
  | loadTop held chain started =>
      refine h.local at_ ?_ ⟨good.held, good.pc.1, .now h⟩
      simp [Thread.owned, Thread.leases, Thread.hand]
  | tie held chain last head tag since =>
      have owned := owned_split held (.tying (chain ++ [last]) head tag since)
        (List.append_nil _) rfl
      rw [owned] at nodup
      obtain ⟨-, hand, apart⟩ := List.nodup_append.mp nodup
      have here : last ∈ chain ++ [last] := List.mem_append_right _ List.mem_cons_self
      obtain ⟨linked, loaded⟩ := good.pc
      refine h.write at_ (owned ▸ List.mem_append_right _ here) (.refl _)
        ⟨fun i hi => ?_, ?_, fun i hi => ?_, loaded.le, loaded.tag_eq, loaded.head_eq⟩
      · exact (write_ne (apart i hi last here) _).trans (good.held i hi)
      · exact isChain_tie linked hand
      · rw [List.getLast?_append_cons, List.getLast?_singleton] at hi
        obtain rfl := Option.some.inj hi
        exact write_self ..
  | pushFailed held chain head tag since =>
      refine h.local at_ ?_ ⟨good.held, good.pc.1, fun i hi => absurd hi List.not_mem_nil⟩
      simp [Thread.owned, Thread.leases, Thread.hand]
  | push held first chain since recent =>
      obtain ⟨linked, tied, -⟩ := good.pc
      refine h.exchange at_ (fun stack below => ?_) ⟨good.held, trivial⟩
      refine ⟨first :: chain ++ stack, below.splice linked ?_, ?_⟩
      · exact tied _ (List.getLast?_eq_getLast_of_ne_nil _)
      · simp only [Thread.owned, Thread.leases, Thread.hand, List.append_nil]
        rw [List.append_assoc, ← List.append_assoc stack]
        exact List.perm_append_comm

theorem Inv.spawn (h : Inv n p) : Inv n (p.withThreads (⟨[], .idle⟩ :: p.threads)) := by
  refine ⟨h.slotCount, h.small, h.tag, h.stack, fun u hu => ?_⟩
  rcases List.mem_cons.mp hu with rfl | hu
  · exact ⟨fun i hi => absurd hi List.not_mem_nil, trivial⟩
  · exact (h.good u hu).withThreads _

theorem Inv.step (h : Inv n p) {failed : Bool} {p' : SlotPool} (step : Step p failed p') :
    Inv n p' := by
  cases step with
  | spawn => exact h.spawn
  | act at_ act => exact h.act at_ act

end Thread

theorem linked_new {n : Nat} (start count : Nat)
    (whole : start + count = n) (some : 0 < count) :
    Linked (fun i => if i + 1 < n then i + 1 else freeListEmpty) start (List.range' start count) := by
  induction count generalizing start with
  | zero => cases some
  | succ count ih =>
      refine ⟨rfl, ?_⟩
      cases count with
      | zero => exact if_neg (by omega)
      | succ count =>
          simp only [show start + 1 < n by omega, if_true]
          exact ih (start + 1) (by omega) (Nat.succ_pos _)

theorem inv_new {n : Nat} {list : FreeList} (h : FreeList.new n = some list) :
    Inv n ⟨list, 0, []⟩ := by
  unfold FreeList.new at h
  split at h
  · cases h
  rename_i sizes
  obtain rfl := Option.some.inj h
  refine ⟨rfl, by omega, rfl, ⟨List.range n, ?_, ?_⟩, fun t ht => absurd ht List.not_mem_nil⟩
  · rw [List.range_eq_range']
    exact linked_new 0 n (Nat.zero_add n) (by omega)
  · rw [List.flatMap_nil, List.append_nil]

theorem Reachable.inv {n : Nat} {p : SlotPool} (h : Reachable n p) : Inv n p := by
  obtain ⟨list, new, steps⟩ := h
  induction steps with
  | refl => exact inv_new new
  | tail _ step ih => exact ih.step step.choose_spec

/-- Leases and hands together are what the threads own. -/
theorem outside_perm (p : SlotPool) : p.outside.Perm (p.threads.flatMap Thread.owned) :=
  List.flatMap_append_perm ..

theorem Inv.places {n : Nat} {p : SlotPool} (h : Inv n p) :
    ∃ stack, Linked p.list.next p.list.head stack ∧ (stack ++ p.outside).Perm (List.range n) := by
  obtain ⟨stack, linked, perm⟩ := h.stack
  exact ⟨stack, linked, (p.outside_perm.append_left stack).trans perm⟩

theorem Inv.exhausted {n : Nat} {p p' : SlotPool} (h : Inv n p) (step : Step p true p') :
    Linked p.list.next p.list.head [] ∧ p.outside.Perm (List.range n) := by
  have empty : p.list.head = freeListEmpty := by
    cases step with
    | act at_ act =>
        cases act with
        | exhausted held empty => exact empty
        | outOfRange held head tag since far =>
            exact absurd (h.goodOf at_).pc.1 (Nat.not_lt.mpr far)
  obtain ⟨stack, linked, perm⟩ := h.places
  cases stack with
  | nil => exact ⟨empty, perm⟩
  | cons top stack =>
      have : top < n :=
        List.mem_range.mp (perm.mem_iff.mp (List.mem_append_left _ List.mem_cons_self))
      have := linked.1.symm.trans empty
      have := h.small
      simp only [freeListEmpty, freeListLeased] at *
      omega

theorem Inv.exclusive {n : Nat} {p : SlotPool} (h : Inv n p) : Exclusive n p where
  places := h.places
  exhausted := fun _ step => h.exhausted step
  returned := fun back => by
    obtain ⟨stack, linked, perm⟩ := h.places
    rw [back, List.append_nil] at perm
    exact ⟨stack, linked, perm⟩
  marked := fun t ht => by
    refine ⟨(h.good t ht).held, fun chain index todo at_ => ?_⟩
    have good := (h.good t ht).pc
    rw [at_] at good
    exact good.2 index List.mem_cons_self

end SlotPool

namespace SlotPool

theorem reachable_new {n : Nat} {list : FreeList} (h : FreeList.new n = some list) :
    Reachable n ⟨list, 0, []⟩ := ⟨list, h, .refl⟩

theorem Reachable.step {n : Nat} {p p' : SlotPool} {failed : Bool} (h : Reachable n p)
    (step : Step p failed p') : Reachable n p' := by
  obtain ⟨list, new, steps⟩ := h
  exact ⟨list, new, steps.tail ⟨failed, step⟩⟩

/-- The only thread moves. -/
theorem Reachable.solo {n : Nat} {p p' : SlotPool} {t t' : Thread} {failed : Bool}
    (h : Reachable n p) (at_ : p.threads = [t]) (act : p.Act t t' failed p') :
    Reachable n (p'.withThreads [t']) := by
  have alone : p.threads = [] ++ t :: [] := at_
  exact h.step (.act alone act)

end SlotPool

end AetherGraph
