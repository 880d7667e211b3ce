import AetherGraph.Foundation.SpscQueue
import Mathlib.Logic.Relation

/-! The rings shared with the kernel. Userspace is one side of each, working from a private index
and a copy of the kernel's that it refreshes only when the copy shows nothing to do; the kernel is
the other side. -/

namespace AetherGraph

open Foundation

variable {α : Type}

/-- The shared indices and slots, and the private mirrors. -/
structure XdpRing (α : Type) where
  producer : Nat
  consumer : Nat
  ring : Nat → α
  mask : Nat
  localCons : Nat
  cachedProd : Nat
  localProd : Nat
  cachedCons : Nat

namespace XdpRing

/-- The mirrors start from the indices the mapping shows. -/
def fromMmap (producer consumer : Nat) (ring : Nat → α) (ringSize : Nat) : XdpRing α :=
  ⟨producer, consumer, ring, ringSize - 1, consumer, producer, producer, consumer⟩

variable (r : XdpRing α)

def available : XdpRing α × Nat :=
  let cons := r.localCons
  let r := if r.cachedProd = cons then { r with cachedProd := r.producer } else r
  (r, wrapSub (2 ^ 32) r.cachedProd cons)

def peek (offset : Nat) : α := r.ring ((r.localCons + offset) % 2 ^ 32 &&& r.mask)

def advanceConsumer (count : Nat) : XdpRing α :=
  let cons := (r.localCons + count) % 2 ^ 32
  { r with localCons := cons, consumer := cons }

def freeSlots : XdpRing α × Nat :=
  let size := r.mask + 1
  let prod := r.localProd
  let free := wrapSub (2 ^ 32) size (wrapSub (2 ^ 32) prod r.cachedCons)
  if free = 0 then
    let r := { r with cachedCons := r.consumer }
    (r, wrapSub (2 ^ 32) size (wrapSub (2 ^ 32) prod r.cachedCons))
  else (r, free)

def enqueueAt (offset : Nat) (entry : α) : XdpRing α :=
  { r with
    ring := Function.update r.ring ((r.localProd + offset) % 2 ^ 32 &&& r.mask) entry }

def advanceProducer (count : Nat) : XdpRing α :=
  let prod := (r.localProd + count) % 2 ^ 32
  { r with localProd := prod, producer := prod }

end XdpRing

/-! ### Userspace consumes -/

/-- An RX or completion ring: what the kernel has written and shown, what has been given back, the
count userspace may still use, the entries it has peeked at and those it has consumed. -/
structure RxRing (α : Type) where
  ring : XdpRing α
  pushed : List α
  published : Nat
  popped : Nat
  granted : Nat
  peeked : Nat → Option α
  consumed : List α

namespace RxRing

def spsc (s : RxRing α) : Spsc α :=
  ⟨s.ring.ring, s.ring.consumer, s.ring.producer, s.pushed, s.published, s.popped⟩

/-- What either side does next. The kernel writes only where the index it has seen leaves room, and
shows only what it has written; userspace stays within the last count returned to it. -/
inductive Step (s : RxRing α) : RxRing α → Prop
  | write (entry : α) (room : s.pushed.length < s.popped + (s.ring.mask + 1)) :
      Step s { s with
        ring := { s.ring with
          ring := Function.update s.ring.ring (s.pushed.length % 2 ^ 32 &&& s.ring.mask) entry }
        pushed := s.pushed ++ [entry] }
  | publish (n : Nat) (written : s.published + n ≤ s.pushed.length) :
      Step s { s with
        ring := { s.ring with producer := (s.published + n) % 2 ^ 32 }
        published := s.published + n }
  | available :
      Step s { s with ring := s.ring.available.1, granted := s.ring.available.2 }
  | peek (offset : Nat) (within : offset < s.granted) :
      Step s { s with
        peeked := Function.update s.peeked (s.popped + offset) (some (s.ring.peek offset)) }
  | advance (entries : List α) (within : entries.length ≤ s.granted)
      (seen : ∀ i a, entries[i]? = some a → s.peeked (s.popped + i) = some a) :
      Step s { s with
        ring := s.ring.advanceConsumer entries.length
        popped := s.popped + entries.length
        granted := s.granted - entries.length
        consumed := s.consumed ++ entries }

/-- A ring mapped with the entries from `base` on still in it. -/
structure Start (k base : Nat) (s : RxRing α) : Prop where
  mapped : s.ring = .fromMmap (s.published % 2 ^ 32) (base % 2 ^ 32) s.ring.ring (2 ^ k)
  window : RingWindow (2 ^ k) s.ring.ring s.pushed base
  published : base ≤ s.published ∧ s.published ≤ s.pushed.length
  popped : s.popped = base
  granted : s.granted = 0
  peeked : ∀ i, s.peeked i = none
  consumed : s.consumed = []

structure Inv (k base : Nat) (s : RxRing α) : Prop where
  ok : Spsc.Ok (2 ^ 32) (2 ^ k) s.spsc
  mask : s.ring.mask = 2 ^ k - 1
  cons : s.ring.localCons = s.popped % 2 ^ 32
  cached : ∃ m, s.ring.cachedProd = m % 2 ^ 32 ∧ s.popped + s.granted ≤ m ∧ m ≤ s.published
  peeked : ∀ i a, s.peeked i = some a → s.pushed[i]? = some a
  consumed : s.consumed = (s.pushed.take s.popped).drop base
  base_le : base ≤ s.popped

theorem spare {k : Nat} (small : k ≤ 31) : 2 ^ k ≤ 2 ^ 31 :=
  Nat.pow_le_pow_right (by decide) small

theorem Start.inv {k base : Nat} {s : RxRing α} (small : k ≤ 31) (h : Start k base s) :
    Inv k base s where
  ok := {
    depth_lt := Nat.lt_of_le_of_lt (spare small) (by decide)
    window := (show RingWindow (2 ^ k) s.ring.ring s.pushed s.popped from h.popped.symm ▸ h.window)
    popped_le := (show s.popped ≤ s.published from h.popped.symm ▸ h.published.1)
    published_le := h.published.2
    head_eq := (congrArg XdpRing.consumer h.mapped).trans (congrArg (· % 2 ^ 32) h.popped.symm)
    tail_eq := congrArg XdpRing.producer h.mapped }
  mask := congrArg XdpRing.mask h.mapped
  cons := (congrArg XdpRing.localCons h.mapped).trans (congrArg (· % 2 ^ 32) h.popped.symm)
  cached := by
    refine ⟨s.published, congrArg XdpRing.cachedProd h.mapped, ?_, Nat.le_refl _⟩
    rw [h.granted, h.popped]
    exact h.published.1
  peeked i a seen := by
    rw [h.peeked] at seen
    cases seen
  consumed := by rw [h.consumed, h.popped, List.drop_take_self]
  base_le := Nat.le_of_eq h.popped.symm

section Step

variable {k base : Nat} {s s' : RxRing α}

theorem Inv.slot (h : Inv k base s) (small : k ≤ 31) (i : Nat) :
    i % 2 ^ 32 &&& s.ring.mask = i % 2 ^ k := by
  rw [h.mask]
  exact mask_mod (by omega) i

/-- The count is exact for the producer index the mirror holds, refreshed or not. -/
theorem Inv.available (h : Inv k base s) :
    ∃ m, s.ring.available.1 = { s.ring with cachedProd := m % 2 ^ 32 } ∧
      s.ring.available.2 = m - s.popped ∧ s.popped ≤ m ∧ m ≤ s.published ∧
      (s.popped < s.published → s.popped < m) := by
  have near := h.ok.length_le
  have depth := h.ok.depth_lt
  have le := h.ok.popped_le
  obtain ⟨m, cached, low, high⟩ := h.cached
  have tail : s.ring.producer = s.published % 2 ^ 32 := h.ok.tail_eq
  change s.published ≤ s.popped + 2 ^ k at near
  change s.popped ≤ s.published at le
  by_cases empty : s.ring.cachedProd = s.ring.localCons
  · refine ⟨s.published, ?_, ?_, le, Nat.le_refl _, id⟩
    · simp only [XdpRing.available, if_pos empty]
      rw [tail]
    · simp only [XdpRing.available, if_pos empty]
      rw [tail, h.cons, wrapSub_mod le (by omega)]
  · refine ⟨m, ?_, ?_, by omega, high, fun _ => ?_⟩
    · rw [XdpRing.available, if_neg empty, ← cached]
    · simp only [XdpRing.available, if_neg empty]
      rw [cached, h.cons, wrapSub_mod (by omega) (by omega)]
    · refine Nat.lt_of_le_of_ne (by omega) fun same => empty ?_
      rw [cached, h.cons, same]

theorem Inv.peek (h : Inv k base s) (small : k ≤ 31) {offset : Nat} (within : offset < s.granted) :
    s.pushed[s.popped + offset]? = some (s.ring.peek offset) := by
  obtain ⟨m, -, low, high⟩ := h.cached
  have read := h.ok.read (i := offset) (Nat.lt_of_lt_of_le (Nat.add_lt_add_left within _)
    (Nat.le_trans low high))
  rw [XdpRing.peek, h.cons, Nat.mod_add_mod, h.slot small]
  exact read

/-- The entries peeked at in order are the next ones written. -/
theorem Inv.entries (h : Inv k base s) {entries : List α}
    (seen : ∀ i a, entries[i]? = some a → s.peeked (s.popped + i) = some a) :
    (s.pushed.drop s.popped).take entries.length = entries := by
  refine List.ext_getElem? fun i => ?_
  by_cases inside : i < entries.length
  · have value := h.peeked _ _ (seen i _ (List.getElem?_eq_getElem inside))
    rw [List.getElem?_take_of_lt inside, List.getElem?_drop, value,
      List.getElem?_eq_getElem inside]
  · rw [List.getElem?_eq_none (Nat.le_of_not_lt inside), List.getElem?_eq_none]
    exact Nat.le_trans (List.length_take_le _ _) (Nat.le_of_not_lt inside)

theorem Inv.step (h : Inv k base s) (small : k ≤ 31) (step : Step s s') : Inv k base s' := by
  have popped_le : s.popped ≤ s.pushed.length := Nat.le_trans h.ok.popped_le h.ok.published_le
  cases step with
  | write entry room =>
      rw [h.mask, Nat.sub_add_cancel (Nat.two_pow_pos k)] at room
      refine ⟨h.ok.write room (h.slot small _) entry, h.mask, h.cons, h.cached, ?_, ?_, h.base_le⟩
      · intro i a seen
        have old := h.peeked i a seen
        obtain ⟨inside, -⟩ := List.getElem?_eq_some_iff.1 old
        rwa [List.getElem?_append_left inside]
      · rw [List.take_append_of_le_length popped_le]
        exact h.consumed
  | publish n written =>
      refine ⟨h.ok.publish written rfl, h.mask, h.cons, ?_, h.peeked, h.consumed, h.base_le⟩
      obtain ⟨m, cached, low, high⟩ := h.cached
      exact ⟨m, cached, low, Nat.le_trans high (Nat.le_add_right _ _)⟩
  | available =>
      obtain ⟨m, ring, count, low, high, -⟩ := h.available
      rw [ring, count]
      refine ⟨h.ok, h.mask, h.cons, ⟨m, rfl, ?_, high⟩, h.peeked, h.consumed, h.base_le⟩
      exact Nat.le_of_eq (Nat.add_sub_cancel' low)
  | peek offset within =>
      refine ⟨h.ok, h.mask, h.cons, h.cached, fun i a seen => ?_, h.consumed, h.base_le⟩
      change Function.update s.peeked (s.popped + offset) (some (s.ring.peek offset)) i = some a
        at seen
      by_cases here : i = s.popped + offset
      · subst here
        rw [Function.update_self] at seen
        exact (h.peek small within).trans seen
      · rw [Function.update_of_ne here] at seen
        exact h.peeked i a seen
  | advance entries within seen =>
      obtain ⟨m, cached, low, high⟩ := h.cached
      have index : (s.ring.localCons + entries.length) % 2 ^ 32 =
          (s.popped + entries.length) % 2 ^ 32 := by
        rw [h.cons, Nat.mod_add_mod]
      refine ⟨h.ok.advance (Nat.le_trans (Nat.add_le_add_left within _) (Nat.le_trans low high))
        index, h.mask, index, ⟨m, cached, ?_, high⟩, h.peeked, ?_,
        Nat.le_trans h.base_le (Nat.le_add_right _ _)⟩
      · show s.popped + entries.length + (s.granted - entries.length) ≤ m
        omega
      · show s.consumed ++ entries = (s.pushed.take (s.popped + entries.length)).drop base
        rw [List.take_add, List.drop_append_of_le_length, ← h.consumed, h.entries seen]
        rw [List.length_take, Nat.min_eq_left popped_le]
        exact h.base_le

theorem Inv.run (small : k ≤ 31) (h : Inv k base s) (run : Relation.ReflTransGen Step s s') :
    Inv k base s' := by
  induction run with
  | refl => exact h
  | tail _ step ih => exact ih.step small step

end Step

/-- What holds of a consuming side in every state. -/
structure Sound (k base : Nat) (s : RxRing α) : Prop where
  counted : s.ring.available.2 ≤ s.published - s.popped
  granted : s.granted ≤ s.published - s.popped
  progress : s.popped < s.published → 0 < s.ring.available.2
  peeks : ∀ offset < s.granted, s.pushed[s.popped + offset]? = some (s.ring.peek offset)
  kept : ∀ i a, s.popped ≤ i → s.pushed[i]? = some a → s.ring.ring (i % 2 ^ k) = a
  consumed : s.consumed = (s.pushed.take s.popped).drop base

theorem Inv.sound {k base : Nat} {s : RxRing α} (h : Inv k base s) (small : k ≤ 31) :
    Sound k base s where
  counted := by
    obtain ⟨m, -, count, low, high, -⟩ := h.available
    omega
  granted := by
    obtain ⟨m, -, low, high⟩ := h.cached
    omega
  progress more := by
    obtain ⟨m, -, count, -, -, grew⟩ := h.available
    have := grew more
    omega
  peeks _ within := h.peek small within
  kept i a old at_ := h.ok.window.holds i old a at_
  consumed := h.consumed

end RxRing

/-! ### Userspace produces -/

/-- A fill or TX ring: what userspace has shown, what the kernel has given back, the count
userspace may still use, the entries it has placed, and the kernel's index with the entries read. -/
structure TxRing (α : Type) where
  ring : XdpRing α
  pushed : List α
  popped : Nat
  granted : Nat
  placed : Nat → Option α
  cursor : Nat
  taken : List α

namespace TxRing

def spsc (s : TxRing α) : Spsc α :=
  ⟨s.ring.ring, s.ring.consumer, s.ring.producer, s.pushed, s.pushed.length, s.popped⟩

/-- What either side does next. Userspace stays within the last count returned to it and places what
it shows; the kernel reads only what is shown and gives back only what it has read. -/
inductive Step (s : TxRing α) : TxRing α → Prop
  | freeSlots :
      Step s { s with ring := s.ring.freeSlots.1, granted := s.ring.freeSlots.2 }
  | enqueue (offset : Nat) (entry : α) (within : offset < s.granted) :
      Step s { s with
        ring := s.ring.enqueueAt offset entry
        placed := Function.update s.placed (s.pushed.length + offset) (some entry) }
  | advance (entries : List α) (within : entries.length ≤ s.granted)
      (written : ∀ i a, entries[i]? = some a → s.placed (s.pushed.length + i) = some a) :
      Step s { s with
        ring := s.ring.advanceProducer entries.length
        pushed := s.pushed ++ entries
        granted := s.granted - entries.length }
  | take (shown : s.cursor < s.pushed.length) :
      Step s { s with
        taken := s.taken ++ [s.ring.ring (s.cursor % 2 ^ 32 &&& s.ring.mask)]
        cursor := s.cursor + 1 }
  | release (n : Nat) (read : s.popped + n ≤ s.cursor) :
      Step s { s with
        ring := { s.ring with consumer := (s.popped + n) % 2 ^ 32 }
        popped := s.popped + n }

/-- A ring mapped with the entries from `base` on still in it. -/
structure Start (k base : Nat) (s : TxRing α) : Prop where
  mapped : s.ring = .fromMmap (s.pushed.length % 2 ^ 32) (base % 2 ^ 32) s.ring.ring (2 ^ k)
  window : RingWindow (2 ^ k) s.ring.ring s.pushed base
  popped : s.popped = base
  granted : s.granted = 0
  placed : ∀ i, s.placed i = none
  cursor : s.cursor = base
  taken : s.taken = []

structure Inv (k base : Nat) (s : TxRing α) : Prop where
  ok : Spsc.Ok (2 ^ 32) (2 ^ k) s.spsc
  mask : s.ring.mask = 2 ^ k - 1
  prod : s.ring.localProd = s.pushed.length % 2 ^ 32
  cached : ∃ m, s.ring.cachedCons = m % 2 ^ 32 ∧ m ≤ s.popped ∧
    s.pushed.length + s.granted ≤ m + 2 ^ k
  placed : ∀ j a, s.placed j = some a → s.pushed.length ≤ j →
    j < s.popped + 2 ^ k ∧ s.ring.ring (j % 2 ^ k) = a
  cursor : s.popped ≤ s.cursor ∧ s.cursor ≤ s.pushed.length
  taken : s.taken = (s.pushed.take s.cursor).drop base
  base_le : base ≤ s.popped

theorem Start.inv {k base : Nat} {s : TxRing α} (small : k ≤ 31) (h : Start k base s) :
    Inv k base s where
  ok := {
    depth_lt := Nat.lt_of_le_of_lt (RxRing.spare small) (by decide)
    window := (show RingWindow (2 ^ k) s.ring.ring s.pushed s.popped from h.popped.symm ▸ h.window)
    popped_le := (show s.popped ≤ s.pushed.length from h.popped.symm ▸ h.window.lo_le)
    published_le := Nat.le_refl _
    head_eq := (congrArg XdpRing.consumer h.mapped).trans (congrArg (· % 2 ^ 32) h.popped.symm)
    tail_eq := congrArg XdpRing.producer h.mapped }
  mask := congrArg XdpRing.mask h.mapped
  prod := congrArg XdpRing.localProd h.mapped
  cached := by
    refine ⟨base, congrArg XdpRing.cachedCons h.mapped, Nat.le_of_eq h.popped.symm, ?_⟩
    rw [h.granted]
    exact h.window.fits
  placed j a written := by
    rw [h.placed] at written
    cases written
  cursor := by
    rw [h.popped, h.cursor]
    exact ⟨Nat.le_refl _, h.window.lo_le⟩
  taken := by rw [h.taken, h.cursor, List.drop_take_self]
  base_le := Nat.le_of_eq h.popped.symm

section Step

variable {k base : Nat} {s s' : TxRing α}

theorem Inv.slot (h : Inv k base s) (small : k ≤ 31) (i : Nat) :
    i % 2 ^ 32 &&& s.ring.mask = i % 2 ^ k := by
  rw [h.mask]
  exact mask_mod (by omega) i

/-- The count is exact for the consumer index the mirror holds, refreshed or not. -/
theorem Inv.freeSlots (h : Inv k base s) (small : k ≤ 31) :
    ∃ m, s.ring.freeSlots.1 = { s.ring with cachedCons := m % 2 ^ 32 } ∧ m ≤ s.popped ∧
      s.pushed.length + s.ring.freeSlots.2 = m + 2 ^ k ∧
      (s.pushed.length < s.popped + 2 ^ k → 0 < s.ring.freeSlots.2) := by
  have depth := RxRing.spare small
  have fits : s.pushed.length ≤ s.popped + 2 ^ k := h.ok.window.fits
  have size : s.ring.mask + 1 = 2 ^ k := by rw [h.mask, Nat.sub_add_cancel (Nat.two_pow_pos k)]
  have head : s.ring.consumer = s.popped % 2 ^ 32 := h.ok.head_eq
  have popped_le : s.popped ≤ s.pushed.length := h.ok.popped_le
  obtain ⟨m, cached, old, room⟩ := h.cached
  have count : ∀ n ≤ s.popped, s.pushed.length ≤ n + 2 ^ k →
      wrapSub (2 ^ 32) (2 ^ k) (wrapSub (2 ^ 32) s.ring.localProd (n % 2 ^ 32)) =
        2 ^ k - (s.pushed.length - n) := by
    intro n le near
    rw [h.prod, wrapSub_mod (by omega) (by omega), wrapSub]
    omega
  simp only [XdpRing.freeSlots, size]
  by_cases full : wrapSub (2 ^ 32) (2 ^ k)
      (wrapSub (2 ^ 32) s.ring.localProd s.ring.cachedCons) = 0
  · rw [if_pos full]
    refine ⟨s.popped, by rw [head], Nat.le_refl _, ?_, fun more => ?_⟩
    · rw [head, count s.popped (Nat.le_refl _) fits]
      omega
    · rw [head, count s.popped (Nat.le_refl _) fits]
      omega
  · rw [if_neg full]
    refine ⟨m, by rw [← cached], old, ?_, fun _ => Nat.pos_of_ne_zero full⟩
    rw [cached, count m old (by omega)]
    omega

theorem Inv.step (h : Inv k base s) (small : k ≤ 31) (step : Step s s') : Inv k base s' := by
  have fits : s.pushed.length ≤ s.popped + 2 ^ k := h.ok.window.fits
  have popped_le : s.popped ≤ s.pushed.length := h.ok.popped_le
  cases step with
  | freeSlots =>
      obtain ⟨m, ring, old, count, -⟩ := h.freeSlots small
      rw [ring]
      exact ⟨h.ok, h.mask, h.prod, ⟨m, rfl, old, Nat.le_of_eq count⟩, h.placed, h.cursor, h.taken,
        h.base_le⟩
  | enqueue offset entry within =>
      obtain ⟨m, cached, old, room⟩ := h.cached
      have slot : (s.ring.localProd + offset) % 2 ^ 32 &&& s.ring.mask =
          (s.pushed.length + offset) % 2 ^ k := by
        rw [h.prod, Nat.mod_add_mod, h.slot small]
      have inside : s.pushed.length + offset < s.popped + 2 ^ k := by omega
      have window := h.ok.window.update_free (j := s.pushed.length + offset)
        (Nat.le_add_right _ _) inside entry
      rw [← slot] at window
      refine ⟨{ h.ok with window := window }, h.mask, h.prod, ⟨m, cached, old, room⟩, ?_, h.cursor,
        h.taken, h.base_le⟩
      intro j a written past
      change Function.update s.placed (s.pushed.length + offset) (some entry) j = some a at written
      change s.pushed.length ≤ j at past
      show j < s.popped + 2 ^ k ∧ Function.update s.ring.ring _ entry (j % 2 ^ k) = a
      rw [slot]
      by_cases here : j = s.pushed.length + offset
      · subst here
        rw [Function.update_self] at written ⊢
        exact ⟨inside, Option.some.inj written⟩
      · rw [Function.update_of_ne here] at written
        obtain ⟨bound, value⟩ := h.placed j a written past
        refine ⟨bound, ?_⟩
        rw [Function.update_of_ne, value]
        intro same
        exact here (eq_of_slot_eq (by omega) (by omega) same)
  | advance entries within written =>
      obtain ⟨m, cached, old, room⟩ := h.cached
      have index : (s.ring.localProd + entries.length) % 2 ^ 32 =
          (s.pushed ++ entries).length % 2 ^ 32 := by
        rw [h.prod, Nat.mod_add_mod, List.length_append]
      have window := h.ok.window.extend 
        (show s.pushed.length + entries.length ≤ s.popped + 2 ^ k by omega) fun i a at_ =>
          (h.placed _ a (written i a at_) (Nat.le_add_right _ _)).2
      refine ⟨⟨h.ok.depth_lt, window, window.lo_le, Nat.le_refl _, h.ok.head_eq, index⟩, h.mask,
        index, ⟨m, cached, old, ?_⟩, ?_, ?_, ?_, h.base_le⟩
      · show (s.pushed ++ entries).length + (s.granted - entries.length) ≤ m + 2 ^ k
        rw [List.length_append]
        omega
      · intro j a placed past
        change (s.pushed ++ entries).length ≤ j at past
        rw [List.length_append] at past
        exact h.placed j a placed (by omega)
      · refine ⟨h.cursor.1, Nat.le_trans h.cursor.2 ?_⟩
        show s.pushed.length ≤ (s.pushed ++ entries).length
        rw [List.length_append]
        exact Nat.le_add_right _ _
      · show s.taken = ((s.pushed ++ entries).take s.cursor).drop base
        rw [List.take_append_of_le_length h.cursor.2]
        exact h.taken
  | take shown =>
      refine ⟨h.ok, h.mask, h.prod, h.cached, h.placed, ⟨Nat.le_succ_of_le h.cursor.1, shown⟩, ?_,
        h.base_le⟩
      have value := h.ok.window.holds s.cursor h.cursor.1 _ (List.getElem?_eq_getElem shown)
      change s.ring.ring (s.cursor % 2 ^ k) = s.pushed[s.cursor] at value
      show s.taken ++ [s.ring.ring _] = (s.pushed.take (s.cursor + 1)).drop base
      rw [h.slot small, value, ← take_concat (List.getElem?_eq_getElem shown),
        List.drop_append_of_le_length, ← h.taken]
      rw [List.length_take, Nat.min_eq_left h.cursor.2]
      exact Nat.le_trans h.base_le h.cursor.1
  | release n read =>
      have le : s.popped + n ≤ s.pushed.length := Nat.le_trans read h.cursor.2
      obtain ⟨m, cached, old, room⟩ := h.cached
      refine ⟨h.ok.advance le rfl, h.mask, h.prod,
        ⟨m, cached, Nat.le_trans old (Nat.le_add_right _ _), room⟩, ?_, ⟨read, h.cursor.2⟩, h.taken,
        Nat.le_trans h.base_le (Nat.le_add_right _ _)⟩
      intro j a placed past
      obtain ⟨bound, value⟩ := h.placed j a placed past
      refine ⟨?_, value⟩
      show j < s.popped + n + 2 ^ k
      omega

theorem Inv.run (small : k ≤ 31) (h : Inv k base s) (run : Relation.ReflTransGen Step s s') :
    Inv k base s' := by
  induction run with
  | refl => exact h
  | tail _ step ih => exact ih.step small step

end Step

/-- What holds of a producing side in every state. -/
structure Sound (k base : Nat) (s : TxRing α) : Prop where
  counted : s.ring.freeSlots.2 ≤ 2 ^ k - (s.pushed.length - s.popped)
  granted : s.granted ≤ 2 ^ k - (s.pushed.length - s.popped)
  progress : s.pushed.length - s.popped < 2 ^ k → 0 < s.ring.freeSlots.2
  kept : ∀ i a, s.popped ≤ i → s.pushed[i]? = some a → s.ring.ring (i % 2 ^ k) = a
  taken : s.taken = (s.pushed.take s.cursor).drop base

theorem Inv.sound {k base : Nat} {s : TxRing α} (h : Inv k base s) (small : k ≤ 31) :
    Sound k base s where
  counted := by
    obtain ⟨m, -, old, count, -⟩ := h.freeSlots small
    have popped_le : s.popped ≤ s.pushed.length := h.ok.popped_le
    omega
  granted := by
    obtain ⟨m, -, old, room⟩ := h.cached
    have popped_le : s.popped ≤ s.pushed.length := h.ok.popped_le
    omega
  progress more := by
    obtain ⟨m, -, -, -, grew⟩ := h.freeSlots small
    have popped_le : s.popped ≤ s.pushed.length := h.ok.popped_le
    exact grew (by omega)
  kept i a old at_ := h.ok.window.holds i old a at_
  taken := h.taken

end TxRing

/-- Rings of two slots, mapped after one entry and empty. -/
def rxStart : RxRing Nat :=
  ⟨.fromMmap 1 1 (fun _ => 7) 2, [7], 1, 1, 0, fun _ => none, []⟩

def txStart : TxRing Nat := ⟨.fromMmap 0 0 (fun _ => 7) 2, [], 0, 0, fun _ => none, 0, []⟩

end AetherGraph
