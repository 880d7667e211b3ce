import AetherGraph.Foundation.RingWindow
import Mathlib.Data.List.Range

/-! Rings filled by many producers.  A producer claims a ticket, writes its entry, and publishes it
once every earlier ticket is out; the consumer completes published entries in order and frees their
slots later. -/

namespace Foundation

/-- Where a producer is with its ticket. -/
inductive TicketPhase where
  | out
  | claimed (i : Nat)
  | writing (i : Nat)
  | written (i : Nat)
  | turn (i : Nat)
  | rung (i : Nat)
  deriving DecidableEq, Repr

def TicketPhase.ticket : TicketPhase → Option Nat
  | .out => none
  | .claimed i | .writing i | .written i | .turn i | .rung i => some i

/-- A slot is empty while its entry is partly written.  Requests are kept in claim order, published
tickets in the order they were published. -/
structure TicketRing (ι ρ σ : Type) where
  slot : Nat → Option σ
  phase : ι → TicketPhase
  posted : List ρ
  rung : List Nat
  done : List (Nat × ρ)
  completed : Nat
  retired : Nat

namespace TicketRing

variable {ι ρ σ : Type}

variable {entry : Nat → ρ → σ} {depth : Nat} {s s' : TicketRing ι ρ σ} {p : ι} {i : Nat}

/-- The slot of ticket `i` holds its entry. -/
def Holds (entry : Nat → ρ → σ) (depth : Nat) (s : TicketRing ι ρ σ) (i : Nat) : Prop :=
  ∀ r, s.posted[i]? = some r → s.slot (i % depth) = some (entry i r)

/-- What a producer in this phase knows. -/
def Ok (entry : Nat → ρ → σ) (depth : Nat) (s : TicketRing ι ρ σ) : TicketPhase → Prop
  | .out => True
  | .claimed i | .writing i => s.rung.length ≤ i ∧ i < s.posted.length
  | .written i => s.rung.length ≤ i ∧ i < s.posted.length ∧ Holds entry depth s i
  | .turn i => i = s.done.length ∧ s.rung.length = i ∧ i < s.posted.length ∧ Holds entry depth s i
  | .rung i => i = s.done.length ∧ s.rung.length = i + 1

structure Inv (entry : Nat → ρ → σ) (depth : Nat) (s : TicketRing ι ρ σ) : Prop where
  posted_le : s.posted.length ≤ s.retired + depth
  rung_le : s.rung.length ≤ s.posted.length
  done_le : s.done.length ≤ s.rung.length
  rung_le_done : s.rung.length ≤ s.done.length + 1
  completed_le : s.completed ≤ s.rung.length
  retired_le : s.retired ≤ s.completed
  rung_eq : s.rung = List.range s.rung.length
  done_eq : s.done = (s.posted.take s.done.length).zipIdx.map Prod.swap
  ok : ∀ p, Ok entry depth s (s.phase p)
  distinct : ∀ p q i, (s.phase p).ticket = some i → (s.phase q).ticket = some i → p = q
  kept : ∀ i, s.retired ≤ i → i < s.rung.length → Holds entry depth s i

/-- The ring before the first claim. -/
def start (slot : Nat → Option σ) : TicketRing ι ρ σ := ⟨slot, fun _ => .out, [], [], [], 0, 0⟩

theorem start_inv (slot : Nat → Option σ) : Inv entry depth (start slot : TicketRing ι ρ σ) where
  posted_le := Nat.zero_le _
  rung_le := Nat.le_refl _
  done_le := Nat.le_refl _
  rung_le_done := Nat.zero_le _
  completed_le := Nat.le_refl _
  retired_le := Nat.le_refl _
  rung_eq := rfl
  done_eq := rfl
  ok _ := trivial
  distinct := nofun
  kept := nofun

theorem Ok.ticket_lt {ph : TicketPhase} (ok : Ok entry depth s ph) (h : ph.ticket = some i)
    (rung_le : s.rung.length ≤ s.posted.length) : i < s.posted.length := by
  cases ph with
  | out => cases h
  | claimed j => obtain rfl := Option.some.inj h; exact ok.2
  | writing j => obtain rfl := Option.some.inj h; exact ok.2
  | written j => obtain rfl := Option.some.inj h; exact ok.2.1
  | turn j => obtain rfl := Option.some.inj h; exact ok.2.2.1
  | rung j =>
      obtain rfl := Option.some.inj h
      have := ok.2
      omega

namespace Inv

theorem ticket_lt (h : Inv entry depth s) (mine : (s.phase p).ticket = some i) :
    i < s.posted.length := (h.ok p).ticket_lt mine h.rung_le

/-- Tickets whose slots are not yet free do not share one. -/
theorem slot_ne (h : Inv entry depth s) {j : Nat} (hi : s.retired ≤ i) (hj : s.retired ≤ j)
    (lt : i < s.posted.length) (lt' : j < s.posted.length) (ne : i ≠ j) :
    i % depth ≠ j % depth := by
  have room := h.posted_le
  exact fun same => ne (eq_of_slot_eq (by omega) (by omega) same)

end Inv

/-- A slot written elsewhere leaves what a producer knows alone. -/
theorem Ok.congr {ph : TicketPhase} (ok : Ok entry depth s ph) (posted : s'.posted = s.posted)
    (rung : s'.rung = s.rung) (done : s'.done = s.done)
    (slots : ∀ j, ph.ticket = some j → s.rung.length ≤ j →
      s'.slot (j % depth) = s.slot (j % depth)) :
    Ok entry depth s' ph := by
  cases ph with
  | out => trivial
  | claimed j => rwa [Ok, rung, posted]
  | writing j => rwa [Ok, rung, posted]
  | written j =>
      rw [Ok, rung, posted, Holds, posted, slots j rfl ok.1]
      exact ok
  | turn j =>
      rw [Ok, rung, posted, done, Holds, posted, slots j rfl ok.2.1.le]
      exact ok
  | rung j => rwa [Ok, rung, done]

theorem Holds.grow (holds : Holds entry depth s i) (lt : i < s.posted.length) {r : ρ}
    (posted : s'.posted = s.posted ++ [r]) (slot : s'.slot = s.slot) :
    Holds entry depth s' i := by
  intro r' at_
  rw [posted, List.getElem?_append_left lt] at at_
  rw [slot]
  exact holds r' at_

theorem Ok.grow {ph : TicketPhase} (ok : Ok entry depth s ph) {r : ρ}
    (posted : s'.posted = s.posted ++ [r]) (rung : s'.rung = s.rung) (done : s'.done = s.done)
    (slot : s'.slot = s.slot) : Ok entry depth s' ph := by
  have longer : s'.posted.length = s.posted.length + 1 := by rw [posted, List.length_append]; rfl
  cases ph with
  | out => trivial
  | claimed j => exact ⟨rung ▸ ok.1, by have := ok.2; omega⟩
  | writing j => exact ⟨rung ▸ ok.1, by have := ok.2; omega⟩
  | written j =>
      exact ⟨rung ▸ ok.1, by have := ok.2.1; omega, ok.2.2.grow ok.2.1 posted slot⟩
  | turn j =>
      exact ⟨done ▸ ok.1, rung ▸ ok.2.1, by have := ok.2.2.1; omega,
        ok.2.2.2.grow ok.2.2.1 posted slot⟩
  | rung j => exact ⟨done ▸ ok.1, rung ▸ ok.2⟩

namespace Inv

theorem ticket_ne (h : Inv entry depth s) {q : ι} (ne : q ≠ p) {j : Nat}
    (mine : (s.phase p).ticket = some i) (theirs : (s.phase q).ticket = some j) : i ≠ j := by
  rintro rfl
  exact ne (h.distinct q p i theirs mine)

theorem retired_le_rung (h : Inv entry depth s) : s.retired ≤ s.rung.length :=
  h.retired_le.trans h.completed_le

theorem complete (h : Inv entry depth s) (published : s.completed < s.rung.length) :
    Inv entry depth { s with completed := s.completed + 1 } :=
  { h with completed_le := published, retired_le := h.retired_le.trans (Nat.le_succ _) }

theorem retire (h : Inv entry depth s) {n : Nat} (completed : s.retired + n ≤ s.completed) :
    Inv entry depth { s with retired := s.retired + n } :=
  { h with
    posted_le := h.posted_le.trans (by dsimp only; omega)
    retired_le := completed
    kept := fun i free => h.kept i (by dsimp only at free; omega) }

/-- Published entries not yet completed are in their slots. -/
theorem published (h : Inv entry depth s) (ge : s.completed ≤ i) (lt : i < s.rung.length) :
    Holds entry depth s i := h.kept i (h.retired_le.trans ge) lt

/-- Whatever shared the slot of an unpublished ticket is retired. -/
theorem slot_free (h : Inv entry depth s) (mine : (s.phase p).ticket = some i)
    (unpublished : s.rung.length ≤ i) {j : Nat} (lt : j < s.posted.length) (ne : j ≠ i)
    (same : j % depth = i % depth) : j < s.retired := by
  by_contra kept
  have free : s.retired ≤ i := h.retired_le_rung.trans unpublished
  exact h.slot_ne (Nat.le_of_not_lt kept) free lt (h.ticket_lt mine) ne same

variable [DecidableEq ι]

/-- Changing a producer's phase but not its ticket keeps tickets apart. -/
theorem distinct_update (h : Inv entry depth s) {ph : TicketPhase}
    (same : ph.ticket = (s.phase p).ticket) :
    ∀ q q' i, (Function.update s.phase p ph q).ticket = some i →
      (Function.update s.phase p ph q').ticket = some i → q = q' := by
  have keep : ∀ q, (Function.update s.phase p ph q).ticket = (s.phase q).ticket := by
    intro q
    by_cases here : q = p
    · rw [here, Function.update_self, same]
    · rw [Function.update_of_ne here]
  intro q q' i
  rw [keep, keep]
  exact h.distinct q q' i

/-- The other producers keep what they know, the stepping one learns it anew. -/
theorem ok_update {ph : TicketPhase} (mine : Ok entry depth s' ph)
    (others : ∀ q, q ≠ p → Ok entry depth s' (s.phase q)) :
    ∀ q, Ok entry depth s' (Function.update s.phase p ph q) := by
  intro q
  by_cases here : q = p
  · rw [here, Function.update_self]
    exact mine
  · rw [Function.update_of_ne here]
    exact others q here

theorem claim (h : Inv entry depth s) {r : ρ}
    (room : s.posted.length < s.retired + depth) : Inv entry depth { s with
      phase := Function.update s.phase p (.claimed s.posted.length)
      posted := s.posted ++ [r] } := by
  have longer : (s.posted ++ [r]).length = s.posted.length + 1 := List.length_append
  refine { h with
    posted_le := ?_, rung_le := ?_, done_eq := ?_, ok := ?_, distinct := ?_, kept := ?_ }
  · exact longer.le.trans room
  · exact h.rung_le.trans (longer.ge.trans' (Nat.le_succ _))
  · have le := h.done_le.trans h.rung_le
    dsimp only
    rw [List.take_append_of_le_length le]
    exact h.done_eq
  · refine ok_update ⟨h.rung_le, longer.ge⟩ fun q ne => (h.ok q).grow rfl rfl rfl rfl
  · have fresh : ∀ q, (s.phase q).ticket ≠ some s.posted.length := fun q mine =>
      (h.ticket_lt mine).ne rfl
    intro q q' i hq hq'
    dsimp only at hq hq'
    by_cases here : q = p
    · by_cases here' : q' = p
      · rw [here, here']
      · rw [here, Function.update_self] at hq
        rw [Function.update_of_ne here', ← Option.some.inj hq] at hq'
        exact absurd hq' (fresh q')
    · rw [Function.update_of_ne here] at hq
      by_cases here' : q' = p
      · rw [here', Function.update_self] at hq'
        rw [← Option.some.inj hq'] at hq
        exact absurd hq (fresh q)
      · rw [Function.update_of_ne here'] at hq'
        exact h.distinct q q' i hq hq'
  · exact fun i free lt => (h.kept i free lt).grow (lt.trans_le h.rung_le) rfl rfl

theorem rewrite (h : Inv entry depth s) {ph : TicketPhase} {v : Option σ}
    (mine : (s.phase p).ticket = some i) (unpublished : s.rung.length ≤ i)
    (same : ph.ticket = some i)
    (ok : Ok entry depth { s with slot := Function.update s.slot (i % depth) v } ph) :
    Inv entry depth { s with
      phase := Function.update s.phase p ph
      slot := Function.update s.slot (i % depth) v } := by
  have lt := h.ticket_lt mine
  have free : s.retired ≤ i := h.retired_le_rung.trans unpublished
  refine { h with ok := ?_, distinct := ?_, kept := ?_ }
  · refine ok_update ok fun q ne => (h.ok q).congr rfl rfl rfl fun j theirs unpublished' => ?_
    have free' : s.retired ≤ j := h.retired_le_rung.trans unpublished'
    have apart := h.slot_ne free free' lt (h.ticket_lt theirs) (h.ticket_ne ne mine theirs)
    exact Function.update_of_ne apart.symm _ _
  · exact h.distinct_update (same.trans mine.symm)
  · intro j free' lt' r at_
    have apart := h.slot_ne free' free (lt'.trans_le h.rung_le) lt (lt'.trans_le unpublished).ne
    show Function.update s.slot (i % depth) v (j % depth) = _
    rw [Function.update_of_ne apart]
    exact h.kept j free' lt' r at_

theorem write (h : Inv entry depth s) (claimed : s.phase p = .claimed i) :
    Inv entry depth { s with
      phase := Function.update s.phase p (.writing i)
      slot := Function.update s.slot (i % depth) none } := by
  have ok := h.ok p
  rw [claimed] at ok
  exact h.rewrite (by rw [claimed]; rfl) ok.1 rfl ok

theorem wrote (h : Inv entry depth s) {r : ρ} (writing : s.phase p = .writing i)
    (mine : s.posted[i]? = some r) : Inv entry depth { s with
      phase := Function.update s.phase p (.written i)
      slot := Function.update s.slot (i % depth) (some (entry i r)) } := by
  have ok := h.ok p
  rw [writing] at ok
  refine h.rewrite (by rw [writing]; rfl) ok.1 rfl ⟨ok.1, ok.2, fun r' at_ => ?_⟩
  obtain rfl := Option.some.inj (mine.symm.trans at_)
  exact Function.update_self _ _ _

theorem turn (h : Inv entry depth s) (written : s.phase p = .written i)
    (next : i = s.done.length) :
    Inv entry depth { s with phase := Function.update s.phase p (.turn i) } := by
  have ok := h.ok p
  rw [written] at ok
  have published : s.rung.length = i := by
    have := h.done_le
    have := ok.1
    omega
  refine { h with ok := ?_, distinct := h.distinct_update (by rw [written]; rfl) }
  exact ok_update ⟨next, published, ok.2⟩ fun q _ => h.ok q

theorem ring (h : Inv entry depth s) (turn : s.phase p = .turn i) : Inv entry depth { s with
      phase := Function.update s.phase p (.rung i)
      rung := s.rung ++ [i] } := by
  have ok := h.ok p
  rw [turn] at ok
  obtain ⟨next, published, lt, holds⟩ := ok
  have longer : (s.rung ++ [i]).length = s.rung.length + 1 := List.length_append
  have mine : (s.phase p).ticket = some i := by rw [turn]; rfl
  refine { h with
    rung_le := ?_, done_le := ?_, rung_le_done := ?_, completed_le := ?_, rung_eq := ?_, ok := ?_
    distinct := ?_, kept := ?_ }
  · dsimp only
    omega
  · exact h.done_le.trans (longer.ge.trans' (Nat.le_succ _))
  · dsimp only
    omega
  · exact h.completed_le.trans (longer.ge.trans' (Nat.le_succ _))
  · show s.rung ++ [i] = List.range (s.rung ++ [i]).length
    rw [longer, List.range_succ, ← h.rung_eq, published]
  · refine ok_update ⟨next, longer.trans (congrArg (· + 1) published)⟩ fun q ne => ?_
    have ok := h.ok q
    have apart := fun j => h.ticket_ne (j := j) ne mine
    revert ok apart
    cases s.phase q with
    | out => exact fun _ _ => trivial
    | claimed j =>
        intro ok apart
        have := apart j rfl
        exact ⟨by have := ok.1; dsimp only; omega, ok.2⟩
    | writing j =>
        intro ok apart
        have := apart j rfl
        exact ⟨by have := ok.1; dsimp only; omega, ok.2⟩
    | written j =>
        intro ok apart
        have := apart j rfl
        exact ⟨by have := ok.1; dsimp only; omega, ok.2⟩
    | turn j => exact fun ok apart => absurd (next.trans ok.1.symm) (apart j rfl)
    | rung j => exact fun ok apart => absurd (next.trans ok.1.symm) (apart j rfl)
  · exact h.distinct_update mine.symm
  · intro j free lt'
    dsimp only at lt'
    by_cases here : j = i
    · rw [here]
      exact holds
    · exact h.kept j free (by omega)

theorem finish (h : Inv entry depth s) {r : ρ} (rung : s.phase p = .rung i)
    (mine : s.posted[i]? = some r) : Inv entry depth { s with
      phase := Function.update s.phase p .out
      done := s.done ++ [(i, r)] } := by
  have ok := h.ok p
  rw [rung] at ok
  obtain ⟨next, published⟩ := ok
  have longer : (s.done ++ [(i, r)]).length = s.done.length + 1 := List.length_append
  have ticket : (s.phase p).ticket = some i := by rw [rung]; rfl
  refine { h with done_le := ?_, rung_le_done := ?_, done_eq := ?_, ok := ?_, distinct := ?_ }
  · dsimp only
    omega
  · exact h.rung_le_done.trans (by dsimp only; omega)
  · have le := h.done_le.trans h.rung_le
    dsimp only
    rw [longer, List.take_add_one, ← next, mine, Option.toList_some, List.zipIdx_append,
      List.map_append, next, ← h.done_eq, List.length_take, Nat.min_eq_left le]
    rw [Nat.zero_add]
    rfl
  · refine ok_update trivial fun q ne => ?_
    have ok := h.ok q
    have apart := fun j => h.ticket_ne (j := j) ne ticket
    revert ok apart
    cases s.phase q with
    | turn j => exact fun ok apart => absurd (next.trans ok.1.symm) (apart j rfl)
    | rung j => exact fun ok apart => absurd (next.trans ok.1.symm) (apart j rfl)
    | _ => exact fun ok _ => ok
  · have keep : ∀ q j, (Function.update s.phase p .out q).ticket = some j →
        (s.phase q).ticket = some j := by
      intro q j held
      by_cases here : q = p
      · rw [here, Function.update_self] at held
        cases held
      · rwa [Function.update_of_ne here] at held
    exact fun q q' j hq hq' => h.distinct q q' j (keep q j hq) (keep q' j hq')

end Inv

end TicketRing

end Foundation
