import Mathlib.Data.List.Sort

/-! A priority queue whose dead entries are dropped when they come up, and whose live but held ones
are put back. -/

namespace Foundation

variable {α : Type} (le : α → α → Prop) [DecidableRel le]

/-- The queue in its order; entries may repeat. -/
def pushAll (queue : List α) (entries : List α) : List α :=
  entries.foldl (fun queue a => queue.orderedInsert le a) queue

section Pop

variable (live held : α → Prop) [DecidablePred live] [DecidablePred held]

/-- The first entry that is live and not held, the held ones before it, and what is left. -/
def popLive : List α → Option α × List α × List α
  | [] => (none, [], [])
  | a :: rest =>
      if live a then
        if held a then
          let popped := popLive rest
          (popped.1, a :: popped.2.1, popped.2.2)
        else (some a, [], rest)
      else popLive rest

end Pop

section Push

variable {le}

theorem mem_pushAll {queue entries : List α} {a : α} :
    a ∈ pushAll le queue entries ↔ a ∈ queue ∨ a ∈ entries := by
  induction entries generalizing queue with
  | nil => simp [pushAll]
  | cons b entries ih =>
      show a ∈ pushAll le (queue.orderedInsert le b) entries ↔ _
      rw [ih, List.mem_orderedInsert, List.mem_cons]
      tauto

theorem pairwise_pushAll [Std.Total le] [IsTrans α le] {queue entries : List α}
    (sorted : queue.Pairwise le) : (pushAll le queue entries).Pairwise le := by
  induction entries generalizing queue with
  | nil => exact sorted
  | cons b entries ih => exact ih (sorted.orderedInsert b _)

end Push

section Spec

variable {le} {live held : α → Prop} [DecidablePred live] [DecidablePred held]

/-- Every live entry is the popped one, put aside, or left; only live, held entries are put
aside, and what is left is of the queue. -/
theorem popLive_kept {queue : List α} :
    (∀ a ∈ queue, live a → (popLive live held queue).1 = some a ∨
        a ∈ (popLive live held queue).2.1 ∨ a ∈ (popLive live held queue).2.2) ∧
      (popLive live held queue).2.2.Sublist queue := by
  induction queue with
  | nil => exact ⟨fun a mem => absurd mem List.not_mem_nil, List.Sublist.refl []⟩
  | cons b rest ih =>
      unfold popLive
      split_ifs with alive kept
      · refine ⟨List.forall_mem_cons.mpr ⟨fun _ => .inr (.inl List.mem_cons_self), ?_⟩,
          ih.2.cons b⟩
        intro a mem here
        exact (ih.1 a mem here).imp_right (Or.imp_left (List.mem_cons_of_mem b))
      · exact ⟨List.forall_mem_cons.mpr ⟨fun _ => .inl rfl, fun a mem _ => .inr (.inr mem)⟩,
          List.sublist_cons_self b rest⟩
      · exact ⟨List.forall_mem_cons.mpr ⟨fun here => absurd here alive, ih.1⟩, ih.2.cons b⟩

theorem popLive_none {queue : List α} (empty : (popLive live held queue).1 = none) :
    (∀ a ∈ queue, live a → held a) ∧ (popLive live held queue).2.2 = [] := by
  induction queue with
  | nil => exact ⟨fun a mem => absurd mem List.not_mem_nil, rfl⟩
  | cons b rest ih =>
      unfold popLive at empty ⊢
      split_ifs at empty ⊢ with alive kept
      · exact ⟨List.forall_mem_cons.mpr ⟨fun _ => kept, (ih empty).1⟩, (ih empty).2⟩
      · exact ⟨List.forall_mem_cons.mpr ⟨fun here => absurd here alive, (ih empty).1⟩,
          (ih empty).2⟩

omit [DecidableRel le] in
/-- The popped entry comes first among the live ones that are not held. -/
theorem popLive_some {queue : List α} (sorted : queue.Pairwise le) {a : α}
    (popped : (popLive live held queue).1 = some a) :
    a ∈ queue ∧ live a ∧ ¬held a ∧ ∀ b ∈ queue, live b → ¬held b → b = a ∨ le a b := by
  induction queue with
  | nil => cases popped
  | cons b rest ih =>
      obtain ⟨first, sorted⟩ := List.pairwise_cons.mp sorted
      unfold popLive at popped
      split_ifs at popped with alive kept
      · obtain ⟨mem, here, free, least⟩ := ih sorted popped
        exact ⟨List.mem_cons_of_mem b mem, here, free,
          List.forall_mem_cons.mpr ⟨fun _ loose => absurd kept loose, least⟩⟩
      · obtain rfl := Option.some.inj popped
        exact ⟨List.mem_cons_self, alive, kept,
          List.forall_mem_cons.mpr ⟨fun _ _ => .inl rfl, fun c mem _ _ => .inr (first c mem)⟩⟩
      · obtain ⟨mem, here, free, least⟩ := ih sorted popped
        exact ⟨List.mem_cons_of_mem b mem, here, free,
          List.forall_mem_cons.mpr ⟨fun live' => absurd live' alive, least⟩⟩

end Spec

end Foundation
