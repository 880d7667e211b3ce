import Mathlib.Data.List.Basic

/-! A flag that some events raise and others take down: what is left of it after a run, and
what keeps it up. -/

namespace Foundation

inductive FlagEvent where
  | raise
  | take
  | skip
  deriving DecidableEq, Repr

namespace FlagEvent

def apply (up : Bool) : FlagEvent → Bool
  | raise => true
  | take => false
  | skip => up

/-- The flag after a run. -/
def run (up : Bool) (events : List FlagEvent) : Bool := events.foldl apply up

/-- Every take is followed by another raise. -/
def Raised (events : List FlagEvent) : Prop :=
  ∀ before after, events = before ++ take :: after → raise ∈ after

@[simp] theorem run_nil (up : Bool) : run up [] = up := rfl

theorem raised_nil : Raised [] := fun before after h => by
  simp at h

theorem raised_cons {e : FlagEvent} {events : List FlagEvent} :
    Raised (e :: events) ↔ (e = take → raise ∈ events) ∧ Raised events := by
  constructor
  · intro h
    refine ⟨?_, fun before after eq => h (e :: before) after (congrArg (e :: ·) eq)⟩
    rintro rfl
    exact h [] events rfl
  · rintro ⟨first, later⟩ before after eq
    cases before with
    | nil =>
        obtain ⟨rfl, rfl⟩ := List.cons.inj eq
        exact first rfl
    | cons e' before => exact later before after (List.cons.inj eq).2

/-- A flag is up after a run when something raised it and nothing has taken it since. -/
theorem run_iff (up : Bool) (events : List FlagEvent) :
    run up events = true ↔ (up = true ∨ raise ∈ events) ∧ Raised events := by
  induction events generalizing up with
  | nil => simp [raised_nil]
  | cons e events ih =>
      rw [raised_cons, List.mem_cons]
      refine (ih (apply up e)).trans ?_
      cases e with
      | raise => simp [apply]
      | take =>
          simp only [apply, Bool.false_eq_true, false_or, forall_const, reduceCtorEq, ← and_assoc]
          exact and_congr_left fun _ => ⟨fun h => ⟨.inr h, h⟩, And.right⟩
      | skip => simp [apply]

/-- A flag that was raised at all is up unless a take came last. -/
theorem run_iff_raised {up : Bool} {events : List FlagEvent} (raised : raise ∈ events) :
    run up events = true ↔ Raised events := by
  rw [run_iff]
  exact and_iff_right (.inr raised)

/-- Nothing but a take brings a flag down. -/
theorem run_of_untaken {events : List FlagEvent} (untaken : take ∉ events) :
    run true events = true := by
  refine (run_iff true events).mpr ⟨.inl rfl, fun before after eq => ?_⟩
  exact absurd (eq ▸ List.mem_append_right before List.mem_cons_self) untaken

end FlagEvent

end Foundation
