import Mathlib.Data.List.Basic

/-! Logs of events, each judged by the events before it. -/

namespace Foundation

variable {ε : Type}

/-- Every event is as it must be after those before it. -/
def Throughout (P : List ε → ε → Prop) (log : List ε) : Prop :=
  ∀ before e after, log = before ++ e :: after → P before e

variable {P : List ε → ε → Prop}

theorem throughout_nil : Throughout P [] := fun _ _ _ eq =>
  absurd eq.symm (List.append_ne_nil_of_right_ne_nil _ (List.cons_ne_nil _ _))

theorem Throughout.append {log more : List ε} (h : Throughout P log)
    (later : Throughout (fun before e => P (log ++ before) e) more) :
    Throughout P (log ++ more) := by
  intro before e after eq
  rcases List.append_eq_append_iff.mp eq with ⟨mid, first, rest⟩ | ⟨mid, first, rest⟩
  · rw [first]
    exact later mid e after rest
  · cases mid with
    | nil =>
        rw [List.append_nil] at first
        subst first
        have next : P (log ++ []) e := later [] e after rest.symm
        rwa [List.append_nil] at next
    | cons e' mid =>
        obtain ⟨rfl, rfl⟩ := List.cons.inj rest
        exact h before e mid first

theorem throughout_singleton {e : ε} (only : P [] e) : Throughout P [e] := by
  intro before e' after eq
  cases before with
  | nil =>
      obtain ⟨rfl, _⟩ := List.cons.inj eq
      exact only
  | cons b before =>
      have length := congrArg List.length eq
      simp at length

theorem Throughout.concat {log : List ε} (h : Throughout P log) {e : ε} (last : P log e) :
    Throughout P (log ++ [e]) :=
  h.append (throughout_singleton (by rwa [List.append_nil]))

theorem Throughout.imp {Q : List ε → ε → Prop} {log : List ε} (h : Throughout P log)
    (imp : ∀ before e, P before e → Q before e) : Throughout Q log :=
  fun before e after eq => imp before e (h before e after eq)

end Foundation
