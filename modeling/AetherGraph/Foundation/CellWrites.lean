import Mathlib.Data.List.Nodup
import Mathlib.Data.List.Perm.Basic

/-! Writes to the cells of a store.  Those to distinct cells leave the same store in every
order. -/

namespace Foundation

variable {α β : Type} [DecidableEq α]

/-- The store after the writes, first to last. -/
def writeCells (f : α → β) (writes : List (α × β)) : α → β :=
  writes.foldl (fun f w => Function.update f w.1 w.2) f

theorem writeCells_other {writes : List (α × β)} (f : α → β) {a : α}
    (absent : a ∉ writes.map Prod.fst) : writeCells f writes a = f a := by
  induction writes generalizing f with
  | nil => rfl
  | cons w writes ih =>
      rw [List.map_cons, List.mem_cons, not_or] at absent
      exact (ih _ absent.2).trans (Function.update_of_ne absent.1 _ _)

theorem writeCells_mem {writes : List (α × β)} (f : α → β)
    (nodup : (writes.map Prod.fst).Nodup) {a : α} {b : β} (mem : (a, b) ∈ writes) :
    writeCells f writes a = b := by
  induction writes generalizing f with
  | nil => cases mem
  | cons w writes ih =>
      obtain ⟨first, rest⟩ := List.nodup_cons.mp nodup
      rcases List.mem_cons.mp mem with rfl | later
      · exact (writeCells_other _ first).trans (Function.update_self ..)
      · exact ih _ rest later

end Foundation
