import Mathlib.Data.List.Nodup
import Mathlib.Data.List.Perm.Basic

/-! Stores to distinct places of a buffer, in any order. -/

namespace Foundation

variable {α : Type}

/-- One store; a place past the end is none. -/
def scatter (out : List α) (s : Nat × α) : Option (List α) :=
  if s.1 < out.length then some (out.set s.1 s.2) else none

theorem scatter_all {stores : List (Nat × α)} (out : List α)
    (nodup : (stores.map Prod.fst).Nodup) (inside : ∀ s ∈ stores, s.1 < out.length) :
    ∃ out', stores.foldlM scatter out = some out' ∧ out'.length = out.length ∧
      (∀ s ∈ stores, out'[s.1]? = some s.2) ∧
      ∀ i, i ∉ stores.map Prod.fst → out'[i]? = out[i]? := by
  induction stores generalizing out with
  | nil => exact ⟨out, rfl, rfl, nofun, fun _ _ => rfl⟩
  | cons s stores ih =>
      rw [List.map_cons, List.nodup_cons] at nodup
      have here := inside s List.mem_cons_self
      obtain ⟨out', ran, length, stored, kept⟩ := ih (out.set s.1 s.2) nodup.2
        fun t ht => by
          rw [List.length_set]
          exact inside t (List.mem_cons_of_mem s ht)
      refine ⟨out', ?_, length.trans List.length_set, fun t ht => ?_, fun i hi => ?_⟩
      · rw [List.foldlM_cons, scatter, if_pos here]
        exact ran
      · rcases List.mem_cons.mp ht with rfl | later
        · rw [kept _ nodup.1, List.getElem?_set_self here]
        · exact stored t later
      · rw [List.map_cons, List.mem_cons, not_or] at hi
        rw [kept i hi.2, List.getElem?_set_ne (Ne.symm hi.1)]

/-- A list stored entry by entry, whatever the order, fills the front of the buffer. -/
theorem scatter_list {values : List α} (out : List α) {stores : List (Nat × α)}
    (all : stores.Perm (values.zipIdx.map Prod.swap)) (room : values.length ≤ out.length) :
    ∃ out', stores.foldlM scatter out = some out' ∧ out'.length = out.length ∧
      out'.take values.length = values ∧ out'.drop values.length = out.drop values.length := by
  have indices : (values.zipIdx.map Prod.swap).map Prod.fst = List.range values.length := by
    rw [List.map_map]
    show values.zipIdx.map Prod.snd = _
    rw [List.zipIdx_map_snd, List.range_eq_range']
  have places := (all.map Prod.fst).trans (List.Perm.of_eq indices)
  obtain ⟨out', ran, length, stored, kept⟩ := scatter_all out
    (places.nodup_iff.mpr List.nodup_range) fun s hs => by
      have := places.mem_iff.mp (List.mem_map_of_mem hs)
      exact Nat.lt_of_lt_of_le (List.mem_range.mp this) room
  refine ⟨out', ran, length, ?_, ?_⟩
  · refine List.ext_getElem? fun i => ?_
    rcases Nat.lt_or_ge i values.length with below | above
    · have mem : (i, values[i]) ∈ stores := by
        rw [all.mem_iff, List.mem_map]
        exact ⟨(values[i], i), List.mem_zipIdx_iff_getElem?.mpr (List.getElem?_eq_getElem below),
          rfl⟩
      rw [List.getElem?_take_of_lt below, stored _ mem, List.getElem?_eq_getElem below]
    · rw [List.getElem?_eq_none above, List.getElem?_eq_none]
      rw [List.length_take]
      omega
  · refine List.ext_getElem? fun i => ?_
    rw [List.getElem?_drop, List.getElem?_drop, kept]
    rw [places.mem_iff, List.mem_range]
    omega

end Foundation
