import Mathlib.Data.List.Basic

/-! Disjoint sets as an array of parent pointers: climbing to the top of a set, compressing the
path behind the climb, and hanging one top under another. -/

namespace Foundation.ParentPointers

/-- `v` is at most `k` links below the top `r`. -/
inductive Climbs (parent : List Nat) (r : Nat) : Nat → Nat → Prop where
  | top (k : Nat) (fixed : parent[r]? = some r) : Climbs parent r k r
  | link {k v p : Nat} (up : parent[v]? = some p) (rest : Climbs parent r k p) :
      Climbs parent r (k + 1) v

/-- `while parent[r] != r`.  `none` is a pointer outside the array, or more than `fuel` links. -/
def find (parent : List Nat) : (fuel v : Nat) → Option Nat
  | 0, _ => none
  | fuel + 1, v => do
      let p ← parent[v]?
      if p = v then some v else find parent fuel p

/-- `while parent[x] != r`: point every node of the path at `r`. -/
def compress (r : Nat) : (fuel : Nat) → (parent : List Nat) → (x : Nat) → Option (List Nat)
  | 0, _, _ => none
  | fuel + 1, parent, x => do
      let next ← parent[x]?
      if next = r then some parent else compress r fuel (parent.set x r) next

variable {parent : List Nat}

namespace Climbs

theorem fixed {r k v : Nat} (h : Climbs parent r k v) : parent[r]? = some r := by
  induction h with
  | top _ fixed => exact fixed
  | link _ _ ih => exact ih

/-- A node that points at itself is the only top above itself. -/
theorem eq_of_fixed {r k v : Nat} (h : Climbs parent r k v) (top : parent[v]? = some v) : v = r := by
  induction h with
  | top => rfl
  | link up _ ih =>
      obtain rfl := Option.some.inj (up.symm.trans top)
      exact ih top

theorem unique {r s k l v : Nat} (hr : Climbs parent r k v) (hs : Climbs parent s l v) : r = s := by
  induction hr generalizing l with
  | top _ fixed => exact hs.eq_of_fixed fixed
  | link up rest ih =>
      cases hs with
      | top _ fixed =>
          obtain rfl := Option.some.inj (up.symm.trans fixed)
          exact (rest.eq_of_fixed fixed).symm
      | link up' rest' =>
          obtain rfl := Option.some.inj (up.symm.trans up')
          exact ih rest'

theorem succ {r k v : Nat} (h : Climbs parent r k v) : Climbs parent r (k + 1) v := by
  induction h with
  | top k fixed => exact .top _ fixed
  | link up _ ih => exact .link up ih

theorem find {r k v : Nat} (h : Climbs parent r k v) {fuel : Nat} (enough : k < fuel) :
    find parent fuel v = some r := by
  induction h generalizing fuel with
  | top _ fixed =>
      obtain ⟨fuel, rfl⟩ := Nat.exists_eq_succ_of_ne_zero (Nat.ne_of_gt (Nat.zero_lt_of_lt enough))
      simp only [ParentPointers.find, fixed, Option.bind_eq_bind, Option.bind_some, if_true]
  | @link k v p up rest ih =>
      obtain ⟨fuel, rfl⟩ := Nat.exists_eq_succ_of_ne_zero (Nat.ne_of_gt (Nat.zero_lt_of_lt enough))
      simp only [ParentPointers.find, up, Option.bind_eq_bind, Option.bind_some]
      split
      · rename_i same
        subst same
        rw [rest.eq_of_fixed up]
      · exact ih (Nat.lt_of_succ_lt_succ enough)

/-- Pointing a node at its own top keeps every climb. -/
theorem shortcut {r s j k v x : Nat} (below : Climbs parent r k x) (apart : x ≠ r)
    (h : Climbs parent s j v) : Climbs (parent.set x r) s j v := by
  have inside : x < parent.length := by
    cases below with
    | top => exact absurd rfl apart
    | link up => exact (List.getElem?_eq_some_iff.mp up).1
  have still : ∀ {t : Nat}, parent[t]? = some t → (parent.set x r)[t]? = some t := by
    intro t fixed
    rw [List.getElem?_set_ne, fixed]
    rintro rfl
    exact apart (below.eq_of_fixed fixed)
  induction h with
  | top k fixed => exact .top k (still fixed)
  | @link j v p up rest ih =>
      by_cases here : x = v
      · subst here
        obtain rfl : s = r := (Climbs.link up rest).unique below
        exact .link (List.getElem?_set_self inside) (.top j (still below.fixed))
      · exact .link ((List.getElem?_set_ne here).trans up) ih

/-- Compression returns, and keeps every climb. -/
theorem compress {r k x : Nat} (below : Climbs parent r k x) {fuel : Nat} (enough : k < fuel) :
    ∃ compressed, compress r fuel parent x = some compressed ∧
      compressed.length = parent.length ∧
      ∀ {s j v : Nat}, Climbs parent s j v → Climbs compressed s j v := by
  induction fuel generalizing parent k x with
  | zero => exact absurd enough (Nat.not_lt_zero k)
  | succ fuel ih =>
      unfold ParentPointers.compress
      cases below with
      | top k fixed =>
          rw [fixed, Option.bind_eq_bind, Option.bind_some, if_pos rfl]
          exact ⟨parent, rfl, rfl, id⟩
      | @link k x p up rest =>
          rw [up, Option.bind_eq_bind, Option.bind_some]
          split
          · exact ⟨parent, rfl, rfl, id⟩
          · rename_i apart
            have below : Climbs parent r (k + 1) x := .link up rest
            have lower : x ≠ r := by
              rintro rfl
              exact apart (Option.some.inj (up.symm.trans rest.fixed))
            obtain ⟨compressed, ran, length, kept⟩ :=
              ih (below.shortcut lower rest) (Nat.lt_of_succ_lt_succ enough)
            refine ⟨compressed, ran, length.trans List.length_set, fun h => ?_⟩
            exact kept (below.shortcut lower h)

/-- Hanging the top `u` under the top `c` makes the climb through `u` one link longer. -/
theorem merge {u c r k v : Nat} (apart : u ≠ c) (hu : parent[u]? = some u)
    (hc : parent[c]? = some c) (h : Climbs parent r k v) :
    Climbs (parent.set u c) (if r = u then c else r) (k + 1) v := by
  have inside : u < parent.length := (List.getElem?_eq_some_iff.mp hu).1
  induction h with
  | top k fixed =>
      split
      · rename_i same
        subst same
        exact .link (List.getElem?_set_self inside) (.top k ((List.getElem?_set_ne apart).trans hc))
      · rename_i other
        exact .top _ ((List.getElem?_set_ne (Ne.symm other)).trans fixed)
  | @link k v p up rest ih =>
      by_cases here : u = v
      · subst here
        obtain rfl := Option.some.inj (hu.symm.trans up)
        exact ih.succ
      · exact .link ((List.getElem?_set_ne here).trans up) ih

end Climbs

/-- Each of the nodes `0..n` is at most `k` links below its top. -/
structure Tops (parent : List Nat) (n k : Nat) (top : Nat → Nat) : Prop where
  length : parent.length = n
  inside : ∀ v < n, top v < n
  climbs : ∀ v < n, Climbs parent (top v) k v

namespace Tops

variable {n k : Nat} {top : Nat → Nat}

theorem range (n : Nat) : Tops (List.range n) n 0 id where
  length := List.length_range
  inside _ hv := hv
  climbs _ hv := .top 0 (List.getElem?_range hv)

theorem succ (h : Tops parent n k top) : Tops parent n (k + 1) top where
  length := h.length
  inside := h.inside
  climbs v hv := (h.climbs v hv).succ

theorem fixed_iff (h : Tops parent n k top) {v : Nat} (hv : v < n) :
    parent[v]? = some v ↔ top v = v := by
  constructor
  · intro fixed
    exact ((h.climbs v hv).eq_of_fixed fixed).symm
  · intro same
    have := (h.climbs v hv).fixed
    rwa [same] at this

theorem top_top (h : Tops parent n k top) {v : Nat} (hv : v < n) : top (top v) = top v :=
  (h.fixed_iff (h.inside v hv)).mp (h.climbs v hv).fixed

/-- A lookup in an array of `n` tops returns the top and an array with the same tops. -/
theorem lookup (h : Tops parent n k top) {v fuel : Nat} (hv : v < n) (enough : k < fuel) :
    ParentPointers.find parent fuel v = some (top v) ∧
      ∃ compressed, ParentPointers.compress (top v) fuel parent v = some compressed ∧
        Tops compressed n k top := by
  refine ⟨(h.climbs v hv).find enough, ?_⟩
  obtain ⟨compressed, ran, length, kept⟩ := (h.climbs v hv).compress enough
  exact ⟨compressed, ran, length.trans h.length, h.inside, fun w hw => kept (h.climbs w hw)⟩

theorem merge (h : Tops parent n k top) {u c : Nat} (hu : u < n) (hc : c < n) (apart : u ≠ c)
    (topU : top u = u) (topC : top c = c) :
    Tops (parent.set u c) n (k + 1) fun v => if top v = u then c else top v where
  length := List.length_set.trans h.length
  inside v hv := by
    split
    · exact hc
    · exact h.inside v hv
  climbs v hv :=
    (h.climbs v hv).merge apart ((h.fixed_iff hu).mpr topU) ((h.fixed_iff hc).mpr topC)

end Tops

end Foundation.ParentPointers
