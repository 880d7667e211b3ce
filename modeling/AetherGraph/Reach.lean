import AetherGraph.SetInsert

/-! Which slots a root reaches, read off the arena itself. -/

namespace AetherGraph

open Foundation Foundation.LeafTree Tree

/-- Slot `i` of class `k` is found on a walk down from a tagged offset. -/
inductive Arena.Reach (a : Arena) : Nat → SlotClass → Nat → Prop where
  | leaf {off} : off ≠ null → isLeaf off = true → Reach a off .chunk off
  | node {off} : off ≠ null → isLeaf off = false → Reach a off .interior (stripTag off)
  | left {off k i} : off ≠ null → isLeaf off = false → Reach a (a.interiorAt off).left k i →
      Reach a off k i
  | right {off k i} : off ≠ null → isLeaf off = false → Reach a (a.interiorAt off).right k i →
      Reach a off k i

namespace Arena

theorem not_reach_null (a : Arena) (k : SlotClass) (i : Nat) : ¬ a.Reach null k i := by
  intro h
  cases h <;> contradiction

/-- Rewriting no reached slot changes nothing about what is reached. -/
theorem Reach.of_same {a a' : Arena} {off : Nat} {k : SlotClass} {i : Nat}
    (h : a'.Reach off k i) (same : ∀ k i, a.Reach off k i → SameNode a a' k i) :
    a.Reach off k i := by
  induction h with
  | leaf proper hl => exact .leaf proper hl
  | node proper hn => exact .node proper hn
  | @left off k i proper hn _ ih =>
      have own : a'.interiorAt off = a.interiorAt off := same _ _ (.node proper hn)
      rw [own] at ih
      exact .left proper hn (ih fun k i hi => same k i (.left proper hn hi))
  | @right off k i proper hn _ ih =>
      have own : a'.interiorAt off = a.interiorAt off := same _ _ (.node proper hn)
      rw [own] at ih
      exact .right proper hn (ih fun k i hi => same k i (.right proper hn hi))

/-- `Reach` by walking at most `fuel` nodes deep. -/
def reaches (a : Arena) (k : SlotClass) (i : Nat) : Nat → Nat → Bool
  | 0, _ => false
  | fuel + 1, off =>
      decide (off ≠ null) &&
        if isLeaf off then decide (k = .chunk) && decide (i = off)
        else decide (k = .interior) && decide (i = stripTag off) ||
          reaches a k i fuel (a.interiorAt off).left || reaches a k i fuel (a.interiorAt off).right

theorem reach_of_reaches {a : Arena} {k : SlotClass} {i fuel off : Nat}
    (h : a.reaches k i fuel off = true) : a.Reach off k i := by
  induction fuel generalizing off with
  | zero => cases h
  | succ fuel ih =>
      rw [reaches, Bool.and_eq_true, decide_eq_true_eq] at h
      obtain ⟨proper, h⟩ := h
      split at h
      · rename_i leaf
        simp only [Bool.and_eq_true, decide_eq_true_eq] at h
        obtain ⟨rfl, rfl⟩ := h
        exact .leaf proper leaf
      · rename_i node
        have node : isLeaf off = false := by simpa using node
        simp only [Bool.or_eq_true, Bool.and_eq_true, decide_eq_true_eq] at h
        rcases h with (⟨rfl, rfl⟩ | left) | right
        · exact .node proper node
        · exact .left proper node (ih left)
        · exact .right proper node (ih right)

end Arena

/-- What a tree's root reaches are the tree's slots. -/
theorem Tree.Laid.mem_slots {a : Arena} {t : Tree} (h : Laid a t) {k : SlotClass} {i : Nat}
    (hr : a.Reach (offset t) k i) : i ∈ t.slots k := by
  induction t generalizing k i with
  | leaf s ks =>
      have hl := isLeaf_of_lt (show s < 2 ^ 31 from h)
      cases hr with
      | leaf => exact List.mem_singleton_self s
      | node _ hn => rw [offset, hl] at hn; cases hn
      | left _ hn => rw [offset, hl] at hn; cases hn
      | right _ hn => rw [offset, hl] at hn; cases hn
  | node s key l r ihl ihr =>
      obtain ⟨top, left, right, -, laidL, laidR⟩ := id h
      have hs : s < 2 ^ 31 := top.trans_le (Nat.sub_le _ _)
      cases hr with
      | leaf _ hl => rw [offset, isLeaf_tagInterior hs] at hl; cases hl
      | node =>
          rw [offset, stripTag_tagInterior hs]
          exact List.mem_cons_self
      | left _ _ hr =>
          rw [offset, h.interiorAt, left] at hr
          exact mem_slots_left (ihl laidL hr)
      | right _ _ hr =>
          rw [offset, h.interiorAt, right] at hr
          exact mem_slots_right (ihr laidR hr)

theorem Tree.Laid.reach {a : Arena} {t : Tree} (h : Laid a t) {k : SlotClass} {i : Nat}
    (hi : i ∈ t.slots k) : a.Reach (offset t) k i := by
  induction t generalizing k i with
  | leaf s ks =>
      cases k with
      | chunk =>
          obtain rfl := List.mem_singleton.mp hi
          exact .leaf h.offset_lt.ne (isLeaf_of_lt h)
      | interior => exact absurd hi List.not_mem_nil
  | node s key l r ihl ihr =>
      obtain ⟨top, left, right, -, laidL, laidR⟩ := id h
      have hs : s < 2 ^ 31 := top.trans_le (Nat.sub_le _ _)
      have proper := h.offset_lt.ne
      have hn : isLeaf (offset (node s key l r)) = false := isLeaf_tagInterior hs
      have hl : i ∈ slots l k → a.Reach (offset (node s key l r)) k i := fun hi =>
        .left proper hn (by rw [offset, h.interiorAt, left]; exact ihl laidL hi)
      have hr : i ∈ slots r k → a.Reach (offset (node s key l r)) k i := fun hi =>
        .right proper hn (by rw [offset, h.interiorAt, right]; exact ihr laidR hi)
      cases k with
      | chunk => exact (List.mem_append.mp hi).elim hl hr
      | interior =>
          rcases List.mem_cons.mp hi with rfl | hi
          · have own := Arena.Reach.node (a := a) proper hn
            rwa [offset, stripTag_tagInterior hs] at own
          · exact (List.mem_append.mp hi).elim hl hr

theorem Tree.Laid.reach_iff {a : Arena} {t : Tree} (h : Laid a t) {k : SlotClass} {i : Nat} :
    a.Reach (offset t) k i ↔ i ∈ t.slots k := ⟨h.mem_slots, h.reach⟩

theorem Adj.Live.reach_iff {a : Arena} {t : Adj} (h : t.Live a) {k : SlotClass} {i : Nat} :
    a.Reach t.root k i ↔ i ∈ t.slots k := by
  cases t with
  | none => exact ⟨fun hr => absurd hr (a.not_reach_null k i), fun hi => absurd hi List.not_mem_nil⟩
  | some t => exact h.1.stored.laid.reach_iff

end AetherGraph
