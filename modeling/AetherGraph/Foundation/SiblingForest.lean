import Mathlib.Data.List.Nodup
import Mathlib.Logic.Relation

/-! Forests kept in two pointer arrays, first child and next sibling: what a pointer stands for,
what a write leaves alone, and the walk that lists a forest with a stack of pointers. -/

namespace Foundation

/-- A node's first sibling, with the forest below it and the siblings after it. -/
inductive Siblings (α : Type) where
  | none
  | cons (node : α) (children next : Siblings α)

namespace Siblings

variable {α : Type}

def preorder : Siblings α → List α
  | none => []
  | cons v children next => v :: (children.preorder ++ next.preorder)

variable (null : α) (first next : α → Option α)

/-- The pointer `p` stands for the forest. -/
def Linked : α → Siblings α → Prop
  | p, none => p = null
  | p, cons v children siblings =>
      p = v ∧ v ≠ null ∧ (∃ c, first v = some c ∧ Linked c children) ∧
        ∃ s, next v = some s ∧ Linked s siblings

/-- The nodes met from a pointer along the sibling links. -/
inductive Chain : α → α → Prop where
  | here {p : α} (node : p ≠ null) : Chain p p
  | along {p s c : α} (node : p ≠ null) (link : next p = some s) (rest : Chain s c) : Chain p c

def Child (v c : α) : Prop := ∃ p, first v = some p ∧ Chain null next p c

/-- `w` is `v` or lies below it. -/
def Subtree : α → α → Prop := Relation.ReflTransGen (Child null first next)

variable {null first next}

theorem Linked.mem_preorder {p : α} {f : Siblings α} (h : Linked null first next p f) {w : α} :
    w ∈ f.preorder ↔ ∃ c, Chain null next p c ∧ Subtree null first next c w := by
  induction f generalizing p with
  | none =>
      refine ⟨fun absent => absurd absent List.not_mem_nil, ?_⟩
      rintro ⟨c, chain, -⟩
      cases chain with
      | here node => exact absurd h node
      | along node => exact absurd h node
  | cons v children siblings below after =>
      obtain ⟨rfl, node, ⟨c, child, children_⟩, s, sibling, siblings_⟩ := h
      rw [preorder, List.mem_cons, List.mem_append, below children_, after siblings_]
      constructor
      · rintro (rfl | ⟨c', chain, sub⟩ | ⟨c', chain, sub⟩)
        · exact ⟨w, .here node, .refl⟩
        · exact ⟨p, .here node, .head ⟨c, child, chain⟩ sub⟩
        · exact ⟨c', .along node sibling chain, sub⟩
      · rintro ⟨c', chain, sub⟩
        cases chain with
        | here =>
            rcases Relation.ReflTransGen.cases_head sub with rfl | ⟨d, ⟨p', child', chain⟩, sub⟩
            · exact .inl rfl
            · obtain rfl : c = p' := Option.some.inj (child.symm.trans child')
              exact .inr (.inl ⟨d, chain, sub⟩)
        | along _ link rest =>
            obtain rfl : s = _ := Option.some.inj (sibling.symm.trans link)
            exact .inr (.inr ⟨c', rest, sub⟩)

/-- A node followed by the forest under its child pointer is its subtree. -/
theorem Linked.subtree {v c : α} {children : Siblings α} (child : first v = some c)
    (h : Linked null first next c children) {w : α} :
    w ∈ v :: children.preorder ↔ Subtree null first next v w := by
  rw [List.mem_cons, h.mem_preorder]
  constructor
  · rintro (rfl | ⟨d, chain, sub⟩)
    · exact .refl
    · exact .head ⟨c, child, chain⟩ sub
  · intro sub
    rcases Relation.ReflTransGen.cases_head sub with rfl | ⟨d, ⟨p, child', chain⟩, sub⟩
    · exact .inl rfl
    · obtain rfl : c = p := Option.some.inj (child.symm.trans child')
      exact .inr ⟨d, chain, sub⟩

/-- In preorder a node stands right before the forest below it. -/
theorem Linked.infix_preorder {p : α} {f : Siblings α} (h : Linked null first next p f) {v : α}
    (hv : v ∈ f.preorder) :
    ∃ c children, first v = some c ∧ Linked null first next c children ∧
      (v :: children.preorder) <:+: f.preorder := by
  induction f generalizing p with
  | none => exact absurd hv List.not_mem_nil
  | cons top children siblings below after =>
      obtain ⟨rfl, -, ⟨c, child, children_⟩, s, -, siblings_⟩ := h
      rw [preorder, List.mem_cons, List.mem_append] at hv
      rcases hv with rfl | inside | beside
      · exact ⟨c, children, child, children_, [], siblings.preorder, rfl⟩
      · obtain ⟨c', children', child', linked, before, behind, split⟩ := below children_ inside
        refine ⟨c', children', child', linked, p :: before, behind ++ siblings.preorder, ?_⟩
        rw [preorder, ← split]
        simp only [List.cons_append, List.append_assoc]
      · obtain ⟨c', children', child', linked, before, behind, split⟩ := after siblings_ beside
        refine ⟨c', children', child', linked, p :: (children.preorder ++ before), behind, ?_⟩
        rw [preorder, ← split]
        simp only [List.cons_append, List.append_assoc]

/-- Writes outside a forest leave it alone. -/
theorem Linked.frame {first' next' : α → Option α} {p : α} {f : Siblings α}
    (h : Linked null first next p f)
    (same : ∀ v ∈ f.preorder, first' v = first v ∧ next' v = next v) :
    Linked null first' next' p f := by
  induction f generalizing p with
  | none => exact h
  | cons v children siblings below after =>
      obtain ⟨rfl, node, ⟨c, child, children_⟩, s, sibling, siblings_⟩ := h
      obtain ⟨firstSame, nextSame⟩ := same p List.mem_cons_self
      refine ⟨rfl, node, ⟨c, firstSame.trans child, below children_ fun v hv => ?_⟩, s,
        nextSame.trans sibling, after siblings_ fun v hv => ?_⟩
      · exact same v (List.mem_cons_of_mem _ (List.mem_append_left _ hv))
      · exact same v (List.mem_cons_of_mem _ (List.mem_append_right _ hv))

/-- The nodes at the head of the forest, in sibling order. -/
def heads : Siblings α → List α
  | none => []
  | cons v _ next => v :: next.heads

theorem heads_sublist (f : Siblings α) : f.heads.Sublist f.preorder := by
  induction f with
  | none => exact List.Sublist.refl _
  | cons v children next _ ih =>
      exact (ih.trans (List.sublist_append_right _ _)).cons_cons v

/-- `while c != null`: run `body` on each node of a sibling list. -/
def along {β : Type} [DecidableEq α] (null : α) (next : α → Option α) (body : β → α → Option β) :
    (fuel : Nat) → α → β → Option β
  | 0, _, _ => Option.none
  | fuel + 1, c, b =>
      if c = null then some b
      else do
        let b ← body b c
        let s ← next c
        along null next body fuel s b

theorem Linked.along {β : Type} [DecidableEq α] {p : α} {f : Siblings α}
    (h : Linked null first next p f) (body : β → α → Option β) {fuel : Nat}
    (enough : f.heads.length < fuel) (b : β) :
    along null next body fuel p b = f.heads.foldlM body b := by
  induction f generalizing p fuel b with
  | none =>
      obtain ⟨fuel, rfl⟩ := Nat.exists_eq_succ_of_ne_zero (Nat.ne_of_gt (Nat.zero_lt_of_lt enough))
      exact if_pos h
  | cons v children siblings _ after =>
      obtain ⟨rfl, node, -, s, sibling, siblings_⟩ := h
      obtain ⟨fuel, rfl⟩ := Nat.exists_eq_succ_of_ne_zero (Nat.ne_of_gt (Nat.zero_lt_of_lt enough))
      rw [heads, List.foldlM_cons, Siblings.along, if_neg node]
      cases body b p with
      | none => rfl
      | some b' =>
          rw [sibling]
          exact after siblings_ (Nat.lt_of_succ_lt_succ enough) b'

variable (null first next)

/-- List the forests on a stack of pointers.  `Option.none` is a pointer outside memory, or more
steps than `fuel`. -/
def walk [DecidableEq α] : (fuel : Nat) → (stack out : List α) → Option (List α)
  | 0, _, _ => Option.none
  | _ + 1, [], out => some out
  | fuel + 1, c :: stack, out =>
      if c = null then walk fuel stack out
      else do
        let sibling ← next c
        let child ← first c
        walk fuel (child :: sibling :: stack) (out ++ [c])

variable {null first next}

theorem Linked.walk [DecidableEq α] {p : α} {f : Siblings α} (h : Linked null first next p f)
    (fuel : Nat) (stack out : List α) :
    walk null first next (fuel + (2 * f.preorder.length + 1)) (p :: stack) out =
      walk null first next fuel stack (out ++ f.preorder) := by
  induction f generalizing p fuel stack out with
  | none =>
      obtain rfl : p = null := h
      simp [preorder, Siblings.walk]
  | cons v children siblings below after =>
      obtain ⟨rfl, node, ⟨c, child, children_⟩, s, sibling, siblings_⟩ := h
      have steps : fuel + (2 * (cons p children siblings).preorder.length + 1) =
          fuel + (2 * siblings.preorder.length + 1) + (2 * children.preorder.length + 1) + 1 := by
        rw [preorder, List.length_cons, List.length_append]
        omega
      rw [steps, Siblings.walk, if_neg node, sibling, child]
      simp only [Option.bind_eq_bind, Option.bind_some]
      rw [below children_, after siblings_, preorder]
      simp only [List.append_assoc, List.cons_append, List.nil_append]

end Siblings

end Foundation
