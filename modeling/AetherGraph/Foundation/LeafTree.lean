import Mathlib.Data.List.Sort

/-! Leaf-oriented search trees whose nodes carry the address they are stored at.
Keys live in the leaves only; an interior node holds a separator.  A search for a
key walks one root-to-leaf path, and path copying replaces the subtree at some
depth of that path while giving every ancestor a new address.  Nothing here
allocates: the addresses are data, so sharing is visible as equal addresses. -/

namespace Foundation

/-- `leaf` holds keys; `node` holds a separator, its left keys below it. -/
inductive LeafTree (α ι : Type) where
  | leaf (slot : ι) (keys : List α)
  | node (slot : ι) (key : α) (left right : LeafTree α ι)
  deriving Repr, DecidableEq

namespace LeafTree

variable {α ι : Type}

def elems : LeafTree α ι → List α
  | leaf _ ks => ks
  | node _ _ l r => l.elems ++ r.elems

def leafSlots : LeafTree α ι → List ι
  | leaf s _ => [s]
  | node _ _ l r => l.leafSlots ++ r.leafSlots

/-- Preorder: a node before everything below it, left before right. -/
def nodeSlots : LeafTree α ι → List ι
  | leaf _ _ => []
  | node s _ l r => s :: (l.nodeSlots ++ r.nodeSlots)

/-- Interior nodes on the longest root-to-leaf path. -/
def depth : LeafTree α ι → Nat
  | leaf _ _ => 0
  | node _ _ l r => max l.depth r.depth + 1

/-- Most left turns on one root-to-leaf path: the pending right subtrees an
in-order walk keeps at once. -/
def leftDepth : LeafTree α ι → Nat
  | leaf _ _ => 0
  | node _ _ l r => max (l.leftDepth + 1) r.leftDepth

theorem leftDepth_le_depth (t : LeafTree α ι) : t.leftDepth ≤ t.depth := by
  induction t with
  | leaf => exact Nat.le_refl 0
  | node s key l r ihl ihr =>
      simp only [leftDepth, depth]
      omega

theorem leafSlots_length (t : LeafTree α ι) :
    t.leafSlots.length = t.nodeSlots.length + 1 := by
  induction t with
  | leaf => rfl
  | node s key l r ihl ihr =>
      simp only [leafSlots, nodeSlots, List.length_append, List.length_cons]
      omega

/-- `Below s t`: `s` is `t` or one of the trees under it. -/
inductive Below : LeafTree α ι → LeafTree α ι → Prop where
  | refl (t) : Below t t
  | left {s l} (slot key r) : Below s l → Below s (node slot key l r)
  | right {s r} (slot key l) : Below s r → Below s (node slot key l r)

theorem Below.elems_sublist {s t : LeafTree α ι} (h : Below s t) : s.elems.Sublist t.elems := by
  induction h with
  | refl => exact List.Sublist.refl _
  | left _ _ r _ ih => exact ih.trans (List.sublist_append_left _ _)
  | right _ _ l _ ih => exact ih.trans (List.sublist_append_right _ _)

theorem exists_leaf_of_mem_leafSlots {t : LeafTree α ι} {i : ι} (h : i ∈ t.leafSlots) :
    ∃ ks, Below (leaf i ks) t := by
  induction t with
  | leaf s ks =>
      obtain rfl := List.mem_singleton.mp h
      exact ⟨ks, .refl _⟩
  | node s key l r ihl ihr =>
      rcases List.mem_append.mp h with h | h
      · obtain ⟨ks, hb⟩ := ihl h
        exact ⟨ks, .left s key r hb⟩
      · obtain ⟨ks, hb⟩ := ihr h
        exact ⟨ks, .right s key l hb⟩

theorem exists_node_of_mem_nodeSlots {t : LeafTree α ι} {i : ι} (h : i ∈ t.nodeSlots) :
    ∃ key l r, Below (node i key l r) t := by
  induction t with
  | leaf s ks => exact absurd h List.not_mem_nil
  | node s key l r ihl ihr =>
      rcases List.mem_cons.mp h with rfl | h
      · exact ⟨key, l, r, .refl _⟩
      · rcases List.mem_append.mp h with h | h
        · obtain ⟨key', l', r', hb⟩ := ihl h
          exact ⟨key', l', r', .left s key r hb⟩
        · obtain ⟨key', l', r', hb⟩ := ihr h
          exact ⟨key', l', r', .right s key l hb⟩

section Search

variable [LinearOrder α]

/-- Leaves hold between one and `cap` strictly ascending keys, and every separator
is above its left keys and at most its right keys. -/
def WellFormed (cap : Nat) : LeafTree α ι → Prop
  | leaf _ ks => ks ≠ [] ∧ ks.length ≤ cap ∧ ks.Pairwise (· < ·)
  | node _ key l r => l.WellFormed cap ∧ r.WellFormed cap ∧
      (∀ x ∈ l.elems, x < key) ∧ ∀ x ∈ r.elems, key ≤ x

theorem WellFormed.elems_sorted {cap : Nat} {t : LeafTree α ι} (h : t.WellFormed cap) :
    t.elems.Pairwise (· < ·) := by
  induction t with
  | leaf s ks => exact h.2.2
  | node s key l r ihl ihr =>
      obtain ⟨hl, hr, below, above⟩ := h
      refine List.pairwise_append.mpr ⟨ihl hl, ihr hr, ?_⟩
      intro a ha b hb
      exact (below a ha).trans_le (above b hb)

theorem WellFormed.elems_ne_nil {cap : Nat} {t : LeafTree α ι} (h : t.WellFormed cap) :
    t.elems ≠ [] := by
  induction t with
  | leaf s ks => exact h.1
  | node s key l r ihl _ =>
      intro empty
      exact ihl h.1 (List.append_eq_nil_iff.mp empty).1

theorem Below.wellFormed {cap : Nat} {s t : LeafTree α ι} (h : Below s t)
    (wf : t.WellFormed cap) : s.WellFormed cap := by
  induction h with
  | refl => exact wf
  | left _ _ _ _ ih => exact ih wf.1
  | right _ _ _ _ ih => exact ih wf.2.1

/-- Interior nodes on the search path of `v`. -/
def pathLength (v : α) : LeafTree α ι → Nat
  | leaf _ _ => 0
  | node _ key l r => (if v < key then l.pathLength v else r.pathLength v) + 1

theorem pathLength_le_depth (v : α) (t : LeafTree α ι) : t.pathLength v ≤ t.depth := by
  induction t with
  | leaf => exact Nat.le_refl 0
  | node s key l r ihl ihr =>
      simp only [pathLength, depth]
      split <;> omega

/-- The subtree the search for `v` has reached after `n` steps. -/
def subtreeAt (v : α) : Nat → LeafTree α ι → LeafTree α ι
  | 0, t => t
  | _ + 1, leaf s ks => leaf s ks
  | n + 1, node _ key l r => if v < key then l.subtreeAt v n else r.subtreeAt v n

@[simp] theorem subtreeAt_zero (v : α) (t : LeafTree α ι) : t.subtreeAt v 0 = t := by
  cases t <;> rfl

/-- What `f` collects left of the first `n` steps of the search for `v`. -/
def leftOf {β : Type} (f : LeafTree α ι → List β) (v : α) : Nat → LeafTree α ι → List β
  | 0, _ => []
  | _ + 1, leaf _ _ => []
  | n + 1, node _ key l r => if v < key then leftOf f v n l else f l ++ leftOf f v n r

def rightOf {β : Type} (f : LeafTree α ι → List β) (v : α) : Nat → LeafTree α ι → List β
  | 0, _ => []
  | _ + 1, leaf _ _ => []
  | n + 1, node _ key l r => if v < key then rightOf f v n l ++ f r else rightOf f v n r

/-- Addresses of the first `n` nodes on the search path of `v`, root first. -/
def pathSlots (v : α) : Nat → LeafTree α ι → List ι
  | 0, _ => []
  | _ + 1, leaf _ _ => []
  | n + 1, node s key l r => s :: if v < key then l.pathSlots v n else r.pathSlots v n

/-- Path copying: `sub` replaces the subtree `slots.length` steps down the search
path of `v`, and the ancestors are copied to `slots`, root first. -/
def graft (v : α) : LeafTree α ι → List ι → LeafTree α ι → LeafTree α ι
  | _, [], sub => sub
  | leaf _ _, _ :: _, sub => sub
  | node _ key l r, s :: ss, sub =>
      if v < key then node s key (l.graft v ss sub) r else node s key l (r.graft v ss sub)

@[simp] theorem graft_nil (v : α) (t sub : LeafTree α ι) : t.graft v [] sub = sub := by
  cases t <;> rfl

/-- An in-order collection of a tree is that of the subtree reached, between what
lies left and right of the path. -/
theorem inorder_split {β : Type} {f : LeafTree α ι → List β}
    (hf : ∀ s key l r, f (node s key l r) = f l ++ f r) (v : α) (n : Nat)
    (t : LeafTree α ι) :
    f t = leftOf f v n t ++ f (t.subtreeAt v n) ++ rightOf f v n t := by
  induction t generalizing n with
  | leaf s ks => cases n <;> simp [leftOf, rightOf, subtreeAt]
  | node s key l r ihl ihr =>
      cases n with
      | zero => simp [leftOf, rightOf, subtreeAt]
      | succ n =>
          simp only [leftOf, rightOf, subtreeAt, hf]
          split
          · rw [ihl n]
            simp only [List.append_assoc]
          · rw [ihr n]
            simp only [List.append_assoc]

theorem inorder_graft {β : Type} {f : LeafTree α ι → List β}
    (hf : ∀ s key l r, f (node s key l r) = f l ++ f r) (v : α) (sub : LeafTree α ι)
    (ss : List ι) (t : LeafTree α ι) :
    f (t.graft v ss sub) = leftOf f v ss.length t ++ f sub ++ rightOf f v ss.length t := by
  induction t generalizing ss with
  | leaf s ks => cases ss <;> simp [leftOf, rightOf, graft]
  | node s key l r ihl ihr =>
      cases ss with
      | nil => simp [leftOf, rightOf, graft]
      | cons s' ss =>
          simp only [leftOf, rightOf, graft, List.length_cons]
          split
          · rw [hf, ihl ss]
            simp only [List.append_assoc]
          · rw [hf, ihr ss]
            simp only [List.append_assoc]

theorem elems_split (v : α) (n : Nat) (t : LeafTree α ι) :
    t.elems = leftOf elems v n t ++ (t.subtreeAt v n).elems ++ rightOf elems v n t :=
  inorder_split (fun _ _ _ _ => rfl) v n t

theorem elems_graft (v : α) (sub : LeafTree α ι) (ss : List ι) (t : LeafTree α ι) :
    (t.graft v ss sub).elems =
      leftOf elems v ss.length t ++ sub.elems ++ rightOf elems v ss.length t :=
  inorder_graft (fun _ _ _ _ => rfl) v sub ss t

theorem orderedInsert_between {v : α} {left right : List α} (mid : List α)
    (below : ∀ x ∈ left, x < v) (above : ∀ x ∈ right, v < x) :
    (left ++ mid ++ right).orderedInsert (· ≤ ·) v =
      left ++ mid.orderedInsert (· ≤ ·) v ++ right := by
  have tail : (mid ++ right).orderedInsert (· ≤ ·) v =
      mid.orderedInsert (· ≤ ·) v ++ right := by
    induction mid with
    | nil =>
        cases right with
        | nil => rfl
        | cons y ys =>
            have hy : v ≤ y := (above y (List.mem_cons_self ..)).le
            simp [hy]
    | cons y ys ih =>
        by_cases hy : v ≤ y
        · simp [hy]
        · simp [hy, ih]
  induction left with
  | nil => exact tail
  | cons y ys ih =>
      have hy : ¬ v ≤ y := not_le.mpr (below y (List.mem_cons_self ..))
      simp only [List.cons_append, List.orderedInsert_cons, hy, if_false]
      rw [ih fun x hx => below x (List.mem_cons_of_mem y hx)]

theorem pairwise_orderedInsert {l : List α} (sorted : l.Pairwise (· < ·)) {v : α}
    (fresh : v ∉ l) : (l.orderedInsert (· ≤ ·) v).Pairwise (· < ·) := by
  induction l with
  | nil => exact List.pairwise_singleton _ v
  | cons y ys ih =>
      obtain ⟨hy, hys⟩ := List.pairwise_cons.mp sorted
      rw [List.mem_cons, not_or] at fresh
      rw [List.orderedInsert_cons]
      split
      · rename_i le
        have lt : v < y := lt_of_le_of_ne le fresh.1
        refine List.pairwise_cons.mpr ⟨fun x hx => ?_, sorted⟩
        rcases List.mem_cons.mp hx with rfl | hx
        · exact lt
        · exact lt.trans (hy x hx)
      · rename_i le
        refine List.pairwise_cons.mpr ⟨fun x hx => ?_, ih hys fresh.2⟩
        rcases (List.mem_orderedInsert _).mp hx with rfl | hx
        · exact not_le.mp le
        · exact hy x hx

theorem lt_of_mem_leftOf {cap : Nat} {t : LeafTree α ι} (h : t.WellFormed cap) {v x : α}
    {n : Nat} (hx : x ∈ leftOf elems v n t) : x < v := by
  induction t generalizing n with
  | leaf s ks => cases n <;> simp [leftOf] at hx
  | node s key l r ihl ihr =>
      cases n with
      | zero => simp [leftOf] at hx
      | succ n =>
          simp only [leftOf] at hx
          split at hx
          · exact ihl h.1 hx
          · rename_i hv
            rcases List.mem_append.mp hx with hx | hx
            · exact (h.2.2.1 x hx).trans_le (not_lt.mp hv)
            · exact ihr h.2.1 hx

theorem lt_of_mem_rightOf {cap : Nat} {t : LeafTree α ι} (h : t.WellFormed cap) {v x : α}
    {n : Nat} (hx : x ∈ rightOf elems v n t) : v < x := by
  induction t generalizing n with
  | leaf s ks => cases n <;> simp [rightOf] at hx
  | node s key l r ihl ihr =>
      cases n with
      | zero => simp [rightOf] at hx
      | succ n =>
          simp only [rightOf] at hx
          split at hx
          · rename_i hv
            rcases List.mem_append.mp hx with hx | hx
            · exact ihl h.1 hx
            · exact hv.trans_le (h.2.2.2 x hx)
          · exact ihr h.2.1 hx

theorem elems_graft_insert {cap : Nat} {t sub : LeafTree α ι} (h : t.WellFormed cap) {v : α}
    {ss : List ι}
    (hsub : sub.elems = (t.subtreeAt v ss.length).elems.orderedInsert (· ≤ ·) v) :
    (t.graft v ss sub).elems = t.elems.orderedInsert (· ≤ ·) v := by
  rw [elems_graft, hsub, elems_split v ss.length t]
  exact (orderedInsert_between _ (fun x hx => lt_of_mem_leftOf h hx)
    (fun x hx => lt_of_mem_rightOf h hx)).symm

theorem elems_graft_same {t sub : LeafTree α ι} {v : α} {ss : List ι}
    (hsub : sub.elems = (t.subtreeAt v ss.length).elems) :
    (t.graft v ss sub).elems = t.elems := by
  rw [elems_graft, hsub, ← elems_split]

/-- The search path of `v` decides membership of `v`. -/
theorem mem_elems_iff_subtreeAt {cap : Nat} {t : LeafTree α ι} (h : t.WellFormed cap)
    (v : α) (n : Nat) : v ∈ t.elems ↔ v ∈ (t.subtreeAt v n).elems := by
  rw [elems_split v n t]
  simp only [List.mem_append]
  constructor
  · rintro ((hx | hx) | hx)
    · exact absurd (lt_of_mem_leftOf h hx) (lt_irrefl v)
    · exact hx
    · exact absurd (lt_of_mem_rightOf h hx) (lt_irrefl v)
  · exact fun hx => .inl (.inr hx)

theorem WellFormed.subtreeAt {cap : Nat} {t : LeafTree α ι} (h : t.WellFormed cap)
    (v : α) (n : Nat) : (t.subtreeAt v n).WellFormed cap := by
  induction t generalizing n with
  | leaf s ks => cases n <;> exact h
  | node s key l r ihl ihr =>
      cases n with
      | zero => exact h
      | succ n =>
          simp only [LeafTree.subtreeAt]
          split
          · exact ihl h.1 n
          · exact ihr h.2.1 n

theorem leftDepth_subtreeAt_le (v : α) (n : Nat) (t : LeafTree α ι) :
    (t.subtreeAt v n).leftDepth ≤ t.leftDepth := by
  induction t generalizing n with
  | leaf s ks => cases n <;> exact Nat.le_refl _
  | node s key l r ihl ihr =>
      cases n with
      | zero => exact Nat.le_refl _
      | succ n =>
          have left := ihl n
          have right := ihr n
          simp only [LeafTree.subtreeAt, leftDepth]
          split <;> omega

/-- Left turns among the first `n` steps of the search for `v`. -/
def leftTurns (v : α) : Nat → LeafTree α ι → Nat
  | 0, _ => 0
  | _ + 1, leaf _ _ => 0
  | n + 1, node _ key l r => if v < key then l.leftTurns v n + 1 else r.leftTurns v n

theorem leftTurns_le (v : α) (n : Nat) (t : LeafTree α ι) : t.leftTurns v n ≤ n := by
  induction t generalizing n with
  | leaf s ks => cases n <;> simp [leftTurns]
  | node s key l r ihl ihr =>
      cases n with
      | zero => exact Nat.le_refl 0
      | succ n =>
          have left := ihl n
          have right := ihr n
          simp only [leftTurns]
          split <;> omega

theorem leftTurns_le_leftDepth (v : α) (n : Nat) (t : LeafTree α ι) :
    t.leftTurns v n ≤ t.leftDepth := by
  induction t generalizing n with
  | leaf s ks => cases n <;> simp [leftTurns]
  | node s key l r ihl ihr =>
      cases n with
      | zero => exact Nat.zero_le _
      | succ n =>
          have left := ihl n
          have right := ihr n
          simp only [leftTurns, leftDepth]
          split <;> omega

theorem leftDepth_graft_le (v : α) (sub : LeafTree α ι) (ss : List ι) (t : LeafTree α ι) :
    (t.graft v ss sub).leftDepth ≤
      max t.leftDepth (t.leftTurns v ss.length + sub.leftDepth) := by
  induction t generalizing ss with
  | leaf s ks => cases ss <;> simp [LeafTree.graft, leftTurns]
  | node s key l r ihl ihr =>
      cases ss with
      | nil => simp [leftTurns]
      | cons s' ss =>
          have left := ihl ss
          have right := ihr ss
          simp only [LeafTree.graft, leftTurns, List.length_cons, leftDepth]
          split <;> simp only [leftDepth] <;> omega

theorem mem_elems_of_mem_graft {v x : α} {sub : LeafTree α ι} {ss : List ι}
    {t : LeafTree α ι}
    (hsub : ∀ x ∈ sub.elems, x = v ∨ x ∈ (t.subtreeAt v ss.length).elems)
    (hx : x ∈ (t.graft v ss sub).elems) : x = v ∨ x ∈ t.elems := by
  rw [elems_graft] at hx
  rw [elems_split v ss.length t]
  simp only [List.mem_append] at hx ⊢
  rcases hx with (hx | hx) | hx
  · exact .inr (.inl (.inl hx))
  · exact (hsub x hx).imp_right (fun h => .inl (.inr h))
  · exact .inr (.inr hx)

/-- Grafting a well-formed subtree that adds no key but `v` keeps the tree
well-formed: `v` respects every separator on its own path. -/
theorem WellFormed.graft {cap : Nat} {t sub : LeafTree α ι} (h : t.WellFormed cap)
    (hs : sub.WellFormed cap) {v : α} {ss : List ι}
    (hsub : ∀ x ∈ sub.elems, x = v ∨ x ∈ (t.subtreeAt v ss.length).elems) :
    (t.graft v ss sub).WellFormed cap := by
  induction t generalizing ss with
  | leaf s ks => cases ss <;> exact hs
  | node s key l r ihl ihr =>
      obtain ⟨hl, hr, below, above⟩ := h
      cases ss with
      | nil => exact hs
      | cons s' ss =>
          simp only [LeafTree.graft]
          simp only [LeafTree.subtreeAt, List.length_cons] at hsub
          split
          · rename_i hv
            simp only [hv, if_true] at hsub
            refine ⟨ihl hl hsub, hr, ?_, above⟩
            intro x hx
            rcases mem_elems_of_mem_graft hsub hx with rfl | hx
            · exact hv
            · exact below x hx
          · rename_i hv
            simp only [hv, if_false] at hsub
            refine ⟨hl, ihr hr hsub, below, ?_⟩
            intro x hx
            rcases mem_elems_of_mem_graft hsub hx with rfl | hx
            · exact not_lt.mp hv
            · exact above x hx

theorem leafSlots_split (v : α) (n : Nat) (t : LeafTree α ι) :
    t.leafSlots =
      leftOf leafSlots v n t ++ (t.subtreeAt v n).leafSlots ++ rightOf leafSlots v n t :=
  inorder_split (fun _ _ _ _ => rfl) v n t

theorem leafSlots_graft (v : α) (sub : LeafTree α ι) (ss : List ι) (t : LeafTree α ι) :
    (t.graft v ss sub).leafSlots =
      leftOf leafSlots v ss.length t ++ sub.leafSlots ++ rightOf leafSlots v ss.length t :=
  inorder_graft (fun _ _ _ _ => rfl) v sub ss t

theorem nodeSlots_split (v : α) (n : Nat) (t : LeafTree α ι) :
    t.nodeSlots.Perm (t.pathSlots v n ++
      (leftOf nodeSlots v n t ++ (t.subtreeAt v n).nodeSlots ++ rightOf nodeSlots v n t)) := by
  induction t generalizing n with
  | leaf s ks => cases n <;> simp [leftOf, rightOf, LeafTree.subtreeAt, pathSlots, nodeSlots]
  | node s key l r ihl ihr =>
      cases n with
      | zero => simp [leftOf, rightOf, pathSlots]
      | succ n =>
          simp only [leftOf, rightOf, LeafTree.subtreeAt, pathSlots, nodeSlots, List.cons_append]
          refine List.Perm.cons s ?_
          split
          · refine ((ihl n).append_right r.nodeSlots).trans ?_
            simp only [List.append_assoc, List.Perm.refl]
          · refine ((ihr n).append_left l.nodeSlots).trans ?_
            simp only [← List.append_assoc]
            refine List.Perm.append_right _ (List.Perm.append_right _ ?_)
            exact List.Perm.append_right _ List.perm_append_comm

theorem nodeSlots_graft {v : α} {sub : LeafTree α ι} {ss : List ι} {t : LeafTree α ι}
    (hss : ss.length ≤ t.pathLength v) :
    (t.graft v ss sub).nodeSlots.Perm (ss ++
      (leftOf nodeSlots v ss.length t ++ sub.nodeSlots ++ rightOf nodeSlots v ss.length t)) := by
  induction t generalizing ss with
  | leaf s ks =>
      obtain rfl : ss = [] := List.eq_nil_of_length_eq_zero (Nat.le_zero.mp hss)
      simp [leftOf, rightOf]
  | node s key l r ihl ihr =>
      cases ss with
      | nil => simp [leftOf, rightOf]
      | cons s' ss =>
          simp only [pathLength, List.length_cons] at hss
          simp only [leftOf, rightOf, LeafTree.graft, List.length_cons, List.cons_append]
          split
          · rename_i hv
            simp only [hv, if_true] at hss
            refine List.Perm.cons s' (((ihl (by omega)).append_right r.nodeSlots).trans ?_)
            simp only [List.append_assoc, List.Perm.refl]
          · rename_i hv
            simp only [hv, if_false] at hss
            refine List.Perm.cons s' (((ihr (by omega)).append_left l.nodeSlots).trans ?_)
            simp only [← List.append_assoc]
            refine List.Perm.append_right _ (List.Perm.append_right _ ?_)
            exact List.Perm.append_right _ List.perm_append_comm

theorem length_le_pathLength_graft {v : α} {ss : List ι} {t sub : LeafTree α ι}
    (hss : ss.length ≤ t.pathLength v) : ss.length ≤ (t.graft v ss sub).pathLength v := by
  induction t generalizing ss with
  | leaf s ks =>
      rw [Nat.le_zero.mp hss]
      exact Nat.zero_le _
  | node s key l r ihl ihr =>
      cases ss with
      | nil => exact Nat.zero_le _
      | cons s' ss =>
          simp only [pathLength, List.length_cons] at hss ⊢
          simp only [LeafTree.graft]
          split <;> rename_i hv
          · rw [if_pos hv] at hss
            rw [pathLength, if_pos hv]
            exact Nat.succ_le_succ (ihl (by omega))
          · rw [if_neg hv] at hss
            rw [pathLength, if_neg hv]
            exact Nat.succ_le_succ (ihr (by omega))

end Search

end LeafTree

end Foundation
