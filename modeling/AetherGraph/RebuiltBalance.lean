import AetherGraph.PathCopy

/-! The weights a balanced build leaves.  Only the node over the last two leaves can be out of
balance, and it is when the last leaf is less than half full. -/

namespace AetherGraph

open Foundation Foundation.LeafTree Arena

/-- The offset is the root's or that of a node below it. -/
inductive Under (a : Arena) (root : Nat) : Nat → Prop where
  | root : Under a root root
  | left {offset : Nat} {node : Interior} :
      Under a root offset → a.nodeAt offset = .interior node → Under a root node.left
  | right {offset : Nat} {node : Interior} :
      Under a root offset → a.nodeAt offset = .interior node → Under a root node.right

section Under

variable {a : Arena} {root child offset : Nat} {top : Interior}

theorem Under.trans (under : Under a root child) (below : Under a child offset) :
    Under a root offset := by
  induction below with
  | root => exact under
  | left _ at_ ih => exact ih.left at_
  | right _ at_ ih => exact ih.right at_

theorem Under.eq_or_below (under : Under a root offset) (at_ : a.nodeAt root = .interior top) :
    offset = root ∨ Under a top.left offset ∨ Under a top.right offset := by
  induction under with
  | root => exact .inl rfl
  | left _ node ih =>
      rcases ih with rfl | left | right
      · cases at_.symm.trans node
        exact .inr (.inl .root)
      · exact .inr (.inl (left.left node))
      · exact .inr (.inr (right.left node))
  | right _ node ih =>
      rcases ih with rfl | left | right
      · cases at_.symm.trans node
        exact .inr (.inr .root)
      · exact .inr (.inl (left.right node))
      · exact .inr (.inr (right.right node))

/-- No interior node under the root trips the weight check. -/
def AlphaBalanced (a : Arena) (root : Nat) : Prop :=
  ∀ offset node, Under a root offset → a.nodeAt offset = .interior node →
    a.alphaUnbalanced node = false

theorem alphaBalanced_leaf {chunk : Chunk} (at_ : a.nodeAt root = .leaf chunk) :
    AlphaBalanced a root := by
  intro offset node under interior
  have only : offset = root := by
    clear interior
    induction under with
    | root => rfl
    | left _ node ih | right _ node ih => cases at_.symm.trans (ih ▸ node)
  cases at_.symm.trans (only ▸ interior)

theorem alphaBalanced_node (at_ : a.nodeAt root = .interior top) :
    AlphaBalanced a root ↔ a.alphaUnbalanced top = false ∧
      AlphaBalanced a top.left ∧ AlphaBalanced a top.right := by
  constructor
  · intro all
    exact ⟨all root top .root at_,
      fun o node under => all o node ((Under.root.left at_).trans under),
      fun o node under => all o node ((Under.root.right at_).trans under)⟩
  · rintro ⟨here, left, right⟩ o node under interior
    rcases under.eq_or_below at_ with rfl | under | under
    · cases at_.symm.trans interior
      exact here
    · exact left o node under interior
    · exact right o node under interior

end Under

/-- The sizes a balanced build keeps in balance: one leaf, or a last leaf more than half full. -/
def balancedSize (n : Nat) : Bool :=
  decide (n ≤ chunkCap) || decide (chunkCap / 2 ≤ (n - 1) % chunkCap)

theorem balancedSize_iff {n : Nat} : balancedSize n = true ↔ n ≤ 15 ∨ 7 ≤ (n - 1) % 15 := by
  rw [balancedSize, Bool.or_eq_true, decide_eq_true_eq, decide_eq_true_eq]
  rfl

namespace Tree

/-- Neither child of a node is over two thirds of it. -/
def WeightBalanced : Tree → Prop
  | leaf _ _ => True
  | node _ _ l r =>
      (3 * l.elems.length ≤ 2 * (l.elems.length + r.elems.length) ∧
        3 * r.elems.length ≤ 2 * (l.elems.length + r.elems.length)) ∧
      WeightBalanced l ∧ WeightBalanced r

/-- The left of a split is whole leaves, and the right keeps the last leaf. -/
theorem Balanced.weightBalanced_iff {t : Tree} (h : Balanced t) (wf : t.WellFormed chunkCap) :
    WeightBalanced t ↔ balancedSize t.elems.length = true := by
  induction t with
  | leaf s ks =>
      exact iff_of_true trivial (balancedSize_iff.mpr (.inl wf.2.1))
  | node s key l r ihl ihr =>
      obtain ⟨big, mid, hl, hr⟩ := h
      have right := List.length_pos_of_ne_nil wf.2.1.elems_ne_nil
      rw [WeightBalanced, ihl hl wf.1, ihr hr wf.2.1, elems, List.length_append]
      simp only [balancedSize_iff, balancedMid, leavesFor, chunkCap] at big mid ⊢
      generalize l.elems.length = nl, r.elems.length = nr at *
      omega

theorem Stored.alphaBalanced_iff {a : Arena} {t : Tree} (h : Stored a t) :
    AlphaBalanced a (offset t) ↔ WeightBalanced t := by
  induction t with
  | leaf s ks => exact iff_of_true (alphaBalanced_leaf h.nodeAt_leaf) trivial
  | node s key l r ihl ihr =>
      have checked : a.alphaUnbalanced ⟨offset l, offset r, l.elems.length + r.elems.length, key⟩ =
          false ↔ 3 * l.elems.length ≤ 2 * (l.elems.length + r.elems.length) ∧
            3 * r.elems.length ≤ 2 * (l.elems.length + r.elems.length) := by
        rw [alphaUnbalanced, h.2.2.1.subtreeSize, h.2.2.2.subtreeSize, Bool.or_eq_false_iff,
          decide_eq_false_iff_not, decide_eq_false_iff_not, Nat.not_lt, Nat.not_lt]
      rw [WeightBalanced, ← ihl h.2.2.1, ← ihr h.2.2.2, ← checked]
      exact alphaBalanced_node h.nodeAt_node

end Tree

open Tree

section Build

variable {w w' : ArenaWriter} {vals : List Nat} {root : Nat}

theorem Built.alphaBalanced_iff {t : Tree} {F : SlotClass → List Nat}
    (h : Built w w' vals root t F) : AlphaBalanced w'.arena root ↔ balancedSize vals.length = true := by
  have stored : Stored w'.arena t := h.stored h.wrote.lt
  rw [h.root_eq, stored.alphaBalanced_iff, h.balanced.weightBalanced_iff h.wellFormed, h.elems_eq]

/-- The count of all `2 ^ 32` values wraps to 0, which no child passes. -/
theorem buildBalanced_wrapped (good : w.arena.Ok) (sorted : vals.Pairwise (· < ·))
    (all : vals.length = 2 ^ 32) (h : buildBalanced w vals = (some root, w')) :
    ¬ AlphaBalanced w'.arena root := by
  have big : ¬vals.length ≤ chunkCap := by
    rw [all, chunkCap]
    decide
  have mid := balancedMid_lt (Nat.lt_of_not_le big)
  rw [buildBalanced, dif_neg big] at h
  dsimp only at h
  split at h
  · cases h
  rename_i left w₁ hleft
  split at h
  · cases h
  rename_i right w₂ hright
  split at h
  · cases h
  rename_i idx w₃ hput
  obtain ⟨rfl, rfl⟩ : tagInterior idx = root ∧ w₃ = w' := by simpa using h
  have length : (vals.take (balancedMid vals.length)).length = balancedMid vals.length := by
    rw [List.length_take]
    omega
  obtain ⟨l, F, hl⟩ := buildBalanced_some (s := w) good (List.ne_nil_of_length_pos (by omega))
    (sorted.sublist (List.take_sublist _ _)) (by omega) hleft
  have length' : (vals.drop (balancedMid vals.length)).length =
      vals.length - balancedMid vals.length := List.length_drop
  have good₁ : w₁.arena.Ok := LawfulSink.good hl.wrote
  obtain ⟨r, G, hr⟩ := buildBalanced_some (s := w₁) good₁ (List.ne_nil_of_length_pos (by omega))
    (sorted.sublist (List.drop_sublist _ _)) (by omega) hright
  obtain ⟨grown, held⟩ := ArenaWriter.grown_of_interior (LawfulSink.good hr.wrote) hput
  have below : idx < 2 ^ 31 := Nat.lt_of_lt_of_le (grown.lt .interior idx (by simp)) (by decide)
  have stored : Stored w₃.arena l :=
    (hl.stored hl.wrote.lt).wrote hl.wrote (LawfulSink.trans hr.wrote grown) hl.slots_perm
  have at_ : w₃.arena.nodeAt (tagInterior idx) = .interior ⟨left, right, vals.length % 2 ^ 32,
      (vals.drop (balancedMid vals.length)).headD 0⟩ := by
    rw [Arena.nodeAt, if_neg (by rw [isLeaf_tagInterior below]; decide), stripTag_tagInterior below,
      held]
  intro balanced
  have checked := balanced _ _ .root at_
  rw [alphaUnbalanced, Bool.or_eq_false_iff, decide_eq_false_iff_not, all, Nat.mod_self,
    hl.root_eq, stored.subtreeSize, hl.elems_eq, length] at checked
  exact checked.1 (by dsimp only; omega)

/-- A rebuilt subtree passes the weight check everywhere exactly when its size keeps it in
balance. -/
theorem buildBalanced_alphaBalanced_iff (good : w.arena.Ok) (ne : vals ≠ [])
    (sorted : vals.Pairwise (· < ·)) (keys : ∀ v ∈ vals, v < 2 ^ 32)
    (h : buildBalanced w vals = (some root, w')) :
    AlphaBalanced w'.arena root ↔ balancedSize vals.length = true := by
  rcases Nat.lt_or_eq_of_le (length_le_of_keys (sorted.imp Nat.ne_of_lt) keys) with small | all
  · obtain ⟨t, F, built⟩ := buildBalanced_some (s := w) good ne sorted small h
    exact built.alphaBalanced_iff
  · refine iff_of_false (buildBalanced_wrapped good sorted all h) ?_
    rw [all]
    decide

end Build

theorem buildBalanced_alphaBalanced_iff_twentyThree : ∃ (w w' : ArenaWriter) (root : Nat),
    buildBalanced w (List.range 23) = (some root, w') ∧
      (AlphaBalanced w'.arena root ↔ balancedSize 23 = true) := by
  have built : ((Arena.new 4096).bind fun a => (buildBalanced a.writer (List.range 23)).1) =
      some (tagInterior 0) := by decide +kernel
  obtain ⟨a, new, root⟩ := Option.bind_eq_some_iff.mp built
  have run : buildBalanced a.writer (List.range 23) =
      (some (tagInterior 0), (buildBalanced a.writer (List.range 23)).2) := Prod.ext root rfl
  have iff_ := buildBalanced_alphaBalanced_iff (w := a.writer) (Arena.new_ok new) (by decide)
    List.pairwise_lt_range (fun v mem => by simp at mem; omega) run
  rw [List.length_range] at iff_
  exact ⟨a.writer, _, tagInterior 0, run, iff_⟩

/-- The root over sixteen elements trips the weight check. -/
theorem sixteen_unbalanced : ((Arena.new 4096).map fun a =>
    let (root, w) := buildBalanced a.writer (List.range 16)
    (root, match w.arena.nodeAt (tagInterior 0) with
      | .interior top => w.arena.alphaUnbalanced top
      | .leaf _ => false)) = some (some (tagInterior 0), true) := by decide +kernel

theorem buildBalanced_alphaBalanced_fails : ¬ ∀ (w w' : ArenaWriter) (vals : List Nat) (root : Nat),
    w.arena.Ok → vals ≠ [] → vals.Pairwise (· < ·) → (∀ v ∈ vals, v < 2 ^ 32) →
      buildBalanced w vals = (some root, w') → AlphaBalanced w'.arena root := by
  intro balanced
  obtain ⟨a, new, found⟩ := Option.map_eq_some_iff.mp sixteen_unbalanced
  obtain ⟨root, w, run⟩ : ∃ root w, buildBalanced a.writer (List.range 16) = (root, w) :=
    ⟨_, _, rfl⟩
  rw [run] at found
  obtain ⟨rfl, unbalanced⟩ := Prod.mk.inj found
  have checked := balanced a.writer w (List.range 16) (tagInterior 0) (Arena.new_ok new) (by decide)
    List.pairwise_lt_range (fun v mem => by simp at mem; omega) run
  cases at_ : w.arena.nodeAt (tagInterior 0) with
  | leaf chunk =>
      rw [at_] at unbalanced
      cases unbalanced
  | interior top =>
      rw [at_] at unbalanced
      exact nomatch (checked _ top .root at_).symm.trans unbalanced

end AetherGraph
