import AetherGraph.Accounts
import AetherGraph.CTree
import Mathlib.Data.List.Perm.Subperm
import Mathlib.Data.Nat.Bitwise

/-! Search trees stored in an arena: the abstract tree behind a tagged offset, and
what the read-side walks return on it. -/

namespace AetherGraph

open Foundation

theorem isLeaf_eq (offset : Nat) : isLeaf offset = !offset.testBit 31 := by
  rw [isLeaf, interiorBit, Nat.and_comm, Nat.two_pow_and]
  cases offset.testBit 31 <;> rfl

theorem isLeaf_of_lt {s : Nat} (h : s < 2 ^ 31) : isLeaf s = true := by
  rw [isLeaf_eq, Nat.testBit_lt_two_pow h]
  rfl

theorem tagInterior_eq {s : Nat} (h : s < 2 ^ 31) : tagInterior s = 2 ^ 31 + s := by
  rw [tagInterior, interiorBit, Nat.or_comm]
  simpa using (Nat.two_pow_add_eq_or_of_lt h 1).symm

theorem isLeaf_tagInterior {s : Nat} (h : s < 2 ^ 31) : isLeaf (tagInterior s) = false := by
  rw [tagInterior_eq h, isLeaf_eq, Nat.testBit_two_pow_add_eq, Nat.testBit_lt_two_pow h]
  rfl

@[simp] theorem stripTag_tagInterior {s : Nat} (h : s < 2 ^ 31) : stripTag (tagInterior s) = s := by
  rw [tagInterior_eq h, stripTag, Nat.and_two_pow_sub_one_eq_mod]
  omega

theorem length_le_of_keys {l : List Nat} {n : Nat} (nodup : l.Nodup) (keys : ∀ y ∈ l, y < n) :
    l.length ≤ n := by
  have inside : l ⊆ List.range n := fun y hy => List.mem_range.mpr (keys y hy)
  simpa using (nodup.subperm inside).length_le

/-- Ascending keys below a `u32` vertex count leave room for one more below it. -/
theorem length_lt_of_keys {l : List Nat} {n x : Nat} (sorted : l.Pairwise (· < ·))
    (keys : ∀ y ∈ l, y < n) (hx : x < n) (fresh : x ∉ l) : l.length + 1 ≤ n :=
  length_le_of_keys (List.nodup_cons.mpr ⟨fresh, sorted.imp Nat.ne_of_lt⟩)
    (List.forall_mem_cons.mpr ⟨hx, keys⟩)

abbrev Tree := LeafTree Nat Nat

namespace Tree

open LeafTree

/-- Chunk slots and interior slots of a tree. -/
def slots (t : Tree) : SlotClass → List Nat
  | .chunk => t.leafSlots
  | .interior => t.nodeSlots

def offset : Tree → Nat
  | leaf s _ => s
  | node s _ _ _ => tagInterior s

/-- The arena holds `t`: each slot has the chunk or the interior node of `t`, and every
interior count is the number of elements below it. -/
def Stored (a : Arena) : Tree → Prop
  | leaf s ks => s < 2 ^ 31 ∧ (a.chunks s).count = ks.length ∧ (a.chunks s).asSlice = ks
  | node s key l r => s < 2 ^ 31 - 1 ∧
      a.interiors s = ⟨offset l, offset r, l.elems.length + r.elems.length, key⟩ ∧
      Stored a l ∧ Stored a r

/-- The arena links the nodes of `t` as `t` does, whatever the leaves hold and the counts say. -/
def Laid (a : Arena) : Tree → Prop
  | leaf s _ => s < 2 ^ 31
  | node s key l r => s < 2 ^ 31 - 1 ∧ (a.interiors s).left = offset l ∧
      (a.interiors s).right = offset r ∧ (a.interiors s).splitKey = key ∧ Laid a l ∧ Laid a r

theorem Stored.laid {a : Arena} {t : Tree} (h : Stored a t) : Laid a t := by
  induction t with
  | leaf s ks => exact h.1
  | node s key l r ihl ihr =>
      obtain ⟨hs, hn, hl, hr⟩ := h
      refine ⟨hs, ?_, ?_, ?_, ihl hl, ihr hr⟩ <;> rw [hn]

theorem mem_slots_left {s key i : Nat} {l r : Tree} {k : SlotClass} (hi : i ∈ slots l k) :
    i ∈ slots (node s key l r) k := by
  cases k with
  | chunk => exact List.mem_append_left _ hi
  | interior => exact List.mem_cons_of_mem _ (List.mem_append_left _ hi)

theorem mem_slots_right {s key i : Nat} {l r : Tree} {k : SlotClass} (hi : i ∈ slots r k) :
    i ∈ slots (node s key l r) k := by
  cases k with
  | chunk => exact List.mem_append_right _ hi
  | interior => exact List.mem_cons_of_mem _ (List.mem_append_right _ hi)

theorem Laid.congr {a a' : Arena} {t : Tree} (h : Laid a t)
    (same : ∀ k, ∀ i ∈ t.slots k, Arena.SameNode a a' k i) : Laid a' t := by
  induction t with
  | leaf s ks => exact h
  | node s key l r ihl ihr =>
      have eq : a'.interiors s = a.interiors s := same .interior s (List.mem_cons_self ..)
      obtain ⟨hs, left, right, split, hl, hr⟩ := h
      rw [← eq] at left right split
      exact ⟨hs, left, right, split, ihl hl fun k i hi => same k i (mem_slots_left hi),
        ihr hr fun k i hi => same k i (mem_slots_right hi)⟩

theorem Stored.congr {a a' : Arena} {t : Tree} (h : Stored a t)
    (same : ∀ k, ∀ i ∈ t.slots k, Arena.SameNode a a' k i) : Stored a' t := by
  induction t with
  | leaf s ks =>
      have eq : a'.chunks s = a.chunks s := same .chunk s (List.mem_singleton_self s)
      simp only [Stored, eq]
      exact h
  | node s key l r ihl ihr =>
      obtain ⟨hs, hn, hl, hr⟩ := h
      have eq : a'.interiors s = a.interiors s := same .interior s (List.mem_cons_self ..)
      exact ⟨hs, eq.trans hn, ihl hl fun k i hi => same k i (mem_slots_left hi),
        ihr hr fun k i hi => same k i (mem_slots_right hi)⟩

theorem Laid.offset_lt {a : Arena} {t : Tree} (h : Laid a t) : offset t < null := by
  cases t with
  | leaf s ks => exact Nat.lt_trans (show s < 2 ^ 31 from h) (by decide)
  | node s key l r =>
      have := h.1
      rw [offset, tagInterior_eq (by omega), null]
      omega

theorem Laid.nodeAt_leaf {a : Arena} {s : Nat} {ks : List Nat} (h : Laid a (leaf s ks)) :
    a.nodeAt s = .leaf (a.chunks s) := by
  rw [Arena.nodeAt, isLeaf_of_lt h, if_pos rfl]

theorem Laid.interiorAt {a : Arena} {s key : Nat} {l r : Tree} (h : Laid a (node s key l r)) :
    a.interiorAt (tagInterior s) = a.interiors s := by
  have hs := h.1
  rw [Arena.interiorAt, stripTag_tagInterior (by omega)]

theorem Laid.nodeAt_node {a : Arena} {s key : Nat} {l r : Tree} (h : Laid a (node s key l r)) :
    a.nodeAt (tagInterior s) = .interior (a.interiors s) := by
  have hs := h.1
  rw [Arena.nodeAt, isLeaf_tagInterior (by omega), if_neg Bool.false_ne_true,
    stripTag_tagInterior (by omega)]

theorem Stored.offset_lt {a : Arena} {t : Tree} (h : Stored a t) : offset t < null :=
  h.laid.offset_lt

theorem Stored.nodeAt_leaf {a : Arena} {s : Nat} {ks : List Nat} (h : Stored a (leaf s ks)) :
    a.nodeAt s = .leaf (a.chunks s) := h.laid.nodeAt_leaf

theorem Stored.interiorAt {a : Arena} {s key : Nat} {l r : Tree}
    (h : Stored a (node s key l r)) :
    a.interiorAt (tagInterior s) =
      ⟨offset l, offset r, l.elems.length + r.elems.length, key⟩ := by
  rw [h.laid.interiorAt, h.2.1]

theorem Stored.nodeAt_node {a : Arena} {s key : Nat} {l r : Tree}
    (h : Stored a (node s key l r)) :
    a.nodeAt (tagInterior s) =
      .interior ⟨offset l, offset r, l.elems.length + r.elems.length, key⟩ := by
  rw [h.laid.nodeAt_node, h.2.1]

theorem Stored.subtreeSize {a : Arena} {t : Tree} (h : Stored a t) :
    a.subtreeSize (offset t) = t.elems.length := by
  cases t with
  | leaf s ks =>
      rw [Arena.subtreeSize, offset, h.nodeAt_leaf]
      exact h.2.1
  | node s key l r =>
      rw [Arena.subtreeSize, offset, h.nodeAt_node]
      simp only [elems, List.length_append]

theorem Stored.below {a : Arena} {s t : Tree} (h : Stored a t) (hb : Below s t) :
    Stored a s := by
  induction hb with
  | refl => exact h
  | left _ _ _ _ ih => exact ih h.2.2.1
  | right _ _ _ _ ih => exact ih h.2.2.2

/-- An offset names at most one tree. -/
theorem Stored.unique {a : Arena} {t t' : Tree} (h : Stored a t) (h' : Stored a t')
    (same : offset t = offset t') : t = t' := by
  have apart : ∀ {s ks s' key l r}, Stored a (leaf s ks) → Stored a (node s' key l r) →
      s ≠ tagInterior s' := by
    intro s ks s' key l r hs hs' eq
    have := hs.1
    have := hs'.1
    rw [tagInterior_eq (by omega)] at eq
    omega
  induction t generalizing t' with
  | leaf s ks =>
      cases t' with
      | leaf s' ks' =>
          obtain rfl : s = s' := same
          rw [← h.2.2, ← h'.2.2]
      | node s' key l r => exact absurd same (apart h h')
  | node s key l r ihl ihr =>
      cases t' with
      | leaf s' ks => exact absurd same.symm (apart h' h)
      | node s' key' l' r' =>
          have hs := h.1
          have hs' := h'.1
          simp only [offset] at same
          rw [tagInterior_eq (by omega), tagInterior_eq (by omega)] at same
          obtain rfl : s = s' := by omega
          have record := h.2.1.symm.trans h'.2.1
          simp only [Interior.mk.injEq] at record
          obtain ⟨left, right, _, rfl⟩ := record
          rw [ihl h.2.2.1 h'.2.2.1 left, ihr h.2.2.2 h'.2.2.2 right]

/-- Strict order of the keys keeps the slots of a stored tree apart. -/
theorem Stored.slots_nodup {a : Arena} {t : Tree} (h : Stored a t) {cap : Nat}
    (wf : t.WellFormed cap) (k : SlotClass) : (t.slots k).Nodup := by
  have apart : ∀ {l r s : Tree} {s' key}, (node s' key l r : Tree).WellFormed cap →
      Below s l → ¬ Below s r := by
    intro l r s s' key wf hl hr
    obtain ⟨x, hx⟩ := List.exists_mem_of_ne_nil _ (hl.wellFormed wf.1).elems_ne_nil
    have below := wf.2.2.1 x (hl.elems_sublist.subset hx)
    have above := wf.2.2.2 x (hr.elems_sublist.subset hx)
    omega
  induction t with
  | leaf s ks => cases k <;> simp [slots, leafSlots, nodeSlots]
  | node s key l r ihl ihr =>
      obtain ⟨hs, hn, hl, hr⟩ := h
      have nl := ihl hl wf.1
      have nr := ihr hr wf.2.1
      cases k with
      | chunk =>
          refine List.nodup_append.mpr ⟨nl, nr, fun i hi j hj same => ?_⟩
          subst same
          obtain ⟨ks, bl⟩ := exists_leaf_of_mem_leafSlots hi
          obtain ⟨ks', br⟩ := exists_leaf_of_mem_leafSlots hj
          rw [(hl.below bl).unique (hr.below br) rfl] at bl
          exact apart wf bl br
      | interior =>
          have inner : ∀ {m : Tree} {i}, i ∈ m.nodeSlots → Stored a m →
              ∃ n : Tree, Below n m ∧ offset n = tagInterior i ∧ Stored a n := by
            intro m i hi hm
            obtain ⟨key', l', r', hb⟩ := exists_node_of_mem_nodeSlots hi
            exact ⟨_, hb, rfl, hm.below hb⟩
          have top : Stored a (node s key l r) := ⟨hs, hn, hl, hr⟩
          have proper : ∀ {m : Tree}, s ∈ m.nodeSlots → Stored a m →
              Below (node s key l r) m := by
            intro m hm hst
            obtain ⟨n, hb, ho, hn'⟩ := inner hm hst
            rwa [hn'.unique top ho] at hb
          have lpos := List.length_pos_of_ne_nil wf.1.elems_ne_nil
          have rpos := List.length_pos_of_ne_nil wf.2.1.elems_ne_nil
          refine List.nodup_cons.mpr ⟨fun hm => ?_, List.nodup_append.mpr ⟨nl, nr, ?_⟩⟩
          · rcases List.mem_append.mp hm with hm | hm
            · have := (proper hm hl).elems_sublist.length_le
              simp only [elems, List.length_append] at this
              omega
            · have := (proper hm hr).elems_sublist.length_le
              simp only [elems, List.length_append] at this
              omega
          · intro i hi j hj same
            subst same
            obtain ⟨n, bl, ho, hn₁⟩ := inner hi hl
            obtain ⟨n', br, ho', hn₂⟩ := inner hj hr
            rw [hn₁.unique hn₂ (ho.trans ho'.symm)] at bl
            exact apart wf bl br

/-- Nodes of a tree, which is the number of steps a full walk takes. -/
def nodeCount (t : Tree) : Nat := t.leafSlots.length + t.nodeSlots.length

theorem nodeCount_node (s key : Nat) (l r : Tree) :
    nodeCount (node s key l r) = nodeCount l + nodeCount r + 1 := by
  simp only [nodeCount, leafSlots, nodeSlots, List.length_append, List.length_cons]
  omega

/-- With room on the stack a walk delivers the whole subtree and goes on with the
pending ones. -/
theorem visitLoop_laid {a : Arena} {t : Tree} (h : Laid a t) (fuel : Nat)
    (stack : List Nat) (seen : List Chunk) :
    stack.length + t.leftDepth ≤ maxDepth →
    a.visitLoop (nodeCount t + fuel) (offset t) stack seen =
      match stack with
      | [] => some (seen ++ t.leafSlots.map a.chunks)
      | next :: rest => a.visitLoop fuel next rest (seen ++ t.leafSlots.map a.chunks) := by
  intro room
  induction t generalizing fuel stack seen with
  | leaf s ks =>
      have step : nodeCount (leaf s ks) + fuel = fuel + 1 := Nat.add_comm 1 fuel
      rw [step, Arena.visitLoop, offset, h.nodeAt_leaf]
      cases stack <;> rfl
  | node s key l r ihl ihr =>
      obtain ⟨-, left, right, -, hl, hr⟩ := id h
      have step : nodeCount (node s key l r) + fuel = nodeCount l + (nodeCount r + fuel) + 1 := by
        rw [nodeCount_node]
        omega
      simp only [leftDepth] at room
      rw [step, Arena.visitLoop, offset, h.nodeAt_node]
      dsimp only
      rw [if_pos (by omega), left, right, ihl hl _ _ _ (by simp only [List.length_cons]; omega)]
      dsimp only
      rw [ihr hr _ _ _ (by omega)]
      cases stack <;> simp only [leafSlots, List.map_append, List.append_assoc]

/-- Without the fuel or without the room the walk does not come back. -/
theorem visitLoop_none {a : Arena} {t : Tree} (h : Laid a t) (fuel : Nat)
    (stack : List Nat) (seen : List Chunk) (bounded : stack.length ≤ maxDepth)
    (stuck : fuel < nodeCount t ∨ maxDepth < stack.length + t.leftDepth) :
    a.visitLoop fuel (offset t) stack seen = none := by
  induction t generalizing fuel stack seen with
  | leaf s ks =>
      simp only [nodeCount, leafSlots, nodeSlots, leftDepth, List.length_singleton,
        List.length_nil] at stuck
      obtain rfl : fuel = 0 := by omega
      rfl
  | node s key l r ihl ihr =>
      obtain ⟨-, left, right, -, hl, hr⟩ := id h
      cases fuel with
      | zero => rfl
      | succ fuel =>
          rw [nodeCount_node] at stuck
          simp only [leftDepth] at stuck
          rw [Arena.visitLoop, offset, h.nodeAt_node]
          dsimp only
          rw [left, right]
          split
          · rename_i push
            by_cases short : fuel < nodeCount l ∨ maxDepth < stack.length + 1 + l.leftDepth
            · exact ihl hl _ _ _ push short
            · obtain ⟨rest, rfl⟩ := Nat.exists_eq_add_of_le (show nodeCount l ≤ fuel by omega)
              rw [visitLoop_laid hl _ _ _ (by simp only [List.length_cons]; omega)]
              exact ihr hr _ _ _ bounded (by omega)
          · rfl

theorem nodeCount_le {a : Arena} {t : Tree} (nodup : ∀ k, (t.slots k).Nodup)
    (below : ∀ k, ∀ i ∈ t.slots k, i < a.bumped k) : nodeCount t ≤ a.walkFuel := by
  have fits : ∀ k, (t.slots k).length ≤ a.bumped k := by
    intro k
    have inside : t.slots k ⊆ List.range (a.bumped k) := fun i hi =>
      List.mem_range.mpr (below k i hi)
    simpa using (List.Nodup.subperm (nodup k) inside).length_le
  exact Nat.add_le_add (fits .chunk) (fits .interior)

/-- The walk over a tree delivers its leaves in order, unless more than `maxDepth` right
subtrees are pending at once: then it runs off its stack. -/
theorem visitChunks_laid {a : Arena} {t : Tree} (h : Laid a t) (nodup : ∀ k, (t.slots k).Nodup)
    (below : ∀ k, ∀ i ∈ t.slots k, i < a.bumped k) :
    a.visitChunks (offset t) =
      if t.leftDepth ≤ maxDepth then some (t.leafSlots.map a.chunks) else none := by
  split
  · rename_i room
    obtain ⟨rest, enough⟩ := Nat.exists_eq_add_of_le (nodeCount_le nodup below)
    rw [Arena.visitChunks, enough, visitLoop_laid h rest [] [] (by simpa using room)]
    rfl
  · rename_i deep
    exact visitLoop_none h _ _ _ (Nat.zero_le _) (.inr (by simpa using deep))

theorem visitChunks_stored {a : Arena} {t : Tree} (h : Stored a t)
    (wf : t.WellFormed chunkCap) (below : ∀ k, ∀ i ∈ t.slots k, i < a.bumped k) :
    a.visitChunks (offset t) =
      if t.leftDepth ≤ maxDepth then some (t.leafSlots.map a.chunks) else none :=
  visitChunks_laid h.laid (h.slots_nodup wf) below

theorem Stored.flatMap_asSlice {a : Arena} {t : Tree} (h : Stored a t) :
    (t.leafSlots.map a.chunks).flatMap Chunk.asSlice = t.elems := by
  induction t with
  | leaf s ks =>
      simp only [leafSlots, List.map_cons, List.map_nil, List.flatMap_cons, List.flatMap_nil,
        List.append_nil, elems]
      exact h.2.2
  | node s key l r ihl ihr =>
      simp only [leafSlots, elems, List.map_append, List.flatMap_append]
      rw [ihl h.2.2.1, ihr h.2.2.2]

end Tree

namespace RetireLog

open Arena

def append (log : RetireLog) (s : SlotClass → List Nat) : RetireLog :=
  ⟨fun k => log.slots k ++ s k⟩

theorem append_append (log : RetireLog) (s s' : SlotClass → List Nat) :
    (log.append s).append s' = log.append fun k => s k ++ s' k := by
  simp only [append, List.append_assoc]

theorem append_nil (log : RetireLog) : log.append (fun _ => []) = log := by
  simp only [append, List.append_nil]

theorem push_eq (log : RetireLog) (k : SlotClass) (idx : Nat) :
    log.push k idx = log.append (only k [idx]) := by
  rw [push, append]
  congr 1
  funext k'
  by_cases h : k' = k
  · subst h
    simp
  · simp [only_of_ne h, h]

theorem foldl_push (k : SlotClass) (slots : List Nat) (log : RetireLog) :
    slots.foldl (fun log idx => log.push k idx) log = log.append (only k slots) := by
  induction slots generalizing log with
  | nil => rw [only_nil, append_nil, List.foldl_nil]
  | cons idx rest ih =>
      rw [List.foldl_cons, ih, push_eq, append_append, only_append]
      rfl

end RetireLog

namespace Tree

open LeafTree Arena

theorem retireLoop_laid {a : Arena} {t : Tree} (h : Laid a t) (fuel : Nat)
    (stack : List Nat) (log : RetireLog) :
    stack.length + t.leftDepth ≤ maxDepth →
    a.retireLoop (nodeCount t + fuel) (offset t) stack log =
      match stack with
      | [] => some (log.append t.slots)
      | next :: rest => a.retireLoop fuel next rest (log.append t.slots) := by
  intro room
  induction t generalizing fuel stack log with
  | leaf s ks =>
      have step : nodeCount (leaf s ks) + fuel = fuel + 1 := Nat.add_comm 1 fuel
      have one : only .chunk [s] = slots (leaf s ks) := by
        funext k
        cases k <;> rfl
      cases stack <;> rw [step, Arena.retireLoop, offset, h.nodeAt_leaf, ← one] <;>
        simp only [RetireLog.push_eq]
  | node s key l r ihl ihr =>
      obtain ⟨hs, left, right, -, hl, hr⟩ := id h
      have step : nodeCount (node s key l r) + fuel = nodeCount l + (nodeCount r + fuel) + 1 := by
        rw [nodeCount_node]
        omega
      have joined : ((log.append (only .interior [s])).append (slots l)).append (slots r) =
          log.append (slots (node s key l r)) := by
        simp only [RetireLog.append_append]
        congr 1
        funext k
        cases k
        · rfl
        · simp [slots, nodeSlots]
      simp only [leftDepth] at room
      have unfolded : ∀ fuel cur, a.nodeAt cur = .interior (a.interiors s) →
          a.retireLoop (fuel + 1) cur stack log =
            if stack.length < maxDepth then
              a.retireLoop fuel (offset l) (offset r :: stack) (log.push .interior (stripTag cur))
            else none := by
        intro fuel cur at_cur
        cases stack <;> rw [Arena.retireLoop, at_cur] <;> dsimp only <;> rw [left, right]
      rw [step, offset, unfolded _ _ h.nodeAt_node]
      rw [if_pos (by omega), ihl hl _ _ _ (by simp only [List.length_cons]; omega)]
      dsimp only
      rw [ihr hr _ _ _ (by omega), stripTag_tagInterior (by omega), RetireLog.push_eq, joined]

/-- Retiring a tree logs each of its slots once. -/
theorem retireSubtree_laid {a : Arena} {t : Tree} (h : Laid a t) (nodup : ∀ k, (t.slots k).Nodup)
    (below : ∀ k, ∀ i ∈ t.slots k, i < a.bumped k) (room : t.leftDepth ≤ maxDepth)
    (log : RetireLog) : a.retireSubtree (offset t) log = some (log.append t.slots) := by
  obtain ⟨rest, enough⟩ := Nat.exists_eq_add_of_le (nodeCount_le nodup below)
  rw [Arena.retireSubtree, enough, retireLoop_laid h rest [] log (by simpa using room)]

theorem retireSubtree_stored {a : Arena} {t : Tree} (h : Stored a t)
    (wf : t.WellFormed chunkCap) (below : ∀ k, ∀ i ∈ t.slots k, i < a.bumped k)
    (room : t.leftDepth ≤ maxDepth) (log : RetireLog) :
    a.retireSubtree (offset t) log = some (log.append t.slots) :=
  retireSubtree_laid h.laid (h.slots_nodup wf) below room log

theorem containsLoop_stored {a : Arena} {t : Tree} (h : Stored a t)
    (wf : t.WellFormed chunkCap) (v : Nat) {fuel : Nat} (enough : t.pathLength v < fuel) :
    a.containsLoop v fuel (offset t) = some (decide (v ∈ t.elems)) := by
  induction t generalizing fuel with
  | leaf s ks =>
      obtain ⟨fuel, rfl⟩ := Nat.exists_eq_succ_of_ne_zero (Nat.ne_zero_of_lt enough)
      rw [Arena.containsLoop, offset, h.nodeAt_leaf]
      have found := Chunk.contains_iff (a.chunks s) v
      rw [h.2.2] at found
      dsimp only
      rw [Option.some_inj, Bool.eq_iff_iff, found, decide_eq_true_iff]
      rfl
  | node s key l r ihl ihr =>
      obtain ⟨fuel, rfl⟩ := Nat.exists_eq_succ_of_ne_zero (Nat.ne_zero_of_lt enough)
      simp only [pathLength] at enough
      rw [Arena.containsLoop, offset, h.nodeAt_node]
      dsimp only
      have side := mem_elems_iff_subtreeAt wf v 1
      simp only [subtreeAt] at side
      by_cases hv : v < key
      · simp only [hv, if_true] at enough side ⊢
        rw [ihl h.2.2.1 wf.1 (by omega)]
        simp only [side]
      · simp only [hv, if_false] at enough side ⊢
        rw [ihr h.2.2.2 wf.2.1 (by omega)]
        simp only [side]

/-- Tagged offsets and turns on the search path of `v`. -/
def steps (v : Nat) : Tree → List (Nat × Bool)
  | leaf _ _ => []
  | node s key l r =>
      (tagInterior s, decide (v < key)) :: if v < key then steps v l else steps v r

def targetSlot (v : Nat) : Tree → Nat
  | leaf s _ => s
  | node _ key l r => if v < key then targetSlot v l else targetSlot v r

theorem descend_laid {a : Arena} {t : Tree} (h : Laid a t) (v fuel : Nat) :
    a.descend v fuel (offset t) =
      if t.pathLength v ≤ fuel then some (steps v t, targetSlot v t) else none := by
  induction t generalizing fuel with
  | leaf s ks =>
      unfold Arena.descend
      rw [offset, h.nodeAt_leaf]
      simp only [pathLength, Nat.zero_le, if_true, steps, targetSlot]
  | node s key l r ihl ihr =>
      obtain ⟨-, left, right, split_eq, hl, hr⟩ := id h
      unfold Arena.descend
      rw [offset, h.nodeAt_node]
      dsimp only
      rw [left, right, split_eq]
      cases fuel with
      | zero => simp only [pathLength, Nat.le_zero, Nat.succ_ne_zero, if_false]
      | succ fuel =>
          dsimp only
          simp only [pathLength, Nat.add_le_add_iff_right, steps, targetSlot]
          by_cases hv : v < key
          · simp only [hv, decide_true, if_true, ihl hl]
            split <;> rfl
          · simp only [hv, decide_false, if_false, ihr hr, Bool.false_eq_true]
            split <;> rfl

theorem descend_stored {a : Arena} {t : Tree} (h : Stored a t) (v fuel : Nat) :
    a.descend v fuel (offset t) =
      if t.pathLength v ≤ fuel then some (steps v t, targetSlot v t) else none :=
  descend_laid h.laid v fuel

theorem steps_length (v : Nat) (t : Tree) : (steps v t).length = t.pathLength v := by
  induction t with
  | leaf => rfl
  | node s key l r ihl ihr =>
      simp only [steps, pathLength, List.length_cons]
      split
      · rw [ihl]
      · rw [ihr]

theorem pathLength_le_nodeSlots (v : Nat) (t : Tree) : t.pathLength v ≤ t.nodeSlots.length := by
  induction t with
  | leaf => exact Nat.le_refl 0
  | node s key l r ihl ihr =>
      simp only [pathLength, nodeSlots, List.length_cons, List.length_append]
      split <;> omega

theorem getElem?_steps {v i : Nat} {t : Tree} (hi : i < t.pathLength v) :
    ((steps v t)[i]?).map Prod.fst = some (offset (t.subtreeAt v i)) := by
  induction t generalizing i with
  | leaf s ks => exact absurd hi (Nat.not_lt_zero i)
  | node s key l r ihl ihr =>
      cases i with
      | zero => rfl
      | succ i =>
          simp only [pathLength] at hi
          simp only [steps, List.getElem?_cons_succ, subtreeAt]
          split <;> rename_i hv
          · rw [if_pos hv] at hi
            exact ihl (by omega)
          · rw [if_neg hv] at hi
            exact ihr (by omega)

theorem Laid.map_steps {a : Arena} {t : Tree} (h : Laid a t) (v n : Nat) :
    (((steps v t).take n).map fun step => stripTag step.1) = t.pathSlots v n := by
  induction t generalizing n with
  | leaf s ks => cases n <;> rfl
  | node s key l r ihl ihr =>
      obtain ⟨hs, -, -, -, hl, hr⟩ := h
      cases n with
      | zero => rfl
      | succ n =>
          simp only [steps, pathSlots, List.take_succ_cons, List.map_cons]
          rw [stripTag_tagInterior (by omega)]
          split
          · rw [ihl hl]
          · rw [ihr hr]

theorem Stored.map_steps {a : Arena} {t : Tree} (h : Stored a t) (v n : Nat) :
    (((steps v t).take n).map fun step => stripTag step.1) = t.pathSlots v n :=
  h.laid.map_steps v n

theorem subtreeAt_pathLength (v : Nat) (t : Tree) :
    ∃ ks, t.subtreeAt v (t.pathLength v) = leaf (targetSlot v t) ks := by
  induction t with
  | leaf s ks => exact ⟨ks, rfl⟩
  | node s key l r ihl ihr =>
      simp only [pathLength, subtreeAt, targetSlot]
      split
      · exact ihl
      · exact ihr

/-- The copied part of a graft's search path: the new addresses, the old turns. -/
theorem steps_graft {v : Nat} {ss : List Nat} {t sub : Tree} (hss : ss.length ≤ t.pathLength v) :
    (steps v (t.graft v ss sub)).take ss.length =
      (ss.map tagInterior).zip ((steps v t).map Prod.snd) := by
  induction t generalizing ss with
  | leaf s ks =>
      obtain rfl : ss = [] := List.eq_nil_of_length_eq_zero (Nat.le_zero.mp hss)
      rfl
  | node s key l r ihl ihr =>
      cases ss with
      | nil => simp
      | cons s' ss =>
          simp only [pathLength, List.length_cons] at hss
          simp only [graft, steps, List.map_cons, List.zip_cons_cons, List.length_cons]
          split <;> rename_i hv
          · rw [if_pos hv] at hss
            rw [steps, if_pos hv, List.take_succ_cons, ihl (by omega)]
          · rw [if_neg hv] at hss
            rw [steps, if_neg hv, List.take_succ_cons, ihr (by omega)]

end Tree

end AetherGraph
