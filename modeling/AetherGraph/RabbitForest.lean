import AetherGraph.RabbitOrder

/-! The dendrogram's parent pointers and its child lists describe one forest.  From that, the
walk lists every tree as one range, and the numbering separates exactly the trees. -/

namespace AetherGraph

open Foundation ParentPointers

namespace Dendrogram

/-- `kids r` is the forest under each top-level vertex `r`, and `top` sends every vertex to the
tree that holds it. -/
structure Hierarchy (n k : Nat) (d : Dendrogram) (top : Nat → Nat) (kids : Nat → Siblings Nat) :
    Prop where
  tops : Tops d.parent n k top
  firstChild_length : d.firstChild.length = n
  nextSibling_length : d.nextSibling.length = n
  linked : ∀ r < n, top r = r → ∃ p, d.firstChild[r]? = some p ∧
    Siblings.Linked NONE (d.firstChild[·]?) (d.nextSibling[·]?) p (kids r)
  nodup : ∀ r < n, top r = r → (r :: (kids r).preorder).Nodup
  mem : ∀ r < n, top r = r → ∀ w, w ∈ r :: (kids r).preorder ↔ w < n ∧ top w = r

/-- A lookup among `n` vertices at most `n` links deep returns the top-level community. -/
theorem root_eq {parent : List Nat} {n k v : Nat} {top : Nat → Nat} (h : Tops parent n k top)
    (depth : k ≤ n) (hv : v < n) :
    ∃ compressed, root parent v = some (compressed, top v) ∧ Tops compressed n k top := by
  have enough : k < parent.length + 1 := by
    rw [h.length]
    exact Nat.lt_succ_of_le depth
  obtain ⟨found, compressed, ran, tops⟩ := h.lookup hv enough
  refine ⟨compressed, ?_, tops⟩
  simp only [root, found, ran, Option.bind_eq_bind, Option.bind_some]

namespace Hierarchy

variable {n k : Nat} {d : Dendrogram} {top : Nat → Nat} {kids : Nat → Siblings Nat}

theorem singletons (n : Nat) : Hierarchy n 0 (singletons n) id fun _ => .none where
  tops := Tops.range n
  firstChild_length := List.length_replicate
  nextSibling_length := List.length_replicate
  linked r hr _ := ⟨NONE, List.getElem?_replicate_of_lt hr, rfl⟩
  nodup r _ _ := List.nodup_singleton r
  mem r hr _ w := by
    rw [Siblings.preorder, List.mem_singleton]
    constructor
    · rintro rfl
      exact ⟨hr, rfl⟩
    · exact fun same => same.2

theorem withParent (h : Hierarchy n k d top kids) {parent : List Nat} (tops : Tops parent n k top) :
    Hierarchy n k { d with parent := parent } top kids where
  tops := tops
  firstChild_length := h.firstChild_length
  nextSibling_length := h.nextSibling_length
  linked := h.linked
  nodup := h.nodup
  mem := h.mem

theorem succ (h : Hierarchy n k d top kids) : Hierarchy n (k + 1) d top kids where
  tops := h.tops.succ
  firstChild_length := h.firstChild_length
  nextSibling_length := h.nextSibling_length
  linked := h.linked
  nodup := h.nodup
  mem := h.mem

theorem mem_below (h : Hierarchy n k d top kids) {r w : Nat} (hr : r < n) (topR : top r = r)
    (hw : w ∈ (kids r).preorder) : w < n ∧ top w = r ∧ w ≠ r := by
  obtain ⟨inside, same⟩ := (h.mem r hr topR w).mp (List.mem_cons_of_mem r hw)
  refine ⟨inside, same, ?_⟩
  rintro rfl
  exact (List.nodup_cons.mp (h.nodup w hr topR)).1 hw

/-- Merging the top-level vertex `u` into `c` puts `u` with its tree in front of `c`'s children. -/
theorem merge (h : Hierarchy n k d top kids) (ids : n ≤ NONE) {u c first : Nat} (hu : u < n)
    (hc : c < n) (apart : u ≠ c) (topU : top u = u) (topC : top c = c)
    (firstC : d.firstChild[c]? = some first) :
    Hierarchy n (k + 1)
      ⟨d.parent.set u c, d.firstChild.set c u, d.nextSibling.set u first⟩
      (fun v => if top v = u then c else top v)
      (fun r => if r = c then .cons u (kids u) (kids c) else kids r) := by
  have first_ne : ∀ {v : Nat}, v ≠ c → (d.firstChild.set c u)[v]? = d.firstChild[v]? :=
    fun other => List.getElem?_set_ne (Ne.symm other)
  have next_ne : ∀ {v : Nat}, v ≠ u → (d.nextSibling.set u first)[v]? = d.nextSibling[v]? :=
    fun other => List.getElem?_set_ne (Ne.symm other)
  -- no tree but `u`'s and `c`'s own top is written
  have framed : ∀ r < n, top r = r → ∀ {p : Nat},
      Siblings.Linked NONE (d.firstChild[·]?) (d.nextSibling[·]?) p (kids r) →
      Siblings.Linked NONE ((d.firstChild.set c u)[·]?) ((d.nextSibling.set u first)[·]?) p
        (kids r) := by
    intro r hr topR p linked
    refine linked.frame fun v hv => ⟨first_ne ?_, next_ne ?_⟩
    · rintro rfl
      obtain ⟨-, same, other⟩ := h.mem_below hr topR hv
      exact other (topC.symm.trans same)
    · rintro rfl
      obtain ⟨-, same, other⟩ := h.mem_below hr topR hv
      exact other (topU.symm.trans same)
  -- a top-level vertex of the merged forest was one before, and is not `u`
  have before : ∀ {r : Nat}, (if top r = u then c else top r) = r → r ≠ u ∧ top r = r := by
    intro r same
    split at same
    · rename_i under
      subst same
      exact absurd (under.symm.trans topC) apart
    · rename_i under
      refine ⟨?_, same⟩
      rintro rfl
      exact under topU
  have disjoint : ∀ w ∈ u :: (kids u).preorder, w ∉ c :: (kids c).preorder := by
    intro w inU inC
    have underU := ((h.mem u hu topU w).mp inU).2
    have underC := ((h.mem c hc topC w).mp inC).2
    exact apart (underU.symm.trans underC)
  have grown : c :: (Siblings.cons u (kids u) (kids c)).preorder =
      c :: ((u :: (kids u).preorder) ++ (kids c).preorder) := rfl
  refine ⟨h.tops.merge hu hc apart topU topC, List.length_set.trans h.firstChild_length,
    List.length_set.trans h.nextSibling_length, fun r hr now => ?_, fun r hr now => ?_,
    fun r hr now w => ?_⟩
  · obtain ⟨notU, topR⟩ := before now
    by_cases same : r = c
    · subst same
      rw [if_pos rfl]
      refine ⟨u, List.getElem?_set_self (h.firstChild_length ▸ hr), rfl, ?_, ?_, first, ?_, ?_⟩
      · omega
      · obtain ⟨p, child, linked⟩ := h.linked u hu topU
        exact ⟨p, (first_ne apart).trans child, framed u hu topU linked⟩
      · exact List.getElem?_set_self (h.nextSibling_length ▸ hu)
      · obtain ⟨p, child, linked⟩ := h.linked r hr topR
        obtain rfl := Option.some.inj (child.symm.trans firstC)
        exact framed r hr topR linked
    · rw [if_neg same]
      obtain ⟨p, child, linked⟩ := h.linked r hr topR
      exact ⟨p, (first_ne same).trans child, framed r hr topR linked⟩
  · obtain ⟨notU, topR⟩ := before now
    by_cases same : r = c
    · subst same
      rw [if_pos rfl, grown, List.nodup_cons, List.mem_append, List.nodup_append']
      have nodupC := List.nodup_cons.mp (h.nodup r hr topR)
      refine ⟨?_, h.nodup u hu topU, nodupC.2, fun w inU inC => ?_⟩
      · rintro (inU | inC)
        · exact disjoint r inU List.mem_cons_self
        · exact nodupC.1 inC
      · exact disjoint w inU (List.mem_cons_of_mem r inC)
    · rw [if_neg same]
      exact h.nodup r hr topR
  · obtain ⟨notU, topR⟩ := before now
    by_cases same : r = c
    · subst same
      rw [if_pos rfl, grown, List.mem_cons, List.mem_append, h.mem u hu topU, or_left_comm,
        ← List.mem_cons, h.mem r hr topR]
      by_cases under : top w = u
      · simp only [under, and_true, if_pos]
        exact ⟨fun side => side.elim id And.left, Or.inl⟩
      · rw [if_neg under]
        exact ⟨fun side => side.elim (fun inU => absurd inU.2 under) id, Or.inr⟩
    · rw [if_neg same, h.mem r hr topR]
      by_cases under : top w = u
      · rw [if_pos under, under]
        exact ⟨fun inside => absurd inside.2.symm notU, fun inside => absurd inside.2.symm same⟩
      · rw [if_neg under]

variable (top kids) in
/-- The vertices of `r`'s tree, when `r` tops one. -/
def tree (r : Nat) : List Nat := if top r = r then r :: (kids r).preorder else []

theorem mem_tree (h : Hierarchy n k d top kids) {r w : Nat} (hr : r < n) :
    w ∈ tree top kids r ↔ w < n ∧ top w = r := by
  unfold tree
  split
  · rename_i topR
    exact h.mem r hr topR w
  · rename_i under
    refine ⟨fun absent => absurd absent List.not_mem_nil, fun inside => absurd ?_ under⟩
    rw [← inside.2]
    exact h.tops.top_top inside.1

theorem emit_eq (h : Hierarchy n k d top kids) {r : Nat} (hr : r < n) (perm : List Nat) :
    d.emit perm r = some (perm ++ tree top kids r) := by
  unfold emit tree
  rw [List.getElem?_eq_getElem (h.tops.length ▸ hr), Option.bind_eq_bind, Option.bind_some]
  split
  · rename_i under
    rw [if_neg, List.append_nil]
    intro topR
    have fixed := (h.tops.fixed_iff hr).mpr topR
    rw [List.getElem?_eq_getElem (h.tops.length ▸ hr)] at fixed
    exact under (Option.some.inj fixed)
  · rename_i fixed
    have topR : top r = r := by
      refine (h.tops.fixed_iff hr).mp ?_
      rw [List.getElem?_eq_getElem (h.tops.length ▸ hr), Decidable.not_not.mp fixed]
    obtain ⟨p, child, linked⟩ := h.linked r hr topR
    have size : (kids r).preorder.length < n := by
      have all : (r :: (kids r).preorder) ⊆ List.range n := fun w hw =>
        List.mem_range.mpr ((h.mem r hr topR w).mp hw).1
      have bound := (List.subperm_of_subset (h.nodup r hr topR) all).length_le
      rwa [List.length_cons, List.length_range] at bound
    obtain ⟨fuel, steps⟩ : ∃ fuel, 2 * d.parent.length + 2 =
        fuel + 1 + (2 * (kids r).preorder.length + 1) :=
      ⟨2 * n - 2 * (kids r).preorder.length, by rw [h.tops.length]; omega⟩
    rw [if_pos topR, child, Option.bind_some, steps, linked.walk, List.append_assoc]
    rfl

theorem permutation_eq (h : Hierarchy n k d top kids) :
    d.permutation = some ((List.range n).flatMap (tree top kids)) := by
  unfold permutation
  rw [h.tops.length, foldlM_append fun r hr => h.emit_eq (List.mem_range.mp hr)]
  rfl

/-- The walk lists every vertex once. -/
theorem permutation_perm (h : Hierarchy n k d top kids) :
    ((List.range n).flatMap (tree top kids)).Perm (List.range n) := by
  refine (List.perm_ext_iff_of_nodup ?_ List.nodup_range).mpr fun w => ?_
  · refine List.nodup_flatMap.mpr ⟨fun r hr => ?_, ?_⟩
    · unfold tree
      split
      · exact h.nodup r (List.mem_range.mp hr) ‹_›
      · exact List.nodup_nil
    · refine List.nodup_range.pairwise_of_forall_ne fun r hr s hs apart w inR inS => ?_
      have underR := ((h.mem_tree (List.mem_range.mp hr)).mp inR).2
      have underS := ((h.mem_tree (List.mem_range.mp hs)).mp inS).2
      exact apart (underR.symm.trans underS)
  · rw [List.mem_flatMap, List.mem_range]
    constructor
    · rintro ⟨r, hr, hw⟩
      exact ((h.mem_tree (List.mem_range.mp hr)).mp hw).1
    · intro hw
      have hr := h.tops.inside w hw
      exact ⟨top w, List.mem_range.mpr hr, (h.mem_tree hr).mpr ⟨hw, rfl⟩⟩

theorem tree_infix {r : Nat} (hr : r < n) :
    tree top kids r <:+: (List.range n).flatMap (tree top kids) := by
  rw [List.flatMap_def]
  exact List.infix_of_mem_flatten (List.mem_map_of_mem (List.mem_range.mpr hr))

/-- A top-level vertex's subtree is its tree. -/
theorem subtree_top (h : Hierarchy n k d top kids) {r w : Nat} (hr : r < n) (topR : top r = r) :
    d.Subtree r w ↔ w < n ∧ top w = r := by
  obtain ⟨p, child, linked⟩ := h.linked r hr topR
  rw [← h.mem r hr topR]
  exact (linked.subtree child).symm

/-- Every vertex's subtree is one range of its tree. -/
theorem subtree_infix (h : Hierarchy n k d top kids) {v : Nat} (hv : v < n) :
    ∃ block, block <:+: (List.range n).flatMap (tree top kids) ∧
      ∀ w, w ∈ block ↔ d.Subtree v w := by
  have hr := h.tops.inside v hv
  have topR := h.tops.top_top hv
  obtain ⟨p, child, linked⟩ := h.linked _ hr topR
  have inside : v ∈ top v :: (kids (top v)).preorder := (h.mem _ hr topR v).mpr ⟨hv, rfl⟩
  have whole : (top v :: (kids (top v)).preorder) <:+: (List.range n).flatMap (tree top kids) := by
    have within : tree top kids (top v) <:+: _ := tree_infix hr
    rwa [tree, if_pos topR] at within
  rcases List.mem_cons.mp inside with same | below
  · refine ⟨_, whole, fun w => ?_⟩
    rw [← same] at child linked ⊢
    exact linked.subtree child
  · obtain ⟨c, children, child, linked, within⟩ := linked.infix_preorder below
    refine ⟨v :: children.preorder, ?_, fun w => linked.subtree child⟩
    exact (within.trans (List.suffix_cons _ _).isInfix).trans whole

theorem sameTree_iff (h : Hierarchy n k d top kids) {v w : Nat} (hv : v < n) (hw : w < n) :
    d.SameTree v w ↔ top v = top w := by
  constructor
  · rintro ⟨r, fixed, subV, subW⟩
    have hr : r < n := h.tops.length ▸ (List.getElem?_eq_some_iff.mp fixed).1
    have topR := (h.tops.fixed_iff hr).mp fixed
    rw [((h.subtree_top hr topR).mp subV).2, ((h.subtree_top hr topR).mp subW).2]
  · intro same
    have hr := h.tops.inside v hv
    have topR := h.tops.top_top hv
    exact ⟨top v, (h.tops.fixed_iff hr).mpr topR, (h.subtree_top hr topR).mpr ⟨hv, rfl⟩,
      (h.subtree_top hr topR).mpr ⟨hw, same.symm⟩⟩

end Hierarchy

/-- After `m` vertices: each has its top's id, ids are distinct for distinct tops, and they
ascend with the first vertex that has them. -/
structure Numbered (n k : Nat) (top : Nat → Nat) (m : Nat) (s : Numbering) : Prop where
  tops : Tops s.parent n k top
  idOfRoot_length : s.idOfRoot.length = n
  out_length : s.out.length = m
  next_le : s.next ≤ m
  out_eq : ∀ v < m, ∃ id < s.next, s.out[v]? = some id ∧ s.idOfRoot[top v]? = some id
  unseen : ∀ r < n, (∀ v < m, top v ≠ r) → s.idOfRoot[r]? = some NONE
  seen : ∀ id < s.next, id ∈ s.out
  injective : ∀ v < m, ∀ w < m, s.idOfRoot[top v]? = s.idOfRoot[top w]? → top v = top w
  ascending : ∀ i j, i < j → j < s.next → s.out.idxOf i < s.out.idxOf j

namespace Numbered

variable {n k m : Nat} {top : Nat → Nat} {s : Numbering}

theorem out_lt (h : Numbered n k top m s) {id : Nat} (hid : id ∈ s.out) : id < s.next := by
  obtain ⟨v, at_⟩ := List.mem_iff_getElem?.mp hid
  have hv : v < m := h.out_length ▸ (List.getElem?_eq_some_iff.mp at_).1
  obtain ⟨id', small, out, -⟩ := h.out_eq v hv
  obtain rfl : id = id' := Option.some.inj (at_.symm.trans out)
  exact small

/-- A vertex of a tree met before gets the id of that tree. -/
theorem again (h : Numbered n k top m s) {parent : List Nat} (tops : Tops parent n k top)
    {v id : Nat} (hv : v < m) (same : top v = top m) (small : id < s.next)
    (known : s.idOfRoot[top m]? = some id) :
    Numbered n k top (m + 1) ⟨parent, s.idOfRoot, s.next, s.out ++ [id]⟩ := by
  have mem : id ∈ s.out := h.seen id small
  refine ⟨tops, h.idOfRoot_length, by rw [List.length_append, h.out_length]; rfl,
    Nat.le_succ_of_le h.next_le, fun w hw => ?_, fun r hr absent => ?_, fun i hi => ?_,
    fun w hw x hx ids => ?_, fun i j ij hj => ?_⟩
  · rcases Nat.lt_succ_iff_lt_or_eq.mp hw with old | rfl
    · obtain ⟨id', small', out, root⟩ := h.out_eq w old
      refine ⟨id', small', ?_, root⟩
      rw [List.getElem?_append_left (h.out_length ▸ old), out]
    · refine ⟨id, small, ?_, known⟩
      rw [← h.out_length]
      exact List.getElem?_concat_length
  · exact h.unseen r hr fun w hw => absent w (Nat.lt_succ_of_lt hw)
  · exact List.mem_append_left _ (h.seen i hi)
  · -- the new vertex stands for the earlier one of its tree
    have earlier : ∀ w < m + 1, ∃ w' < m, top w' = top w := by
      intro w hw
      rcases Nat.lt_succ_iff_lt_or_eq.mp hw with old | rfl
      · exact ⟨w, old, rfl⟩
      · exact ⟨v, hv, same⟩
    obtain ⟨w', hw', sameW⟩ := earlier w hw
    obtain ⟨x', hx', sameX⟩ := earlier x hx
    rw [← sameW, ← sameX] at ids ⊢
    exact h.injective w' hw' x' hx' ids
  · rw [List.idxOf_append_of_mem (h.seen i (Nat.lt_trans ij hj)),
      List.idxOf_append_of_mem (h.seen j hj)]
    exact h.ascending i j ij hj

/-- The first vertex of a tree gets the next id. -/
theorem fresh (h : Numbered n k top m s) {parent : List Nat} (tops : Tops parent n k top)
    (hm : m < n) (absent : ∀ v < m, top v ≠ top m) :
    Numbered n k top (m + 1)
      ⟨parent, s.idOfRoot.set (top m) s.next, s.next + 1, s.out ++ [s.next]⟩ := by
  have inside : top m < s.idOfRoot.length := h.idOfRoot_length ▸ tops.inside m hm
  have new : s.next ∉ s.out := fun old => Nat.lt_irrefl _ (h.out_lt old)
  have kept : ∀ v < m, (s.idOfRoot.set (top m) s.next)[top v]? = s.idOfRoot[top v]? :=
    fun v hv => List.getElem?_set_ne (Ne.symm (absent v hv))
  have here : (s.idOfRoot.set (top m) s.next)[top m]? = some s.next := List.getElem?_set_self inside
  have apart : ∀ w < m, (s.idOfRoot.set (top m) s.next)[top w]? ≠ some s.next := by
    intro w hw same
    obtain ⟨id, small, -, root⟩ := h.out_eq w hw
    rw [kept w hw, root] at same
    exact Nat.ne_of_lt small (Option.some.inj same)
  refine ⟨tops, List.length_set.trans h.idOfRoot_length,
    by rw [List.length_append, h.out_length]; rfl, Nat.succ_le_succ h.next_le, fun w hw => ?_,
    fun r hr unmet => ?_, fun i hi => ?_, fun w hw x hx same => ?_, fun i j ij hj => ?_⟩
  · rcases Nat.lt_succ_iff_lt_or_eq.mp hw with old | rfl
    · obtain ⟨id, small, out, root⟩ := h.out_eq w old
      refine ⟨id, Nat.lt_succ_of_lt small, ?_, (kept w old).trans root⟩
      rw [List.getElem?_append_left (h.out_length ▸ old), out]
    · refine ⟨s.next, Nat.lt_succ_self _, ?_, here⟩
      rw [← h.out_length]
      exact List.getElem?_concat_length
  · rw [List.getElem?_set_ne (unmet m (Nat.lt_succ_self m))]
    exact h.unseen r hr fun w hw => unmet w (Nat.lt_succ_of_lt hw)
  · rcases Nat.lt_succ_iff_lt_or_eq.mp hi with old | rfl
    · exact List.mem_append_left _ (h.seen i old)
    · exact List.mem_append_right _ List.mem_cons_self
  · rcases Nat.lt_succ_iff_lt_or_eq.mp hw with oldW | rfl <;>
      rcases Nat.lt_succ_iff_lt_or_eq.mp hx with oldX | rfl
    · dsimp only at same
      rw [kept w oldW, kept x oldX] at same
      exact h.injective w oldW x oldX same
    · exact absurd (same.trans here) (apart w oldW)
    · exact absurd (same.symm.trans here) (apart x oldX)
    · rfl
  · rw [List.idxOf_append_of_mem (h.seen i (by dsimp only at hj; omega))]
    rcases Nat.lt_succ_iff_lt_or_eq.mp hj with old | rfl
    · rw [List.idxOf_append_of_mem (h.seen j old)]
      exact h.ascending i j ij old
    · rw [List.idxOf_append_of_notMem new]
      exact Nat.lt_of_lt_of_le (List.idxOf_lt_length_of_mem (h.seen i ij)) (Nat.le_add_right _ _)

theorem push (h : Numbered n k top m s) (ids : n ≤ NONE) (depth : k ≤ n) (hm : m < n) :
    ∃ s', s.push m = some s' ∧ Numbered n k top (m + 1) s' := by
  obtain ⟨parent, found, tops⟩ := root_eq h.tops depth hm
  unfold Numbering.push
  rw [found, Option.bind_eq_bind, Option.bind_some]
  dsimp only
  rw [Option.bind_eq_bind]
  by_cases met : ∃ v < m, top v = top m
  · obtain ⟨v, hv, same⟩ := met
    obtain ⟨id, small, -, known⟩ := h.out_eq v hv
    rw [same] at known
    have := h.next_le
    rw [known, Option.bind_some, if_neg (by omega)]
    exact ⟨_, rfl, h.again tops hv same small known⟩
  · have absent : ∀ v < m, top v ≠ top m := fun v hv same => met ⟨v, hv, same⟩
    rw [h.unseen (top m) (h.tops.inside m hm) absent, Option.bind_some, if_pos rfl]
    exact ⟨_, rfl, h.fresh tops hm absent⟩

end Numbered

/-- The ids in use are those below some count, and they ascend with the lowest vertex that has
them. -/
def DenseByLowest (parts : List Nat) : Prop :=
  ∃ count, (∀ id, id ∈ parts ↔ id < count) ∧
    ∀ i j, i < j → j < count → parts.idxOf i < parts.idxOf j

theorem Hierarchy.partitions_eq {n k : Nat} {d : Dendrogram} {top : Nat → Nat}
    {kids : Nat → Siblings Nat} (h : Hierarchy n k d top kids) (ids : n ≤ NONE) (depth : k ≤ n) :
    ∃ parts, d.partitions = some parts ∧ parts.length = n ∧ DenseByLowest parts ∧
      ∀ v < n, ∀ w < n, parts[v]? = parts[w]? ↔ top v = top w := by
  obtain ⟨s, ran, m, done, numbered⟩ := foldlM_isSome
    (P := fun rest s => ∃ m, List.range' m rest.length = rest ∧ m + rest.length = n ∧
      Numbered n k top m s)
    (f := Numbering.push) (l := List.range n)
    (b := ⟨d.parent, List.replicate n NONE, 0, []⟩)
    (fun v rest s ⟨m, upFrom, total, numbered⟩ => by
      rw [List.length_cons, List.range'_succ, List.cons.injEq] at upFrom
      obtain ⟨rfl, upFrom⟩ := upFrom
      rw [List.length_cons] at total
      obtain ⟨s', ran, numbered⟩ := numbered.push ids depth (by omega)
      exact ⟨s', ran, m + 1, upFrom, by omega, numbered⟩)
    ⟨0, by rw [List.length_range, List.range_eq_range'], by rw [List.length_range, Nat.zero_add],
      { tops := h.tops
        idOfRoot_length := List.length_replicate
        out_length := rfl
        next_le := Nat.le_refl 0
        out_eq := fun v hv => absurd hv (Nat.not_lt_zero v)
        unseen := fun r hr _ => List.getElem?_replicate_of_lt hr
        seen := fun id hid => absurd hid (Nat.not_lt_zero id)
        injective := fun v hv => absurd hv (Nat.not_lt_zero v)
        ascending := fun i j _ hj => absurd hj (Nat.not_lt_zero j) }⟩
  obtain ⟨total, numbered⟩ := numbered
  obtain rfl : m = n := total
  have out_root : ∀ v < m, s.out[v]? = s.idOfRoot[top v]? := by
    intro v hv
    obtain ⟨id, -, out, root⟩ := numbered.out_eq v hv
    rw [out, root]
  refine ⟨s.out, ?_, numbered.out_length, ⟨s.next, fun id => ⟨numbered.out_lt, numbered.seen id⟩,
    numbered.ascending⟩, fun v hv w hw => ?_⟩
  · rw [partitions, h.tops.length, ran]
    rfl
  · rw [out_root v hv, out_root w hw]
    refine ⟨numbered.injective v hv w hw, fun same => ?_⟩
    rw [same]

end Dendrogram

end AetherGraph
