import AetherGraph.CTree

/-! The persistent radix table of roots behind a snapshot.  A node is a function of its
masked index, a shared node the same function; shifts and masks of vertex ids are
divisions and remainders. -/

namespace AetherGraph

/-- Roots per leaf. -/
def leafLen : Nat := 256
/-- Children per interior table node. -/
def fan : Nat := 256

abbrev Leaf := Nat → Nat
abbrev Mid := Nat → Leaf
abbrev Upper := Nat → Mid

structure RootTable where
  top : List Upper

/-- Leaf `l` of the live roots. -/
def copyLeaf (l : Nat) (roots : List Nat) : Leaf := fun i => roots.getD (l * leafLen + i) null

namespace RootTable

def empty (numVertices : Nat) : RootTable :=
  ⟨List.replicate (max ((numVertices + (leafLen * fan * fan - 1)) / (leafLen * fan * fan)) 1)
    fun _ _ _ => null⟩

def get (t : RootTable) (v : Nat) : Nat :=
  t.top.getD (v / (leafLen * fan * fan)) (fun _ _ _ => null)
    (v / (leafLen * fan) % fan) (v / leafLen % fan) (v % leafLen)

/-- The leaves of one mid node, copied one by one. -/
def copyLeaves (roots : List Nat) (mid : Mid) (leaves : List Nat) : Mid :=
  leaves.foldl (fun mid l => Function.update mid (l % fan) (copyLeaf l roots)) mid

/-- The inner loop of `with_leaves`: one mid node a turn. -/
def copyMids (roots : List Nat) (upper : Upper) : List Nat → Upper
  | [] => upper
  | first :: group =>
      let m := first / fan % fan
      let inMid := fun l => l / fan % fan == m
      copyMids roots
        (Function.update upper m (copyLeaves roots (upper m) (first :: group.takeWhile inMid)))
        (group.dropWhile inMid)
  termination_by group => group.length
  decreasing_by exact Nat.lt_succ_of_le (List.dropWhile_sublist _).length_le

/-- The outer loop: one upper node a turn. -/
def copyUppers (roots : List Nat) (top : List Upper) : List Nat → List Upper
  | [] => top
  | first :: rest =>
      let u := first / (fan * fan)
      let inUpper := fun l => l / (fan * fan) == u
      copyUppers roots
        (top.set u (copyMids roots (top.getD u fun _ _ _ => null)
          (first :: rest.takeWhile inUpper)))
        (rest.dropWhile inUpper)
  termination_by rest => rest.length
  decreasing_by exact Nat.lt_succ_of_le (List.dropWhile_sublist _).length_le

/-- A copy whose `touched` leaves hold the current roots. -/
def withLeaves (t : RootTable) (touched : List Nat) (roots : List Nat) : RootTable :=
  ⟨copyUppers roots t.top touched⟩

/-- Full table of the current roots. -/
def fromRoots (roots : List Nat) : RootTable :=
  (empty roots.length).withLeaves
    (List.range ((roots.length + (leafLen - 1)) / leafLen)) roots

theorem copyLeaves_apply (roots : List Nat) (mid : Mid) (leaves : List Nat) {c : Nat}
    (hc : ∀ l ∈ leaves, l / fan = c) {j : Nat} (hj : j < fan) :
    copyLeaves roots mid leaves j =
      if c * fan + j ∈ leaves then copyLeaf (c * fan + j) roots else mid j := by
  induction leaves generalizing mid with
  | nil => simp [copyLeaves]
  | cons l rest ih =>
      have here := hc l (List.mem_cons_self ..)
      have split : l = c * fan + l % fan := by
        rw [← here, Nat.mul_comm]
        exact (Nat.div_add_mod l fan).symm
      change copyLeaves roots (Function.update mid (l % fan) (copyLeaf l roots)) rest j = _
      rw [ih _ fun l hl => hc l (List.mem_cons_of_mem _ hl)]
      by_cases later : c * fan + j ∈ rest
      · rw [if_pos later, if_pos (List.mem_cons_of_mem l later)]
      · rw [if_neg later]
        by_cases same : j = l % fan
        · subst same
          rw [Function.update_self, ← split, if_pos (List.mem_cons_self ..)]
        · rw [Function.update_of_ne same, if_neg]
          rw [List.mem_cons, not_or]
          refine ⟨fun eq => same ?_, later⟩
          omega

theorem copyMids_apply (roots : List Nat) (upper : Upper) (group : List Nat) {u : Nat}
    (hu : ∀ l ∈ group, l / (fan * fan) = u) {m j : Nat} (hm : m < fan) (hj : j < fan) :
    copyMids roots upper group m j =
      if u * (fan * fan) + m * fan + j ∈ group then
        copyLeaf (u * (fan * fan) + m * fan + j) roots
      else upper m j := by
  induction hn : group.length using Nat.strong_induction_on generalizing upper group with
  | _ n ih =>
      subst hn
      cases group with
      | nil => simp [copyMids]
      | cons first group =>
          have here := hu first (List.mem_cons_self ..)
          rw [copyMids]
          set inMid := fun l => l / fan % fan == first / fan % fan with hin
          have whole := List.takeWhile_append_dropWhile (p := inMid) (l := group)
          rw [ih _ (Nat.lt_succ_of_le (List.dropWhile_sublist _).length_le) _ _
            (fun l hl => hu l (List.mem_cons_of_mem _ ((List.dropWhile_sublist _).subset hl))) rfl]
          by_cases tail : u * (fan * fan) + m * fan + j ∈ group.dropWhile inMid
          · rw [if_pos tail,
              if_pos (List.mem_cons_of_mem first ((List.dropWhile_sublist _).subset tail))]
          rw [if_neg tail]
          have member : u * (fan * fan) + m * fan + j ∈ first :: group ↔
              u * (fan * fan) + m * fan + j ∈ first :: group.takeWhile inMid := by
            rw [List.mem_cons, List.mem_cons]
            conv_lhs => rw [← whole]
            simp only [List.mem_append, tail, or_false]
          rw [if_congr member rfl rfl]
          have run : ∀ l ∈ first :: group.takeWhile inMid,
              l / fan = u * fan + first / fan % fan := by
            intro l hl
            have hlu : l / (fan * fan) = u := by
              refine hu l ?_
              rcases List.mem_cons.mp hl with rfl | hl
              · exact List.mem_cons_self ..
              · exact List.mem_cons_of_mem _ ((List.takeWhile_prefix _).subset hl)
            have hlm : l / fan % fan = first / fan % fan := by
              rcases List.mem_cons.mp hl with rfl | hl
              · rfl
              · simpa [hin] using List.mem_takeWhile_imp hl
            rw [← hlm, ← hlu]
            simp only [fan]
            omega
          by_cases same : m = first / fan % fan
          · subst same
            rw [Function.update_self, copyLeaves_apply roots _ _ run hj]
            have eq : (u * fan + first / fan % fan) * fan + j =
                u * (fan * fan) + first / fan % fan * fan + j := by
              simp only [fan]
              omega
            rw [eq]
          · rw [Function.update_of_ne same, if_neg]
            intro hmem
            have := run _ hmem
            simp only [fan] at *
            omega

theorem copyUppers_length (roots : List Nat) (top : List Upper) (touched : List Nat) :
    (copyUppers roots top touched).length = top.length := by
  induction hn : touched.length using Nat.strong_induction_on generalizing top touched with
  | _ n ih =>
      subst hn
      cases touched with
      | nil => rw [copyUppers]
      | cons first rest =>
          rw [copyUppers]
          rw [ih _ (Nat.lt_succ_of_le (List.dropWhile_sublist _).length_le) _ _ rfl,
            List.length_set]

theorem copyUppers_apply (roots : List Nat) (top : List Upper) (touched : List Nat)
    {u m j : Nat} (hu : u < top.length) (hm : m < fan) (hj : j < fan) :
    (copyUppers roots top touched).getD u (fun _ _ _ => null) m j =
      if u * (fan * fan) + m * fan + j ∈ touched then
        copyLeaf (u * (fan * fan) + m * fan + j) roots
      else top.getD u (fun _ _ _ => null) m j := by
  induction hn : touched.length using Nat.strong_induction_on generalizing top touched with
  | _ n ih =>
      subst hn
      cases touched with
      | nil => simp [copyUppers]
      | cons first rest =>
          rw [copyUppers]
          set inUpper := fun l => l / (fan * fan) == first / (fan * fan) with hin
          have whole := List.takeWhile_append_dropWhile (p := inUpper) (l := rest)
          rw [ih _ (Nat.lt_succ_of_le (List.dropWhile_sublist _).length_le) _ _
            (by rwa [List.length_set]) rfl]
          by_cases tail : u * (fan * fan) + m * fan + j ∈ rest.dropWhile inUpper
          · rw [if_pos tail,
              if_pos (List.mem_cons_of_mem first ((List.dropWhile_sublist _).subset tail))]
          rw [if_neg tail]
          have member : u * (fan * fan) + m * fan + j ∈ first :: rest ↔
              u * (fan * fan) + m * fan + j ∈ first :: rest.takeWhile inUpper := by
            rw [List.mem_cons, List.mem_cons]
            conv_lhs => rw [← whole]
            simp only [List.mem_append, tail, or_false]
          rw [if_congr member rfl rfl]
          have run : ∀ l ∈ first :: rest.takeWhile inUpper,
              l / (fan * fan) = first / (fan * fan) := by
            intro l hl
            rcases List.mem_cons.mp hl with rfl | hl
            · rfl
            · simpa [hin] using List.mem_takeWhile_imp hl
          by_cases same : u = first / (fan * fan)
          · subst same
            rw [List.getD_eq_getElem?_getD, List.getElem?_set_self hu, Option.getD_some,
              copyMids_apply roots _ _ run hm hj]
          · rw [List.getD_eq_getElem?_getD, List.getElem?_set_ne (Ne.symm same),
              ← List.getD_eq_getElem?_getD, if_neg]
            intro hmem
            have := run _ hmem
            simp only [fan] at *
            omega

theorem top_length_withLeaves (t : RootTable) (touched roots : List Nat) :
    (t.withLeaves touched roots).top.length = t.top.length :=
  copyUppers_length roots t.top touched

/-- Reading the rebuilt table: a touched leaf shows the live root, any other vertex what
it showed before. -/
theorem get_withLeaves (t : RootTable) (touched roots : List Nat) {v : Nat}
    (hv : v / (leafLen * fan * fan) < t.top.length) :
    (t.withLeaves touched roots).get v =
      if v / leafLen ∈ touched then roots.getD v null else t.get v := by
  have hm : v / (leafLen * fan) % fan < fan := Nat.mod_lt _ (by decide)
  have hj : v / leafLen % fan < fan := Nat.mod_lt _ (by decide)
  have index : v / (leafLen * fan * fan) * (fan * fan) + v / (leafLen * fan) % fan * fan +
      v / leafLen % fan = v / leafLen := by
    simp only [leafLen, fan]
    omega
  unfold get withLeaves
  dsimp only
  rw [copyUppers_apply roots t.top touched hv hm hj, index]
  split
  · rw [copyLeaf, Nat.div_add_mod' v leafLen]
  · rfl

theorem top_length_empty {numVertices v : Nat} (hv : v < numVertices) :
    v / (leafLen * fan * fan) < (empty numVertices).top.length := by
  simp only [empty, List.length_replicate, leafLen, fan]
  omega

theorem get_empty (numVertices v : Nat) : (empty numVertices).get v = null := by
  unfold get empty
  rw [List.getD_eq_getElem?_getD, List.getElem?_replicate]
  split <;> rfl

/-- The full copy reads every live root. -/
theorem get_fromRoots (roots : List Nat) {v : Nat} (hv : v < roots.length) :
    (fromRoots roots).get v = roots.getD v null := by
  rw [fromRoots, get_withLeaves _ _ _ (top_length_empty hv), if_pos]
  rw [List.mem_range]
  simp only [leafLen]
  omega

end RootTable

end AetherGraph
