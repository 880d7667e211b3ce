import AetherGraph.StoredTree

/-! The balanced build over any sink that keeps what it has written.  The tree built
holds exactly the list, uses exactly the slots the sink handed out, and has the shape
its size dictates, so its depth is logarithmic in its leaves. -/

namespace AetherGraph

open Foundation Foundation.LeafTree Arena

/-- `Wrote s s' F`: between `s` and `s'` the sink handed out and wrote the slots of `F`. -/
class LawfulSink (σ : Type) [SlotSink σ] where
  arena : σ → Arena
  Good : σ → Prop
  Wrote : σ → σ → (SlotClass → List Nat) → Prop
  good {s s' : σ} {F : SlotClass → List Nat} : Wrote s s' F → Good s'
  trans {s s' s'' : σ} {F G : SlotClass → List Nat} :
    Wrote s s' F → Wrote s' s'' G → Wrote s s'' fun k => F k ++ G k
  keeps {s s' s'' : σ} {F G : SlotClass → List Nat} {k : SlotClass} {i : Nat} :
    Wrote s s' F → Wrote s' s'' G → i ∈ F k → SameNode (arena s') (arena s'') k i
  putChunk_some {s s' : σ} {c : Chunk} {i : Nat} :
    Good s → SlotSink.putChunk s c = (some i, s') →
      Wrote s s' (only .chunk [i]) ∧ (arena s').chunks i = c
  putChunk_none {s s' : σ} {c : Chunk} :
    Good s → SlotSink.putChunk s c = (none, s') → Wrote s s' fun _ => []
  putInterior_some {s s' : σ} {n : Interior} {i : Nat} :
    Good s → SlotSink.putInterior s n = (some i, s') →
      Wrote s s' (only .interior [i]) ∧ (arena s').interiors i = n
  putInterior_none {s s' : σ} {n : Interior} :
    Good s → SlotSink.putInterior s n = (none, s') → Wrote s s' fun _ => []

namespace Tree

/-- The shape `buildBalanced` makes. -/
def Balanced : Tree → Prop
  | leaf _ _ => True
  | node _ _ l r => chunkCap < l.elems.length + r.elems.length ∧
      l.elems.length = balancedMid (l.elems.length + r.elems.length) ∧ Balanced l ∧ Balanced r

theorem Balanced.leaves {t : Tree} (h : Balanced t) (wf : t.WellFormed chunkCap) :
    t.leafSlots.length = leavesFor t.elems.length := by
  induction t with
  | leaf s ks =>
      have pos := List.length_pos_of_ne_nil wf.1
      have cap := wf.2.1
      simp only [leafSlots, elems, List.length_singleton, leavesFor, chunkCap] at *
      omega
  | node s key l r ihl ihr =>
      obtain ⟨big, mid, hl, hr⟩ := h
      have left := ihl hl wf.1
      have right := ihr hr wf.2.1
      simp only [leafSlots, elems, List.length_append, leavesFor, balancedMid, chunkCap] at *
      omega

/-- Halving the leaves takes one level. -/
theorem Balanced.depth_le {t : Tree} (h : Balanced t) {c : Nat}
    (fits : leavesFor t.elems.length ≤ 2 ^ c) : t.depth ≤ c := by
  induction t generalizing c with
  | leaf s ks => exact Nat.zero_le c
  | node s key l r ihl ihr =>
      obtain ⟨big, mid, hl, hr⟩ := h
      simp only [elems, List.length_append, leavesFor, balancedMid, chunkCap] at fits big mid
      cases c with
      | zero =>
          rw [Nat.pow_zero] at fits
          omega
      | succ c =>
          rw [Nat.pow_succ] at fits
          have left := ihl hl (c := c) (by simp only [leavesFor, chunkCap]; omega)
          have right := ihr hr (c := c) (by simp only [leavesFor, chunkCap]; omega)
          simp only [depth]
          omega

end Tree

open Tree

section Build

variable {σ : Type} [SlotSink σ] [LawfulSink σ]

/-- A tree read back from the arena once all its slots are written. -/
theorem Tree.Stored.wrote {s s' s'' : σ} {F G : SlotClass → List Nat} {t : Tree}
    (h : Stored (LawfulSink.arena s') t) (hF : LawfulSink.Wrote s s' F)
    (hG : LawfulSink.Wrote s' s'' G) (inside : ∀ k, (slots t k).Perm (F k)) :
    Stored (LawfulSink.arena s'') t :=
  h.congr fun k _ hi => LawfulSink.keeps hF hG ((inside k).mem_iff.mp hi)

/-- `t` was built by handing out exactly the slots `F`. -/
structure Built (s s' : σ) (vals : List Nat) (root : Nat) (t : Tree)
    (F : SlotClass → List Nat) : Prop where
  wrote : LawfulSink.Wrote s s' F
  root_eq : root = offset t
  wellFormed : t.WellFormed chunkCap
  balanced : Balanced t
  elems_eq : t.elems = vals
  slots_perm : ∀ k, (slots t k).Perm (F k)
  stored : (∀ k, ∀ i ∈ F k, i < 2 ^ 31 - 1) → Stored (LawfulSink.arena s') t

theorem buildBalanced_leaf {s s' : σ} (good : LawfulSink.Good s) {vals : List Nat} {root : Nat}
    (ne : vals ≠ []) (sorted : vals.Pairwise (· < ·)) (small : vals.length ≤ chunkCap)
    (h : SlotSink.putChunk s (Chunk.fromSorted vals) = (some root, s')) :
    Built s s' vals root (leaf root vals) (only .chunk [root]) := by
  obtain ⟨wrote, held⟩ := LawfulSink.putChunk_some good h
  refine ⟨wrote, rfl, ⟨ne, small, sorted⟩, trivial, rfl, fun k => ?_, fun below => ?_⟩
  · cases k <;> exact List.Perm.refl _
  · have lt := below .chunk root (by simp)
    refine ⟨by omega, ?_, ?_⟩
    · rw [held]
      rfl
    · rw [held, Chunk.asSlice_fromSorted small]

theorem buildBalanced_node {s s₁ s₂ s' : σ} {vals : List Nat} {left right idx : Nat}
    {l r : Tree} {F G : SlotClass → List Nat} (big : chunkCap < vals.length)
    (sorted : vals.Pairwise (· < ·)) (size : vals.length < 2 ^ 32)
    (hl : Built s s₁ (vals.take (balancedMid vals.length)) left l F)
    (hr : Built s₁ s₂ (vals.drop (balancedMid vals.length)) right r G)
    (h : SlotSink.putInterior s₂ ⟨left, right, vals.length % 2 ^ 32,
      (vals.drop (balancedMid vals.length)).headD 0⟩ = (some idx, s')) :
    Built s s' vals (tagInterior idx)
      (node idx ((vals.drop (balancedMid vals.length)).headD 0) l r)
      fun k => F k ++ G k ++ only .interior [idx] k := by
  obtain ⟨wrote, held⟩ := LawfulSink.putInterior_some (LawfulSink.good hr.wrote) h
  have mid := balancedMid_lt big
  have joined : l.elems ++ r.elems = vals := by
    rw [hl.elems_eq, hr.elems_eq, List.take_append_drop]
  have total : l.elems.length + r.elems.length = vals.length := by
    rw [← joined, List.length_append]
  obtain ⟨x, rest, hdrop⟩ : ∃ x rest, vals.drop (balancedMid vals.length) = x :: rest := by
    apply List.exists_cons_of_ne_nil
    intro empty
    rw [List.drop_eq_nil_iff] at empty
    omega
  have split := List.take_append_drop (balancedMid vals.length) vals ▸ sorted
  rw [List.pairwise_append] at split
  obtain ⟨-, ascending, across⟩ := split
  rw [hdrop] at ascending across h held ⊢
  have below : ∀ y ∈ l.elems, y < x := fun y hy =>
    across y (hl.elems_eq ▸ hy) x (List.mem_cons_self ..)
  have above : ∀ y ∈ r.elems, x ≤ y := fun y hy => by
    rw [hr.elems_eq, hdrop] at hy
    rcases List.mem_cons.mp hy with rfl | hy
    · exact Nat.le_refl y
    · exact ((List.pairwise_cons.mp ascending).1 y hy).le
  refine ⟨LawfulSink.trans (LawfulSink.trans hl.wrote hr.wrote) wrote, rfl,
    ⟨hl.wellFormed, hr.wellFormed, below, above⟩, ⟨?_, ?_, hl.balanced, hr.balanced⟩, joined,
    fun k => ?_, fun bound => ?_⟩
  · rwa [total]
  · rw [total, hl.elems_eq, List.length_take]
    omega
  · cases k with
    | chunk =>
        simp only [only_of_ne (show SlotClass.chunk ≠ .interior by decide), List.append_nil]
        exact (hl.slots_perm .chunk).append (hr.slots_perm .chunk)
    | interior =>
        rw [only_self]
        refine List.Perm.trans ?_ List.perm_append_comm
        exact ((hl.slots_perm .interior).append (hr.slots_perm .interior)).cons idx
  · have lt := bound .interior idx (by simp)
    have sl := (hl.stored fun k i hi => bound k i (by simp [hi])).wrote hl.wrote
      (LawfulSink.trans hr.wrote wrote) hl.slots_perm
    have sr := (hr.stored fun k i hi => bound k i (by simp [hi])).wrote hr.wrote wrote
      hr.slots_perm
    refine ⟨lt, ?_, sl, sr⟩
    rw [held, ← hl.root_eq, ← hr.root_eq, total, Nat.mod_eq_of_lt size]

theorem buildBalanced_some {s s' : σ} (good : LawfulSink.Good s) {vals : List Nat} {root : Nat}
    (ne : vals ≠ []) (sorted : vals.Pairwise (· < ·)) (size : vals.length < 2 ^ 32)
    (h : buildBalanced s vals = (some root, s')) :
    ∃ t F, Built s s' vals root t F := by
  induction hn : vals.length using Nat.strong_induction_on generalizing s s' vals root with
  | _ n ih =>
      subst hn
      rw [buildBalanced] at h
      split at h
      · rename_i small
        exact ⟨_, _, buildBalanced_leaf good ne sorted small h⟩
      · rename_i big
        have big := Nat.lt_of_not_le big
        have mid := balancedMid_lt big
        split at h
        · cases h
        rename_i left s₁ hleft
        split at h
        · cases h
        rename_i right s₂ hright
        split at h
        · cases h
        rename_i idx s₃ hput
        simp only [Prod.mk.injEq, Option.some.injEq] at h
        obtain ⟨rfl, rfl⟩ := h
        have hlen : (vals.take (balancedMid vals.length)).length = balancedMid vals.length := by
          rw [List.length_take]
          omega
        have hlen' : (vals.drop (balancedMid vals.length)).length =
            vals.length - balancedMid vals.length := List.length_drop
        obtain ⟨l, F, hl⟩ := ih _ (by omega) good
          (List.ne_nil_of_length_pos (by omega)) (sorted.sublist (List.take_sublist _ _))
          (by omega) hleft rfl
        obtain ⟨r, G, hr⟩ := ih _ (by omega) (LawfulSink.good hl.wrote)
          (List.ne_nil_of_length_pos (by omega)) (sorted.sublist (List.drop_sublist _ _))
          (by omega) hright rfl
        exact ⟨_, _, buildBalanced_node big sorted size hl hr hput⟩

theorem buildBalanced_none {s s' : σ} (good : LawfulSink.Good s) {vals : List Nat}
    (ne : vals ≠ []) (sorted : vals.Pairwise (· < ·)) (size : vals.length < 2 ^ 32)
    (h : buildBalanced s vals = (none, s')) : ∃ F, LawfulSink.Wrote s s' F := by
  induction hn : vals.length using Nat.strong_induction_on generalizing s s' vals with
  | _ n ih =>
      subst hn
      rw [buildBalanced] at h
      split at h
      · exact ⟨_, LawfulSink.putChunk_none good h⟩
      · rename_i big
        have big := Nat.lt_of_not_le big
        have mid := balancedMid_lt big
        have hlen : (vals.take (balancedMid vals.length)).length = balancedMid vals.length := by
          rw [List.length_take]
          omega
        have hlen' : (vals.drop (balancedMid vals.length)).length =
            vals.length - balancedMid vals.length := List.length_drop
        have lne : vals.take (balancedMid vals.length) ≠ [] :=
          List.ne_nil_of_length_pos (by omega)
        have rne : vals.drop (balancedMid vals.length) ≠ [] :=
          List.ne_nil_of_length_pos (by omega)
        have lsorted := sorted.sublist (List.take_sublist (balancedMid vals.length) vals)
        have rsorted := sorted.sublist (List.drop_sublist (balancedMid vals.length) vals)
        split at h
        · rename_i hleft
          simp only [Prod.mk.injEq, true_and] at h
          exact ih _ (by omega) good lne lsorted (by omega) (h ▸ hleft) rfl
        rename_i left s₁ hleft
        obtain ⟨l, F, hl⟩ := buildBalanced_some good lne lsorted (by omega) hleft
        have good₁ := LawfulSink.good hl.wrote
        split at h
        · rename_i hright
          simp only [Prod.mk.injEq, true_and] at h
          obtain ⟨G, hG⟩ := ih _ (by omega) good₁ rne rsorted (by omega) (h ▸ hright) rfl
          exact ⟨_, LawfulSink.trans hl.wrote hG⟩
        rename_i right s₂ hright
        obtain ⟨r, G, hr⟩ := buildBalanced_some good₁ rne rsorted (by omega) hright
        split at h
        · rename_i hput
          simp only [Prod.mk.injEq, true_and] at h
          have last := LawfulSink.putInterior_none (LawfulSink.good hr.wrote) (h ▸ hput)
          exact ⟨_, LawfulSink.trans (LawfulSink.trans hl.wrote hr.wrote) last⟩
        · cases h

end Build

end AetherGraph
