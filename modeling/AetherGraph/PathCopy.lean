import AetherGraph.BalancedBuild

/-! Path copying in an arena: allocations keep every tree whose slots are held, and
copying the ancestors of a subtree grafts it onto the search path. -/

namespace AetherGraph

open Foundation Foundation.LeafTree Arena

namespace ArenaWriter

/-- `w'` is `w` after allocations that handed out the slots of `F`. -/
structure Grown (w w' : ArenaWriter) (F : SlotClass → List Nat) : Prop where
  grows : Grows w.arena w'.arena F
  youngStart : w'.youngStart = w.youngStart

theorem Grown.refl {w : ArenaWriter} (ok : w.arena.Ok) : Grown w w fun _ => [] :=
  ⟨.refl ok, rfl⟩

theorem Grown.trans {w w' w'' : ArenaWriter} {F G : SlotClass → List Nat} (h : Grown w w' F)
    (h' : Grown w' w'' G) : Grown w w'' fun k => F k ++ G k :=
  ⟨h.grows.trans h'.grows, h'.youngStart.trans h.youngStart⟩

theorem Grown.ok {w w' : ArenaWriter} {F : SlotClass → List Nat} (h : Grown w w' F) :
    w'.arena.Ok := h.grows.ok

theorem Grown.perm {w w' : ArenaWriter} {F G : SlotClass → List Nat} (h : Grown w w' F)
    (p : ∀ k, (F k).Perm (G k)) : Grown w w' G where
  youngStart := h.youngStart
  grows := { h.grows with
    nodup := fun k => (h.grows.nodup k).perm (p k)
    held := fun k i => by rw [h.grows.held, (p k).mem_iff]
    shields := fun e he k i hs => by
      rw [← (p k).mem_iff]
      exact h.grows.shields e he k i hs }

theorem Grown.lt {w w' : ArenaWriter} {F : SlotClass → List Nat} (h : Grown w w' F)
    (k : SlotClass) (i : Nat) (hi : i ∈ F k) : i < 2 ^ 31 - 1 :=
  (h.grows.heldNew hi).lt h.ok

theorem grown_of_chunk {w w' : ArenaWriter} (ok : w.arena.Ok) {val : Chunk} {idx : Nat}
    (h : w.allocWriteChunk val = (some idx, w')) :
    Grown w w' (only .chunk [idx]) ∧ w'.arena.chunks idx = val := by
  obtain ⟨grows, held, young⟩ := allocWriteChunk_some ok h
  exact ⟨⟨grows, young⟩, held⟩

theorem grown_of_interior {w w' : ArenaWriter} (ok : w.arena.Ok) {val : Interior} {idx : Nat}
    (h : w.allocWriteInterior val = (some idx, w')) :
    Grown w w' (only .interior [idx]) ∧ w'.arena.interiors idx = val := by
  obtain ⟨grows, held, young⟩ := allocWriteInterior_some ok h
  exact ⟨⟨grows, young⟩, held⟩

theorem grown_of_chunk_none {w w' : ArenaWriter} (ok : w.arena.Ok) {val : Chunk}
    (h : w.allocWriteChunk val = (none, w')) : Grown w w' fun _ => [] := by
  obtain ⟨grows, young⟩ := allocWriteChunk_none ok h
  exact ⟨grows, young⟩

theorem grown_of_interior_none {w w' : ArenaWriter} (ok : w.arena.Ok) {val : Interior}
    (h : w.allocWriteInterior val = (none, w')) : Grown w w' fun _ => [] := by
  obtain ⟨grows, young⟩ := allocWriteInterior_none ok h
  exact ⟨grows, young⟩

instance : LawfulSink ArenaWriter where
  arena := ArenaWriter.arena
  Good w := w.arena.Ok
  Wrote := Grown
  good := Grown.ok
  trans := Grown.trans
  keeps h h' hi := h'.grows.node (h.grows.heldNew hi)
  putChunk_some ok h := grown_of_chunk ok h
  putChunk_none ok h := grown_of_chunk_none ok h
  putInterior_some ok h := grown_of_interior ok h
  putInterior_none ok h := grown_of_interior_none ok h

/-- Successful allocations, each with its write. -/
inductive AllocRun : ArenaWriter → ArenaWriter → Prop where
  | refl (w) : AllocRun w w
  | chunk {w w₁ w₂ val idx} : AllocRun w w₁ →
      w₁.allocWriteChunk val = (some idx, w₂) → AllocRun w w₂
  | interior {w w₁ w₂ val idx} : AllocRun w w₁ →
      w₁.allocWriteInterior val = (some idx, w₂) → AllocRun w w₂

/-- The run ended in an allocation the arena could not serve. -/
def AllocFailed (w w' : ArenaWriter) : Prop :=
  ∃ w₁ k, AllocRun w w₁ ∧ w₁.alloc k = (none, w')

theorem AllocRun.trans {w w₁ w₂ : ArenaWriter} (h : AllocRun w w₁) (h' : AllocRun w₁ w₂) :
    AllocRun w w₂ := by
  induction h' with
  | refl => exact h
  | chunk _ halloc ih => exact .chunk ih halloc
  | interior _ halloc ih => exact .interior ih halloc

theorem AllocRun.failed {w w₁ w' : ArenaWriter} (h : AllocRun w w₁) (h' : AllocFailed w₁ w') :
    AllocFailed w w' := by
  obtain ⟨w₂, k, run, failed⟩ := h'
  exact ⟨w₂, k, h.trans run, failed⟩

theorem AllocRun.failed_chunk {w w₁ w' : ArenaWriter} (run : AllocRun w w₁) {val : Chunk}
    (h : w₁.allocWriteChunk val = (none, w')) : AllocFailed w w' := by
  refine ⟨w₁, .chunk, run, ?_⟩
  unfold allocWriteChunk allocChunk at h
  split at h
  · rename_i failed
    rw [failed, ← (Prod.mk.inj h).2]
  · cases h

theorem AllocRun.failed_interior {w w₁ w' : ArenaWriter} (run : AllocRun w w₁)
    {val : Interior} (h : w₁.allocWriteInterior val = (none, w')) : AllocFailed w w' := by
  refine ⟨w₁, .interior, run, ?_⟩
  unfold allocWriteInterior allocInterior at h
  split at h
  · rename_i failed
    rw [failed, ← (Prod.mk.inj h).2]
  · cases h

end ArenaWriter

open ArenaWriter

namespace Tree

/-- The arena holds `t` in slots nobody can be handed. -/
structure Kept (a : Arena) (t : Tree) : Prop where
  stored : Stored a t
  held : ∀ k, ∀ i ∈ slots t k, a.Held k i

theorem Kept.grows {a a' : Arena} {t : Tree} (h : Kept a t) {F : SlotClass → List Nat}
    (g : Grows a a' F) : Kept a' t :=
  ⟨h.stored.congr fun k i hi => g.node (h.held k i hi), fun k i hi => g.heldOld (h.held k i hi)⟩

theorem Kept.grown {w w' : ArenaWriter} {t : Tree} (h : Kept w.arena t)
    {F : SlotClass → List Nat} (g : Grown w w' F) : Kept w'.arena t := h.grows g.grows

theorem Kept.below {a : Arena} {t : Tree} (h : Kept a t) (k : SlotClass) (i : Nat)
    (hi : i ∈ slots t k) : i < a.bumped k := (h.held k i hi).1

theorem Kept.left {a : Arena} {s key : Nat} {l r : Tree} (h : Kept a (node s key l r)) :
    Kept a l := ⟨h.stored.2.2.1, fun k i hi => h.held k i (mem_slots_left hi)⟩

theorem Kept.right {a : Arena} {s key : Nat} {l r : Tree} (h : Kept a (node s key l r)) :
    Kept a r := ⟨h.stored.2.2.2, fun k i hi => h.held k i (mem_slots_right hi)⟩

theorem Kept.subtreeAt {a : Arena} {t : Tree} (h : Kept a t) (v n : Nat) :
    Kept a (t.subtreeAt v n) := by
  induction t generalizing n with
  | leaf s ks => cases n <;> exact h
  | node s key l r ihl ihr =>
      cases n with
      | zero => exact h
      | succ n =>
          simp only [LeafTree.subtreeAt]
          split
          · exact ihl h.left n
          · exact ihr h.right n

theorem Kept.node {a : Arena} {s key : Nat} {l r : Tree} (hl : Kept a l) (hr : Kept a r)
    (hs : a.Held .interior s) (ok : a.Ok)
    (record : a.interiors s = ⟨offset l, offset r, l.elems.length + r.elems.length, key⟩) :
    Kept a (node s key l r) := by
  refine ⟨⟨hs.lt ok, record, hl.stored, hr.stored⟩, fun k i hi => ?_⟩
  cases k with
  | chunk => exact (List.mem_append.mp hi).elim (hl.held .chunk i) (hr.held .chunk i)
  | interior =>
      rcases List.mem_cons.mp hi with rfl | hi
      · exact hs
      · exact (List.mem_append.mp hi).elim (hl.held .interior i) (hr.held .interior i)

/-- A built tree is kept. -/
theorem kept_of_built {w w' : ArenaWriter} {vals : List Nat} {root : Nat} {t : Tree}
    {F : SlotClass → List Nat} (h : Built w w' vals root t F) : Kept w'.arena t :=
  have grown : Grown w w' F := h.wrote
  ⟨h.stored grown.lt, fun k _ hi => grown.grows.heldNew ((h.slots_perm k).mem_iff.mp hi)⟩

/-- Slots of a grafted tree against those of the tree it was grafted onto. -/
theorem slots_graft {t : Tree} (sub : Tree) {v : Nat} {ss : List Nat}
    (hss : ss.length ≤ t.pathLength v) (k : SlotClass) :
    (slots (t.graft v ss sub) k ++
        (only .interior (t.pathSlots v ss.length) k ++ slots (t.subtreeAt v ss.length) k)).Perm
      (slots t k ++ (only .interior ss k ++ slots sub k)) := by
  have swap : ∀ a b c d e f : List Nat,
      ((a ++ (b ++ c ++ d)) ++ (e ++ f)).Perm ((e ++ (b ++ f ++ d)) ++ (a ++ c)) := by
    intro a b c d e f
    refine List.perm_iff_count.mpr fun x => ?_
    simp only [List.count_append]
    omega
  cases k with
  | chunk =>
      simp only [slots, only_of_ne (show SlotClass.chunk ≠ .interior by decide), List.nil_append]
      rw [leafSlots_graft, leafSlots_split v ss.length t]
      have := swap [] (leftOf leafSlots v ss.length t) sub.leafSlots
        (rightOf leafSlots v ss.length t) [] (t.subtreeAt v ss.length).leafSlots
      simpa only [List.nil_append] using this
  | interior =>
      simp only [slots, only_self]
      refine ((nodeSlots_graft hss).append_right _).trans ?_
      exact (swap _ _ _ _ _ _).trans ((nodeSlots_split v ss.length t).symm.append_right _)

/-- One more ancestor copied above the slots `ss`. -/
theorem grown_cons {w w₁ w₂ : ArenaWriter} {ss : List Nat} {val : Interior} {idx : Nat}
    (grown : Grown w w₁ (only .interior ss))
    (h : w₁.allocWriteInterior val = (some idx, w₂)) :
    Grown w₁ w₂ (only .interior [idx]) ∧ Grown w w₂ (only .interior (idx :: ss)) ∧
      w₂.arena.Held .interior idx ∧ w₂.arena.interiors idx = val := by
  obtain ⟨one, record⟩ := grown_of_interior grown.ok h
  refine ⟨one, (grown.trans one).perm fun k => ?_, one.grows.heldNew (by simp), record⟩
  cases k with
  | chunk => exact List.Perm.refl _
  | interior => exact List.perm_append_singleton idx ss

/-- The copied path comes back as a graft of `sub` onto the tree copied. -/
structure PathCopied (w w' : ArenaWriter) (v bump : Nat) (t sub : Tree) (ss : List Nat)
    (root : Nat) (newPath : List Nat) : Prop where
  newPath_eq : newPath = ss.map tagInterior
  root_eq : root = offset (t.graft v ss sub)
  grown : Grown w w' (only .interior ss)
  kept : Kept w'.arena (t.graft v ss sub)
  run : AllocRun w w'
  count : (t.graft v ss sub).elems.length = t.elems.length + bump

theorem copyPath_some {bump v : Nat} {w w' : ArenaWriter} (ok : w.arena.Ok) {t sub : Tree}
    (kept : Kept w.arena t) (keptSub : Kept w.arena sub) {n : Nat} (hn : n ≤ t.pathLength v)
    (grew : sub.elems.length = (t.subtreeAt v n).elems.length + bump)
    (fits : t.elems.length + bump < 2 ^ 32) {root : Nat} {newPath : List Nat}
    (h : copyPath bump w ((steps v t).take n) (offset sub) = (some (root, newPath), w')) :
    ∃ ss, ss.length = n ∧ PathCopied w w' v bump t sub ss root newPath := by
  have here : ∀ {t : Tree} {root newPath w'},
      sub.elems.length = (t.subtreeAt v 0).elems.length + bump →
      copyPath bump w [] (offset sub) = (some (root, newPath), w') →
      ∃ ss, ss.length = 0 ∧ PathCopied w w' v bump t sub ss root newPath := by
    intro t root newPath w' grew h
    simp only [copyPath, Prod.mk.injEq, Option.some.injEq] at h
    obtain ⟨⟨rfl, rfl⟩, rfl⟩ := h
    rw [subtreeAt_zero] at grew
    refine ⟨[], rfl, rfl, by rw [graft_nil], ?_, by rwa [graft_nil], .refl w, by rwa [graft_nil]⟩
    rw [only_nil]
    exact .refl ok
  induction t generalizing n root newPath w' with
  | leaf s ks =>
      obtain rfl := Nat.le_zero.mp hn
      exact here grew h
  | node s key l r ihl ihr =>
      cases n with
      | zero => exact here grew h
      | succ n =>
          simp only [steps, List.take_succ_cons, copyPath] at h
          simp only [pathLength] at hn
          simp only [LeafTree.subtreeAt] at grew
          simp only [elems, List.length_append] at fits
          split at h
          · cases h
          rename_i child path w₁ hrec
          split at h
          · cases h
          rename_i idx w₂ halloc
          simp only [Prod.mk.injEq, Option.some.injEq] at h
          obtain ⟨⟨rfl, rfl⟩, rfl⟩ := h
          by_cases hv : v < key
          · rw [if_pos hv] at hn grew hrec
            obtain ⟨ss, hlen, copied⟩ := ihl kept.left (by omega) grew (by omega) hrec
            have count := copied.count
            rw [(kept.grown copied.grown).stored.interiorAt, decide_eq_true hv, if_pos rfl,
              if_pos rfl, Nat.mod_eq_of_lt (by omega)] at halloc
            obtain ⟨one, grown, held, record⟩ := grown_cons copied.grown halloc
            have shape : (node s key l r).graft v (idx :: ss) sub =
                node idx key (l.graft v ss sub) r := by
              rw [LeafTree.graft, if_pos hv]
            refine ⟨idx :: ss, congrArg (· + 1) hlen, congrArg _ copied.newPath_eq, ?_, grown,
              ?_, .interior copied.run halloc, ?_⟩
            · rw [shape, offset]
            · rw [shape]
              refine Kept.node (copied.kept.grown one) (kept.right.grown grown) held grown.ok ?_
              rw [record, copied.root_eq, count]
              exact congrArg (fun c => (⟨_, _, c, key⟩ : Interior)) (by dsimp only; omega)
            · rw [shape, elems, List.length_append, count, elems, List.length_append]
              omega
          · rw [if_neg hv] at hn grew hrec
            obtain ⟨ss, hlen, copied⟩ := ihr kept.right (by omega) grew (by omega) hrec
            have count := copied.count
            rw [(kept.grown copied.grown).stored.interiorAt, decide_eq_false hv,
              if_neg Bool.false_ne_true, if_neg Bool.false_ne_true,
              Nat.mod_eq_of_lt (by omega)] at halloc
            obtain ⟨one, grown, held, record⟩ := grown_cons copied.grown halloc
            have shape : (node s key l r).graft v (idx :: ss) sub =
                node idx key l (r.graft v ss sub) := by
              rw [LeafTree.graft, if_neg hv]
            refine ⟨idx :: ss, congrArg (· + 1) hlen, congrArg _ copied.newPath_eq, ?_, grown,
              ?_, .interior copied.run halloc, ?_⟩
            · rw [shape, offset]
            · rw [shape]
              refine Kept.node (kept.left.grown grown) (copied.kept.grown one) held grown.ok ?_
              rw [record, copied.root_eq, count]
              exact congrArg (fun c => (⟨_, _, c, key⟩ : Interior)) (by dsimp only; omega)
            · rw [shape, elems, List.length_append, count, elems, List.length_append]
              omega

end Tree

theorem copyPath_grown (bump : Nat) {w : ArenaWriter} (ok : w.arena.Ok)
    (path : List (Nat × Bool)) (child : Nat) :
    (∃ F, Grown w (copyPath bump w path child).2 F) ∧
      ((copyPath bump w path child).1 = none → AllocFailed w (copyPath bump w path child).2) ∧
      ((copyPath bump w path child).1 ≠ none → AllocRun w (copyPath bump w path child).2) := by
  induction path with
  | nil =>
      simp only [copyPath]
      exact ⟨⟨_, .refl ok⟩, fun h => absurd h (Option.some_ne_none _), fun _ => .refl w⟩
  | cons step path ih =>
      obtain ⟨offset, left⟩ := step
      obtain ⟨⟨F, grown⟩, failed, run⟩ := ih
      simp only [copyPath]
      split
      · rename_i w₁ hrec
        rw [hrec] at grown failed
        exact ⟨⟨F, grown⟩, fun _ => failed rfl, fun h => absurd rfl h⟩
      · rename_i child newPath w₁ hrec
        rw [hrec] at grown run
        have run := run (Option.some_ne_none _)
        split
        · rename_i w₂ halloc
          exact ⟨⟨_, grown.trans (grown_of_interior_none grown.ok halloc)⟩,
            fun _ => run.failed_interior halloc, fun h => absurd rfl h⟩
        · rename_i idx w₂ halloc
          exact ⟨⟨_, grown.trans (grown_of_interior grown.ok halloc).1⟩,
            fun h => absurd h (Option.some_ne_none _), fun _ => .interior run halloc⟩

end AetherGraph
