import AetherGraph.Layout

/-! What one insert logs: nothing unless it returns a tree, each slot once, and exactly the
slots the new root no longer reaches. -/

namespace AetherGraph

open Foundation Foundation.LeafTree Arena ArenaWriter

/-- Handed out between the two states. -/
def Arena.Allocated (a a' : Arena) (k : SlotClass) (i : Nat) : Prop := a'.Held k i ∧ ¬ a.Held k i

theorem ArenaWriter.Grown.allocated_iff {w w' : ArenaWriter} {F : SlotClass → List Nat}
    (h : Grown w w' F) {k : SlotClass} {i : Nat} : Allocated w.arena w'.arena k i ↔ i ∈ F k := by
  rw [Allocated, h.grows.held]
  constructor
  · rintro ⟨old | new, unheld⟩
    · exact absurd old unheld
    · exact new
  · exact fun new => ⟨.inr new, h.grows.fresh new⟩

namespace Relinked

variable {w w' : ArenaWriter} {t : Adj} {v : Nat} {t' : Tree} {logged leak F : SlotClass → List Nat}

theorem logged_nodup (h : Relinked w w' t v t' logged leak F) (housed : t.Housed w.arena)
    (k : SlotClass) : (logged k).Nodup :=
  (List.nodup_append.mp (List.nodup_append.mp (h.whole_nodup housed k)).2.1).1

theorem logged_unreachable (h : Relinked w w' t v t' logged leak F) (housed : t.Housed w.arena)
    {k : SlotClass} {i : Nat} (hi : i ∈ logged k) : ¬ w'.arena.Reach (Tree.offset t') k i := by
  intro reach
  have inside := h.housed.laid.mem_slots reach
  exact (List.nodup_append.mp (h.whole_nodup housed k)).2.2 i inside i (List.mem_append_left _ hi) rfl

theorem shared_out (h : Relinked w w' t v t' logged leak F) (housed : t.Housed w.arena)
    (allocates : CTree.RebuildAllocates ⟨t.root⟩ w v) (k : SlotClass) (i : Nat) :
    w.arena.Reach t.root k i ∨ Allocated w.arena w'.arena k i ↔
      w'.arena.Reach (Tree.offset t') k i ∨ i ∈ logged k := by
  have account := (h.account k).mem_iff (a := i)
  rw [h.settled allocates k, List.append_nil, List.mem_append, List.mem_append] at account
  rw [housed.reach_iff, h.grown.allocated_iff, h.housed.laid.reach_iff]
  exact account.symm

end Relinked

theorem insertWithScratch_log_same {tree : CTree} {w w' : ArenaWriter} {v : Nat}
    {log log' : RetireLog} {res : InsertResult}
    (done : tree.insertWithScratch w v log = .ok (res, w', log'))
    (none : res = .duplicate ∨ res = .arenaFull) : log' = log := by
  have rebuilt : ∀ {w₁ root newPath wentLeft log₁},
      CTree.insertRebalanced w₁ root newPath wentLeft log₁ = .ok (res, w', log') → False := by
    intro w₁ root newPath wentLeft log₁ h
    unfold CTree.insertRebalanced at h
    split at h
    · cases h
    · cases h
      rcases none with no | no <;> cases no
    · cases h
      rcases none with no | no <;> cases no
  unfold CTree.insertWithScratch at done
  split at done
  · split at done <;> cases done
    · rcases none with no | no <;> cases no
    · rfl
  split at done
  · cases done
    rfl
  dsimp only at done
  split at done
  · cases done
    rfl
  · cases done
    rfl
  split at done
  · cases done
    rfl
  split at done
  · exact (rebuilt done).elim
  · cases done
    rcases none with no | no <;> cases no

/-- A failed insert logs nothing.  A successful one logs slots that are distinct and that its
tree does not reach; unless a rebuild ran out of slots, what the old root reached and what the
call took are, each once, what the new root reaches and what was logged. -/
theorem insert_retires_exactly (w : ArenaWriter) (ok : w.arena.Ok) (t : Adj)
    (live : t.Live w.arena) (v : Nat) (log : RetireLog) (res : InsertResult) (w' : ArenaWriter)
    (log' : RetireLog)
    (done : CTree.insertWithScratch ⟨t.root⟩ w v log = .ok (res, w', log')) :
    (res = .duplicate ∨ res = .arenaFull → log' = log) ∧
    ∀ tree, res = .inserted tree → ∃ logged : SlotClass → List Nat, log' = log.append logged ∧
      ∀ k, (logged k).Nodup ∧ (∀ i ∈ logged k, ¬ w'.arena.Reach tree.root k i) ∧
        (∀ i, w.arena.Reach t.root k i → ¬ Allocated w.arena w'.arena k i) ∧
        (CTree.RebuildAllocates ⟨t.root⟩ w v → ∀ i,
          w.arena.Reach t.root k i ∨ Allocated w.arena w'.arena k i ↔
            w'.arena.Reach tree.root k i ∨ i ∈ logged k) := by
  refine ⟨insertWithScratch_log_same done, fun tree inserted => ?_⟩
  subst inserted
  have housed := live.housed
  have outcome := insertWithScratch_linked ok housed v log
  rw [done] at outcome
  obtain ⟨t', logged, leak, F, root_eq, rfl, relinked⟩ := outcome
  rw [root_eq]
  refine ⟨logged, rfl, fun k => ⟨relinked.logged_nodup housed k,
    fun i hi => relinked.logged_unreachable housed hi, fun i reach taken => ?_,
    fun allocates i => relinked.shared_out housed allocates k i⟩⟩
  exact taken.2 (housed.held k i (housed.reach_iff.mp reach))

/-- Below a left spine of three nodes: the full leaf and the three copied nodes are logged. -/
theorem insert_retires_exactly_leftComb : ∃ tree w' log',
    CTree.insertWithScratch ⟨Adj.root (some (leftComb 3))⟩ combArena.writer 0 .new =
      .ok (.inserted tree, w', log') ∧
    log'.slots .chunk = [0] ∧ log'.slots .interior = [2, 1, 0] ∧
    ∀ k i, combArena.Reach (Adj.root (some (leftComb 3))) k i ∨ Allocated combArena w'.arena k i ↔
      w'.arena.Reach tree.root k i ∨ i ∈ log'.slots k := by
  have found : (CTree.insertWithScratch ⟨Adj.root (some (leftComb 3))⟩ combArena.writer 0
      .new).toOption.map (fun r => (r.1, r.2.2.slots .chunk, r.2.2.slots .interior)) =
      some (.inserted ⟨tagInterior 67⟩, [0], [2, 1, 0]) := by decide +kernel
  have flat : ((CTree.mk (Adj.root (some (leftComb 3)))).copiedPath combArena.writer 0).map
      CopiedPath.needRebalance = some false := by decide +kernel
  have allocates : CTree.RebuildAllocates ⟨Adj.root (some (leftComb 3))⟩ combArena.writer 0 := by
    intro c copied need
    rw [copied, Option.map_some, need] at flat
    cases flat
  cases done : CTree.insertWithScratch ⟨Adj.root (some (leftComb 3))⟩ combArena.writer 0 .new with
  | error left =>
      rw [done] at found
      cases found
  | ok result =>
      obtain ⟨res, w', log'⟩ := result
      rw [done] at found
      obtain ⟨res_eq, chunks, interiors⟩ := Prod.mk.inj (Option.some.inj found) |>.imp id Prod.mk.inj
      subst res_eq
      obtain ⟨-, exact_⟩ := insert_retires_exactly combArena.writer combArena_ok
        (some (leftComb 3)) ⟨leftComb_kept (by decide), leftComb_wellFormed 3⟩ 0 .new _ w' log' done
      obtain ⟨logged, rfl, shares⟩ := exact_ _ rfl
      exact ⟨_, w', _, rfl, chunks, interiors, fun k i => (shares k).2.2.2 allocates i⟩

end AetherGraph
