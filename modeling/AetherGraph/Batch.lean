import AetherGraph.Writer
import Mathlib.Data.List.SplitBy

/-! The pure parts of a batch: merging ascending destinations into the neighbours, and
cutting a batch of edges into one ascending run per source. -/

namespace AetherGraph

open Foundation

/-- The merged list is the ascending union; the new destinations are the others. -/
structure Merged (existing dsts : List Nat) (result : List Nat × List Nat) : Prop where
  sorted : result.1.Pairwise (· < ·)
  mem : ∀ x, x ∈ result.1 ↔ x ∈ existing ∨ x ∈ dsts
  new_eq : result.2 = dsts.filter fun d => decide (d ∉ existing)

theorem mergeSorted_merged {existing dsts : List Nat} (hx : existing.Pairwise (· < ·))
    (hd : dsts.Pairwise (· < ·)) : Merged existing dsts (mergeSorted existing dsts) := by
  fun_induction mergeSorted existing dsts with
  | case1 existing => exact ⟨hx, fun x => by simp, rfl⟩
  | case2 d dsts => exact ⟨hd, fun x => by simp, by simp⟩
  | case3 x existing d dsts lt merged new result ih =>
      obtain ⟨above, hx'⟩ := List.pairwise_cons.mp hx
      obtain ⟨sorted, mem, new_eq⟩ := ih hx' hd
      rw [result] at sorted mem new_eq
      obtain ⟨later, -⟩ := List.pairwise_cons.mp hd
      have first : ∀ y ∈ d :: dsts, x < y := fun y hy =>
        (List.mem_cons.mp hy).elim (fun same => same ▸ lt) fun hy => lt.trans (later y hy)
      refine ⟨List.pairwise_cons.mpr ⟨fun y hy => ?_, sorted⟩, fun y => ?_, new_eq.trans ?_⟩
      · exact ((mem y).mp hy).elim (above y) (first y)
      · rw [List.mem_cons, mem, List.mem_cons (b := x), or_assoc]
      · refine List.filter_congr fun y hy => ?_
        have differ : y ≠ x := (first y hy).ne'
        simp only [List.mem_cons, differ, false_or]
  | case4 x existing d dsts nlt lt merged new result ih =>
      obtain ⟨above, -⟩ := List.pairwise_cons.mp hx
      obtain ⟨later, hd'⟩ := List.pairwise_cons.mp hd
      obtain ⟨sorted, mem, new_eq⟩ := ih hx hd'
      rw [result] at sorted mem new_eq
      have first : ∀ y ∈ x :: existing, d < y := fun y hy =>
        (List.mem_cons.mp hy).elim (fun same => same ▸ lt) fun hy => lt.trans (above y hy)
      refine ⟨List.pairwise_cons.mpr ⟨fun y hy => ?_, sorted⟩, fun y => ?_, ?_⟩
      · exact ((mem y).mp hy).elim (first y) (later y)
      · rw [List.mem_cons, mem, List.mem_cons (b := d), or_left_comm]
      · rw [List.filter_cons_of_pos (by simpa using fun hy => (first d hy).false)]
        exact congrArg (d :: ·) new_eq
  | case5 x existing d dsts nlt nlt' merged new result ih =>
      obtain rfl : x = d := le_antisymm (not_lt.mp nlt') (not_lt.mp nlt)
      obtain ⟨above, hx'⟩ := List.pairwise_cons.mp hx
      obtain ⟨later, hd'⟩ := List.pairwise_cons.mp hd
      obtain ⟨sorted, mem, new_eq⟩ := ih hx' hd'
      rw [result] at sorted mem new_eq
      refine ⟨List.pairwise_cons.mpr ⟨fun y hy => ?_, sorted⟩, fun y => ?_, ?_⟩
      · exact ((mem y).mp hy).elim (above y) (later y)
      · rw [List.mem_cons, mem, List.mem_cons, List.mem_cons, or_or_or_comm, or_self]
      · rw [List.filter_cons_of_neg (by simp)]
        refine new_eq.trans (List.filter_congr fun y hy => ?_)
        have differ : y ≠ x := (later y hy).ne'
        simp only [List.mem_cons, differ, false_or]

theorem Merged.mem_new {existing dsts : List Nat} {result : List Nat × List Nat}
    (h : Merged existing dsts result) (x : Nat) :
    x ∈ result.2 ↔ x ∈ dsts ∧ x ∉ existing := by
  rw [h.new_eq, List.mem_filter, decide_eq_true_eq]

theorem Merged.mem_or_new {existing dsts : List Nat} {result : List Nat × List Nat}
    (h : Merged existing dsts result) (x : Nat) :
    x ∈ result.1 ↔ x ∈ existing ∨ x ∈ result.2 := by
  rw [h.mem, h.mem_new]
  tauto

namespace Writer

theorem edgeLe_iff {a b : Nat × Nat} :
    edgeLe a b = true ↔ a.1 < b.1 ∨ a.1 = b.1 ∧ a.2 ≤ b.2 := by
  simp [edgeLe]

theorem edges_sorted (edges : List (Nat × Nat)) :
    (edges.insertionSort fun a b => edgeLe a b = true).Pairwise fun a b => edgeLe a b = true := by
  have total : Std.Total fun a b : Nat × Nat => edgeLe a b = true := ⟨fun a b => by
    rw [edgeLe_iff, edgeLe_iff]
    omega⟩
  have trans : IsTrans (Nat × Nat) fun a b => edgeLe a b = true := ⟨fun a b c hab hbc => by
    rw [edgeLe_iff] at *
    omega⟩
  exact List.pairwise_insertionSort _ edges

/-- One run: a nonempty stretch of the sorted edges with one source. -/
theorem run_sources {edges run : List (Nat × Nat)}
    (h : run ∈ edges.splitBy fun a b => a.1 == b.1) :
    ∀ e ∈ run, e.1 = (run.map Prod.fst).headD 0 := by
  have chain := List.isChain_of_mem_splitBy h
  have same : run.Pairwise fun a b => a.1 = b.1 := by
    have trans : IsTrans (Nat × Nat) fun a b => a.1 = b.1 := ⟨fun _ _ _ => Eq.trans⟩
    exact (chain.imp fun a b eq => beq_iff_eq.mp eq).pairwise
  cases run with
  | nil => exact fun e he => absurd he List.not_mem_nil
  | cons first rest =>
      intro e he
      rcases List.mem_cons.mp he with rfl | he
      · rfl
      · exact ((List.pairwise_cons.mp same).1 e he).symm

theorem groupRuns_sorted {edges : List (Nat × Nat)} {run : Nat × List Nat}
    (h : run ∈ groupRuns edges) : run.2.Pairwise (· < ·) := by
  obtain ⟨part, hpart, rfl⟩ := List.mem_map.mp h
  refine dedup_sorted (List.pairwise_map.mpr ?_)
  have sorted : part.Pairwise fun a b => edgeLe a b = true := by
    refine (edges_sorted edges).sublist ?_
    rw [← List.flatten_splitBy (fun a b : Nat × Nat => a.1 == b.1)
      (edges.insertionSort fun a b => edgeLe a b = true)]
    exact List.sublist_flatten_of_mem hpart
  refine sorted.imp_of_mem fun {a b} ha hb le => ?_
  have := run_sources hpart a ha
  have := run_sources hpart b hb
  rw [edgeLe_iff] at le
  omega

theorem mem_groupRuns {edges : List (Nat × Nat)} {e : Nat × Nat} :
    e ∈ edges ↔ ∃ run ∈ groupRuns edges, run.1 = e.1 ∧ e.2 ∈ run.2 := by
  rw [← List.mem_insertionSort fun a b => edgeLe a b = true,
    ← List.flatten_splitBy (fun a b : Nat × Nat => a.1 == b.1)
      (edges.insertionSort fun a b => edgeLe a b = true), List.mem_flatten]
  constructor
  · rintro ⟨part, hpart, he⟩
    refine ⟨_, List.mem_map_of_mem hpart, (run_sources hpart e he).symm, ?_⟩
    exact mem_dedup.mpr (List.mem_map_of_mem he)
  · rintro ⟨run, hrun, hsrc, hdst⟩
    obtain ⟨part, hpart, rfl⟩ := List.mem_map.mp hrun
    obtain ⟨e', he', same⟩ := List.mem_map.mp (mem_dedup.mp hdst)
    have source : e'.1 = e.1 := (run_sources hpart e' he').trans hsrc
    obtain rfl : e' = e := Prod.ext source same
    exact ⟨part, hpart, he'⟩

/-- No run is empty. -/
theorem groupRuns_ne {edges : List (Nat × Nat)} {run : Nat × List Nat}
    (h : run ∈ groupRuns edges) : ∃ d, d ∈ run.2 := by
  obtain ⟨part, hpart, rfl⟩ := List.mem_map.mp h
  obtain ⟨e, he⟩ := List.exists_mem_of_ne_nil part (List.ne_nil_of_mem_splitBy hpart)
  exact ⟨e.2, mem_dedup.mpr (List.mem_map_of_mem he)⟩

end Writer

end AetherGraph
