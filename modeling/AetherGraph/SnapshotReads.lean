import AetherGraph.GuardMoves
import AetherGraph.Session

/-! What a snapshot answers while nothing it reaches is rewritten. -/

namespace AetherGraph

open Foundation Foundation.LeafTree Tree

namespace Adj

/-- A tree whose nodes are in the arena, though they may be retired. -/
def Written (a : Arena) : Adj → Prop
  | none => True
  | some t => Stored a t ∧ t.WellFormed chunkCap ∧ ∀ k, ∀ i ∈ Tree.slots t k, i < a.bumped k

variable {a a' : Arena} {t : Adj}

theorem Live.written (h : t.Live a) : t.Written a := by
  cases t with
  | none => trivial
  | some t => exact ⟨h.1.stored, h.2, h.1.below⟩

theorem Written.elems_sorted (h : t.Written a) : t.elems.Pairwise (· < ·) := by
  cases t with
  | none => exact List.Pairwise.nil
  | some t => exact h.2.1.elems_sorted

theorem Written.reach_iff (h : t.Written a) {k : SlotClass} {i : Nat} :
    a.Reach t.root k i ↔ i ∈ t.slots k := by
  cases t with
  | none => exact ⟨fun hr => absurd hr (a.not_reach_null k i), fun hi => absurd hi List.not_mem_nil⟩
  | some t => exact h.1.laid.reach_iff

theorem Written.count (h : t.Written a) : (CTree.mk t.root).count a = t.elems.length := by
  cases t with
  | none => rfl
  | some t =>
      rw [CTree.count, if_neg (show (CTree.mk (root (some t))).root ≠ null from h.1.offset_lt.ne)]
      exact h.1.subtreeSize

theorem Written.collect (h : t.Written a) {l : List Nat}
    (read : (CTree.mk t.root).collect a = some l) : l = t.elems := by
  cases t with
  | none => exact (Option.some.inj read).symm
  | some t =>
      obtain ⟨stored, wf, below⟩ := h
      have walk := visitChunks_stored stored wf below
      rw [CTree.collect, CTree.chunks,
        if_neg (show (CTree.mk (root (some t))).root ≠ null from stored.offset_lt.ne),
        show (CTree.mk (root (some t))).root = offset t from rfl, walk] at read
      split at read
      · rw [Option.map_some, stored.flatMap_asSlice] at read
        exact (Option.some.inj read).symm
      · cases read

theorem Written.contains (h : t.Written a) (x : Nat) :
    (CTree.mk t.root).contains a x = some (decide (x ∈ t.elems)) := by
  cases t with
  | none => rfl
  | some t =>
      obtain ⟨stored, wf, below⟩ := h
      have fuel := nodeCount_le (stored.slots_nodup wf) below
      have short := pathLength_le_nodeSlots x t
      rw [CTree.contains,
        if_neg (show (CTree.mk (root (some t))).root ≠ null from stored.offset_lt.ne)]
      refine containsLoop_stored stored wf x ?_
      simp only [nodeCount] at fuel
      omega

theorem Written.keeps (h : t.Written a)
    (same : ∀ k, ∀ i ∈ t.slots k, Arena.SameNode a a' k i ∧ i < a'.bumped k) : t.Written a' := by
  cases t with
  | none => trivial
  | some t =>
      exact ⟨h.1.congr fun k i hi => (same k i hi).1, h.2.1, fun k i hi => (same k i hi).2⟩

theorem Written.setPins (h : t.Written a) (gate : ReadGate) (pins : PinRegistry) :
    t.Written { a with gate := gate, pins := pins } := by
  cases t with
  | none => trivial
  | some t => exact ⟨h.1.congr fun k i _ => by cases k <;> rfl, h.2.1, h.2.2⟩

end Adj

/-- The trees `U` behind a snapshot hold the edges `E`. -/
structure Shows (a : Arena) (S : Snapshot) (U : Nat → Adj) (E : List (Nat × Nat)) : Prop where
  root_eq : ∀ v, S.rootOf v = (U v).root
  written : ∀ v, (U v).Written a
  mem_elems : ∀ v x, x ∈ (U v).elems ↔ (v, x) ∈ E
  numEdges : S.numEdges = E.length
  distinct : E.Nodup
  inside : ∀ e ∈ E, e.1 < S.numVertices

theorem countP_source_lt_succ (E : List (Nat × Nat)) (n : Nat) :
    (E.countP fun e => decide (e.1 < n + 1)) =
      (E.countP fun e => decide (e.1 < n)) + E.countP fun e => e.1 == n := by
  induction E with
  | nil => rfl
  | cons e E ih =>
      simp only [List.countP_cons, decide_eq_true_eq, beq_iff_eq, ih]
      split_ifs <;> omega

/-- Counting the sources of some edges, vertex by vertex. -/
theorem sum_countP_sources (E : List (Nat × Nat)) (n : Nat) :
    ((List.range n).map fun v => E.countP fun e => e.1 == v).sum =
      E.countP fun e => decide (e.1 < n) := by
  induction n with
  | zero => simp
  | succ n ih =>
      rw [List.range_succ, List.map_append, List.sum_append, ih, countP_source_lt_succ,
        List.map_singleton, List.sum_singleton]

namespace Shows

variable {a a' : Arena} {S : Snapshot} {U : Nat → Adj} {E : List (Nat × Nat)}

theorem keeps (h : Shows a S U E)
    (same : ∀ v k i, a.Reach (S.rootOf v) k i → Arena.SameNode a a' k i ∧ i < a'.bumped k) :
    Shows a' S U E :=
  { h with
    written := fun v => (h.written v).keeps fun k i hi =>
      same v k i (h.root_eq v ▸ (h.written v).reach_iff.mpr hi) }

theorem elems_length (h : Shows a S U E) (v : Nat) :
    (U v).elems.length = E.countP fun e => e.1 == v := by
  have pairs : ((U v).elems.map (v, ·)).Perm (E.filter fun e => e.1 == v) := by
    refine (List.perm_ext_iff_of_nodup ?_ (h.distinct.filter _)).mpr fun e => ?_
    · exact List.Nodup.map (fun x y same => (Prod.mk.inj same).2)
        ((h.written v).elems_sorted.imp Nat.ne_of_lt)
    · rw [List.mem_filter, beq_iff_eq, List.mem_map]
      constructor
      · rintro ⟨x, hx, rfl⟩
        exact ⟨(h.mem_elems v x).mp hx, rfl⟩
      · rintro ⟨he, rfl⟩
        exact ⟨e.2, (h.mem_elems _ _).mpr he, rfl⟩
  rw [← List.length_map (f := (v, ·)), pairs.length_eq, List.countP_eq_length_filter]

theorem answers {g : DynamicGraph} (h : Shows g.arena S U E) : Answers S g E := by
  have degree : ∀ v, S.degree g v = E.countP fun e => e.1 == v := fun v => by
    rw [Snapshot.degree, h.root_eq, (h.written v).count, h.elems_length]
  refine ⟨fun v x => ?_, degree, h.numEdges, ?_, fun v l read => ?_⟩
  · rw [Snapshot.hasEdge, h.root_eq, (h.written v).contains, Option.some.injEq, decide_eq_decide]
    exact h.mem_elems v x
  · rw [List.map_congr_left fun v _ => degree v, sum_countP_sources, h.numEdges]
    exact (List.countP_eq_length.mpr fun e he => decide_eq_true (h.inside e he)).symm
  · rw [Snapshot.neighborsInto, h.root_eq] at read
    obtain rfl := (h.written v).collect read
    exact ⟨(h.written v).elems_sorted, h.mem_elems v⟩

end Shows

end AetherGraph
