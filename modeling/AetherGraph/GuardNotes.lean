import AetherGraph.GuardEffect

/-! What a guard publishes, call by call, in the words of its own buffers: the edges the insert
paths find new, the marks noted for them and the edges counted. -/

namespace AetherGraph

open Foundation

/-- One root store. -/
inductive Publish where
  | edge (src dst : Nat)
  | batch (src : Nat) (newDsts : List Nat)
  deriving DecidableEq, Repr

namespace Publish

def edges : Publish → List (Nat × Nat)
  | edge src dst => [(src, dst)]
  | batch src newDsts => newDsts.map (src, ·)

/-- The vertices noted, in order. -/
def notes : Publish → List Nat
  | edge src dst => [src, dst]
  | batch src newDsts => newDsts ++ [src]

end Publish

/-- The insert calls of a guard. -/
inductive InsertCall where
  | edge (src dst : Nat)
  | edges (edges : List (Nat × Nat))
  | sorted (src : Nat) (dsts : List Nat)
  deriving DecidableEq, Repr

namespace Writer

/-- `new_dsts` at the end of a path-copy chain that was built. -/
def chainNew : Chain → List Nat
  | .built _ newDsts _ => newDsts
  | _ => []

/-- `new_dsts` of a batch, as its strategy finds them. -/
def newDsts (w : Writer) (src : Nat) (dsts : List Nat) : List Nat :=
  let tree := w.graph.treeFor src
  if preferPathCopy (tree.count w.graph.arena) dsts.length then
    match w.chain tree [] dsts with
    | .full w' => chainNew ((w'.restamp w.retireLog.marks).chain tree [] dsts)
    | other => chainNew other
  else
    match tree.collect w.graph.arena with
    | none => []
    | some existing => (mergeSorted existing dsts).2

def publishBatches (src : Nat) (newDsts : List Nat) : List Publish :=
  if newDsts.isEmpty then [] else [.batch src newDsts]

def sortedPublishes (w : Writer) (src : Nat) (dsts : List Nat) : List Publish :=
  match w.insertEdgesSorted src dsts with
  | .done (.ok _) _ => publishBatches src (w.newDsts src dsts)
  | _ => []

def runsPublishes (w : Writer) : List (Nat × List Nat) → List Publish
  | [] => []
  | (src, dsts) :: runs =>
      match w.insertEdgesSorted src dsts with
      | .done (.ok _) w' => w.sortedPublishes src dsts ++ w'.runsPublishes runs
      | _ => []

/-- What a call publishes. -/
def publishes (w : Writer) : InsertCall → List Publish
  | .edge src dst =>
      match w.insertEdge src dst with
      | .done (.ok true) _ => [.edge src dst]
      | _ => []
  | .edges edges =>
      match edges.find? fun e =>
          decide (w.graph.numVertices ≤ e.1) || decide (w.graph.numVertices ≤ e.2) with
      | some _ => []
      | none => w.runsPublishes (groupRuns edges)
  | .sorted src dsts => w.sortedPublishes src dsts

/-- The guard after a call that returned. -/
def insert (w : Writer) : InsertCall → Option Writer
  | .edge src dst =>
      match w.insertEdge src dst with
      | .panic _ => none
      | .done _ w' => some w'
  | .edges edges =>
      match w.insertEdges edges with
      | .panic _ => none
      | .done _ w' => some w'
  | .sorted src dsts =>
      match w.insertEdgesSorted src dsts with
      | .panic _ => none
      | .done _ w' => some w'

/-- The guard after its calls, and what they published. -/
def insertAll (w : Writer) : List InsertCall → Option (Writer × List Publish)
  | [] => some (w, [])
  | call :: calls => do
      let w' ← w.insert call
      let (w'', later) ← w'.insertAll calls
      some (w'', w.publishes call ++ later)

/-- `w'` is `w` after publishing `ps`. -/
structure Noted (w w' : Writer) (ps : List Publish) : Prop where
  marks : w'.marks = (ps.flatMap Publish.notes).foldl Marks.note w.marks
  pending : w'.pendingEdges = w.pendingEdges + (ps.flatMap Publish.edges).length
  numVertices : w'.graph.numVertices = w.graph.numVertices

namespace Noted

variable {w w' w'' : Writer} {ps ps' : List Publish}

theorem refl (w : Writer) : Noted w w [] := ⟨rfl, rfl, rfl⟩

theorem trans (h : Noted w w' ps) (h' : Noted w' w'' ps') : Noted w w'' (ps ++ ps') where
  marks := by
    rw [h'.marks, h.marks, List.flatMap_append, List.foldl_append]
  pending := by
    rw [h'.pending, h.pending, List.flatMap_append, List.length_append, Nat.add_assoc]
  numVertices := h'.numVertices.trans h.numVertices

theorem quiet (h : Noted w w' []) (h' : Noted w' w'' ps) : Noted w w'' ps := h.trans h'

end Noted

theorem noted_stampRetired (w : Writer) : Noted w w.stampRetired [] := ⟨rfl, rfl, rfl⟩

theorem noted_maybeStampRetired (w : Writer) : Noted w w.maybeStampRetired [] := by
  unfold maybeStampRetired
  split
  · exact w.noted_stampRetired
  · exact .refl w

theorem noted_appendBatch (w : Writer) (src : Nat) (dsts : List Nat) :
    Noted w (w.appendBatch src dsts).2 [] := by
  unfold appendBatch
  split
  · exact .refl w
  · exact ⟨rfl, rfl, rfl⟩

theorem noted_publishEdge (w : Writer) (src dst : Nat) (tree : CTree) :
    Noted w (w.publishEdge src dst tree) [.edge src dst] := by
  obtain ⟨touched, limit, eq, -⟩ := w.publishEdge_eq src dst tree
  rw [eq]
  exact ⟨rfl, rfl, rfl⟩

theorem noted_publishBatch (w : Writer) (src : Nat) (tree : CTree) (new : List Nat) :
    Noted w (w.publishBatch src tree new) [.batch src new] := by
  obtain ⟨touched, limit, eq, -⟩ := w.publishBatch_eq src tree new
  rw [eq]
  refine ⟨?_, ?_, rfl⟩
  · rw [List.flatMap_singleton]
    rfl
  · rw [List.flatMap_singleton, Publish.edges, List.length_map]
    rfl

end Writer

/-- A call on `w` that returned has published what `published` says for its answer. -/
def Call.Publishes {α : Type} (w : Writer) (published : Except InsertError α → List Publish) :
    Call α → Prop
  | .panic _ => True
  | .done r w' => w.Noted w' (published r)

namespace Writer

/-- The answers of `insert_edge` that publish. -/
def edgePublishes (src dst : Nat) : Except InsertError Bool → List Publish
  | .ok true => [.edge src dst]
  | _ => []

theorem insertEdgeInner_publishes (w : Writer) (src dst : Nat) :
    (w.insertEdgeInner src dst).Publishes w (edgePublishes src dst) := by
  unfold insertEdgeInner
  dsimp only
  split
  · trivial
  · rename_i newTree aw log inserted
    have appended := (w.withLog aw log).noted_appendBatch src [dst]
    split
    · rename_i w' refused
      rw [refused] at appended
      exact ⟨appended.marks, appended.pending, appended.numVertices⟩
    · rename_i w' logged
      rw [logged] at appended
      have kept : Noted w w' [] := ⟨appended.marks, appended.pending, appended.numVertices⟩
      exact (kept.quiet (w'.noted_publishEdge src dst newTree)).trans (noted_maybeStampRetired _)
  · exact ⟨rfl, rfl, rfl⟩
  · exact ⟨rfl, rfl, rfl⟩

theorem insertEdge_publishes (w : Writer) (src dst : Nat) :
    (w.insertEdge src dst).Publishes w (edgePublishes src dst) := by
  have first := w.insertEdgeInner_publishes src dst
  unfold insertEdge
  split
  · exact .refl w
  split
  · exact .refl w
  split
  · rename_i w' full
    rw [full] at first
    have second := w'.stampRetired.insertEdgeInner_publishes src dst
    cases again : w'.stampRetired.insertEdgeInner src dst with
    | panic w'' => trivial
    | done r w'' =>
        rw [again] at second
        exact Noted.quiet (first.quiet (noted_stampRetired w')) second
  · exact first

/-- The chain's guard when it did not panic. -/
def Chain.guard : Chain → Writer
  | .panic w => w
  | .full w => w
  | .built _ _ w => w

theorem chain_noted (w : Writer) (cur : CTree) (new dsts : List Nat) :
    Noted w (w.chain cur new dsts).guard [] := by
  induction dsts generalizing w cur new with
  | nil => exact .refl w
  | cons d dsts ih =>
      have kept : ∀ aw log, Noted w (w.withLog aw log) [] := fun aw log => ⟨rfl, rfl, rfl⟩
      unfold chain
      split
      · exact kept _ _
      · exact (kept _ _).quiet (ih _ _ _)
      · exact (kept _ _).quiet (ih _ _ _)
      · exact kept _ _

/-- The answers of a batch that publish. -/
def batchPublishes (src : Nat) (newDsts : List Nat) : Except InsertError Nat → List Publish
  | .ok _ => publishBatches src newDsts
  | .error _ => []

theorem finishChain_publishes (w : Writer) (mark : SlotClass → Nat) (src : Nat) (tree : CTree)
    (new : List Nat) :
    (w.finishChain mark src tree new).Publishes w (batchPublishes src new) := by
  unfold finishChain
  split
  · rename_i nothing
    rw [List.isEmpty_iff.mp nothing]
    exact .refl w
  rename_i some
  have appended := w.noted_appendBatch src new
  split
  · rename_i w' refused
    rw [refused] at appended
    exact ⟨appended.marks, appended.pending, appended.numVertices⟩
  · rename_i w' logged
    rw [logged] at appended
    have published := appended.quiet (w'.noted_publishBatch src tree new)
    rw [Call.Publishes, batchPublishes, publishBatches, if_neg some]
    exact published.trans (noted_maybeStampRetired _)

theorem noted_restamp (w : Writer) (mark : SlotClass → Nat) : Noted w (w.restamp mark) [] :=
  ⟨rfl, rfl, rfl⟩

theorem Noted.publishes {α : Type} {w w' : Writer} (h : Noted w w' [])
    {published : Except InsertError α → List Publish} {call : Call α}
    (h' : call.Publishes w' published) : call.Publishes w published := by
  cases call with
  | panic w'' => trivial
  | done r w'' => exact h.quiet h'

theorem insertSortedByPathCopy_publishes (w : Writer) (src : Nat) (dsts : List Nat)
    (few : preferPathCopy ((w.graph.treeFor src).count w.graph.arena) dsts.length = true) :
    (w.insertSortedByPathCopy src (w.graph.treeFor src) dsts).Publishes w
      (batchPublishes src (w.newDsts src dsts)) := by
  have first := w.chain_noted (w.graph.treeFor src) [] dsts
  unfold insertSortedByPathCopy newDsts
  dsimp only
  rw [if_pos few]
  cases chained : w.chain (w.graph.treeFor src) [] dsts with
  | panic w₁ => trivial
  | built tree new w₁ =>
      rw [chained] at first
      exact first.publishes (w₁.finishChain_publishes _ src tree new)
  | full w₁ =>
      rw [chained] at first
      have restamped := first.quiet (w₁.noted_restamp w.retireLog.marks)
      have second := (w₁.restamp w.retireLog.marks).chain_noted (w.graph.treeFor src) [] dsts
      dsimp only
      cases again : (w₁.restamp w.retireLog.marks).chain (w.graph.treeFor src) [] dsts with
      | panic w₂ => trivial
      | built tree new w₂ =>
          rw [again] at second
          exact (restamped.quiet second).publishes (w₂.finishChain_publishes _ src tree new)
      | full w₂ =>
          rw [again] at second
          have kept := restamped.quiet second
          exact ⟨kept.marks, kept.pending, kept.numVertices⟩

theorem noted_withArena (w : Writer) (aw : ArenaWriter) : Noted w (w.withArena aw) [] :=
  ⟨rfl, rfl, rfl⟩

theorem finishRebuild_publishes (w : Writer) (src : Nat) (tree newTree : CTree) {new : List Nat}
    (some : new.isEmpty = false) :
    (w.finishRebuild src tree newTree new).Publishes w (batchPublishes src new) := by
  have appended := w.noted_appendBatch src new
  unfold finishRebuild
  split
  · rename_i w' refused
    rw [refused] at appended
    exact appended
  · rename_i w' logged
    rw [logged] at appended
    have published := appended.quiet (w'.noted_publishBatch src newTree new)
    have eq : ∀ k, batchPublishes src new (.ok k) = [.batch src new] := fun k => by
      rw [batchPublishes, publishBatches, some]
      rfl
    dsimp only
    split
    · rw [Call.Publishes, eq]
      exact published.trans (noted_maybeStampRetired _)
    split
    · trivial
    · rename_i log _
      rw [Call.Publishes, eq]
      have kept : Noted (w'.publishBatch src newTree new)
        { w'.publishBatch src newTree new with retireLog := log } [] := ⟨rfl, rfl, rfl⟩
      exact published.trans (kept.quiet (noted_maybeStampRetired _))

theorem insertSortedByRebuild_publishes (w : Writer) (src : Nat) (dsts : List Nat)
    (many : preferPathCopy ((w.graph.treeFor src).count w.graph.arena) dsts.length = false) :
    (w.insertSortedByRebuild src (w.graph.treeFor src) dsts).Publishes w
      (batchPublishes src (w.newDsts src dsts)) := by
  unfold insertSortedByRebuild newDsts
  dsimp only
  rw [many, if_neg Bool.false_ne_true]
  cases (w.graph.treeFor src).collect w.graph.arena with
  | none => trivial
  | some existing =>
      dsimp only
      split
      · rename_i nothing
        rw [List.isEmpty_iff.mp nothing]
        exact .refl w
      rename_i some
      rw [Bool.not_eq_true] at some
      split
      · rename_i newTree aw built
        exact (w.noted_withArena aw).publishes (finishRebuild_publishes _ src _ newTree some)
      · rename_i aw failed
        have stamped := (w.noted_withArena aw).quiet (noted_stampRetired _)
        split
        · rename_i newTree aw' built
          exact (stamped.quiet (noted_withArena _ aw')).publishes
            (finishRebuild_publishes _ src _ newTree some)
        · rename_i aw' again
          exact stamped.quiet (noted_withArena _ aw')

theorem newDsts_nil (w : Writer) (src : Nat) : w.newDsts src [] = [] := by
  unfold newDsts
  dsimp only
  split
  · rfl
  · cases (w.graph.treeFor src).collect w.graph.arena with
    | none => rfl
    | some existing => simp [mergeSorted]

theorem insertEdgesSorted_publishes (w : Writer) (src : Nat) (dsts : List Nat) :
    (w.insertEdgesSorted src dsts).Publishes w (batchPublishes src (w.newDsts src dsts)) := by
  unfold insertEdgesSorted
  split
  · rw [Call.Publishes, newDsts_nil]
    exact .refl w
  dsimp only
  split
  · exact .refl w
  split
  · exact .refl w
  split
  · exact .refl w
  split
  · rename_i few
    exact w.insertSortedByPathCopy_publishes src _ few
  · rename_i many
    rw [Bool.not_eq_true] at many
    exact w.insertSortedByRebuild_publishes src _ many

theorem sortedPublishes_noted {w w' : Writer} {src : Nat} {dsts : List Nat}
    {r : Except InsertError Nat} (h : w.insertEdgesSorted src dsts = .done r w') :
    Noted w w' (w.sortedPublishes src dsts) := by
  have published := w.insertEdgesSorted_publishes src dsts
  unfold sortedPublishes
  rw [h] at published ⊢
  cases r with
  | ok k => exact published
  | error e => exact published

theorem insertRuns_publishes (w : Writer) (inserted : Nat) (runs : List (Nat × List Nat)) :
    (w.insertRuns inserted runs).Publishes w fun _ => w.runsPublishes runs := by
  induction runs generalizing w inserted with
  | nil => exact .refl w
  | cons run runs ih =>
      obtain ⟨src, dsts⟩ := run
      unfold insertRuns runsPublishes
      cases called : w.insertEdgesSorted src dsts with
      | panic w' => trivial
      | done r w' =>
          have first := sortedPublishes_noted called
          cases r with
          | error e =>
              have nothing : w.sortedPublishes src dsts = [] := by
                rw [sortedPublishes, called]
              rw [nothing] at first
              exact first
          | ok k =>
              dsimp only
              have later := ih w' (inserted + k)
              cases called' : w'.insertRuns (inserted + k) runs with
              | panic w'' => trivial
              | done r w'' =>
                  rw [called'] at later
                  exact first.trans later

theorem insert_noted {w w' : Writer} {call : InsertCall} (h : w.insert call = some w') :
    Noted w w' (w.publishes call) := by
  unfold insert at h
  unfold publishes
  cases call with
  | edge src dst =>
      have published := w.insertEdge_publishes src dst
      dsimp only at h ⊢
      cases called : w.insertEdge src dst with
      | panic w'' =>
          rw [called] at h
          cases h
      | done r w'' =>
          rw [called] at h published
          obtain rfl := Option.some.inj h
          match r, published with
          | .ok true, published => exact published
          | .ok false, published => exact published
          | .error e, published => exact published
  | edges edges =>
      dsimp only at h ⊢
      unfold insertEdges at h
      dsimp only at h
      cases far : edges.find? fun e =>
          decide (w.graph.numVertices ≤ e.1) || decide (w.graph.numVertices ≤ e.2) with
      | some e =>
          rw [far] at h
          obtain rfl := Option.some.inj h
          exact .refl w
      | none =>
          rw [far] at h
          have published := w.insertRuns_publishes 0 (groupRuns edges)
          dsimp only at h
          cases called : w.insertRuns 0 (groupRuns edges) with
          | panic w'' =>
              rw [called] at h
              cases h
          | done r w'' =>
              rw [called] at h published
              obtain rfl := Option.some.inj h
              exact published
  | sorted src dsts =>
      dsimp only at h ⊢
      cases called : w.insertEdgesSorted src dsts with
      | panic w'' =>
          rw [called] at h
          cases h
      | done r w'' =>
          rw [called] at h
          obtain rfl := Option.some.inj h
          exact sortedPublishes_noted called

theorem insertAll_noted {w w' : Writer} {calls : List InsertCall} {ps : List Publish}
    (h : w.insertAll calls = some (w', ps)) : Noted w w' ps := by
  induction calls generalizing w ps with
  | nil =>
      simp only [insertAll, Option.some.injEq, Prod.mk.injEq] at h
      obtain ⟨rfl, rfl⟩ := h
      exact .refl w
  | cons call calls ih =>
      simp only [insertAll, Option.bind_eq_bind, Option.bind_eq_some_iff, Option.some.injEq,
        Prod.mk.injEq] at h
      obtain ⟨w₁, first, ⟨w₂, later⟩, rest, rfl, rfl⟩ := h
      exact (insert_noted first).trans (ih rest)

/-- Every vertex noted is one of the graph's. -/
def InGraph (w : Writer) (ps : List Publish) : Prop :=
  ∀ p ∈ ps, ∀ v ∈ p.notes, v < w.graph.numVertices

theorem InGraph.append {w : Writer} {ps ps' : List Publish} (h : w.InGraph ps)
    (h' : w.InGraph ps') : w.InGraph (ps ++ ps') := fun p hp =>
  (List.mem_append.mp hp).elim (h p) (h' p)

theorem chainNew_subset (w : Writer) (cur : CTree) (new dsts : List Nat) :
    ∀ v ∈ chainNew (w.chain cur new dsts), v ∈ new ∨ v ∈ dsts := by
  induction dsts generalizing w cur new with
  | nil => exact fun v hv => .inl hv
  | cons d dsts ih =>
      intro v hv
      unfold chain at hv
      split at hv
      · cases hv
      · rcases ih _ _ _ v hv with hv | hv
        · rcases List.mem_append.mp hv with hv | hv
          · exact .inl hv
          · exact .inr (List.mem_singleton.mp hv ▸ List.mem_cons_self)
        · exact .inr (List.mem_cons_of_mem d hv)
      · exact (ih _ _ _ v hv).imp_right (List.mem_cons_of_mem d)
      · cases hv

end Writer

theorem mergeSorted_new_subset (existing dsts : List Nat) :
    ∀ v ∈ (mergeSorted existing dsts).2, v ∈ dsts := by
  fun_induction mergeSorted existing dsts with
  | case1 existing => simp
  | case2 d dsts => exact fun v hv => hv
  | case3 x existing d dsts lt merged new result ih =>
      rw [result] at ih
      exact ih
  | case4 x existing d dsts nlt lt merged new result ih =>
      rw [result] at ih
      exact fun v hv => List.mem_cons.mpr ((List.mem_cons.mp hv).imp_right (ih v))
  | case5 x existing d dsts nlt nlt' merged new result ih =>
      rw [result] at ih
      exact fun v hv => List.mem_cons_of_mem d (ih v hv)

namespace Writer

theorem newDsts_subset (w : Writer) (src : Nat) (dsts : List Nat) :
    ∀ v ∈ w.newDsts src dsts, v ∈ dsts := by
  intro v hv
  unfold newDsts at hv
  dsimp only at hv
  split at hv
  · split at hv
    · exact (chainNew_subset _ _ _ _ v hv).resolve_left List.not_mem_nil
    · exact (chainNew_subset _ _ _ _ v hv).resolve_left List.not_mem_nil
  · split at hv
    · cases hv
    · exact mergeSorted_new_subset _ _ v hv

theorem insertEdgesSorted_inRange {w w' : Writer} {src k : Nat} {dsts : List Nat} {v : Nat}
    (h : w.insertEdgesSorted src dsts = .done (.ok k) w') (hv : v ∈ dsts) :
    src < w.graph.numVertices ∧ v < w.graph.numVertices := by
  unfold insertEdgesSorted at h
  split at h
  · cases hv
  dsimp only at h
  split at h
  · cases h
  rename_i inside
  split at h
  · cases h
  rename_i none
  have fine := List.find?_eq_none.mp none v hv
  exact ⟨Nat.not_le.mp inside, by simpa using fine⟩

theorem sortedPublishes_inGraph (w : Writer) (src : Nat) (dsts : List Nat) :
    w.InGraph (w.sortedPublishes src dsts) := by
  unfold sortedPublishes
  split
  · rename_i k w' called
    unfold publishBatches
    split
    · simp [InGraph]
    · rename_i some
      intro p hp v hv
      obtain rfl := List.mem_singleton.mp hp
      obtain ⟨d, hd⟩ := List.exists_mem_of_ne_nil _ (mt List.isEmpty_iff.mpr some)
      have inRange := fun x hx => insertEdgesSorted_inRange (v := x) called hx
      rcases List.mem_append.mp hv with hv | hv
      · exact (inRange v (w.newDsts_subset src dsts v hv)).2
      · exact List.mem_singleton.mp hv ▸ (inRange d (w.newDsts_subset src dsts d hd)).1
  · simp [InGraph]

theorem InGraph.of_noted {w w' : Writer} {ps ps' : List Publish} (h : Noted w w' ps')
    (h' : w'.InGraph ps) : w.InGraph ps := by
  unfold InGraph at h' ⊢
  rw [← h.numVertices]
  exact h'

theorem runsPublishes_inGraph (w : Writer) (runs : List (Nat × List Nat)) :
    w.InGraph (w.runsPublishes runs) := by
  induction runs generalizing w with
  | nil => simp [runsPublishes, InGraph]
  | cons run runs ih =>
      obtain ⟨src, dsts⟩ := run
      unfold runsPublishes
      split
      · rename_i k w' called
        exact (w.sortedPublishes_inGraph src dsts).append
          (.of_noted (sortedPublishes_noted called) (ih w'))
      · simp [InGraph]

theorem insertEdge_inRange {w w' : Writer} {src dst : Nat}
    (h : w.insertEdge src dst = .done (.ok true) w') :
    src < w.graph.numVertices ∧ dst < w.graph.numVertices := by
  unfold insertEdge at h
  split at h
  · cases h
  · rename_i inside
    rw [not_or, Nat.not_le, Nat.not_le] at inside
    exact inside

theorem publishes_inGraph (w : Writer) (call : InsertCall) : w.InGraph (w.publishes call) := by
  unfold publishes
  split
  · rename_i src dst
    split
    · rename_i w' called
      intro p hp v hv
      obtain rfl := List.mem_singleton.mp hp
      have inRange := insertEdge_inRange called
      rcases List.mem_cons.mp hv with rfl | hv
      · exact inRange.1
      · exact List.mem_singleton.mp hv ▸ inRange.2
    · simp [InGraph]
  · split
    · simp [InGraph]
    · exact w.runsPublishes_inGraph _
  · exact w.sortedPublishes_inGraph _ _

theorem insertAll_inGraph {w w' : Writer} {calls : List InsertCall} {ps : List Publish}
    (h : w.insertAll calls = some (w', ps)) : w.InGraph ps := by
  induction calls generalizing w ps with
  | nil =>
      simp only [insertAll, Option.some.injEq, Prod.mk.injEq] at h
      obtain ⟨-, rfl⟩ := h
      simp [InGraph]
  | cons call calls ih =>
      simp only [insertAll, Option.bind_eq_bind, Option.bind_eq_some_iff, Option.some.injEq,
        Prod.mk.injEq] at h
      obtain ⟨w₁, first, ⟨w₂, later⟩, rest, rfl, rfl⟩ := h
      exact (w.publishes_inGraph call).append (.of_noted (insert_noted first) (ih rest))

end Writer

end AetherGraph
