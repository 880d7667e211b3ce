import AetherGraph.SessionBooks

/-! Every run of a session is explained by its ledger: the live graph shows all edges, and every
snapshot those of the commits up to its epoch. -/

namespace AetherGraph

open Foundation

section Runs

/-- A new graph, with or without an attached log, shows the empty ledger. -/
theorem GraphSession.follows_new {n bytes epoch : Nat} {g : DynamicGraph}
    (new : DynamicGraph.newWithEpoch n bytes epoch = some g) (wal : Option WalWriter) :
    (GraphSession.start { g with wal := wal }).Follows none (.start epoch) := by
  have pins := idlePins_of_new new
  unfold DynamicGraph.newWithEpoch at new
  split at new
  · cases new
  rename_i small
  obtain ⟨a, ha, rfl⟩ := Option.map_eq_some_iff.mp new
  have roots : ∀ v, (List.replicate n null).getD v null = null := fun v => by
    rw [List.getD_eq_getElem?_getD, List.getElem?_replicate]
    split <;> rfl
  refine ⟨{ pins with }, ⟨fun _ => none, ⟨{ Arena.new_ok ha with }, List.length_replicate,
    Nat.le_of_not_lt small, roots, fun v => trivial, fun v x hx => absurd hx List.not_mem_nil,
    fun u v _ k i hi => absurd hi List.not_mem_nil⟩, ⟨rfl, nofun, List.nodup_nil, nofun,
      fun v x => ⟨nofun, nofun⟩, fun S hS => ?_, rfl, rfl⟩⟩, rfl, rfl, fun _ => rfl, nofun⟩
  obtain rfl := List.mem_singleton.mp hS
  refine ⟨fun _ => none, fun v => ?_, fun v => trivial, fun v x => ⟨nofun, nofun⟩, rfl,
    List.nodup_nil, nofun⟩
  unfold Snapshot.rootOf
  split
  · rfl
  · exact RootTable.get_empty n v

/-- Every run without a stale truncation is a run of the ledger with the same answers, and shows
what the ledger holds. -/
theorem session_serves_versions (n bytes epoch : Nat) (g : DynamicGraph)
    (new : DynamicGraph.newWithEpoch n bytes epoch = some g) (wal : Option WalWriter)
    (acts : List Act) (fresh : (GraphSession.start { g with wal := wal }).fresh acts = true)
    (answers : List Answer) (s : GraphSession)
    (done : (GraphSession.start { g with wal := wal }).run acts = some (answers, s)) :
    ∃ V, Explained (.start epoch) (acts.zip answers) V ∧ Serves s V := by
  obtain ⟨V, explained, follows⟩ := (GraphSession.follows_new new wal).run fresh done
  exact ⟨V, explained, follows.serves⟩

/-- Two commits with a snapshot held across the second, a compaction refused while it is held,
and one that runs once it is dropped. -/
def sessionActs : List Act :=
  [.openGuard, .insertEdges [(2, 1), (0, 3), (0, 1)], .dropGuard false, .acquire, .openGuard,
    .insertEdge 0 2, .insertEdgesSorted 3 [0, 1], .dropGuard false,
    .compact 1024 2 ⟨List.reverse, fun _ => List.reverse_perm _⟩, .release 0, .acquire,
    .release 0, .compact 512 2 ⟨List.reverse, fun _ => List.reverse_perm _⟩]

theorem sessionActs_run : ((DynamicGraph.newWithEpoch 4 1024 7).bind fun g =>
    ((GraphSession.start { g with wal := none }).run sessionActs).map fun out =>
      (GraphSession.start { g with wal := none }).fresh sessionActs &&
        out.2.graph.numEdges == 6) = some true := by decide +kernel

theorem session_serves_versions_sessionActs : ∃ g answers s,
    DynamicGraph.newWithEpoch 4 1024 7 = some g ∧
    (GraphSession.start { g with wal := none }).run sessionActs = some (answers, s) ∧
    ∃ V, Explained (.start 7) (sessionActs.zip answers) V ∧ Serves s V := by
  obtain ⟨g, new, ran⟩ := Option.bind_eq_some_iff.mp sessionActs_run
  obtain ⟨⟨answers, s⟩, ran, fresh⟩ := Option.map_eq_some_iff.mp ran
  rw [Bool.and_eq_true] at fresh
  exact ⟨g, answers, s, new, ran, session_serves_versions 4 1024 7 g new none sessionActs fresh.1
    answers s ran⟩

theorem Explains.later {V V' : Ledger} {act : Act} {answer : Answer}
    (h : Explains V act answer V') : V.Later V' := by
  cases h with
  | committed => exact V.later_commit
  | advanced => exact V.later_advance _
  | _ => exact ⟨Nat.le_refl _, fun _ _ => rfl⟩

theorem Explained.later {V V' : Ledger} {trace : List (Act × Answer)}
    (h : Explained V trace V') : V.Later V' := by
  induction h with
  | nil => exact .refl _
  | cons first _ ih => exact first.later.trans ih

theorem GraphSession.Follows.runs {base : Option LogBase} {s s' : GraphSession}
    {V : Ledger} (h : s.Follows base V) (runs : s.Runs s') :
    ∃ V', V.Later V' ∧ s'.Follows base V' := by
  obtain ⟨acts, answers, fresh, done⟩ := runs
  obtain ⟨V', explained, follows⟩ := h.run fresh done
  exact ⟨V', explained.later, follows⟩

theorem GraphSession.Reached.follows {s : GraphSession} (h : s.Reached) :
    ∃ V, s.Follows none V := by
  obtain ⟨n, bytes, epoch, g, wal, new, runs⟩ := h
  obtain ⟨V, -, follows⟩ := (GraphSession.follows_new new wal).runs runs
  exact ⟨V, follows⟩

end Runs

end AetherGraph
