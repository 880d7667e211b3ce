import AetherGraph.CompactedGraph
import AetherGraph.IngestDrivers
import AetherGraph.LogBooks
import AetherGraph.SnapshotReads
import Mathlib.Algebra.BigOperators.Group.List.Lemmas

/-! The books of a session against its ledger: what holds between guards and behind an open one,
and the step of the ledger that explains each act. -/

namespace AetherGraph

open Foundation Foundation.LeafTree ArenaWriter Tree

/-- The edges behind the roots and the snapshots of a graph, against its ledger. -/
structure Books (g : DynamicGraph) (snaps : List Snapshot) (V : Ledger)
    (T : Nat → Adj) : Prop where
  now : g.epoch = V.now
  dated : V.Dated
  distinct : V.visible.Nodup
  inside : ∀ e ∈ V.visible, e.1 < g.numVertices
  mem_elems : ∀ v x, x ∈ (T v).elems ↔ (v, x) ∈ V.visible
  shown : ∀ S ∈ g.latest :: snaps, ∃ U, Shows g.arena S U (V.asOf S.epoch)
  latest : V.asOf g.latest.epoch = V.committed
  numEdges : g.numEdges = V.committed.length

/-- A graph between guards, the last of which may have poisoned it. -/
structure IdleBooks (base : Option LogBase) (g : DynamicGraph) (snaps : List Snapshot)
    (V : Ledger) : Prop where
  pins : IdlePins g snaps
  trees : ∃ T, Forest g.arena g.numVertices g.roots T ∧ Books g snaps V T
  unlocked : g.writerLocked = false
  phase : V.phase = if g.poisoned then .stopped else .idle
  settled : g.poisoned = false → V.batch = []
  log : LogBooks base g.numVertices g.wal V

/-- An open guard: its batch is what it has published, and its leaves are noted. -/
structure GuardBooks (base : Option LogBase) (w : Writer) (snaps : List Snapshot)
    (V : Ledger) : Prop where
  pins : GuardPins w snaps
  trees : ∃ T, w.Sound T ∧ Books w.graph snaps V T
  locked : w.graph.writerLocked = true
  clean : w.graph.poisoned = false
  phase : V.phase = .writing
  pending : w.pendingEdges = V.batch.length
  noted : ∀ e ∈ V.batch, e.1 / leafLen ∈ w.touchedLeaves
  log : LogBooks base w.graph.numVertices w.graph.wal V

/-- The session is in step with the ledger. -/
def GraphSession.Follows (base : Option LogBase) (s : GraphSession) (V : Ledger) : Prop :=
  match s.stage with
  | .idle g => IdleBooks base g s.snaps V
  | .guarded w => GuardBooks base w s.snaps V

section Reads

variable {base : Option LogBase} {g : DynamicGraph} {snaps : List Snapshot} {V : Ledger}
  {T : Nat → Adj}

theorem Books.hasEdge (h : Books g snaps V T) {n : Nat} (forest : Forest g.arena n g.roots T)
    (v x : Nat) : g.hasEdge v x = some (decide ((v, x) ∈ V.visible)) := by
  rw [DynamicGraph.hasEdge, DynamicGraph.treeFor, forest.root_eq, (forest.live v).contains,
    Option.some.injEq, decide_eq_decide]
  exact h.mem_elems v x

theorem GraphSession.Follows.trees {s : GraphSession} (h : s.Follows base V) :
    ∃ T, Forest s.graph.arena s.graph.numVertices s.graph.roots T ∧
      Books s.graph s.snaps V T := by
  obtain ⟨stage, snaps⟩ := s
  cases stage with
  | idle g => exact IdleBooks.trees h
  | guarded w =>
      obtain ⟨T, ⟨log, good, -⟩, books⟩ := GuardBooks.trees h
      exact ⟨T, good.forest, books⟩

theorem GraphSession.Follows.log {s : GraphSession} (h : s.Follows base V) :
    LogBooks base s.graph.numVertices s.graph.wal V := by
  obtain ⟨stage, snaps⟩ := s
  cases stage with
  | idle g => exact IdleBooks.log h
  | guarded w => exact GuardBooks.log h

theorem GraphSession.Follows.serves {s : GraphSession} (h : s.Follows base V) : Serves s V := by
  obtain ⟨T, forest, books⟩ := h.trees
  exact ⟨books.hasEdge forest, books.distinct, books.numEdges, books.latest, fun S hS =>
    (books.shown S hS).choose_spec.answers⟩

end Reads

section Calls

variable {base : Option LogBase} {w w' : Writer} {snaps : List Snapshot} {V : Ledger}
  {T T' : Nat → Adj}
  {added : List (Nat × Nat)}

theorem Shows.later {g : DynamicGraph} {a : Arena} {S : Snapshot} {U : Nat → Adj}
    {E : List (Nat × Nat)} (h : Shows a S U E) (pins : PinsHold g snaps)
    (hS : S ∈ g.latest :: snaps)
    (same : ∀ v k i, a.Reach (S.rootOf v) k i → Arena.SameNode a g.arena k i) :
    Shows g.arena S U E :=
  h.keeps fun v k i reach =>
    ⟨same v k i reach, (pins.shielded S hS v k i (reach.into_same (same v))).1⟩

/-- The books after a call: what it added joins the batch. -/
theorem Books.effect {s : Prop} (h : Books w.graph snaps V T) (pins : GuardPins w' snaps)
    (keep : SnapshotsKeep w.graph.arena w'.graph.arena (w.graph.latest :: snaps))
    (effect : Writer.Effect s w w' T T' added) : Books w'.graph snaps (V.add added) T' := by
  have frame := effect.frame
  have new := effect.added
  have visible := V.visible_add added
  have latest := frame.latest
  refine ⟨frame.epoch.trans h.now, h.dated, ?_, fun e he => ?_, fun v x => ?_, fun S hS => ?_, ?_,
    frame.numEdges.trans h.numEdges⟩
  · rw [visible]
    refine List.nodup_append.mpr ⟨h.distinct, new.nodup, fun e he e' he' same => ?_⟩
    subst same
    exact new.fresh e he' ((h.mem_elems _ _).mpr he)
  · rw [frame.numVertices]
    rw [visible] at he
    exact (List.mem_append.mp he).elim (h.inside e) fun he => (new.lt e he).1
  · rw [new.mem_elems, visible, List.mem_append, h.mem_elems]
  · rw [latest] at hS
    obtain ⟨U, shows⟩ := h.shown S hS
    exact ⟨U, shows.later pins.toPinsHold (latest ▸ hS) (keep S hS)⟩
  · rw [latest]
    exact h.latest

/-- A call that returns. -/
theorem GuardBooks.took (h : GuardBooks base w snaps V) (sound : w.Sound T)
    (books : Books w.graph snaps V T) (up : w.walFailed = false)
    (effect : Writer.Effect (w'.walFailed = false) w w' T T' added) :
    GuardBooks base w' snaps (V.add added) := by
  obtain ⟨pins, keep, kept, noted⟩ := h.pins.effect (sound.good up) effect
  refine ⟨pins, ⟨T', effect.sound (sound.good up), books.effect pins keep effect⟩,
    effect.frame.writerLocked.trans h.locked, effect.frame.poisoned.trans h.clean, h.phase, ?_,
    fun e he => ?_, effect.frame.numVertices.symm ▸ h.log.add h.phase effect.wal⟩
  · rw [effect.pending, h.pending]
    exact (List.length_append ..).symm
  · rcases List.mem_append.mp he with he | he
    · exact kept _ (h.noted e he)
    · exact noted e he

/-- Nothing of an abandoned guard is committed. -/
theorem Books.abandon {g : DynamicGraph} (h : Books w.graph snaps V T)
    (abandoned : w.Abandoned g) : Books g snaps V.abandon T where
  now := abandoned.epoch.trans h.now
  dated := h.dated
  distinct := h.distinct
  inside e he := abandoned.numVertices.symm ▸ h.inside e he
  mem_elems := h.mem_elems
  shown S hS := by
    rw [abandoned.latest] at hS
    rw [abandoned.arena]
    exact h.shown S hS
  latest := abandoned.latest.symm ▸ h.latest
  numEdges := abandoned.numEdges.trans h.numEdges

theorem IdlePins.of_abandoned {g : DynamicGraph} (h : GuardPins w snaps)
    (abandoned : w.Abandoned g) : IdlePins g snaps := by
  obtain ⟨r, a, n, e, d, lk, po, ep, la, wl⟩ := g
  obtain ⟨hr, ha, hn, -, -, -, hpo, hep, hla, -⟩ := abandoned
  dsimp only at hr ha hn hpo hep hla
  subst hr ha hn hpo hep hla
  exact { h.toPinsHold with current := nofun }

/-- What becomes of the log when a guard is dropped. -/
theorem Writer.drop_wal {g : DynamicGraph} {panicking : Bool} (ended : w.drop panicking = some g) :
    g.wal = if panicking then w.graph.wal.map WalWriter.discardPending
      else (syncLog w.graph.wal).2 := by
  unfold drop at ended
  split at ended
  · rename_i panicking
    rw [if_pos panicking]
    exact congrArg DynamicGraph.wal (Option.some.inj ended).symm
  · rename_i calm
    rw [if_neg calm]
    dsimp only at ended
    split at ended
    · exact congrArg DynamicGraph.wal (Option.some.inj ended).symm
    · exact (commit_some ended).wal

theorem IdleBooks.of_abandoned {g : DynamicGraph} (pins : GuardPins w snaps)
    (forest : Forest g.arena g.numVertices g.roots T) (books : Books w.graph snaps V T)
    (log : LogBooks base w.graph.numVertices w.graph.wal V) (phase : V.phase = .writing)
    {panicking : Bool} (ended : w.drop panicking = some g) (abandoned : w.Abandoned g) :
    IdleBooks base g snaps V.abandon := by
  have left := log.abandon phase panicking
  rw [← Writer.drop_wal ended, ← abandoned.numVertices] at left
  refine ⟨.of_abandoned pins abandoned, ⟨T, forest, books.abandon abandoned⟩,
    abandoned.writerLocked, ?_, fun clean => ?_, left⟩
  · rw [abandoned.poisoned]
    rfl
  · rw [abandoned.poisoned] at clean
    cases clean

theorem Writer.drop_panicking (w : Writer) : ∃ g, w.drop true = some g ∧ w.Abandoned g :=
  ⟨_, rfl, rfl, rfl, rfl, rfl, rfl, rfl, rfl, rfl, rfl, fun none => congrArg (Option.map _) none⟩

/-- A call that panics poisons the graph on its way out. -/
theorem GuardBooks.panicked (h : GuardBooks base w snaps V) (sound : w.Sound T)
    (books : Books w.graph snaps V T) (up : w.walFailed = false)
    (effect : Writer.Effect False w w' T T' added) {g : DynamicGraph}
    (ended : w'.drop true = some g) : IdleBooks base g snaps (V.add added).abandon := by
  obtain ⟨pins, keep, -, -⟩ := h.pins.effect (sound.good up) effect
  obtain ⟨g', same, abandoned⟩ := w'.drop_panicking
  obtain rfl := Option.some.inj (same.symm.trans ended)
  obtain ⟨log, moves, -⟩ := effect.moves
  have forest : Forest w'.graph.arena w.graph.numVertices w'.graph.roots T' :=
    (moves.good (sound.good up)).forest
  rw [← effect.frame.numVertices, ← abandoned.numVertices, ← abandoned.arena,
    ← abandoned.roots] at forest
  exact .of_abandoned pins forest (books.effect pins keep effect)
    (effect.frame.numVertices.symm ▸ h.log.add h.phase effect.wal) h.phase ended abandoned

/-- The edges a commit's snapshot shows. -/
theorem GuardBooks.latestAfter (h : GuardBooks base w snaps V) (books : Books w.graph snaps V T) :
    V.commit.asOf w.latestAfter.epoch = V.visible ∧
      w.latestAfter.numEdges = V.visible.length := by
  have total : V.visible.length = w.graph.numEdges + w.pendingEdges := by
    rw [Versions.visible, List.length_append, books.numEdges, h.pending]
  unfold Writer.latestAfter
  split
  · rename_i untouched
    have empty : V.batch = [] := List.eq_nil_iff_forall_not_mem.mpr fun e he =>
      absurd (h.noted e he) (untouched ▸ List.not_mem_nil)
    have visible : V.visible = V.committed := by rw [Versions.visible, empty, List.append_nil]
    obtain ⟨U, shows⟩ := books.shown _ List.mem_cons_self
    rw [Versions.asOf_commit_nil empty, shows.numEdges, books.latest, visible]
    exact ⟨rfl, rfl⟩
  · refine ⟨?_, total.symm⟩
    rw [Versions.asOf_eq_committed books.dated.commit, Versions.committed_commit]
    exact Nat.add_le_add_right books.now.ge 1

theorem GuardBooks.commit {g : DynamicGraph} (h : GuardBooks base w snaps V) (sound : w.Sound T)
    (books : Books w.graph snaps V T) (up : w.walFailed = false) (committed : w.Committed g)
    (log : LogBooks base g.numVertices g.wal V.commit) : IdleBooks base g snaps V.commit := by
  have good := sound.good up
  have allowed := good.retirable
  have idle := h.pins.commit allowed committed
  have forest := committed.forest good
  obtain ⟨shownEdges, shownCount⟩ := h.latestAfter books
  obtain ⟨pins, hpins, tracks⟩ := h.pins.pinsAfter
  obtain ⟨pins', hpins', arena⟩ := committed.arena
  obtain rfl := Option.some.inj (hpins'.symm.trans hpins)
  obtain ⟨-, -, -, kept⟩ := h.pins.arenaAfter allowed tracks
  have visible : V.commit.visible = V.visible := by
    rw [Versions.visible, Versions.committed_commit]
    exact List.append_nil _
  have clean := committed.poisoned.trans h.clean
  have inside : ∀ e ∈ V.visible, e.1 < g.numVertices := committed.numVertices ▸ books.inside
  refine ⟨idle, ⟨T, forest, ?_⟩, committed.writerLocked, ?_, fun _ => rfl, log⟩
  · refine ⟨?_, books.dated.commit, visible ▸ books.distinct, visible ▸ inside,
      visible ▸ books.mem_elems, fun S hS => ?_, ?_, ?_⟩
    · rw [committed.epoch, books.now]
      rfl
    · rcases List.mem_cons.mp hS with rfl | hS
      · refine ⟨T, fun v => ?_, fun v => (forest.live v).written, fun v x => ?_, ?_, ?_, ?_⟩
        · rw [idle.current clean v, forest.root_eq]
        · rw [committed.latest, shownEdges]
          exact books.mem_elems v x
        · rw [committed.latest, shownEdges, shownCount]
        · rw [committed.latest, shownEdges]
          exact books.distinct
        · rw [idle.numVertices_eq, committed.latest, shownEdges]
          exact inside
      · have old := List.mem_cons_of_mem w.graph.latest hS
        obtain ⟨U, shows⟩ := books.shown S old
        have early : S.epoch ≤ V.now := books.now ▸ h.pins.epoch_le S old
        rw [Versions.asOf_commit early]
        refine ⟨U, shows.later idle.toPinsHold (List.mem_cons_of_mem _ hS) fun v k i reach => ?_⟩
        rw [arena]
        exact (kept S hS v k i reach).2
    · rw [committed.latest, shownEdges, Versions.committed_commit]
    · rw [committed.numEdges, Versions.committed_commit, Versions.visible, List.length_append,
        books.numEdges, h.pending]
  · rw [clean]
    rfl

end Calls

section Steps

variable {base : Option LogBase} {s s' : GraphSession} {w : Writer} {snaps : List Snapshot}
  {V : Ledger} {T : Nat → Adj} {act : Act} {answer : Answer}

theorem IdleBooks.openGuard {g : DynamicGraph} (h : IdleBooks base g snaps V)
    (opened : g.writer = .ok w) : V.phase = .idle ∧ GuardBooks base w snaps V.begin := by
  obtain ⟨T, forest, books⟩ := h.trees
  have pins := h.pins.openGuard opened
  have good := DynamicGraph.good_of_writer opened forest
  obtain ⟨clean, -, rfl⟩ := DynamicGraph.writer_ok opened
  have empty := h.settled clean
  have phase : V.phase = .idle := h.phase.trans (by rw [clean]; rfl)
  refine ⟨phase, pins, ⟨T, ⟨_, good, fun _ => rfl⟩, { books with }⟩, rfl, clean, rfl, ?_,
    fun e he => ?_, h.log.congr rfl rfl fun stopped => by rw [phase] at stopped; cases stopped⟩
  · exact (congrArg List.length empty).symm
  · rw [show V.begin.batch = [] from empty] at he
    exact absurd he List.not_mem_nil

theorem GraphSession.Follows.openGuard (h : s.Follows base V)
    (done : s.step .openGuard = some (answer, s')) :
    ∃ V', Explains V .openGuard answer V' ∧ s'.Follows base V' := by
  obtain ⟨stage, snaps⟩ := s
  simp only [GraphSession.step, GraphSession.graph] at done
  cases stage with
  | idle g =>
      have h : IdleBooks base g snaps V := h
      cases opened : g.writer with
      | ok w =>
          rw [show (Stage.idle g).graph = g from rfl, opened] at done
          obtain ⟨rfl, rfl⟩ := Prod.mk.inj (Option.some.inj done)
          obtain ⟨phase, guard⟩ := h.openGuard opened
          exact ⟨_, .opened phase, guard⟩
      | error e =>
          rw [show (Stage.idle g).graph = g from rfl, opened] at done
          obtain ⟨rfl, rfl⟩ := Prod.mk.inj (Option.some.inj done)
          unfold DynamicGraph.writer at opened
          rw [h.unlocked] at opened
          split at opened
          · rename_i poisoned
            obtain rfl := Except.error.inj opened
            exact ⟨V, .poisoned (h.phase.trans (if_pos poisoned)), h⟩
          · cases opened
  | guarded w =>
      have h : GuardBooks base w snaps V := h
      have busy : w.graph.writer = .error .busy := by
        rw [DynamicGraph.writer, h.clean, h.locked]
        rfl
      rw [show (Stage.guarded w).graph = w.graph from rfl, busy] at done
      obtain ⟨rfl, rfl⟩ := Prod.mk.inj (Option.some.inj done)
      exact ⟨V, .busy h.phase, h⟩

/-- A call of the guard, by its specification. -/
theorem GuardBooks.call {α : Type} {call : Call α} {wrap : Except InsertError α → Answer}
    {post : Except InsertError α → List (Nat × Nat) → Prop} (h : GuardBooks base w snaps V)
    (sound : w.Sound T) (books : Books w.graph snaps V T) (up : w.walFailed = false)
    (outcome : Writer.Outcome w T post call)
    (allows : ∀ r added, post r added → (∀ e ∈ added, e ∉ V.visible) →
      Allows V act (wrap r) added)
    (inserts : act.inserts = true) (done : call.conclude snaps wrap = some (answer, s')) :
    ∃ V', Explains V act answer V' ∧ s'.Follows base V' := by
  have unseen : ∀ {T' added}, Added w.graph.numVertices T T' added → ∀ e ∈ added, e ∉ V.visible :=
    fun new e he old => new.fresh e he ((books.mem_elems _ _).mpr old)
  cases call with
  | panic w' =>
      obtain ⟨T', added, effect⟩ := outcome
      rw [Call.conclude] at done
      obtain ⟨g, ended, same⟩ := Option.map_eq_some_iff.mp done
      obtain ⟨rfl, rfl⟩ := Prod.mk.inj same
      exact ⟨_, .panicked h.phase inserts effect.added.nodup (unseen effect.added),
        h.panicked sound books up effect ended⟩
  | done r w' =>
      obtain ⟨T', added, effect, holds, -⟩ := outcome
      obtain ⟨rfl, rfl⟩ := Prod.mk.inj (Option.some.inj done)
      exact ⟨_, .insert h.phase (allows r added holds (unseen effect.added)) effect.added.nodup
        (unseen effect.added), h.took sound books up effect⟩

/-- A call that changes nothing. -/
theorem GuardBooks.quiet (h : GuardBooks base w snaps V) (allows : Allows V act answer []) :
    ∃ V', Explains V act answer V' ∧ (GraphSession.mk (.guarded w) snaps).Follows base V' :=
  ⟨V.add [], .insert h.phase allows List.nodup_nil nofun, (V.add_nil).symm ▸ h⟩

theorem GuardBooks.insertEdge (h : GuardBooks base w snaps V) {src dst : Nat}
    (done : (w.insertEdge src dst).conclude snaps .edge = some (answer, s')) :
    ∃ V', Explains V (.insertEdge src dst) answer V' ∧ s'.Follows base V' := by
  obtain ⟨T, sound, books⟩ := h.trees
  cases up : w.walFailed with
  | true =>
      obtain ⟨e, refused⟩ := Writer.insertEdge_refused up src dst
      rw [refused] at done
      obtain ⟨rfl, rfl⟩ := Prod.mk.inj (Option.some.inj done)
      exact h.quiet .edgeError
  | false =>
      have outcome := Writer.insertEdge_outcome sound src dst
      refine h.call sound books up outcome (fun r added post unseen => ?_) rfl done
      match r, post with
      | .ok true, post =>
          obtain rfl : added = [(src, dst)] := post
          exact .inserted (unseen _ List.mem_cons_self)
      | .ok false, post =>
          obtain ⟨rfl, old⟩ : added = [] ∧ dst ∈ (T src).elems := post
          exact .duplicate ((books.mem_elems _ _).mp old)
      | .error e, post =>
          obtain rfl : added = [] := post
          exact .edgeError

theorem GuardBooks.insertEdgesSorted (h : GuardBooks base w snaps V) {src : Nat} {dsts : List Nat}
    (sorted : dsts.Pairwise (· < ·)) (fresh : w.sortedStale src dsts = false)
    (done : (w.insertEdgesSorted src dsts).conclude snaps .batch = some (answer, s')) :
    ∃ V', Explains V (.insertEdgesSorted src dsts) answer V' ∧ s'.Follows base V' := by
  obtain ⟨T, sound, books⟩ := h.trees
  cases up : w.walFailed with
  | true =>
      obtain ⟨r, refused, none_⟩ := Writer.insertEdgesSorted_refused up src dsts
      rw [refused] at done
      obtain ⟨rfl, rfl⟩ := Prod.mk.inj (Option.some.inj done)
      cases r with
      | error e => exact h.quiet .sortedError
      | ok k =>
          obtain ⟨rfl, rfl⟩ := none_ k rfl
          exact h.quiet .sorted
  | false =>
      have outcome := Writer.insertEdgesSorted_outcome sound sorted fresh
      refine h.call sound books up outcome (fun r added post _ => ?_) rfl done
      cases r with
      | error e =>
          obtain rfl : added = [] := post
          exact .sortedError
      | ok k =>
          obtain ⟨eq, rfl⟩ := post
          have same : (dsts.filter fun d => decide (d ∉ (T src).elems)) =
              dsts.filter fun d => decide ((src, d) ∉ V.visible) :=
            List.filter_congr fun d _ => decide_eq_decide.mpr (not_congr (books.mem_elems src d))
          rw [same] at eq
          subst eq
          rw [List.length_map]
          exact .sorted

theorem GuardBooks.insertEdges (h : GuardBooks base w snaps V) {edges : List (Nat × Nat)}
    (fresh : w.batchStale edges = false)
    (done : (w.insertEdges edges).conclude snaps .batch = some (answer, s')) :
    ∃ V', Explains V (.insertEdges edges) answer V' ∧ s'.Follows base V' := by
  obtain ⟨T, sound, books⟩ := h.trees
  have allows : ∀ r added, Writer.edgesPost T edges r added → (∀ e ∈ added, e ∉ V.visible) →
      Allows V (.insertEdges edges) (.batch r) added := by
    intro r added post _
    cases r with
    | error e => exact .edgesError post.1
    | ok k =>
        obtain ⟨rfl, all⟩ := post.2 k rfl
        exact .edges post.1 fun e he => (all e he).imp_left (books.mem_elems _ _).mp
  cases up : w.walFailed with
  | true =>
      unfold Writer.insertEdges at done
      dsimp only at done
      split at done
      · obtain ⟨rfl, rfl⟩ := Prod.mk.inj (Option.some.inj done)
        exact h.quiet (.edgesError nofun)
      · obtain ⟨r, refused, none_⟩ := Writer.insertRuns_refused up (Writer.groupRuns edges) 0
        rw [refused] at done
        obtain ⟨rfl, rfl⟩ := Prod.mk.inj (Option.some.inj done)
        refine h.quiet (allows r [] ⟨nofun, fun k ok => ?_⟩ nofun)
        obtain ⟨rfl, empty⟩ := none_ k ok
        refine ⟨rfl, fun e he => ?_⟩
        obtain ⟨run, hrun, -, hit⟩ := Writer.mem_groupRuns.mp he
        rw [empty run hrun] at hit
        exact absurd hit List.not_mem_nil
  | false =>
      exact h.call sound books up (Writer.insertEdges_outcome sound edges fresh) allows rfl done

theorem GuardBooks.drop (h : GuardBooks base w snaps V) {panicking : Bool} {g : DynamicGraph}
    (ended : w.drop panicking = some g) :
    ∃ V', Explains V (.dropGuard panicking) (.closed g.poisoned g.epoch) V' ∧
      IdleBooks base g snaps V' := by
  obtain ⟨T, sound, books⟩ := h.trees
  rcases Writer.drop_some ended with ⟨rfl, up, ok, committed⟩ | ⟨-, abandoned⟩
  · have synced : GuardBooks none
        { w with graph := { w.graph with wal := (syncLog w.graph.wal).2 } } snaps V :=
      ⟨h.pins.congr ⟨rfl, rfl, rfl, rfl, rfl, rfl, rfl, rfl⟩ rfl rfl rfl,
      ⟨T, sound, { books with }⟩, h.locked, h.clean, h.phase, h.pending, h.noted, nofun⟩
    have idle := synced.commit sound { books with } up committed nofun
    refine ⟨V.commit, ?_, { idle with log := ?_ }⟩
    · rw [committed.poisoned.trans h.clean, committed.epoch.trans (congrArg (· + 1) books.now)]
      exact .committed h.phase
    · rw [committed.wal, committed.numVertices]
      exact h.log.commit h.phase ok
  · refine ⟨V.abandon, ?_, .of_abandoned h.pins (abandoned.forest sound) books h.log h.phase ended
      abandoned⟩
    rw [abandoned.poisoned, abandoned.epoch.trans books.now]
    exact .abandoned h.phase

/-- Pins and gate move; the trees, the books and the ledger stay. -/
theorem GraphSession.Follows.setPins (h : s.Follows base V) (gate : ReadGate) (pins : PinRegistry)
    {snaps' : List Snapshot} {g : DynamicGraph}
    (eq : g = { s.graph with arena := { s.graph.arena with gate := gate, pins := pins } })
    (inOrder : PinsInOrder (s.stage.withGraph g, snaps'))
    (among : ∀ S ∈ s.graph.latest :: snaps', S ∈ s.graph.latest :: s.snaps) :
    (GraphSession.mk (s.stage.withGraph g) snaps').Follows base V := by
  subst eq
  have shown : ∀ {g : DynamicGraph} {snaps : List Snapshot} {T : Nat → Adj},
      Books g snaps V T → (∀ S ∈ g.latest :: snaps', S ∈ g.latest :: snaps) →
        Books { g with arena := { g.arena with gate := gate, pins := pins } } snaps' V T :=
    fun books among => { books with
      shown := fun S hS => by
        obtain ⟨U, shows⟩ := books.shown S (among S hS)
        exact ⟨U, { shows with written := fun v => (shows.written v).setPins gate pins }⟩ }
  obtain ⟨stage, snaps⟩ := s
  cases stage with
  | idle g =>
      have h : IdleBooks base g snaps V := h
      obtain ⟨T, forest, books⟩ := h.trees
      have good : Core.Good g.numVertices ⟨g.arena, g.roots, .new, [], T⟩ :=
        ⟨forest, .empty _ _ fun _ => rfl⟩
      exact ⟨inOrder, ⟨T, (good.setPins gate pins).forest, shown books among⟩, h.unlocked, h.phase,
        h.settled, h.log⟩
  | guarded w =>
      have h : GuardBooks base w snaps V := h
      obtain ⟨T, ⟨log, good, same⟩, books⟩ := h.trees
      exact ⟨inOrder, ⟨T, ⟨log, good.setPins gate pins, same⟩, shown books among⟩, h.locked,
        h.clean, h.phase, h.pending, h.noted, h.log⟩

theorem GraphSession.Follows.inOrder (h : s.Follows base V) : PinsInOrder (s.stage, s.snaps) := by
  obtain ⟨stage, snaps⟩ := s
  cases stage with
  | idle g => exact IdleBooks.pins h
  | guarded w => exact GuardBooks.pins h

/-- One more holder of a live snapshot. -/
theorem GraphSession.Follows.pin (h : s.Follows base V) {S : Snapshot}
    (hS : S ∈ s.graph.latest :: s.snaps) :
    (GraphSession.mk (s.stage.withGraph (s.graph.pin S.epoch)) (S :: s.snaps)).Follows base V := by
  refine h.setPins s.graph.arena.gate _ rfl (h.inOrder.pin hS) fun S' hS' => ?_
  rcases List.mem_cons.mp hS' with rfl | hS'
  · exact List.mem_cons_self
  · exact (List.mem_cons.mp hS').elim (fun same => same ▸ hS) (List.mem_cons_of_mem _)

theorem GraphSession.Follows.acquire (h : s.Follows base V)
    (done : s.step .acquire = some (answer, s')) :
    ∃ V', Explains V .acquire answer V' ∧ s'.Follows base V' := by
  obtain ⟨rfl, rfl⟩ := Prod.mk.inj (Option.some.inj done)
  obtain ⟨T, -, books⟩ := h.trees
  have early := h.inOrder.holds.epoch_le _ List.mem_cons_self
  rw [show s.stage.graph.epoch = V.now from books.now] at early
  exact ⟨V, .acquired early books.latest, h.pin List.mem_cons_self⟩

theorem GraphSession.Follows.clone (h : s.Follows base V) {i : Nat}
    (done : s.step (.clone i) = some (answer, s')) :
    ∃ V', Explains V (.clone i) answer V' ∧ s'.Follows base V' := by
  obtain ⟨S, own, same⟩ := Option.map_eq_some_iff.mp done
  obtain ⟨rfl, rfl⟩ := Prod.mk.inj same
  exact ⟨V, .cloned, h.pin (List.mem_cons_of_mem _ (List.mem_of_getElem? own))⟩

theorem GraphSession.Follows.release (h : s.Follows base V) {i : Nat}
    (done : s.step (.release i) = some (answer, s')) :
    ∃ V', Explains V (.release i) answer V' ∧ s'.Follows base V' := by
  obtain ⟨S, own, done⟩ := Option.bind_eq_some_iff.mp done
  obtain ⟨g, released, same⟩ := Option.map_eq_some_iff.mp done
  obtain ⟨rfl, rfl⟩ := Prod.mk.inj same
  obtain ⟨inside, at_⟩ := List.getElem?_eq_some_iff.mp own
  have whole : s.snaps = s.snaps.take i ++ S :: s.snaps.drop (i + 1) := by
    rw [← at_, ← List.drop_eq_getElem_cons inside, List.take_append_drop]
  have left : s.snaps.eraseIdx i = s.snaps.take i ++ s.snaps.drop (i + 1) :=
    List.eraseIdx_eq_take_drop_succ ..
  have inOrder := h.inOrder
  rw [whole] at inOrder
  have next := inOrder.step (.dropSnapshot released)
  obtain ⟨pins, -, rfl⟩ := Option.map_eq_some_iff.mp released
  rw [← left] at next
  refine ⟨V, .released, h.setPins s.graph.arena.gate _ rfl next fun S' hS' => ?_⟩
  rcases List.mem_cons.mp hS' with rfl | hS'
  · exact List.mem_cons_self
  · exact List.mem_cons_of_mem _ (List.eraseIdx_subset hS')

theorem GraphSession.Follows.gate (h : s.Follows base V) {gate : ReadGate}
    (done : s.step (.gate gate) = some (answer, s')) :
    ∃ V', Explains V (.gate gate) answer V' ∧ s'.Follows base V' := by
  obtain ⟨rfl, rfl⟩ := Prod.mk.inj (Option.some.inj done)
  exact ⟨V, .gated, h.setPins gate s.graph.arena.pins rfl (h.inOrder.step (.gate gate))
    fun S hS => hS⟩

theorem GraphSession.Follows.advance (h : s.Follows base V) {d : Nat}
    (done : s.step (.advance d) = some (answer, s')) :
    ∃ V', Explains V (.advance d) answer V' ∧ s'.Follows base V' := by
  obtain ⟨rfl, rfl⟩ := Prod.mk.inj (Option.some.inj done)
  refine ⟨_, .advanced, ?_⟩
  have inOrder := h.inOrder.step (.advance d)
  obtain ⟨stage, snaps⟩ := s
  cases stage with
  | idle g =>
      have h : IdleBooks base g snaps V := h
      obtain ⟨T, forest, books⟩ := h.trees
      exact ⟨inOrder, ⟨T, forest, { books with
        now := congrArg (· + d) books.now
        dated := books.dated.advance d }⟩, h.unlocked, h.phase, h.settled,
        h.log.congr rfl rfl id⟩
  | guarded w =>
      have h : GuardBooks base w snaps V := h
      obtain ⟨T, sound, books⟩ := h.trees
      exact ⟨inOrder, ⟨T, sound, { books with
        now := congrArg (· + d) books.now
        dated := books.dated.advance d }⟩, h.locked, h.clean, h.phase, h.pending, h.noted,
        h.log.congr rfl rfl id⟩

/-- The registry counts every holder once. -/
theorem PinRegistry.Tracks.pinCount {r : PinRegistry} {held : List Nat} (h : r.Tracks held) :
    r.pinCount = held.length := by
  obtain ⟨epochs, sorted, mem, pins⟩ := h.pins
  have same : epochs.Perm held.dedup := (List.perm_ext_iff_of_nodup (sorted.imp Nat.ne_of_lt)
    (List.nodup_dedup held)).mpr fun e => (mem e).trans List.mem_dedup.symm
  rw [PinRegistry.pinCount, pins, List.map_map]
  exact ((same.map _).sum_nat).trans (List.sum_map_count_dedup_eq_length held)

theorem DynamicGraph.Compacted.rootOf {g g' : DynamicGraph} {T' : Nat → Adj}
    (h : Compacted g T g' T') (v : Nat) : g'.latest.rootOf v = g'.roots.getD v null := by
  obtain ⟨arena, roots, latest, same⟩ := h.rest
  have vertices : g'.numVertices = g.numVertices := by rw [same]
  rw [h.latest, Snapshot.rootOf]
  dsimp only
  split
  · rename_i outside
    rw [List.getD_eq_default _ _ (h.forest.length_eq.le.trans (vertices.le.trans outside))]
  · rename_i inside
    refine RootTable.get_fromRoots _ ?_
    rw [h.forest.length_eq, vertices]
    exact Nat.lt_of_not_le inside

theorem DynamicGraph.Compacted.idlePins {g g' : DynamicGraph} {T' : Nat → Adj}
    (h : Compacted g T g' T') : IdlePins g' [] := by
  obtain ⟨arena, roots, latest, same⟩ := h.rest
  have vertices : g'.numVertices = g.numVertices := by rw [same]
  have epoch : g'.epoch = g.epoch := by rw [same]
  have held : ∀ v k i, g'.arena.Reach (g'.roots.getD v null) k i → g'.arena.Held k i :=
    fun v k i reach => by
      rw [h.forest.root_eq, (h.forest.live v).reach_iff] at reach
      exact (h.forest.live v).held k i reach
  refine ⟨⟨h.forest.ok, h.forest.length_eq, ?_, held, fun S hS v k i reach => ?_, fun S hS => ?_,
    ?_, fun v hv => ?_⟩, fun _ => h.rootOf⟩
  · rw [h.pins, h.latest]
    exact PinRegistry.tracks_new.register g.epoch
  · obtain rfl := List.mem_singleton.mp hS
    rw [h.rootOf] at reach
    exact (held v k i reach).shields _
  · rw [List.mem_singleton.mp hS, h.latest, epoch]
  · rw [h.latest, vertices]
  · rw [h.latest]
    dsimp only
    rw [RootTable.fromRoots, RootTable.top_length_withLeaves, h.forest.length_eq]
    exact RootTable.top_length_empty hv

theorem IdleBooks.compact {g g' : DynamicGraph} (h : IdleBooks base g snaps V)
    {newCapacity available : Nat} {order : WriteOrder}
    (done : g.compactWithCapacity newCapacity available order.run = some (.ok g')) :
    V.phase = .idle ∧ IdleBooks base g' snaps V := by
  obtain ⟨T, forest, books⟩ := h.trees
  obtain ⟨clean, single, T', compacted⟩ :=
    DynamicGraph.compactWithCapacity_ok forest order.perm done
  have alone : snaps = [] := by
    rw [h.pins.tracks.pinCount, List.length_map, List.length_cons] at single
    exact List.eq_nil_of_length_eq_zero (by omega)
  subst alone
  obtain ⟨arena, roots, latest, same⟩ := compacted.rest
  have settled := h.settled clean
  have visible : V.visible = V.committed := by rw [Versions.visible, settled, List.append_nil]
  have all : V.asOf g.epoch = V.committed :=
    Versions.asOf_eq_committed books.dated books.now.ge
  have mem : ∀ v x, x ∈ (T' v).elems ↔ (v, x) ∈ V.visible := fun v x => by
    rw [compacted.elems]
    exact books.mem_elems v x
  have phase : V.phase = .idle := h.phase.trans (by rw [clean]; rfl)
  refine ⟨phase, compacted.idlePins, ⟨T', compacted.forest, ?_⟩, by rw [same]; exact h.unlocked,
    ?_, fun _ => settled, by rw [same]; exact h.log⟩
  · refine ⟨by rw [same]; exact books.now, books.dated, books.distinct,
      by rw [same]; exact books.inside, mem, fun S hS => ?_, ?_, by rw [same]; exact books.numEdges⟩
    · obtain rfl := List.mem_singleton.mp hS
      refine ⟨T', fun v => ?_, fun v => (compacted.forest.live v).written, fun v x => ?_, ?_, ?_,
        ?_⟩
      · rw [compacted.rootOf, compacted.forest.root_eq]
      · rw [compacted.latest, all, ← visible]
        exact mem v x
      · rw [compacted.latest, all]
        exact books.numEdges
      · rw [compacted.latest, all, ← visible]
        exact books.distinct
      · rw [compacted.latest, all, ← visible]
        exact books.inside
    · rw [compacted.latest]
      exact all
  · rw [same]
    exact h.phase

theorem GraphSession.Follows.compact (h : s.Follows base V) {newCapacity available : Nat}
    {order : WriteOrder}
    (done : s.step (.compact newCapacity available order) = some (answer, s')) :
    ∃ V', Explains V (.compact newCapacity available order) answer V' ∧ s'.Follows base V' := by
  obtain ⟨stage, snaps⟩ := s
  cases stage with
  | guarded w => cases done
  | idle g =>
      have h : IdleBooks base g snaps V := h
      obtain ⟨r, ran, same⟩ := Option.map_eq_some_iff.mp done
      cases r with
      | ok g' =>
          obtain ⟨rfl, rfl⟩ := Prod.mk.inj same
          obtain ⟨phase, books⟩ := h.compact ran
          exact ⟨V, .compacted phase, books⟩
      | error e =>
          obtain ⟨rfl, rfl⟩ := Prod.mk.inj same
          refine ⟨V, .refusedCompact ?_, h⟩
          rw [h.phase, g.compactWithCapacity_error ran]
          cases g.poisoned <;> simp

/-- Every act of a session is explained by a step of the ledger. -/
theorem GraphSession.Follows.step (h : s.Follows base V) (fresh : s.stale act = false)
    (done : s.step act = some (answer, s')) :
    ∃ V', Explains V act answer V' ∧ s'.Follows base V' := by
  cases act with
  | openGuard => exact h.openGuard done
  | insertEdge src dst =>
      obtain ⟨stage, snaps⟩ := s
      cases stage with
      | idle g => cases done
      | guarded w => exact GuardBooks.insertEdge h done
  | insertEdges edges =>
      obtain ⟨stage, snaps⟩ := s
      cases stage with
      | idle g => cases done
      | guarded w => exact GuardBooks.insertEdges h fresh done
  | insertEdgesSorted src dsts =>
      obtain ⟨stage, snaps⟩ := s
      cases stage with
      | idle g => cases done
      | guarded w =>
          simp only [GraphSession.step] at done
          split at done
          · rename_i sorted
            exact GuardBooks.insertEdgesSorted h sorted fresh done
          · cases done
  | dropGuard panicking =>
      obtain ⟨stage, snaps⟩ := s
      cases stage with
      | idle g => cases done
      | guarded w =>
          obtain ⟨g, ended, same⟩ := Option.map_eq_some_iff.mp done
          obtain ⟨rfl, rfl⟩ := Prod.mk.inj same
          exact GuardBooks.drop h ended
  | acquire => exact h.acquire done
  | clone i => exact h.clone done
  | release i => exact h.release done
  | compact newCapacity available order => exact h.compact done
  | advance d => exact h.advance done
  | gate gate => exact h.gate done

theorem GraphSession.Follows.run {acts : List Act} {answers : List Answer} (h : s.Follows base V)
    (fresh : s.fresh acts = true) (done : s.run acts = some (answers, s')) :
    ∃ V', Explained V (acts.zip answers) V' ∧ s'.Follows base V' := by
  induction acts generalizing s V answers with
  | nil =>
      obtain ⟨rfl, rfl⟩ := Prod.mk.inj (Option.some.inj done)
      exact ⟨V, .nil, h⟩
  | cons act acts ih =>
      obtain ⟨⟨answer, s₁⟩, first, done⟩ := Option.bind_eq_some_iff.mp done
      obtain ⟨⟨rest, s₂⟩, later, same⟩ := Option.map_eq_some_iff.mp done
      obtain ⟨rfl, rfl⟩ := Prod.mk.inj same
      simp only [GraphSession.fresh, first, Option.map_some, Option.getD_some, Bool.and_eq_true,
        Bool.not_eq_true'] at fresh
      obtain ⟨V₁, explains, follows⟩ := h.step fresh.1 first
      obtain ⟨V', explained, last⟩ := ih follows fresh.2 later
      exact ⟨V', .cons explains explained, last⟩

end Steps

end AetherGraph
