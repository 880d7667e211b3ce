import AetherGraph.SessionRuns

/-! A graph opened on a log, and its lives: what was committed before a crash is there after the
next open, and nothing that was never shown. -/

namespace AetherGraph

open Foundation

/-- One record of the log through the guard; `none` is a panic. -/
def Writer.replay (w : Writer) (numVertices : Nat) (rec : EdgeRecord) :
    Except (Option WalError) Stage :=
  match w.insertEdge rec.src rec.dst with
  | .panic _ | .done (.error .walAppend) _ => .error none
  | .done (.ok _) w => .ok (.guarded w)
  | .done (.error (.vertexOutOfRange src dst)) _ =>
      .error (some (.recordOutOfRange src dst numVertices))
  | .done (.error .arenaFull) _ => .error (some .replayArenaFull)

/-- The first record opens the guard. -/
def replayEdge (numVertices : Nat) (stage : Stage) (rec : EdgeRecord) :
    Except (Option WalError) Stage :=
  match stage with
  | .guarded w => w.replay numVertices rec
  | .idle g =>
      match g.writer with
      | .error _ => .error none
      | .ok w => w.replay numVertices rec

/-- The guard of a replay, if there was one, is dropped. -/
def Stage.close : Stage → Option DynamicGraph
  | .idle g => some g
  | .guarded w => w.drop false

def DynamicGraph.openWithWalAndEpoch (crc : List Nat → UInt32) (file : LogFile)
    (numVertices arenaBytes epoch : Nat) : Option (Except WalError DynamicGraph) :=
  (newWithEpoch numVertices arenaBytes epoch).bind fun g =>
    match openReplaying crc some (replayEdge numVertices) file (.idle g) with
    | .error e => e.map .error
    | .ok (stage, wal, _) => stage.close.map fun g => .ok { g with wal := some wal }

section Replay

variable {w : Writer} {V : Ledger} {n : Nat}

theorem Writer.insertEdge_inside {src dst : Nat} (hs : src < w.graph.numVertices)
    (hd : dst < w.graph.numVertices) {e : InsertError} {w' : Writer}
    (done : w.insertEdge src dst = .done (.error e) w') : e = .arenaFull ∨ e = .walAppend := by
  have inner : ∀ {w w' : Writer}, w.insertEdgeInner src dst = .done (.error e) w' →
      e = .arenaFull ∨ e = .walAppend := fun {w w'} done => by
    unfold insertEdgeInner at done
    split at done
    · cases done
    · split at done <;> cases done
      exact .inr rfl
    · cases done
    · cases done
      exact .inl rfl
  unfold insertEdge at done
  rw [if_neg (by omega)] at done
  split at done
  · cases done
    exact .inr rfl
  · split at done
    · exact inner done
    · exact inner done

/-- Records of new edges join the batch of the guard. -/
theorem replayEdge_guarded (h : GuardBooks none w [] V) (up : w.walFailed = false)
    (wal : w.graph.wal = none) {edges : List (Nat × Nat)}
    (nodup : (V.visible ++ edges).Nodup)
    (inside : ∀ e ∈ edges, e.1 < w.graph.numVertices ∧ e.2 < w.graph.numVertices) :
    match (recordsOf edges).foldlM (replayEdge n) (.guarded w) with
    | .error e => ∀ e' ∈ e, e' = .replayArenaFull
    | .ok stage => ∃ w', stage = .guarded w' ∧ GuardBooks none w' [] (V.add edges) ∧
        w'.walFailed = false ∧ w'.graph.wal = none ∧
          w'.graph.numVertices = w.graph.numVertices := by
  induction edges generalizing w V with
  | nil => exact ⟨w, rfl, V.add_nil.symm ▸ h, up, wal, rfl⟩
  | cons e edges ih =>
      obtain ⟨T, sound, books⟩ := h.trees
      obtain ⟨hs, hd⟩ := inside e List.mem_cons_self
      have new : e ∉ V.visible := fun old =>
        (List.nodup_append.mp nodup).2.2 e old e List.mem_cons_self rfl
      have outcome := Writer.insertEdge_outcome sound e.1 e.2
      rw [recordsOf, List.map_cons, List.foldlM_cons, replayEdge, Writer.replay]
      dsimp only
      cases call : w.insertEdge e.1 e.2 with
      | panic w' => rintro _ ⟨⟩
      | done r w' =>
          rw [call] at outcome
          obtain ⟨T', added, effect, post, kept⟩ := outcome
          cases r with
          | error failed =>
              rcases Writer.insertEdge_inside hs hd call with rfl | rfl
              · exact fun e' he => (Option.some.inj he).symm
              · rintro _ ⟨⟩
          | ok fresh =>
              cases fresh with
              | false => exact absurd ((books.mem_elems _ _).mp post.2) new
              | true =>
                  obtain rfl : added = [e] := post
                  have rest := ih (h.took sound books up effect)
                    ((kept (by rintro ⟨⟩)).trans up) (WalAppended.none_left (wal ▸ effect.wal))
                    (by rwa [V.visible_add, List.append_assoc]) fun e' he => by
                      rw [effect.frame.numVertices]
                      exact inside e' (List.mem_cons_of_mem _ he)
                  rw [Versions.add_add, effect.frame.numVertices] at rest
                  exact rest

end Replay

section Opening

variable {crc : List Nat → UInt32} {n : Nat} {disk : List Nat} {V : Ledger}

theorem recordsOf_inRange {edges : List (Nat × Nat)} (small : n ≤ DynamicGraph.u32Max)
    (inside : ∀ e ∈ edges, e.1 < n ∧ e.2 < n) : ∀ r ∈ recordsOf edges, r.InRange := by
  intro r hr
  obtain ⟨e, he, rfl⟩ := List.mem_map.mp hr
  have lt : n < 2 ^ 32 := Nat.lt_of_le_of_lt small (by decide)
  exact ⟨(inside e he).1.trans lt, (inside e he).2.trans lt⟩

/-- A writer with a whole log behind its barrier is in step with a ledger of its records. -/
theorem LogOf.logged {w : WalWriter} (log : LogOf w.crc w.file.bytes (recordsOf V.visible))
    (empty : w.buf = []) (synced : w.file.bytes.length ≤ w.file.synced)
    (committed : V.committed = V.visible) :
    Logged (w.file.bytes.take headerLen) w.crc w V := by
  have split : w.file.bytes.take headerLen ++ encodeRecords w.crc (recordsOf V.visible) =
      w.file.bytes := by rw [← log.records, List.take_append_drop]
  have head : LogOf w.crc (w.file.bytes.take headerLen ++ encodeRecords w.crc []) [] :=
    .of_header log.long log.magic_eq log.version_eq nofun
  rw [encodeRecords, List.flatMap_nil, List.append_nil] at head
  refine ⟨head, rfl, split.symm ▸ List.prefix_rfl, ?_, fun _ => ⟨?_, rfl, List.take_prefix _ _,
    fun _ => empty, fun _ => .inr synced⟩⟩
  · rw [log.length_eq, recordsOf, List.length_map] at synced
    rwa [committed]
  · rw [WalWriter.content, empty, List.append_nil, split]

/-- A graph takes its log on. -/
theorem IdleBooks.attach {base : Option LogBase} {g : DynamicGraph} {snaps : List Snapshot}
    (h : IdleBooks none g snaps V) {wal : Option WalWriter}
    (log : LogBooks base g.numVertices wal V) : IdleBooks base { g with wal := wal } snaps V := by
  obtain ⟨T, forest, books⟩ := h.trees
  exact ⟨{ h.pins with }, ⟨T, forest, { books with }⟩, h.unlocked, h.phase, h.settled, log⟩

/-- The guard of the replay commits what it has replayed. -/
theorem replayEdge_idle {g : DynamicGraph} {epoch : Nat} (h : IdleBooks none g [] (.start epoch))
    (clean : g.poisoned = false) (wal : g.wal = none) {edges : List (Nat × Nat)}
    (nodup : edges.Nodup) (inside : ∀ e ∈ edges, e.1 < g.numVertices ∧ e.2 < g.numVertices) :
    match (recordsOf edges).foldlM (replayEdge n) (.idle g) with
    | .error e => ∀ e' ∈ e, e' = .replayArenaFull
    | .ok stage => ∀ g', stage.close = some g' → g'.numVertices = g.numVertices ∧
        ∃ V, IdleBooks none g' [] V ∧ V.visible = edges ∧ V.committed = edges := by
  cases edges with
  | nil =>
      intro g' same
      obtain rfl := Option.some.inj same
      exact ⟨rfl, _, h, rfl, rfl⟩
  | cons e edges =>
      obtain ⟨w, opened⟩ : ∃ w, g.writer = .ok w := by
        rw [DynamicGraph.writer, clean, h.unlocked]
        exact ⟨_, rfl⟩
      obtain ⟨-, guard⟩ := h.openGuard opened
      have same := (DynamicGraph.writer_ok opened).2.2
      have run := replayEdge_guarded (n := n) guard (by rw [same]) (by rw [same]; exact wal) nodup
        (by rw [same]; exact inside)
      have first : replayEdge n (.idle g) ⟨e.1, e.2⟩ = replayEdge n (.guarded w) ⟨e.1, e.2⟩ := by
        simp only [replayEdge, opened]
      rw [recordsOf, List.map_cons, List.foldlM_cons] at run ⊢
      rw [first]
      generalize (replayEdge n (.guarded w) _ >>= _) = result at run ⊢
      cases result with
      | error e => exact run
      | ok stage =>
          obtain ⟨w', rfl, guard', up, wal, vertices⟩ := run
          rw [same] at vertices
          intro g' ended
          obtain ⟨V', explains, idle⟩ := guard'.drop ended
          rcases Writer.drop_some ended with ⟨-, -, -, committed⟩ | ⟨failed, -⟩
          · have poisoned := committed.poisoned.trans guard'.clean
            rw [poisoned] at explains
            generalize g'.epoch = later at explains
            cases explains with
            | insert _ allows => cases allows
            | committed =>
                have whole :=
                  Versions.committed_commit ((Versions.start epoch).begin.add (e :: edges))
                exact ⟨committed.numVertices.trans vertices, _, idle,
                  (List.append_nil _).trans whole, whole⟩
          · rw [up, wal] at failed
            simp [syncLog] at failed

/-- An open of what a crash has left: only the arena can refuse it. -/
theorem openWithWal_left {edges : List (Nat × Nat)} (left : Left crc disk (recordsOf edges))
    (nodup : edges.Nodup) (inside : ∀ e ∈ edges, e.1 < n ∧ e.2 < n) (arenaBytes epoch : Nat)
    (writes : List WriteResult) (syncs : List Bool) :
    match DynamicGraph.openWithWalAndEpoch crc ⟨disk, disk.length, writes, syncs⟩ n arenaBytes
      epoch with
    | none => True
    | some (.error e) => e = .replayArenaFull
    | some (.ok g) => ∃ start V, V.visible = edges ∧ V.committed = edges ∧
        (GraphSession.start g).Follows (some ⟨start, crc, n⟩) V := by
  unfold DynamicGraph.openWithWalAndEpoch
  cases new : DynamicGraph.newWithEpoch n arenaBytes epoch with
  | none => trivial
  | some g =>
      have start := GraphSession.follows_new new none
      unfold DynamicGraph.newWithEpoch at new
      split at new
      · cases new
      obtain ⟨a, -, rfl⟩ := Option.map_eq_some_iff.mp new
      have run := replayEdge_idle (n := n) start rfl rfl nodup inside
      rw [Option.bind_some, left.recovers.opens]
      generalize (recordsOf edges).foldlM (replayEdge n) (.idle _) = result at run ⊢
      cases result with
      | error e =>
          cases e with
          | none => trivial
          | some e => exact run e rfl
      | ok stage =>
          dsimp only [Except.map]
          cases closed : stage.close with
          | none => trivial
          | some g =>
              obtain ⟨vertices, V, idle, visible, committed⟩ := run g closed
              have log := left.log writes syncs
              rw [← visible] at log
              let wal := recovered crc disk (recordsOf V.visible) writes syncs
              refine ⟨wal.file.bytes.take headerLen, V, visible, committed,
                idle.attach fun b hb => ?_⟩
              obtain rfl := Option.some.inj hb
              rw [← visible]
              exact ⟨vertices, _, rfl,
                log.logged rfl log.length_eq.le (committed.trans visible.symm)⟩

end Opening

section Lives

variable {crc : List Nat → UInt32} {n : Nat} {disk : List Nat}

/-- What a crash leaves of a graph's log: every committed edge, and of the others the first. -/
theorem GraphSession.Follows.crash {s : GraphSession} {start : List Nat}
    {V : Ledger} (h : s.Follows (some ⟨start, crc, n⟩) V) {w : WalWriter}
    (own : s.graph.wal = some w) (crash : Crash w disk) :
    ∃ edges, edges.Nodup ∧ (∀ e ∈ edges, e.1 < n ∧ e.2 < n) ∧ V.committed <+: edges ∧
      edges <+: V.visible ∧ Left crc disk (recordsOf edges) := by
  obtain ⟨T, forest, books⟩ := h.trees
  obtain ⟨rfl, w', same, logged⟩ := h.log _ rfl
  obtain rfl := Option.some.inj (own.symm.trans same)
  have inside : ∀ e ∈ V.visible, e.1 < s.graph.numVertices ∧ e.2 < s.graph.numVertices :=
    fun e he => ⟨books.inside e he, forest.keys e.1 e.2 ((books.mem_elems _ _).mpr he)⟩
  have durable := logged.durable.trans crash.2
  have whole := logged.head.append (recordsOf_inRange forest.small inside)
  obtain ⟨front, torn, split, short, log⟩ :=
    whole.of_prefix (crash.1.trans logged.holds) (by omega)
  rw [List.nil_append, recordsOf, ← List.map_take, ← recordsOf] at log
  have shown := List.take_prefix ((disk.length - headerLen) / recordLen) V.visible
  refine ⟨_, books.distinct.sublist shown.sublist, fun e he => inside e (shown.subset he),
    List.prefix_take_iff.mpr ⟨List.prefix_append _ _, ?_⟩, shown,
    .inr ⟨front, torn, split, short, log⟩⟩
  exact (Nat.le_div_iff_mul_le (by decide)).mpr (by omega)

/-- The log `disk` opens as the graph `g`. -/
def Opened (crc : List Nat → UInt32) (n : Nat) (disk : List Nat) (g : DynamicGraph) : Prop :=
  ∃ arenaBytes epoch writes syncs, DynamicGraph.openWithWalAndEpoch crc
    ⟨disk, disk.length, writes, syncs⟩ n arenaBytes epoch = some (.ok g)

/-- A state in the life of a graph opened on the log `disk`. -/
def Life (crc : List Nat → UInt32) (n : Nat) (disk : List Nat) (s : GraphSession) : Prop :=
  ∃ g, Opened crc n disk g ∧ (GraphSession.start g).Runs s

/-- What the lives of a log have left on the disk, with the edges once committed and those shown
last.  A life ends in a crash at any point. -/
inductive Lived (crc : List Nat → UInt32) (n : Nat) :
    List Nat → (Nat × Nat → Prop) → (Nat × Nat → Prop) → Prop where
  | blank {disk : List Nat} : disk.length < headerLen →
      Lived crc n disk (fun _ => False) fun _ => False
  | life {disk durable shown s w disk'} : Lived crc n disk durable shown → Life crc n disk s →
      s.graph.wal = some w → Crash w disk' →
      Lived crc n disk' (fun e => durable e ∨ s.graph.latest.hasEdge s.graph e.1 e.2 = some true)
        fun e => s.graph.hasEdge e.1 e.2 = some true

variable {durable shown : Nat × Nat → Prop}

theorem Serves.latest_hasEdge {s : GraphSession} {V : Ledger} (h : Serves s V)
    (v x : Nat) :
    s.graph.latest.hasEdge s.graph v x = some (decide ((v, x) ∈ V.committed)) :=
  h.latest ▸ (h.snapshots _ List.mem_cons_self).hasEdge v x

/-- A life on what a crash has left: the ledger starts from the edges of the log. -/
theorem Life.follows {s : GraphSession} (h : Life crc n disk s) {edges : List (Nat × Nat)}
    (left : Left crc disk (recordsOf edges)) (nodup : edges.Nodup)
    (inside : ∀ e ∈ edges, e.1 < n ∧ e.2 < n) :
    ∃ start V, edges ⊆ V.committed ∧ s.Follows (some ⟨start, crc, n⟩) V := by
  obtain ⟨g, ⟨arenaBytes, epoch, writes, syncs, opened⟩, runs⟩ := h
  have first := openWithWal_left left nodup inside arenaBytes epoch writes syncs
  rw [opened] at first
  obtain ⟨start, V, -, rfl, follows⟩ := first
  obtain ⟨V', later, follows'⟩ := follows.runs runs
  obtain ⟨T, -, books⟩ := follows.trees
  exact ⟨start, V', later.committed_subset books.dated, follows'⟩

theorem Lived.left (h : Lived crc n disk durable shown) :
    ∃ edges, edges.Nodup ∧ (∀ e ∈ edges, e.1 < n ∧ e.2 < n) ∧ (∀ e, durable e → e ∈ edges) ∧
      (∀ e ∈ edges, shown e) ∧ Left crc disk (recordsOf edges) := by
  induction h with
  | blank short => exact ⟨[], List.nodup_nil, nofun, nofun, nofun, .inl ⟨short, rfl⟩⟩
  | life _ life own crash ih =>
      obtain ⟨edges, nodup, inside, kept, -, left⟩ := ih
      obtain ⟨start, V, committed, follows⟩ := life.follows left nodup inside
      obtain ⟨edges', nodup', inside', old, new, left'⟩ := follows.crash own crash
      have serves := follows.serves
      refine ⟨edges', nodup', inside', fun e he => old.subset ?_, fun e he => ?_, left'⟩
      · rcases he with he | he
        · exact committed (kept e he)
        · rw [serves.latest_hasEdge] at he
          exact of_decide_eq_true (Option.some.inj he)
      · exact (serves.live _ _).trans (congrArg some (decide_eq_true (new.subset he)))

/-- However many lives and crashes: an open fails only for want of arena, and a graph that is
opened has every edge ever committed, all of them behind its first snapshot, and none that the
life before did not show. -/
theorem reopened_graph_keeps_commits (crc : List Nat → UInt32) (n : Nat) (disk : List Nat)
    (durable shown : Nat × Nat → Prop) (lived : Lived crc n disk durable shown)
    (arenaBytes epoch : Nat) (writes : List WriteResult) (syncs : List Bool) :
    (∀ e, DynamicGraph.openWithWalAndEpoch crc ⟨disk, disk.length, writes, syncs⟩ n arenaBytes
      epoch = some (.error e) → e = .replayArenaFull) ∧
    ∀ g, DynamicGraph.openWithWalAndEpoch crc ⟨disk, disk.length, writes, syncs⟩ n arenaBytes
      epoch = some (.ok g) →
        (∀ v x, durable (v, x) → g.hasEdge v x = some true) ∧
        (∀ v x, g.hasEdge v x = some true → shown (v, x)) ∧
        ∀ v x, g.latest.hasEdge g v x = g.hasEdge v x := by
  obtain ⟨edges, nodup, inside, kept, few, left⟩ := lived.left
  have start := openWithWal_left left nodup inside arenaBytes epoch writes syncs
  refine ⟨fun e failed => by rwa [failed] at start, fun g opened => ?_⟩
  rw [opened] at start
  obtain ⟨first, V, visible, committed, follows⟩ := start
  have serves := follows.serves
  have live : ∀ v x, g.hasEdge v x = some (decide ((v, x) ∈ edges)) :=
    fun v x => visible ▸ serves.live v x
  refine ⟨fun v x he => ?_, fun v x he => ?_, fun v x => ?_⟩
  · rw [live, decide_eq_true (kept _ he)]
  · rw [live] at he
    exact few _ (of_decide_eq_true (Option.some.inj he))
  · exact (serves.latest_hasEdge v x).trans (committed ▸ (live v x).symm)

/-- One commit, and a second guard that the crash finds with its edge staged. -/
def crashedActs : List Act :=
  [.openGuard, .insertEdges [(2, 1), (0, 3), (0, 1)], .dropGuard false, .openGuard,
    .insertEdge 1 2]

theorem crashedActs_run :
    (DynamicGraph.openWithWalAndEpoch crc32Hash ⟨[], 0, [], []⟩ 4 1024 7).bind (fun r =>
      r.toOption.bind fun g => ((GraphSession.start g).run crashedActs).bind fun out =>
        out.2.graph.wal.bind fun w => (DynamicGraph.openWithWalAndEpoch crc32Hash
          ⟨w.file.bytes, w.file.bytes.length, [], []⟩ 4 2048 9).map fun again =>
            (GraphSession.start g).fresh crashedActs &&
              decide (w.file.synced ≤ w.file.bytes.length) &&
                out.2.graph.latest.hasEdge out.2.graph 0 3 == some true && again.isOk) =
      some true := by decide +kernel

theorem crashedActs_life : ∃ s w g, Life crc32Hash 4 [] s ∧ s.graph.wal = some w ∧
    Crash w w.file.bytes ∧ s.graph.latest.hasEdge s.graph 0 3 = some true ∧
    DynamicGraph.openWithWalAndEpoch crc32Hash ⟨w.file.bytes, w.file.bytes.length, [], []⟩ 4 2048
      9 = some (.ok g) := by
  obtain ⟨r, opened, ran⟩ := Option.bind_eq_some_iff.mp crashedActs_run
  obtain ⟨g, own, ran⟩ := Option.bind_eq_some_iff.mp ran
  obtain ⟨⟨answers, s⟩, ran, logged⟩ := Option.bind_eq_some_iff.mp ran
  obtain ⟨w, wal, again⟩ := Option.bind_eq_some_iff.mp logged
  obtain ⟨r', again, checked⟩ := Option.map_eq_some_iff.mp again
  simp only [Bool.and_eq_true, decide_eq_true_iff, beq_iff_eq] at checked
  obtain ⟨⟨⟨fresh, synced⟩, edge⟩, ok⟩ := checked
  cases r with
  | error e => cases own
  | ok g₀ =>
      obtain rfl := Option.some.inj own
      cases r' with
      | error e => cases ok
      | ok g' =>
          exact ⟨s, w, g', ⟨g₀, ⟨_, _, _, _, opened⟩, _, answers, fresh, ran⟩, wal,
            ⟨List.prefix_rfl, synced⟩, edge, again⟩

theorem reopened_graph_keeps_commits_crashedActs : ∃ disk g,
    DynamicGraph.openWithWalAndEpoch crc32Hash ⟨disk, disk.length, [], []⟩ 4 2048 9 =
      some (.ok g) ∧ g.hasEdge 0 3 = some true := by
  obtain ⟨s, w, g, life, own, crash, edge, again⟩ := crashedActs_life
  have blank : Lived crc32Hash 4 [] (fun _ => False) fun _ => False := .blank (by decide)
  exact ⟨w.file.bytes, g, again, ((reopened_graph_keeps_commits crc32Hash 4 w.file.bytes _ _
    (blank.life life own crash) 2048 9 [] []).2 g again).1 0 3 (.inr edge)⟩

end Lives

end AetherGraph
