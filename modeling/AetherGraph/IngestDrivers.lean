import AetherGraph.Ingest

/-! What the drivers do with a source: the calls of their guards are a prefix of the edges pulled
from it, each guard is dropped, and the published counters are those of the calls. -/

namespace AetherGraph

open Foundation

section Trees

/-- The trees behind the roots are in order. -/
def DynamicGraph.Whole (g : DynamicGraph) : Prop :=
  ∃ T, Forest g.arena g.numVertices g.roots T

def Writer.Whole (w : Writer) : Prop := ∃ T, w.Sound T

theorem DynamicGraph.Whole.writer {g : DynamicGraph} {w : Writer} (h : g.Whole)
    (opened : g.writer = .ok w) : w.Whole := by
  obtain ⟨T, forest⟩ := h
  exact ⟨T, _, good_of_writer opened forest, fun _ => rfl⟩

namespace Writer

variable {w : Writer}

theorem Whole.graph (h : w.Whole) : w.graph.Whole := by
  obtain ⟨T, log, good, -⟩ := h
  exact ⟨T, good.forest⟩

theorem Whole.drop (h : w.Whole) {panicking : Bool} {g : DynamicGraph}
    (ended : w.drop panicking = some g) : g.Whole := by
  obtain ⟨T, sound⟩ := h
  rcases drop_some ended with ⟨-, up, -, committed⟩ | ⟨-, abandoned⟩
  · exact ⟨T, committed.forest (sound.good up)⟩
  · exact ⟨T, abandoned.forest sound⟩

theorem Sound.hasEdge {T : Nat → Adj} (h : w.Sound T) (src dst : Nat) :
    w.graph.hasEdge src dst = some (decide (dst ∈ (T src).elems)) := by
  obtain ⟨log, good, -⟩ := h
  have forest : Forest w.graph.arena w.graph.numVertices w.graph.roots T := good.forest
  rw [DynamicGraph.hasEdge, forest.treeFor src]
  exact (forest.live src).contains dst

/-- A guard whose log has failed refuses every edge. -/
theorem insertEdge_refused (down : w.walFailed = true) (src dst : Nat) :
    ∃ e, w.insertEdge src dst = .done (.error e) w := by
  unfold insertEdge
  split_ifs with outside refuses
  · exact ⟨_, rfl⟩
  · exact ⟨_, rfl⟩
  · exact absurd down refuses

/-- The answer `Ok(true)` is a new edge, and no other answer is. -/
theorem insertEdge_adds {T : Nat → Adj} (h : w.Sound T) {src dst : Nat}
    {answer : Except InsertError Bool} {w' : Writer}
    (done : w.insertEdge src dst = .done answer w') :
    ∃ T', w'.Sound T' ∧
      (answer = .ok true ↔ dst ∉ (T src).elems ∧ dst ∈ (T' src).elems) := by
  cases failed : w.walFailed with
  | true =>
      obtain ⟨e, refused⟩ := insertEdge_refused failed src dst
      obtain ⟨rfl, rfl⟩ := Call.done.inj (done.symm.trans refused)
      exact ⟨T, h, nofun, fun both => absurd both.2 both.1⟩
  | false =>
      have outcome := insertEdge_outcome h src dst
      rw [done] at outcome
      obtain ⟨T', added, effect, post, -⟩ := outcome
      refine ⟨T', effect.sound (h.good failed), ?_⟩
      have members := effect.added.mem_elems src dst
      match answer, post with
      | .ok true, post =>
          obtain rfl : added = [(src, dst)] := post
          exact iff_of_true rfl ⟨effect.added.fresh _ List.mem_cons_self,
            members.mpr (.inr List.mem_cons_self)⟩
      | .ok false, post =>
          obtain ⟨rfl, old⟩ : added = [] ∧ dst ∈ (T src).elems := post
          exact iff_of_false nofun fun both => both.1 old
      | .error e, post =>
          obtain rfl : added = [] := post
          refine iff_of_false nofun fun both => both.1 ?_
          exact (members.mp both.2).resolve_right List.not_mem_nil

end Writer

end Trees

section Calls

namespace EdgeCall

variable (c : EdgeCall)

/-- Not rejected as fatal. -/
def accepted : Bool :=
  match c.call with
  | .done (.ok _) _ => true
  | .done (.error (.vertexOutOfRange _ _)) _ => true
  | _ => false

/-- Answered as a new edge. -/
def inserts : Bool :=
  match c.call with
  | .done (.ok true) _ => true
  | _ => false

def panics : Bool :=
  match c.call with
  | .panic _ => true
  | .done _ _ => false

/-- The edge is in the graph after the call and was not before it. -/
def adds : Bool :=
  match c.call with
  | .panic _ => false
  | .done _ w => c.before.graph.hasEdge c.edge.1 c.edge.2 == some false &&
      w.graph.hasEdge c.edge.1 c.edge.2 == some true

variable {c}

theorem adds_eq_inserts (same : c.call = c.before.insertEdge c.edge.1 c.edge.2)
    (whole : c.before.Whole) : c.adds = c.inserts := by
  obtain ⟨T, sound⟩ := whole
  unfold adds inserts
  cases call : c.call with
  | panic w => rfl
  | done answer w =>
      obtain ⟨T', sound', new⟩ := Writer.insertEdge_adds sound (same.symm.trans call)
      dsimp only
      rw [sound.hasEdge, sound'.hasEdge]
      match answer, new with
      | .ok true, new =>
          obtain ⟨before, after⟩ := new.mp rfl
          simp [before, after]
      | .ok false, new =>
          have := mt new.mpr nofun
          simpa using fun before after => this ⟨before, after⟩
      | .error e, new =>
          have := mt new.mpr nofun
          simpa using fun before after => this ⟨before, after⟩

/-- A call that returned without being fatal did not panic. -/
theorem panics_of_accepted (calm : c.accepted = true) : c.panics = false := by
  unfold accepted at calm
  unfold panics
  split at calm
  · rename_i call
    rw [call]
  · rename_i call
    rw [call]
  · cases calm

end EdgeCall

/-- What a guard's life leaves in the journal. -/
def guardEvents (calls : List EdgeCall) : List IngestEvent :=
  .opened :: (calls.map .called ++ [.dropped])

/-- The counters of some calls; the one that panicked is only received. -/
structure Counts (stats : IngestStats) (calls : List EdgeCall) : Prop where
  received : stats.received = calls.length
  inserted : stats.inserted = calls.countP EdgeCall.inserts
  balanced : stats.received =
    stats.inserted + stats.duplicates + stats.errors + calls.countP EdgeCall.panics

/-- The counters after one more call. -/
theorem Counts.drive {counts : LocalCounts} {stats : IngestStats} {calls : List EdgeCall}
    (h : Counts (counts.flush stats) calls) {c : EdgeCall}
    (same : c.call = c.before.insertEdge c.edge.1 c.edge.2) :
    Counts ((driveEdge c.before counts c.edge.1 c.edge.2).2.1.flush stats) (calls ++ [c]) ∧
      (driveEdge c.before counts c.edge.1 c.edge.2).1 =
        if c.panics then none else some c.accepted := by
  obtain ⟨received, inserted, balanced⟩ := h
  dsimp only [LocalCounts.flush] at received inserted balanced
  obtain ⟨edge, before, call⟩ := c
  dsimp only at same
  have joined : ∀ p : EdgeCall → Bool, (calls ++ [EdgeCall.mk edge before call]).countP p =
      calls.countP p + if p ⟨edge, before, call⟩ then 1 else 0 := fun p => by
    rw [List.countP_append, List.countP_singleton]
  unfold driveEdge
  rw [← same]
  cases call with
  | panic w =>
      refine ⟨⟨?_, ?_, ?_⟩, rfl⟩
      · rw [List.length_append, ← received]
        rfl
      · rw [joined, ← inserted]
        rfl
      · rw [joined, if_pos (show EdgeCall.panics _ = true from rfl)]
        dsimp only [LocalCounts.flush]
        omega
  | done answer w =>
      refine ⟨⟨?_, ?_, ?_⟩, ?_⟩
      · rw [List.length_append, ← received]
        match answer with
        | .ok true | .ok false | .error .arenaFull | .error .walAppend
        | .error (.vertexOutOfRange _ _) => rfl
      · rw [joined, ← inserted]
        match answer with
        | .ok true | .ok false | .error .arenaFull | .error .walAppend
        | .error (.vertexOutOfRange _ _) => rfl
      · rw [joined, if_neg (show ¬ EdgeCall.panics ⟨edge, before, .done answer w⟩ = true from
        Bool.false_ne_true)]
        match answer with
        | .ok true | .ok false | .error .arenaFull | .error .walAppend
        | .error (.vertexOutOfRange _ _) =>
          dsimp only [LocalCounts.flush, LocalCounts.record]
          omega
      · match answer with
        | .ok true | .ok false | .error .arenaFull | .error .walAppend
        | .error (.vertexOutOfRange _ _) => rfl

/-- The other threads keep the trees behind the roots in order. -/
structure Orderly (around : Surroundings) (graph : DynamicGraph) : Prop where
  graph : graph.Whole
  readers : ∀ n w, Writer.Whole w → (around.readers n w).Whole
  others : ∀ n g, DynamicGraph.Whole g → (around.others n g).Whole

/-- What a driver has done by its end: its guards with their calls, and the refusal of the next
guard, if it met one. -/
structure Report (around : Surroundings) (graph : DynamicGraph) (source : List (Nat × Nat))
    (spawned : Bool) (out : Ended × Ingest) (guards : List (List EdgeCall))
    (refusals : List WriterError) : Prop where
  journal : out.2.journal = guards.flatMap guardEvents ++ refusals.map .refused
  intervals : ∀ calls ∈ guards, calls.countP EdgeCall.accepted ≤ commitIntervalEdges
  released : ∃ g, out.2.guard.stage = .idle g
  pulled : out.2.taken <+: source
  given : guards.flatten.map EdgeCall.edge <+: out.2.taken
  goesOn : ∀ c ∈ guards.flatten.dropLast, c.accepted = true
  once : refusals.length ≤ 1
  whole : out.1 ≠ .panicked → (∀ c ∈ guards.flatten, c.accepted = true) → refusals = [] →
    guards.flatten.map EdgeCall.edge = source
  answer : out.1 ≠ .panicked →
    out.1 = .returned (refusals.foldr (fun e _ => .error e) (.ok ()))
  counted : out.1 ≠ .panicked → out.2.stats.received = guards.flatten.length ∧
    out.2.stats.inserted = guards.flatten.countP EdgeCall.inserts ∧
    out.2.stats.received + (if spawned = true ∧ guards ≠ [] then refusals.length else 0) =
      out.2.stats.inserted + out.2.stats.duplicates + out.2.stats.errors
  added : out.1 ≠ .panicked → Orderly around graph →
    out.2.stats.inserted = guards.flatten.countP EdgeCall.adds

end Calls

namespace Ingest

variable (around : Surroundings) (graph : DynamicGraph) (source : List (Nat × Nat))

def total (s : Ingest) : IngestStats := s.counts.flush s.stats

/-- The calls made so far, against what is pulled and not given yet, and what is still ahead. -/
structure Accounted (s : Ingest) (calls : List EdgeCall) (rest ahead : List (Nat × Nat)) :
    Prop where
  taken : s.taken = calls.map EdgeCall.edge ++ rest
  source : s.taken ++ ahead = source
  counted : Counts s.total calls
  added : Orderly around graph → ∀ c ∈ calls, c.adds = c.inserts

/-- A driver without a guard. -/
structure Between (s : Ingest) (closed : List (List EdgeCall)) (rest ahead : List (Nat × Nat)) :
    Prop where
  guard : ∃ g, s.guard.stage = .idle g ∧
    (Orderly around graph → (∀ c ∈ closed.flatten, c.panics = false) → g.Whole)
  journal : s.journal = closed.flatMap guardEvents
  intervals : ∀ calls ∈ closed, calls.countP EdgeCall.accepted ≤ commitIntervalEdges
  accounted : Accounted around graph source s closed.flatten rest ahead

/-- A driver with a guard, and the calls on it. -/
structure Held (s : Ingest) (closed : List (List EdgeCall)) (calls : List EdgeCall)
    (rest ahead : List (Nat × Nat)) : Prop where
  guard : ∃ w, s.guard.stage = .guarded w ∧
    (Orderly around graph → (∀ c ∈ calls, c.panics = false) → w.Whole)
  edges : s.guard.edges = calls.countP EdgeCall.accepted
  journal : s.journal = closed.flatMap guardEvents ++ .opened :: calls.map .called
  intervals : ∀ calls ∈ closed, calls.countP EdgeCall.accepted ≤ commitIntervalEdges
  room : calls.countP EdgeCall.accepted ≤ commitIntervalEdges
  accounted : Accounted around graph source s (closed.flatten ++ calls) rest ahead

/-- A driver between the edges of its source, none of which was fatal. -/
def Going (s : Ingest) (rest ahead : List (Nat × Nat)) : Prop :=
  ∃ closed calls, Held around graph source s closed calls rest ahead ∧
    ∀ c ∈ closed.flatten ++ calls, c.accepted = true

/-- A driver at its end. -/
def Drove (spawned : Bool) (out : Ended × Ingest) : Prop :=
  ∃ guards refusals, Report around graph source spawned out guards refusals

variable {around graph source} {s : Ingest} {closed : List (List EdgeCall)}
variable {calls : List EdgeCall} {rest ahead : List (Nat × Nat)}

theorem Accounted.take {edges : List (Nat × Nat)}
    (h : Accounted around graph source s calls rest (edges ++ ahead)) :
    Accounted around graph source (s.take edges) calls (rest ++ edges) ahead where
  taken := by
    rw [Ingest.take, h.taken, List.append_assoc]
  source := by
    rw [Ingest.take, List.append_assoc]
    exact h.source
  counted := h.counted
  added := h.added

theorem Going.take {edges : List (Nat × Nat)}
    (h : Going around graph source s rest (edges ++ ahead)) :
    Going around graph source (s.take edges) (rest ++ edges) ahead := by
  obtain ⟨closed, calls, held, accepted⟩ := h
  exact ⟨closed, calls, { held with accounted := held.accounted.take }, accepted⟩

theorem Going.pull {edges : List (Nat × Nat)}
    (h : Going around graph source s [] (edges ++ ahead)) :
    Going around graph source (s.take edges) edges ahead := by
  rw [← List.nil_append edges]
  exact h.take

theorem Going.flush (h : Going around graph source s rest ahead) :
    Going around graph source s.flush rest ahead := by
  obtain ⟨closed, calls, held, accepted⟩ := h
  exact ⟨closed, calls, { held with accounted := { held.accounted with } }, accepted⟩

theorem Going.tick (h : Going around graph source s rest ahead) :
    Going around graph source s.tick rest ahead := by
  obtain ⟨closed, calls, held, accepted⟩ := h
  exact ⟨closed, calls, { held with accounted := { held.accounted with } }, accepted⟩

/-- The end of a guard, clean or in an unwinding. -/
theorem Held.dropGuard (h : Held around graph source s closed calls rest ahead)
    (panicking : Bool) :
    Between around graph source (s.dropGuard around panicking).2 (closed ++ [calls]) rest
      ahead := by
  obtain ⟨w, stage, whole⟩ := h.guard
  unfold Ingest.dropGuard
  rw [stage]
  dsimp only
  have all : (closed ++ [calls]).flatten = closed.flatten ++ calls := by
    rw [List.flatten_append, List.flatten_singleton]
  refine ⟨⟨_, rfl, fun orderly calm => ?_⟩, ?_, fun old mem => ?_, ?_⟩
  · rw [all] at calm
    have behind := orderly.readers s.clock w
      (whole orderly fun c mem => calm c (List.mem_append_right _ mem))
    cases ended : (around.readers s.clock w).drop panicking with
    | none => exact behind.graph
    | some g => exact behind.drop ended
  · show s.journal ++ [.dropped] = _
    rw [h.journal, List.flatMap_append, List.flatMap_singleton, guardEvents, List.append_assoc]
    rfl
  · rcases List.mem_append.mp mem with mem | mem
    · exact h.intervals old mem
    · exact List.mem_singleton.mp mem ▸ h.room
  · rw [all]
    exact { h.accounted with }

/-- A driver that ends without a refusal. -/
theorem Between.report (h : Between around graph source s closed rest ahead) {ended : Ended}
    (goesOn : ∀ c ∈ closed.flatten.dropLast, c.accepted = true)
    (clean : ended ≠ .panicked → ended = .returned (.ok ()) ∧ s.counts = .zero ∧
      (∀ c ∈ closed.flatten, c.panics = false) ∧
      ((∀ c ∈ closed.flatten, c.accepted = true) → rest ++ ahead = [])) (spawned : Bool) :
    Report around graph source spawned (ended, s) closed [] := by
  obtain ⟨g, stage, -⟩ := h.guard
  have stats : ended ≠ .panicked → s.stats = s.total := fun calm => by
    rw [total, (clean calm).2.1]
    rfl
  refine ⟨?_, h.intervals, ⟨g, stage⟩, ⟨ahead, h.accounted.source⟩, ?_, goesOn, Nat.zero_le 1,
    fun calm all _ => ?_, fun calm => (clean calm).1, fun calm => ?_, fun calm orderly => ?_⟩
  · rw [List.map_nil, List.append_nil]
    exact h.journal
  · exact ⟨rest, h.accounted.taken.symm⟩
  · obtain ⟨none_, done⟩ := List.append_eq_nil_iff.mp ((clean calm).2.2.2 all)
    have source_ := h.accounted.source
    rw [h.accounted.taken, none_, done, List.append_nil, List.append_nil] at source_
    exact source_
  · show s.stats.received = _ ∧ s.stats.inserted = _ ∧ s.stats.received + _ = _
    rw [stats calm]
    refine ⟨h.accounted.counted.received, h.accounted.counted.inserted, ?_⟩
    rw [List.length_nil, ite_self, Nat.add_zero, h.accounted.counted.balanced,
      List.countP_eq_zero.mpr fun c mem => by rw [(clean calm).2.2.1 c mem]; decide, Nat.add_zero]
  · show s.stats.inserted = _
    rw [stats calm, h.accounted.counted.inserted]
    exact List.countP_congr fun c mem => by rw [h.accounted.added orderly c mem]

/-- The next guard on the graph the others have left, or none. -/
theorem Between.reopen (h : Between around graph source s closed rest ahead)
    (accepted : ∀ c ∈ closed.flatten, c.accepted = true) :
    match s.reopen around with
    | .ok s' => Going around graph source s' rest ahead ∧ s'.guard.edges = 0
    | .error out => ∃ e, out.1 = .returned (.error e) ∧ (∃ g, out.2.guard.stage = .idle g) ∧
        out.2.journal = closed.flatMap guardEvents ++ [.refused e] ∧ out.2.taken = s.taken ∧
        out.2.stats = s.stats := by
  obtain ⟨g, stage, whole⟩ := h.guard
  unfold Ingest.reopen
  rw [stage]
  dsimp only [Stage.graph]
  cases opened : (around.others s.clock g).writer with
  | error e => exact ⟨e, rfl, ⟨_, rfl⟩, congrArg (· ++ _) h.journal, rfl, rfl⟩
  | ok w =>
      refine ⟨⟨closed, [], ⟨⟨w, rfl, fun orderly _ => ?_⟩, rfl, ?_, h.intervals, Nat.zero_le _, ?_⟩,
        ?_⟩, rfl⟩
      · exact (orderly.others s.clock g
          (whole orderly fun c mem => EdgeCall.panics_of_accepted (accepted c mem))).writer opened
      · exact congrArg (· ++ _) h.journal
      · rw [List.append_nil]
        exact { h.accounted with }
      · rwa [List.append_nil]

theorem Accounted.call {edge : Nat × Nat} {s' : Ingest}
    (h : Accounted around graph source s calls (edge :: rest) ahead) (taken : s'.taken = s.taken)
    {c : EdgeCall} (same : c.edge = edge) (counted : Counts s'.total (calls ++ [c]))
    (added : Orderly around graph → c.adds = c.inserts) :
    Accounted around graph source s' (calls ++ [c]) rest ahead where
  taken := by
    rw [taken, h.taken, List.map_append, List.append_assoc, ← same]
    rfl
  source := taken ▸ h.source
  counted := counted
  added orderly c' mem := by
    rcases List.mem_append.mp mem with mem | mem
    · exact h.added orderly c' mem
    · exact List.mem_singleton.mp mem ▸ added orderly

/-- One edge through a live guard: its call joins the guard's, whatever it answers. -/
theorem Held.insert {edge : Nat × Nat}
    (h : Held around graph source s closed calls (edge :: rest) ahead)
    (accepted : ∀ c ∈ closed.flatten ++ calls, c.accepted = true)
    (room : s.guard.edges < commitIntervalEdges) :
    ∃ c : EdgeCall,
      match s.insert around edge with
      | .error out => out.1 = .panicked ∧
          Between around graph source out.2 (closed ++ [calls ++ [c]]) rest ahead
      | .ok (ok, s') => Held around graph source s' closed (calls ++ [c]) rest ahead ∧
          c.accepted = ok ∧ c.panics = false := by
  obtain ⟨w, stage, whole⟩ := h.guard
  have behind : Orderly around graph → (around.readers s.clock w).Whole := fun orderly =>
    orderly.readers s.clock w
      (whole orderly fun c mem =>
        EdgeCall.panics_of_accepted (accepted c (List.mem_append_right _ mem)))
  have joined : ∀ (call : Call Bool) (s' : Ingest),
      (around.readers s.clock w).insertEdge edge.1 edge.2 = call →
      s'.taken = s.taken → s'.stats = s.stats →
      s'.counts = (driveEdge (around.readers s.clock w) s.counts edge.1 edge.2).2.1 →
      Accounted around graph source s'
        (closed.flatten ++ (calls ++ [⟨edge, around.readers s.clock w, call⟩])) rest ahead := by
    intro call s' same taken stats counts
    rw [← List.append_assoc]
    refine h.accounted.call taken rfl ?_ fun orderly =>
      EdgeCall.adds_eq_inserts same.symm (behind orderly)
    have counted := (h.accounted.counted.drive
      (c := ⟨edge, around.readers s.clock w, call⟩) same.symm).1
    rw [total, stats, counts]
    exact counted
  have journal : ∀ c : EdgeCall, s.journal ++ [.called c] =
      closed.flatMap guardEvents ++ .opened :: (calls ++ [c]).map .called := fun c => by
    rw [h.journal, List.map_append, List.append_assoc]
    rfl
  have tally : ∀ c : EdgeCall, (calls ++ [c]).countP EdgeCall.accepted =
      s.guard.edges + if c.accepted then 1 else 0 := fun c => by
    rw [List.countP_append, List.countP_singleton, h.edges]
  have fits : ∀ c : EdgeCall, (calls ++ [c]).countP EdgeCall.accepted ≤ commitIntervalEdges :=
    fun c => by
      rw [tally]
      split <;> omega
  unfold Ingest.insert
  rw [stage]
  dsimp only
  cases call : (around.readers s.clock w).insertEdge edge.1 edge.2 with
  | panic w' =>
      have drove : driveEdge (around.readers s.clock w) s.counts edge.1 edge.2 =
          (none, { s.counts with received := s.counts.received + 1 }, w') := by
        unfold driveEdge
        rw [call]
      have held : Held around graph source
          ⟨⟨.guarded w', s.guard.edges⟩, { s.counts with received := s.counts.received + 1 },
            s.stats, s.clock + 1, s.taken,
            s.journal ++ [.called ⟨edge, around.readers s.clock w, .panic w'⟩]⟩ closed
          (calls ++ [⟨edge, around.readers s.clock w, .panic w'⟩]) rest ahead :=
        ⟨⟨w', rfl, fun _ calm => nomatch calm _ (List.mem_append_right _ List.mem_cons_self)⟩,
          (tally ⟨edge, around.readers s.clock w, .panic w'⟩).symm, journal _, h.intervals,
          fits _, joined _ _ call rfl rfl (by rw [drove])⟩
      refine ⟨⟨edge, around.readers s.clock w, .panic w'⟩, ?_⟩
      rw [drove]
      exact ⟨rfl, held.dropGuard true⟩
  | done answer w' =>
      have drove : driveEdge (around.readers s.clock w) s.counts edge.1 edge.2 =
          (some ({ s.counts with received := s.counts.received + 1 }.record answer).1,
            ({ s.counts with received := s.counts.received + 1 }.record answer).2, w') := by
        unfold driveEdge
        rw [call]
      have accepts : EdgeCall.accepted ⟨edge, around.readers s.clock w, .done answer w'⟩ =
          ({ s.counts with received := s.counts.received + 1 }.record answer).1 := by
        match answer with
        | .ok true | .ok false | .error .arenaFull | .error .walAppend
        | .error (.vertexOutOfRange _ _) => rfl
      refine ⟨⟨edge, around.readers s.clock w, .done answer w'⟩, ?_⟩
      rw [drove]
      refine ⟨⟨⟨w', rfl, fun orderly _ => ?_⟩, ?_, journal _, h.intervals, fits _,
        joined _ _ call rfl rfl (by rw [drove]; rfl)⟩, accepts, rfl⟩
      · obtain ⟨T, sound⟩ := behind orderly
        obtain ⟨T', sound', -⟩ := Writer.insertEdge_adds sound call
        exact ⟨T', sound'⟩
      · rw [tally, accepts]
        rfl

theorem dropGuard_counts (around : Surroundings) (s : Ingest) (panicking : Bool) :
    (s.dropGuard around panicking).2.counts = s.counts := by
  unfold Ingest.dropGuard
  split <;> rfl

theorem Held.finish (h : Held around graph source s closed calls rest ahead)
    (goesOn : ∀ c ∈ (closed.flatten ++ calls).dropLast, c.accepted = true)
    (calm : ∀ c ∈ closed.flatten ++ calls, c.panics = false)
    (done : (∀ c ∈ closed.flatten ++ calls, c.accepted = true) → rest ++ ahead = [])
    (spawned : Bool) : Drove around graph source spawned (s.finish around) := by
  have flushed : Held around graph source s.flush closed calls rest ahead :=
    { h with accounted := { h.accounted with } }
  have between := flushed.dropGuard false
  have zero := dropGuard_counts around s.flush false
  have all : (closed ++ [calls]).flatten = closed.flatten ++ calls := by
    rw [List.flatten_append, List.flatten_singleton]
  unfold Ingest.finish
  rcases dropped : s.flush.dropGuard around false with ⟨ok, s'⟩
  rw [dropped] at between zero
  cases ok with
  | false =>
      exact ⟨_, [], between.report (all ▸ goesOn) (fun no => absurd rfl no) spawned⟩
  | true =>
      exact ⟨_, [], between.report (all ▸ goesOn) (fun _ => ⟨rfl, zero, all ▸ calm, all ▸ done⟩)
        spawned⟩

theorem Going.finish (going : Going around graph source s [] []) (spawned : Bool) :
    Drove around graph source spawned (s.finish around) := by
  obtain ⟨closed, calls, held, accepted⟩ := going
  exact held.finish (fun c mem => accepted c (List.dropLast_subset _ mem))
    (fun c mem => EdgeCall.panics_of_accepted (accepted c mem)) (fun _ => rfl) spawned

/-- The next edge of a driver that goes on. -/
theorem Going.insert {edge : Nat × Nat}
    (going : Going around graph source s (edge :: rest) ahead)
    (room : s.guard.edges < commitIntervalEdges) :
    match s.insert around edge with
    | .error out => ∀ spawned, Drove around graph source spawned out
    | .ok (false, s') => ∀ spawned, Drove around graph source spawned (s'.finish around)
    | .ok (true, s') => Going around graph source s' rest ahead := by
  obtain ⟨closed, calls, held, accepted⟩ := going
  obtain ⟨c, next⟩ := held.insert accepted room
  have before : (closed.flatten ++ (calls ++ [c])).dropLast = closed.flatten ++ calls := by
    rw [← List.append_assoc, List.dropLast_concat]
  cases ran : s.insert around edge with
  | error out =>
      rw [ran] at next
      obtain ⟨panicked, between⟩ := next
      obtain ⟨ended, s'⟩ := out
      obtain rfl : ended = .panicked := panicked
      refine fun spawned => ⟨_, [], between.report ?_ (fun no => absurd rfl no) spawned⟩
      rw [List.flatten_append, List.flatten_singleton, before]
      exact accepted
  | ok result =>
      obtain ⟨ok, s'⟩ := result
      rw [ran] at next
      obtain ⟨held', answer, calm⟩ := next
      have all : ∀ c' ∈ closed.flatten ++ (calls ++ [c]), c' ∈ closed.flatten ++ calls ∨ c' = c :=
        fun c' mem => by
          rw [← List.append_assoc] at mem
          exact (List.mem_append.mp mem).imp_right List.mem_singleton.mp
      cases ok with
      | false =>
          refine held'.finish (before ▸ accepted) (fun c' mem => ?_) fun every => ?_
          · rcases all c' mem with old | rfl
            · exact EdgeCall.panics_of_accepted (accepted c' old)
            · exact calm
          · rw [every c (List.mem_append_right _ List.mem_concat_self)] at answer
            cases answer
      | true =>
          refine ⟨closed, calls ++ [c], held', fun c' mem => ?_⟩
          rcases all c' mem with old | rfl
          · exact accepted c' old
          · exact answer

/-- A driver that ends with a refusal, counted as an error where it is asked to. -/
theorem Between.refused (h : Between around graph source s closed rest ahead)
    (accepted : ∀ c ∈ closed.flatten, c.accepted = true) (flushed : s.counts = .zero)
    {out : Ended × Ingest} {e : WriterError} (answer : out.1 = .returned (.error e))
    (released : ∃ g, out.2.guard.stage = .idle g)
    (journal : out.2.journal = closed.flatMap guardEvents ++ [.refused e])
    (taken : out.2.taken = s.taken) {spawned : Bool}
    (stats : out.2.stats = { s.stats with
      errors := s.stats.errors + if spawned = true ∧ closed ≠ [] then 1 else 0 }) :
    Report around graph source spawned out closed [e] := by
  have counted : Counts s.stats closed.flatten := by
    have counted := h.accounted.counted
    rw [total, flushed] at counted
    exact counted
  have calm : closed.flatten.countP EdgeCall.panics = 0 :=
    List.countP_eq_zero.mpr fun c mem => by
      rw [EdgeCall.panics_of_accepted (accepted c mem)]
      decide
  refine ⟨journal, h.intervals, released, ⟨ahead, taken ▸ h.accounted.source⟩,
    ⟨rest, taken ▸ h.accounted.taken.symm⟩, fun c mem => accepted c (List.dropLast_subset _ mem),
    Nat.le_refl 1, fun _ _ none_ => (nomatch none_), fun _ => answer, fun _ => ?_,
    fun _ orderly => ?_⟩
  · rw [stats]
    refine ⟨counted.received, counted.inserted, ?_⟩
    have balanced := counted.balanced
    rw [calm] at balanced
    dsimp only [List.length_singleton]
    omega
  · rw [stats]
    refine counted.inserted.trans (List.countP_congr fun c mem => ?_)
    rw [h.accounted.added orderly c mem]

/-- A commit between two edges: the driver goes on with an empty guard, or ends. -/
theorem Going.commit (going : Going around graph source s rest ahead)
    (flushed : s.counts = .zero) :
    match s.commit around with
    | .ok s' => Going around graph source s' rest ahead ∧ s'.guard.edges = 0
    | .error out => Drove around graph source false out ∧
        Drove around graph source true (countRefusal out) := by
  obtain ⟨closed, calls, held, accepted⟩ := going
  have between := held.dropGuard false
  have zero := (dropGuard_counts around s false).trans flushed
  have all : (closed ++ [calls]).flatten = closed.flatten ++ calls := by
    rw [List.flatten_append, List.flatten_singleton]
  unfold Ingest.commit
  rcases dropped : s.dropGuard around false with ⟨ok, s'⟩
  rw [dropped] at between zero
  have goesOn : ∀ c ∈ (closed ++ [calls]).flatten.dropLast, c.accepted = true := fun c mem =>
    accepted c (all ▸ List.dropLast_subset _ mem)
  cases ok with
  | false =>
      have ended : ∀ spawned, Report around graph source spawned (.panicked, s')
          (closed ++ [calls]) [] := between.report goesOn fun no => absurd rfl no
      exact ⟨⟨_, [], ended false⟩, ⟨_, [], ended true⟩⟩
  | true =>
      have ticked : Between around graph source s'.tick (closed ++ [calls]) rest ahead :=
        { between with accounted := { between.accounted with } }
      have next := ticked.reopen (all ▸ accepted)
      dsimp only
      cases reopened : s'.tick.reopen around with
      | ok s'' =>
          rw [reopened] at next
          exact next
      | error out =>
          rw [reopened] at next
          obtain ⟨ended, s''⟩ := out
          obtain ⟨e, answer, released, journal, taken, stats⟩ := next
          obtain rfl : ended = .returned (.error e) := answer
          have some_ : closed ++ [calls] ≠ [] := List.append_ne_nil_of_right_ne_nil _ (by simp)
          have recounted : Report around graph source true
              (countRefusal (.returned (.error e), s'')) (closed ++ [calls]) [e] := by
            apply ticked.refused (all ▸ accepted) zero
            · rfl
            · exact released
            · exact journal
            · exact taken
            · rw [if_pos ⟨rfl, some_⟩, ← stats]
              rfl
          exact ⟨⟨_, [e], ticked.refused (all ▸ accepted) zero rfl released journal taken stats⟩,
            ⟨_, [e], recounted⟩⟩

theorem Going.commitPending (going : Going around graph source s rest ahead)
    (flushed : s.counts = .zero) (room : s.guard.edges < commitIntervalEdges) :
    match s.commitPending around with
    | .ok s' => Going around graph source s' rest ahead ∧ s'.guard.edges < commitIntervalEdges
    | .error out => Drove around graph source false out ∧
        Drove around graph source true (countRefusal out) := by
  unfold Ingest.commitPending
  by_cases some_ : 0 < s.guard.edges
  · rw [if_pos some_]
    have next := going.commit flushed
    cases committed : s.commit around with
    | error out =>
        rw [committed] at next
        exact next
    | ok s' =>
        rw [committed] at next
        exact ⟨next.1, next.2 ▸ by decide⟩
  · rw [if_neg some_]
    exact ⟨going, room⟩

/-- A guard that is not due has room for another edge. -/
theorem room_of_not_full (notFull : ¬ s.full = true) : s.guard.edges < commitIntervalEdges := by
  unfold full at notFull
  exact Nat.not_le.mp (by simpa using notFull)

theorem room_of_not_due (notDue : ¬ s.due around = true) :
    s.guard.edges < commitIntervalEdges :=
  room_of_not_full fun isFull => notDue (by rw [due, isFull, Bool.true_or])

theorem Going.runLoop {edges : List (Nat × Nat)}
    (going : Going around graph source s [] edges) (room : s.guard.edges < commitIntervalEdges) :
    Drove around graph source false (s.runLoop around edges) := by
  induction edges generalizing s with
  | nil => exact going.finish false
  | cons edge edges ih =>
      have pulled : Going around graph source (s.take [edge]) [edge] edges := Going.pull going
      have next := Going.insert pulled room
      unfold Ingest.runLoop
      cases ran : (s.take [edge]).insert around edge with
      | error out =>
          rw [ran] at next
          exact next false
      | ok result =>
          obtain ⟨ok, s'⟩ := result
          rw [ran] at next
          cases ok with
          | false => exact next false
          | true =>
              dsimp only
              split
              · have committed := next.flush.commit rfl
                cases again : s'.flush.commit around with
                | error out =>
                    rw [again] at committed
                    exact committed.1
                | ok s'' =>
                    rw [again] at committed
                    exact ih committed.1 (committed.2 ▸ by decide)
              · rename_i notDue
                exact ih next (room_of_not_due notDue)

/-- The inner loop: `pending` is what is pulled and not given of the edges it still has to do. -/
theorem Going.insertEach (pull : Nat × Nat → List (Nat × Nat))
    (pending later : List (Nat × Nat) → List (Nat × Nat)) {edges ahead : List (Nat × Nat)}
    (none_ : pending [] = [] ∧ later [] = ahead)
    (pulls : ∀ edge edges, later (edge :: edges) = pull edge ++ later edges ∧
      pending (edge :: edges) ++ pull edge = edge :: pending edges)
    (going : Going around graph source s (pending edges) (later edges))
    (room : s.guard.edges < commitIntervalEdges) :
    match s.insertEach around pull edges with
    | .error out => Drove around graph source false out
    | .ok (false, s') => Drove around graph source false (s'.finish around)
    | .ok (true, s') => Going around graph source s' [] ahead ∧
        s'.guard.edges < commitIntervalEdges := by
  induction edges generalizing s with
  | nil =>
      rw [none_.1, none_.2] at going
      exact ⟨going, room⟩
  | cons edge edges ih =>
      obtain ⟨further, pulled⟩ := pulls edge edges
      rw [further] at going
      have taken := going.take
      rw [pulled] at taken
      have next := Going.insert taken room
      unfold Ingest.insertEach
      cases ran : (s.take (pull edge)).insert around edge with
      | error out =>
          rw [ran] at next
          exact next false
      | ok result =>
          obtain ⟨ok, s'⟩ := result
          rw [ran] at next
          cases ok with
          | false => exact next false
          | true =>
              dsimp only
              by_cases isFull : s'.full = true
              · rw [if_pos isFull]
                have committed := next.flush.commit rfl
                cases again : s'.flush.commit around with
                | error out =>
                    rw [again] at committed
                    exact committed.1
                | ok s'' =>
                    rw [again] at committed
                    exact ih committed.1 (committed.2 ▸ by decide)
              · rw [if_neg isFull]
                exact ih next (room_of_not_full isFull)

theorem Going.runBatchesLoop {batches : List (List (Nat × Nat))}
    (going : Going around graph source s [] batches.flatten)
    (room : s.guard.edges < commitIntervalEdges) :
    Drove around graph source false (s.runBatchesLoop around batches) := by
  induction batches generalizing s with
  | nil => exact going.finish false
  | cons batch batches ih =>
      rw [List.flatten_cons] at going
      have taken : Going around graph source (s.take batch).tick batch batches.flatten :=
        going.pull.tick
      have next := Going.insertEach (fun _ => []) id (fun _ => batches.flatten) ⟨rfl, rfl⟩
        (fun edge edges => ⟨rfl, List.append_nil _⟩) taken room
      unfold Ingest.runBatchesLoop
      cases ran : (s.take batch).tick.insertEach around (fun _ => []) batch with
      | error out =>
          rw [ran] at next
          exact next
      | ok result =>
          obtain ⟨ok, s'⟩ := result
          rw [ran] at next
          cases ok with
          | false => exact next
          | true =>
              obtain ⟨next, room'⟩ := next
              dsimp only
              split
              · have committed := next.flush.commit rfl
                cases again : s'.flush.commit around with
                | error out =>
                    rw [again] at committed
                    exact committed.1
                | ok s'' =>
                    rw [again] at committed
                    exact ih committed.1 (committed.2 ▸ by decide)
              · exact ih next room'

theorem Going.spawnLoop {polls : List (Option (Nat × Nat))} {idleSpins : Nat}
    (going : Going around graph source s [] (polls.filterMap id))
    (room : s.guard.edges < commitIntervalEdges) :
    Drove around graph source true (s.spawnLoop around idleSpins polls) := by
  induction polls generalizing s idleSpins with
  | nil => exact going.finish true
  | cons poll polls ih =>
      cases poll with
      | none =>
          rw [List.filterMap_cons_none rfl] at going
          unfold Ingest.spawnLoop
          dsimp only
          split
          · exact ih going.flush.tick room
          · have pending := going.flush.tick.commitPending rfl room
            cases again : s.flush.tick.commitPending around with
            | error out =>
                rw [again] at pending
                exact pending.2
            | ok s' =>
                rw [again] at pending
                exact ih pending.1 pending.2
      | some edge =>
          have pulled : Going around graph source (s.take [edge]) [edge] (polls.filterMap id) :=
            Going.pull going
          have next := Going.insert pulled room
          unfold Ingest.spawnLoop
          cases ran : (s.take [edge]).insert around edge with
          | error out =>
              rw [ran] at next
              exact next true
          | ok result =>
              obtain ⟨ok, s'⟩ := result
              rw [ran] at next
              cases ok with
              | false => exact next true
              | true =>
                  dsimp only
                  split
                  · have committed := next.flush.commit rfl
                    cases again : s'.flush.commit around with
                    | error out =>
                        rw [again] at committed
                        exact committed.2
                    | ok s'' =>
                        rw [again] at committed
                        exact ih committed.1 (committed.2 ▸ by decide)
                  · rename_i notDue
                    exact ih next (room_of_not_due notDue)

/-- The edges of the waits that did not time out. -/
def received (waits : List (Option ((Nat × Nat) × List (Nat × Nat)))) : List (Nat × Nat) :=
  (waits.filterMap id).flatMap fun burst => burst.1 :: burst.2

theorem Going.drainLoop {waits : List (Option ((Nat × Nat) × List (Nat × Nat)))}
    (going : Going around graph source s [] (received waits))
    (room : s.guard.edges < commitIntervalEdges) :
    Drove around graph source false (s.drainLoop around waits) := by
  induction waits generalizing s with
  | nil => exact going.finish false
  | cons wait waits ih =>
      cases wait with
      | none =>
          have pending := going.flush.tick.commitPending rfl room
          unfold Ingest.drainLoop
          cases again : s.flush.tick.commitPending around with
          | error out =>
              rw [again] at pending
              exact pending.1
          | ok s' =>
              rw [again] at pending
              exact ih pending.1 pending.2
      | some burst =>
          obtain ⟨first, queued⟩ := burst
          have ahead : Going around graph source s [] (first :: queued ++ received waits) := going
          have next := Going.insertEach (fun edge => [edge]) (fun _ => []) (· ++ received waits)
            ⟨rfl, rfl⟩ (fun edge edges => ⟨rfl, rfl⟩) ahead room
          unfold Ingest.drainLoop
          cases ran : s.insertEach around (fun edge => [edge]) (first :: queued) with
          | error out =>
              rw [ran] at next
              exact next
          | ok result =>
              obtain ⟨ok, s'⟩ := result
              rw [ran] at next
              cases ok with
              | false => exact next
              | true =>
                  obtain ⟨next, room'⟩ := next
                  dsimp only
                  split
                  · have committed := next.flush.commit rfl
                    cases again : s'.flush.commit around with
                    | error out =>
                        rw [again] at committed
                        exact committed.1
                    | ok s'' =>
                        rw [again] at committed
                        exact ih committed.1 (committed.2 ▸ by decide)
                  · exact ih next.flush room'

theorem openGuard_going (around : Surroundings) (graph : DynamicGraph)
    (source : List (Nat × Nat)) :
    match openGuard around graph with
    | .ok s => Going around graph source s [] source ∧ s.guard.edges < commitIntervalEdges
    | .error out => ∀ spawned, Drove around graph source spawned out := by
  have idle : Between around graph source ⟨⟨.idle graph, 0⟩, .zero, ⟨0, 0, 0, 0⟩, 0, [], []⟩ []
      [] source := by
    refine ⟨⟨graph, rfl, fun orderly _ => orderly.graph⟩, rfl, fun calls mem => ?_, rfl, rfl,
      ⟨rfl, rfl, rfl⟩, fun _ c mem => ?_⟩
    · cases mem
    · cases mem
  have unasked : ∀ c ∈ ([] : List (List EdgeCall)).flatten, c.accepted = true := fun c mem => by
    cases mem
  have next := idle.reopen unasked
  unfold openGuard
  cases opened : Ingest.reopen around ⟨⟨.idle graph, 0⟩, .zero, ⟨0, 0, 0, 0⟩, 0, [], []⟩ with
  | ok s =>
      rw [opened] at next
      exact ⟨next.1, next.2 ▸ by decide⟩
  | error out =>
      rw [opened] at next
      obtain ⟨e, answer, released, journal, taken, stats⟩ := next
      intro spawned
      refine ⟨[], [e], idle.refused unasked rfl answer released journal taken ?_⟩
      rw [if_neg (fun both => both.2 rfl)]
      exact stats

end Ingest

/-- No other writer, and readers that pin and unpin at any time. -/
def Surroundings.readersOnly (gate : Nat → ReadGate) (pins : Nat → PinRegistry)
    (late : Nat → Bool) : Surroundings where
  readers n w := { w with
    graph := { w.graph with arena := { w.graph.arena with gate := gate n, pins := pins n } } }
  others _ g := g
  late := late

theorem orderly_readersOnly {n bytes : Nat} {g : DynamicGraph}
    (new : DynamicGraph.new n bytes = some g) (gate : Nat → ReadGate) (pins : Nat → PinRegistry)
    (late : Nat → Bool) : Orderly (.readersOnly gate pins late) g where
  graph := ⟨_, (DynamicGraph.forest_of_new new).1⟩
  readers n w whole := by
    obtain ⟨T, log, good, same⟩ := whole
    exact ⟨T, log, good.setPins (gate n) (pins n), same⟩
  others _ _ whole := whole

def threeEdges : List (Nat × Nat) := [(0, 1), (0, 1), (0, 5)]
/-- A run without other threads, on a guard that never grows old. -/
def quiet (g : DynamicGraph) : Surroundings :=
  .readersOnly (fun _ => g.arena.gate) (fun _ => g.arena.pins) fun _ => false

end AetherGraph
