import AetherGraph.Foundation.EventLog
import AetherGraph.RdmaReads
import Mathlib.Data.List.Count
import Mathlib.Data.List.Perm.Subperm

/-! The order of a batch's two snapshots on a reliable connection, over every batch, every depth of
the send queue and every failure of the device. -/

namespace AetherGraph

open Foundation

section Events

/-- The READs posted, in order. -/
def posted (log : List LinkEvent) : List RdmaQpRead :=
  log.flatMap fun
    | .post chain => chain
    | _ => []

theorem posted_append (log more : List LinkEvent) :
    posted (log ++ more) = posted log ++ posted more := List.flatMap_append

/-- The row's first snapshot completed, and the write flush ran after. -/
def SnapshotCall.Released (call : SnapshotCall) (log : List LinkEvent)
    (i : Fin call.remote.length) : Prop :=
  ∃ before between after, log = before ++ .complete (call.read .first i) ibvWcSuccess ::
    (between ++ .flush :: after)

/-- A chain fits the send queue, and a row in its second snapshot was released. -/
def SnapshotCall.TwoPhase (call : SnapshotCall) (maxSendWr : Nat) (before : List LinkEvent) :
    LinkEvent → Prop
  | .post chain => chain.length ≤ maxSendWr ∧
      ∀ i, call.read .second i ∈ chain → call.Released before i
  | _ => True

variable {call : SnapshotCall}

theorem SnapshotCall.Released.mono {log : List LinkEvent} {i : Fin call.remote.length}
    (h : call.Released log i) (more : List LinkEvent) : call.Released (log ++ more) i := by
  obtain ⟨before, between, after, rfl⟩ := h
  exact ⟨before, between, after ++ more, by simp⟩

theorem SnapshotCall.released {log : List LinkEvent} {i : Fin call.remote.length}
    (completed : .complete (call.read .first i) ibvWcSuccess ∈ log) :
    call.Released (log ++ [.flush]) i := by
  obtain ⟨before, after, rfl⟩ := List.append_of_mem completed
  exact ⟨before, after, [], by simp⟩

end Events

section Reads

variable (call : SnapshotCall)

/-- The slot of a row in a snapshot is no other row's, and not the other snapshot's. -/
theorem SnapshotCall.read_inj {snapshot snapshot' : RdmaSnapshot} {i j : Fin call.remote.length}
    (same : call.read snapshot i = call.read snapshot' j) : snapshot = snapshot' ∧ i = j := by
  have addrs := congrArg RdmaQpRead.localAddr same
  have sized := call.buffer.sized
  have capacity := call.capacity
  have slot : ∀ a b : Nat, call.buffer.devicePtr + a * call.buffer.slotSize =
      call.buffer.devicePtr + b * call.buffer.slotSize → a = b := fun a b eq =>
    Nat.eq_of_mul_eq_mul_right sized (Nat.add_left_cancel eq)
  have hi := i.isLt
  have hj := j.isLt
  cases snapshot <;> cases snapshot' <;> have eq := slot _ _ addrs
  · exact ⟨rfl, Fin.ext eq⟩
  · omega
  · omega
  · exact ⟨rfl, Fin.ext (by omega)⟩

theorem SnapshotCall.mem_build {rows : List (Fin call.remote.length)}
    {snapshot snapshot' : RdmaSnapshot} {i : Fin call.remote.length} :
    call.read snapshot i ∈ call.build rows snapshot' ↔ snapshot = snapshot' ∧ i ∈ rows := by
  constructor
  · intro mem
    obtain ⟨j, row, eq⟩ := List.mem_map.mp mem
    obtain ⟨rfl, rfl⟩ := call.read_inj eq
    exact ⟨rfl, row⟩
  · rintro ⟨rfl, mem⟩
    exact List.mem_map_of_mem mem

theorem SnapshotCall.count_build (rows : List (Fin call.remote.length)) (snapshot : RdmaSnapshot)
    (i : Fin call.remote.length) :
    (call.build rows .first ++ call.build rows .second).count (call.read snapshot i) =
      rows.count i := by
  have own : ∀ snapshot, (call.build rows snapshot).count (call.read snapshot i) = rows.count i :=
    fun snapshot => List.count_map_of_injective rows _ (fun a b eq => (call.read_inj eq).2) i
  have other : ∀ snapshot', snapshot ≠ snapshot' →
      (call.build rows snapshot').count (call.read snapshot i) = 0 :=
    fun snapshot' apart => List.count_eq_zero.mpr fun mem => apart (call.mem_build.mp mem).1
  rw [List.count_append]
  cases snapshot with
  | first => rw [own, other .second nofun, Nat.add_zero]
  | second => rw [own, other .first nofun, Nat.zero_add]

end Reads

namespace RdmaFeatureClient

variable {s : RdmaFeatureClient}

section Window

/-- Only the last request of a chain is signaled. -/
inductive Chained (signaled : Nat) : List SendWr → Prop
  | last (wr : SendWr) : wr.signaled = true → wr.wrId = signaled → Chained signaled [wr]
  | cons (wr : SendWr) (wrs : List SendWr) : wr.signaled = false → Chained signaled wrs →
      Chained signaled (wr :: wrs)

/-- The entries of the requests that completed. -/
def entriesOf (wrs : List SendWr) (outcomes : List (Nat × Nat)) : List IbvWc :=
  (wrs.zip outcomes).filterMap fun p => wcOf p.1 p.2

/-- The first entry of a chain, when it succeeds, is its last request's, and all succeeded. -/
theorem Chained.done {signaled : Nat} {wrs : List SendWr} (h : Chained signaled wrs)
    {outcomes : List (Nat × Nat)} {wc : IbvWc} {wcs : List IbvWc}
    (first : entriesOf wrs outcomes = wc :: wcs) (good : wc.status = ibvWcSuccess) :
    wcs = [] ∧ wc.wrId = signaled ∧ wrs.length ≤ outcomes.length ∧
      ∀ p ∈ wrs.zip outcomes, p.2.1 = ibvWcSuccess := by
  induction h generalizing outcomes with
  | last wr sig id =>
      cases outcomes with
      | nil => cases first
      | cons outcome outcomes =>
          have entry : wcOf wr outcome = some ⟨outcome.1, outcome.2, wr.wrId⟩ := by
            rw [wcOf, if_pos (.inl sig)]
          simp only [entriesOf, List.zip_cons_cons, List.zip_nil_left, List.filterMap_cons, entry,
            List.filterMap_nil, List.cons.injEq] at first
          obtain ⟨rfl, rfl⟩ := first
          refine ⟨rfl, id, by simp, ?_⟩
          simpa using good
  | cons wr wrs sig _ ih =>
      cases outcomes with
      | nil => cases first
      | cons outcome outcomes =>
          by_cases failed : outcome.1 = ibvWcSuccess
          · have entry : wcOf wr outcome = none := by
              rw [wcOf, if_neg]
              simp [sig, failed]
            simp only [entriesOf, List.zip_cons_cons, List.filterMap_cons, entry] at first
            obtain ⟨rest, id, length, all⟩ := ih first
            refine ⟨rest, id, Nat.succ_le_succ length, ?_⟩
            rw [List.zip_cons_cons]
            exact List.forall_mem_cons.mpr ⟨failed, all⟩
          · have entry : wcOf wr outcome = some ⟨outcome.1, outcome.2, wr.wrId⟩ := by
              rw [wcOf, if_pos (.inr failed)]
            simp only [entriesOf, List.zip_cons_cons, List.filterMap_cons, entry,
              List.cons.injEq] at first
            obtain ⟨rfl, _⟩ := first
            exact absurd good failed

/-- How far the chain `wrs`, the only one given to the device, has come since `start`. -/
structure Progress (start : RdmaFeatureClient) (wrs : List SendWr) (outcomes : List (Nat × Nat))
    (s : RdmaFeatureClient) : Prop where
  qp : s.qp = start.qp
  failed : s.failed = start.failed
  outstanding : s.outstanding = wrs.drop outcomes.length
  cq : s.cq = entriesOf wrs outcomes
  log : s.log = start.log ++ .post (wrs.map SendWr.read) ::
    (wrs.zip outcomes).map fun p => .complete p.1.read p.2.1

variable {start : RdmaFeatureClient} {wrs : List SendWr}

theorem zip_concat {outcomes : List (Nat × Nat)} {wr : SendWr} {rest : List SendWr}
    (left : wrs.drop outcomes.length = wr :: rest) (outcome : Nat × Nat) :
    wrs.zip (outcomes ++ [outcome]) = wrs.zip outcomes ++ [(wr, outcome)] := by
  induction outcomes generalizing wrs with
  | nil =>
      rw [List.length_nil, List.drop_zero] at left
      simp [left]
  | cons first outcomes ih =>
      cases wrs with
      | nil => cases left
      | cons wr' wrs => exact congrArg ((wr', first) :: ·) (ih left)

theorem Progress.complete {outcomes : List (Nat × Nat)} (h : Progress start wrs outcomes s)
    (more : List (Nat × Nat)) :
    ∃ outcomes', Progress start wrs outcomes' (complete more s) := by
  induction more generalizing outcomes s with
  | nil => exact ⟨outcomes, h⟩
  | cons outcome more ih =>
      cases next : s.outstanding with
      | nil =>
          unfold RdmaFeatureClient.complete
          rw [next]
          exact ⟨outcomes, h⟩
      | cons wr rest =>
          unfold RdmaFeatureClient.complete
          simp only [next]
          have left := h.outstanding.symm.trans next
          have zip := zip_concat left outcome
          refine @ih _ (outcomes ++ [outcome]) ⟨h.qp, h.failed, ?_, ?_, ?_⟩
          · show rest = wrs.drop (outcomes ++ [outcome]).length
            rw [List.length_append, ← List.drop_drop, left]
            rfl
          · show s.cq ++ (wcOf wr outcome).toList = entriesOf wrs (outcomes ++ [outcome])
            rw [entriesOf, zip, List.filterMap_append, h.cq, entriesOf]
            congr 1
          · show s.log ++ _ = _
            rw [zip, List.map_append, h.log, List.append_assoc, List.cons_append]
            rfl

/-- A wait that ends well has seen the whole chain succeed. -/
theorem Progress.awaitSignaled {signaled : Nat} (chained : Chained signaled wrs)
    (polls : List (List (Nat × Nat) × Except String Nat)) {outcomes : List (Nat × Nat)}
    (h : Progress start wrs outcomes s) :
    ∃ result s' outcomes' n,
      awaitSignaled signaled polls s = (result, { s' with cq := s'.cq.drop n }) ∧
      Progress start wrs outcomes' s' ∧
        (result = .ok () → s'.cq.drop n = [] ∧ wrs.length ≤ outcomes'.length ∧
          ∀ p ∈ wrs.zip outcomes', p.2.1 = ibvWcSuccess) := by
  induction polls generalizing outcomes s with
  | nil => exact ⟨_, s, outcomes, 0, rfl, h, nofun⟩
  | cons poll polls ih =>
      obtain ⟨more, answer⟩ := poll
      obtain ⟨outcomes', h'⟩ := h.complete more
      unfold RdmaFeatureClient.awaitSignaled
      dsimp only
      generalize RdmaFeatureClient.complete more s = s' at h'
      cases answer with
      | error e => exact ⟨_, s', outcomes', 0, rfl, h', nofun⟩
      | ok most =>
          dsimp only
          generalize min most 16 = n
          cases entries : s'.cq.take n with
          | nil =>
              have same : s'.cq.drop n = s'.cq := by
                have whole := List.take_append_drop n s'.cq
                rwa [entries, List.nil_append] at whole
              rw [same]
              exact ih h'
          | cons wc wcs =>
              have first : entriesOf wrs outcomes' = wc :: (wcs ++ s'.cq.drop n) := by
                rw [← h'.cq, ← List.cons_append, ← entries, List.take_append_drop]
              unfold scan
              split_ifs with bad mine
              · exact ⟨_, s', outcomes', n, rfl, h', nofun⟩
              · obtain ⟨rest, _, length, all⟩ := chained.done first (not_not.mp bad)
                exact ⟨_, s', outcomes', n, rfl, h', fun _ =>
                  ⟨(List.append_eq_nil_iff.mp rest).2, length, all⟩⟩
              · exact absurd (chained.done first (not_not.mp bad)).2.1 mine

theorem Chained.append {signaled : Nat} {front : List SendWr}
    (quiet : ∀ wr ∈ front, wr.signaled = false) (h : Chained signaled wrs) :
    Chained signaled (front ++ wrs) := by
  induction front with
  | nil => exact h
  | cons wr front ih =>
      obtain ⟨first, rest⟩ := List.forall_mem_cons.mp quiet
      exact .cons wr _ first (ih rest)

theorem chained_workRequests {reads : List RdmaQpRead} (some_ : reads ≠ []) {base : Nat}
    (room : base + reads.length ≤ 2 ^ 64) :
    Chained (base + (reads.length - 1)) (workRequests reads reads.length base) := by
  obtain ⟨front, last, rfl⟩ := List.eq_nil_or_concat reads |>.resolve_left some_
  rw [List.concat_eq_append] at room ⊢
  have length : (front ++ [last]).length = front.length + 1 := List.length_append
  rw [length] at room
  unfold workRequests
  rw [List.mapIdx_concat, length, Nat.add_sub_cancel]
  refine Chained.append (fun wr mem => ?_) (.last _ ?_ ?_)
  · obtain ⟨i, bound, rfl⟩ := List.mem_mapIdx.mp mem
    have small : i + 1 < front.length + 1 := Nat.succ_lt_succ bound
    simp [Nat.mod_eq_of_lt small, Nat.ne_of_lt bound]
  · simp
  · exact Nat.mod_eq_of_lt (by omega)

theorem workRequests_read (reads : List RdmaQpRead) (n base : Nat) :
    (workRequests reads n base).map SendWr.read = reads := by
  unfold workRequests
  refine List.ext_getElem (by simp) fun i _ _ => ?_
  rw [List.getElem_map, List.getElem_mapIdx]

/-- Nothing is with the device. -/
def Idle (s : RdmaFeatureClient) : Prop := s.outstanding = [] ∧ s.cq = []

/-- The events `es` of posting `reads`: a prefix of them went out in chains that fit, and all of
them did and completed when it went well. -/
structure Served (start : RdmaFeatureClient) (reads : List RdmaQpRead) (es : List LinkEvent)
    (result : Except String Unit) (s : RdmaFeatureClient) : Prop where
  qp : s.qp = start.qp
  log : s.log = start.log ++ es
  chains : ∀ chain, .post chain ∈ es → chain.length ≤ start.qp.maxSendWr
  sent : posted es <+: reads
  done : result = .ok () → s.Idle ∧ s.failed = start.failed ∧ posted es = reads ∧
    ∀ read ∈ reads, .complete read ibvWcSuccess ∈ es

theorem posted_completions {β : Type} (xs : List β) (read : β → RdmaQpRead) (status : β → Nat) :
    posted (xs.map fun x => .complete (read x) (status x)) = [] := by
  rw [posted, List.flatMap_map]
  exact List.flatMap_eq_nil_iff.mpr fun _ _ => rfl

/-- A chain and the completions of its requests so far. -/
theorem Progress.served {outcomes : List (Nat × Nat)} {reads : List RdmaQpRead}
    {result : Except String Unit} {n : Nat} (h : Progress start wrs outcomes s)
    (front : wrs.map SendWr.read <+: reads) (fits : wrs.length ≤ start.qp.maxSendWr)
    (done : result = .ok () → wrs.map SendWr.read = reads ∧ s.cq.drop n = [] ∧
      wrs.length ≤ outcomes.length ∧ ∀ p ∈ wrs.zip outcomes, p.2.1 = ibvWcSuccess) :
    ∃ es, Served start reads es result { s with cq := s.cq.drop n } := by
  have chain : posted (.post (wrs.map SendWr.read) ::
      (wrs.zip outcomes).map fun p => .complete p.1.read p.2.1) = wrs.map SendWr.read := by
    show _ ++ posted _ = _
    rw [posted_completions, List.append_nil]
  refine ⟨_, h.qp, h.log, fun chain mem => ?_, chain.symm ▸ front, fun ok => ?_⟩
  · rcases List.mem_cons.mp mem with same | mem
    · obtain rfl := LinkEvent.post.inj same
      rwa [List.length_map]
    · obtain ⟨_, _, eq⟩ := List.mem_map.mp mem
      cases eq
  · obtain ⟨all, reaped, length, good⟩ := done ok
    refine ⟨⟨h.outstanding.trans (List.drop_eq_nil_of_le length), reaped⟩, h.failed,
      chain.trans all, fun read mem => List.mem_cons_of_mem _ ?_⟩
    rw [← all] at mem
    obtain ⟨wr, given, rfl⟩ := List.mem_map.mp mem
    have paired : wr ∈ (wrs.zip outcomes).map Prod.fst := by
      rw [List.map_fst_zip length]
      exact given
    obtain ⟨p, entry, rfl⟩ := List.mem_map.mp paired
    exact List.mem_map.mpr ⟨p, entry, by rw [good p entry]⟩

theorem nextWrGeneration_le (g : Nat) : nextWrGeneration g ≤ 2 ^ 32 - 2 := by
  unfold nextWrGeneration
  split_ifs <;> omega

theorem Idle.postAndWaitWindow (idle : s.Idle) {reads : List RdmaQpRead}
    (fits : reads.length ≤ s.qp.maxSendWr) (io : ChainIo) :
    ∃ es, Served s reads es (s.postAndWaitWindow reads io).1 (s.postAndWaitWindow reads io).2 := by
  unfold RdmaFeatureClient.postAndWaitWindow
  split_ifs with empty
  · obtain rfl := List.isEmpty_iff.mp empty
    exact ⟨[], rfl, (List.append_nil _).symm, nofun, List.prefix_refl _, fun _ =>
      ⟨idle, rfl, rfl, nofun⟩⟩
  · have some_ : reads ≠ [] := fun none_ => empty (List.isEmpty_iff.mpr none_)
    have length : reads.length ≠ 0 := fun none_ => some_ (List.eq_nil_of_length_eq_zero none_)
    dsimp only
    generalize hbase : nextWrGeneration s.generation * 2 ^ 32 = base
    have room : base + reads.length ≤ 2 ^ 64 := by
      have narrow := s.qp.narrow
      have bound := nextWrGeneration_le s.generation
      omega
    have given : ∀ wrs : List SendWr, Progress s wrs []
        (take { s with generation := nextWrGeneration s.generation, posts := s.posts + 1 } wrs) :=
      fun wrs => ⟨rfl, rfl, by simp [take, idle.1], by simp [take, idle.2, entriesOf],
        by simp [take]⟩
    unfold postReadsTagged
    rw [if_neg empty, if_neg length, if_neg (Nat.not_lt.mpr fits)]
    dsimp only
    have reads_ := workRequests_read reads reads.length base
    have wide : (workRequests reads reads.length base).length = reads.length :=
      List.length_mapIdx
    have chained := chained_workRequests some_ room
    generalize workRequests reads reads.length base = wrs at reads_ wide chained
    cases io.refused with
    | none =>
        dsimp only
        obtain ⟨result, s', outcomes, n, ran, progress, done⟩ :=
          (given wrs).awaitSignaled chained io.polls
        rw [ran]
        exact progress.served (reads_ ▸ List.prefix_refl _) (wide ▸ fits) fun ok =>
          ⟨reads_, done ok⟩
    | some refusal =>
        obtain ⟨ret, bad⟩ := refusal
        dsimp only
        generalize (if bad < wrs.length then bad else 0) = accepted
        refine (given (wrs.take accepted)).served (n := 0) ?_ ?_ nofun
        · rw [List.map_take, reads_]
          exact List.take_prefix _ _
        · rw [List.length_take]
          omega

/-- Two posts one after the other. -/
theorem Served.append {reads reads' : List RdmaQpRead} {es es' : List LinkEvent}
    {result : Except String Unit} {s' s'' : RdmaFeatureClient}
    (h : Served s reads es (.ok ()) s') (h' : Served s' reads' es' result s'') :
    Served s (reads ++ reads') (es ++ es') result s'' := by
  obtain ⟨_, failed, all, completed⟩ := h.done rfl
  refine ⟨h'.qp.trans h.qp, ?_, fun chain mem => ?_, ?_, fun ok => ?_⟩
  · rw [h'.log, h.log, List.append_assoc]
  · rcases List.mem_append.mp mem with mem | mem
    · exact h.chains chain mem
    · exact h.qp ▸ h'.chains chain mem
  · rw [posted_append, all]
    exact List.prefix_append_right_inj reads |>.mpr h'.sent
  · obtain ⟨idle, failed', all', completed'⟩ := h'.done ok
    refine ⟨idle, failed'.trans failed, by rw [posted_append, all, all'], fun read mem => ?_⟩
    rcases List.mem_append.mp mem with mem | mem
    · exact List.mem_append_left _ (completed read mem)
    · exact List.mem_append_right _ (completed' read mem)

theorem Idle.postWindows (idle : s.Idle) (io : Nat → ChainIo) {windows : List (List RdmaQpRead)}
    (fits : ∀ window ∈ windows, window.length ≤ s.qp.maxSendWr) :
    ∃ es, Served s windows.flatten es (postWindows io windows s).1 (postWindows io windows s).2 ∧
      (RdmaFeatureClient.postWindows io windows s).2.Idle := by
  induction windows generalizing s with
  | nil => exact ⟨[], ⟨rfl, (List.append_nil _).symm, nofun, List.prefix_refl _, fun _ =>
      ⟨idle, rfl, rfl, nofun⟩⟩, idle⟩
  | cons window windows ih =>
      obtain ⟨short, rest⟩ := List.forall_mem_cons.mp fits
      obtain ⟨es, first⟩ := idle.postAndWaitWindow short (io s.posts)
      unfold RdmaFeatureClient.postWindows
      generalize s.postAndWaitWindow window (io s.posts) = ran at first
      obtain ⟨e | _, s'⟩ := ran
      · refine ⟨es ++ s'.outstanding.map fun wr => .complete wr.read 5, ⟨first.qp, ?_, ?_, ?_,
          nofun⟩, rfl, rfl⟩
        · show s'.log ++ _ = _
          rw [first.log, List.append_assoc]
        · intro chain mem
          rcases List.mem_append.mp mem with mem | mem
          · exact first.chains chain mem
          · obtain ⟨_, _, eq⟩ := List.mem_map.mp mem
            cases eq
        · rw [posted_append, posted_completions, List.append_nil]
          exact first.sent.trans (List.prefix_append _ _)
      · obtain ⟨idle', _⟩ := first.done rfl
        obtain ⟨es', later, last⟩ := ih idle' (first.qp ▸ rest)
        exact ⟨es ++ es', first.append later, last⟩

theorem Idle.postAndWait (idle : s.Idle) (reads : List RdmaQpRead) (io : Nat → ChainIo) :
    ∃ es, Served s reads es (s.postAndWait reads io).1 (s.postAndWait reads io).2 ∧
      (s.postAndWait reads io).2.Idle := by
  have fits : ∀ window ∈ chunks s.qp.maxSendWr reads, window.length ≤ s.qp.maxSendWr :=
    fun window mem => length_le_of_mem_chunks mem
  have served := idle.postWindows io fits
  rwa [flatten_chunks s.qp.deep] at served

end Window

section Rounds

/-- A round's events: when it goes well, its READs completed and the flush ran after. -/
structure Rounded (start : RdmaFeatureClient) (reads : List RdmaQpRead) (es : List LinkEvent)
    (result : Except String Unit) (s : RdmaFeatureClient) : Prop where
  qp : s.qp = start.qp
  log : s.log = start.log ++ es
  idle : s.Idle
  chains : ∀ chain, .post chain ∈ es → chain.length ≤ start.qp.maxSendWr
  sent : posted es <+: reads
  done : result = .ok () → posted es = reads ∧
    ∃ es', es = es' ++ [.flush] ∧ ∀ read ∈ reads, .complete read ibvWcSuccess ∈ es'

variable {reads : List RdmaQpRead} {es : List LinkEvent}

theorem Served.failed {result : Except String Unit} {s' : RdmaFeatureClient}
    (h : Served s reads es result s') (idle : s'.Idle) (e : String) :
    Rounded s reads es (.error e) s' :=
  ⟨h.qp, h.log, idle, h.chains, h.sent, nofun⟩

theorem Served.flushGpudirectWrites {s' : RdmaFeatureClient} (h : Served s reads es (.ok ()) s')
    (flush : Nat → Except String Nat) :
    ∃ es', Rounded s reads es' (s'.flushGpudirectWrites flush).1
      (s'.flushGpudirectWrites flush).2 := by
  obtain ⟨idle, _, all, completed⟩ := h.done rfl
  have failed : ∀ e, Rounded s reads es (.error e) { s' with flushes := s'.flushes + 1 } :=
    fun e => ⟨h.qp, h.log, idle, h.chains, h.sent, nofun⟩
  have nothing : posted (es ++ [.flush]) = posted es := by
    rw [posted_append]
    exact List.append_nil _
  unfold RdmaFeatureClient.flushGpudirectWrites
  dsimp only
  cases flush s'.flushes with
  | error e => exact ⟨es, failed e⟩
  | ok res =>
      dsimp only
      split_ifs
      · exact ⟨es, failed _⟩
      · refine ⟨es ++ [.flush], h.qp, ?_, idle, fun chain mem => ?_, nothing ▸ h.sent,
          fun _ => ⟨nothing.trans all, es, rfl, completed⟩⟩
        · show s'.log ++ [.flush] = _
          rw [h.log, List.append_assoc]
        · rcases List.mem_append.mp mem with mem | mem
          · exact h.chains chain mem
          · cases List.mem_singleton.mp mem

theorem Idle.round (idle : s.Idle) (reads : List RdmaQpRead) (call : SnapshotCall) :
    ∃ es, Rounded s reads es (s.round reads call).1 (s.round reads call).2 := by
  obtain ⟨es, served, idle'⟩ := idle.postAndWait reads call.chain
  unfold RdmaFeatureClient.round
  generalize s.postAndWait reads call.chain = ran at served idle'
  obtain ⟨e | _, s'⟩ := ran
  · exact ⟨es, served.failed idle' e⟩
  · exact served.flushGpudirectWrites call.flush

variable {call : SnapshotCall}

/-- After `log`, a round whose second snapshots are of released rows keeps the two phases. -/
theorem Rounded.twoPhase {result : Except String Unit} {s' : RdmaFeatureClient}
    (h : Rounded s reads es result s') {log : List LinkEvent}
    (released : ∀ i, call.read .second i ∈ reads → call.Released log i) :
    Throughout (fun before e => call.TwoPhase s.qp.maxSendWr (log ++ before) e) es := by
  intro before e after eq
  cases e with
  | post chain =>
      have mem : .post chain ∈ es := eq ▸ List.mem_append_right _ List.mem_cons_self
      refine ⟨h.chains chain mem, fun i second => (released i ?_).mono before⟩
      exact h.sent.subset (List.mem_flatMap.mpr ⟨_, mem, second⟩)
  | complete read status => trivial
  | flush => trivial

/-- The rounds of the windows left, after `log` released the rows of the first of them. -/
theorem Idle.rounds (idle : s.Idle) {windows : List (List (Fin call.remote.length))}
    {log : List LinkEvent} (released : ∀ i ∈ windows.headD [], call.Released log i) :
    ∃ es, (rounds call windows s).2.log = s.log ++ es ∧ (rounds call windows s).2.qp = s.qp ∧
      (RdmaFeatureClient.rounds call windows s).2.Idle ∧
      Throughout (fun before e => call.TwoPhase s.qp.maxSendWr (log ++ before) e) es ∧
      (posted es).Subperm
        (call.build windows.flatten .second ++ call.build windows.tail.flatten .first) ∧
      ((RdmaFeatureClient.rounds call windows s).1 = .ok () → (posted es).Perm
        (call.build windows.flatten .second ++ call.build windows.tail.flatten .first) ∧
        ∀ read ∈ posted es, .complete read ibvWcSuccess ∈ es) := by
  induction windows generalizing s log with
  | nil => exact ⟨[], (List.append_nil _).symm, rfl, idle, throughout_nil, List.nil_subperm,
      fun _ => ⟨List.Perm.refl _, nofun⟩⟩
  | cons window windows ih =>
      obtain ⟨es, first⟩ := idle.round
        (call.build window .second ++ call.build (windows.headD []) .first) call
      have phases : Throughout (fun before e =>
          call.TwoPhase s.qp.maxSendWr (log ++ before) e) es := first.twoPhase fun i mem => by
        rcases List.mem_append.mp mem with mem | mem
        · exact released i (call.mem_build.mp mem).2
        · cases (call.mem_build.mp mem).1
      have split : windows.flatten = windows.headD [] ++ windows.tail.flatten := by
        cases windows <;> rfl
      have flat : ∀ snapshot, call.build windows.flatten snapshot =
          call.build (windows.headD []) snapshot ++ call.build windows.tail.flatten snapshot :=
        fun snapshot => by rw [split, SnapshotCall.build, List.map_append]; rfl
      have front : call.build (window :: windows).flatten .second =
          call.build window .second ++ call.build windows.flatten .second := List.map_append
      rw [front, List.tail_cons]
      unfold RdmaFeatureClient.rounds
      dsimp only
      generalize s.round _ call = ran at first
      obtain ⟨e | _, s'⟩ := ran
      · refine ⟨es, first.log, first.qp, first.idle, phases, ?_, nofun⟩
        refine first.sent.sublist.subperm.trans (List.Sublist.subperm ?_)
        rw [List.append_assoc, flat .first]
        exact (List.Sublist.refl _).append
          ((List.sublist_append_left _ _).trans (List.sublist_append_right _ _))
      · obtain ⟨all, es', rfl, completed⟩ := first.done rfl
        have next : ∀ i ∈ windows.headD [], call.Released (log ++ (es' ++ [.flush])) i := by
          intro i mem
          rw [← List.append_assoc]
          exact call.released (List.mem_append_right _ (completed _
            (List.mem_append_right _ (call.mem_build.mpr ⟨rfl, mem⟩))))
        obtain ⟨more, later, qp, idle', order, atMost, exactly⟩ := ih first.idle next
        have shuffle : (call.build window .second ++ call.build (windows.headD []) .first ++
            (call.build windows.flatten .second ++ call.build windows.tail.flatten .first)).Perm
            (call.build window .second ++ call.build windows.flatten .second ++
              call.build windows.flatten .first) := by
          rw [flat .first, List.append_assoc, List.append_assoc]
          exact (List.perm_append_comm_assoc _ _ _).append_left _
        dsimp only
        refine ⟨es' ++ [.flush] ++ more, ?_, qp.trans first.qp, idle', ?_, ?_, fun ok => ?_⟩
        · rw [later, first.log, List.append_assoc]
        · refine phases.append ?_
          rw [first.qp] at order
          exact order.imp fun before e two => by rwa [List.append_assoc] at two
        · rw [posted_append, all]
          exact ((List.subperm_append_left _).mpr atMost).trans shuffle.subperm
        · obtain ⟨exact_, completed'⟩ := exactly ok
          rw [posted_append, all]
          refine ⟨(exact_.append_left _).trans shuffle, fun read mem => ?_⟩
          rcases List.mem_append.mp mem with mem | mem
          · exact List.mem_append_left _ (List.mem_append_left _ (completed read mem))
          · exact List.mem_append_right _ (completed' read mem)

/-- Every batch of snapshots: chains that fit, the second snapshot of a row after its first is
released, one READ for each listed row and snapshot, nothing left with the device. -/
theorem Idle.readSnapshots (idle : s.Idle) (call : SnapshotCall) :
    ∃ es, (s.readSnapshots call).2.log = s.log ++ es ∧ (s.readSnapshots call).2.qp = s.qp ∧
      (s.readSnapshots call).2.Idle ∧ Throughout (call.TwoPhase s.qp.maxSendWr) es ∧
      (posted es).Subperm (call.build call.indices .first ++ call.build call.indices .second) ∧
      ((s.readSnapshots call).1 = .ok () → (posted es).Perm
        (call.build call.indices .first ++ call.build call.indices .second) ∧
        ∀ read ∈ posted es, .complete read ibvWcSuccess ∈ es) := by
  unfold RdmaFeatureClient.readSnapshots
  split_ifs with empty
  · rw [List.isEmpty_iff.mp empty]
    exact ⟨[], (List.append_nil _).symm, rfl, idle, throughout_nil, List.nil_subperm,
      fun _ => ⟨List.Perm.refl _, nofun⟩⟩
  · dsimp only
    have flat := flatten_chunks (k := s.windowSize call.indices.length)
      (by unfold windowSize; omega) call.indices
    generalize chunks _ call.indices = windows at flat
    obtain ⟨es, first⟩ := idle.round (call.build (windows.headD []) .first) call
    have phases : Throughout (fun before e =>
        call.TwoPhase s.qp.maxSendWr ([] ++ before) e) es := first.twoPhase fun i mem => by
      cases (call.mem_build.mp mem).1
    have split : windows.flatten = windows.headD [] ++ windows.tail.flatten := by
      cases windows <;> rfl
    rw [← flat]
    have front : call.build windows.flatten .first =
        call.build (windows.headD []) .first ++ call.build windows.tail.flatten .first := by
      rw [split, SnapshotCall.build, List.map_append]
      rfl
    rw [front]
    generalize s.round _ call = ran at first
    obtain ⟨e | _, s'⟩ := ran
    · refine ⟨es, first.log, first.qp, first.idle, phases, ?_, nofun⟩
      refine first.sent.sublist.subperm.trans (List.Sublist.subperm ?_)
      rw [List.append_assoc]
      exact List.sublist_append_left _ _
    · obtain ⟨all, es', rfl, completed⟩ := first.done rfl
      have next : ∀ i ∈ windows.headD [], call.Released (es' ++ [.flush]) i := fun i mem =>
        call.released (completed _ (call.mem_build.mpr ⟨rfl, mem⟩))
      obtain ⟨more, later, qp, idle', order, atMost, exactly⟩ := first.idle.rounds next
      have shuffle : (call.build (windows.headD []) .first ++
          (call.build windows.flatten .second ++ call.build windows.tail.flatten .first)).Perm
          (call.build (windows.headD []) .first ++ call.build windows.tail.flatten .first ++
            call.build windows.flatten .second) := by
        rw [List.append_assoc]
        exact List.perm_append_comm.append_left _
      dsimp only
      refine ⟨es' ++ [.flush] ++ more, ?_, qp.trans first.qp, idle', ?_, ?_, fun ok => ?_⟩
      · rw [later, first.log, List.append_assoc]
      · rw [first.qp] at order
        exact phases.append order
      · rw [posted_append, all]
        exact ((List.subperm_append_left _).mpr atMost).trans shuffle.subperm
      · obtain ⟨exact_, completed'⟩ := exactly ok
        rw [posted_append, all]
        refine ⟨(exact_.append_left _).trans shuffle, fun read mem => ?_⟩
        rcases List.mem_append.mp mem with mem | mem
        · exact List.mem_append_left _ (List.mem_append_left _ (completed read mem))
        · exact List.mem_append_right _ (completed' read mem)

/-- A client is idle between its batches. -/
theorem Idle.gathers (idle : s.Idle) (calls : List SnapshotCall) :
    (s.gathers calls).Idle ∧ (s.gathers calls).qp = s.qp := by
  induction calls generalizing s with
  | nil => exact ⟨idle, rfl⟩
  | cons call calls ih =>
      have next : (s.gatherSnapshots call).2.Idle ∧ (s.gatherSnapshots call).2.qp = s.qp := by
        unfold gatherSnapshots
        split_ifs
        · exact ⟨idle, rfl⟩
        · obtain ⟨_, _, qp, idle', _⟩ := idle.readSnapshots call
          exact ⟨idle', qp⟩
      obtain ⟨last, qp⟩ := ih next.1
      exact ⟨last, qp.trans next.2⟩

/-- Two rows over a send queue of depth one. -/
def shallowCall : SnapshotCall where
  buffer := ⟨4096, 1, 64, 2, by decide, by decide⟩
  table := ⟨0, 7, 8, ⟨4, 64, 32⟩⟩
  remote := [64, 320]
  capacity := by decide
  indices := [0, 1]
  chain := fun _ => ⟨none, [([], .ok 16), ([(0, 0)], .ok 16)]⟩
  flush := fun _ => .ok 801

/-- Each READ is a chain of its own. -/
example : (posted ((connected ⟨1, by decide, by decide⟩).readSnapshots shallowCall).2.log).map
    RdmaQpRead.localAddr = [4096, 4224, 4160, 4288] := by decide

end Rounds

end RdmaFeatureClient

end AetherGraph
