import AetherGraph.LogDiscard
import AetherGraph.LogRing

/-! Crashes.  What survives is a prefix of the file no shorter than its last barrier; the next
open replays the records it holds whole, in order, and appends go behind them, however many
crashes follow.  A ring commit keeps this up while its write and its barrier go together. -/

namespace AetherGraph

/-- What a ring commit comes back with: both completions, or none that can be trusted. -/
inductive RingResult where
  | reaped (linked : LinkedResult)
  | unconfirmed (written : Nat)
  deriving DecidableEq, Repr

/-- A call of the writer; with a ring, a sync goes out as a linked pair. -/
inductive CommitCall where
  | append (src : BitVec 32) (dsts : List (BitVec 32))
  | sync
  | syncRing (result : RingResult)
  deriving DecidableEq, Repr

namespace CommitCall

def run (w : WalWriter) : CommitCall → Bool × WalWriter
  | append src dsts => w.appendEdges src.toNat (dsts.map BitVec.toNat)
  | sync => w.sync
  | syncRing result =>
      if w.pending = 0 then (true, w)
      else
        match result with
        | .reaped linked => w.syncUring linked
        | .unconfirmed written =>
            if w.buf.length = 0 then w.flushSync
            -- the buffer is given up to the kernel
            else (false, { w with
              file := { w.file with bytes := w.file.bytes ++ w.buf.take written }
              buf := [] })

/-- A ring commit is confirmed, and a write of everything staged gets its barrier. -/
def Together (w : WalWriter) : CommitCall → Prop
  | append _ _ => True
  | sync => True
  | syncRing result => w.buf = [] ∨ ∃ linked, result = .reaped linked ∧
      ∀ n, linked.write = .wrote n → w.buf.length ≤ min n WalWriter.maxSubmission →
        linked.synced = true

end CommitCall

/-- A writer, the records of the appends that returned, and those of them in front of the last
sync that returned. -/
structure CommitRun where
  writer : WalWriter
  appended : List EdgeRecord
  durable : List EdgeRecord

namespace CommitRun

/-- A writer as an open hands it out. -/
def opened (w : WalWriter) : CommitRun := ⟨w, [], []⟩

def step (s : CommitRun) (call : CommitCall) : CommitRun :=
  let (ok, w) := call.run s.writer
  match call with
  | .append src dsts =>
      ⟨w, if ok then s.appended ++ StageCall.records (.append src dsts) else s.appended, s.durable⟩
  | _ => ⟨w, s.appended, if ok then s.appended else s.durable⟩

def run (s : CommitRun) (calls : List CommitCall) : CommitRun := calls.foldl step s

/-- Every ring commit keeps its write and its barrier together. -/
def Together (s : CommitRun) : List CommitCall → Prop
  | [] => True
  | call :: rest => call.Together s.writer ∧ (s.step call).Together rest

end CommitRun

/-- What a crash may leave of a writer's file.  A crash inside a call is one behind the same call
stopped there by an error. -/
def Crash (w : WalWriter) (disk : List Nat) : Prop :=
  disk <+: w.file.bytes ∧ w.file.synced ≤ disk.length

/-- The writer an open hands out over what a crash has left, with `kept` replayed. -/
def recovered (crc : List Nat → UInt32) (disk : List Nat) (kept : List EdgeRecord)
    (writes : List WriteResult) (syncs : List Bool) : WalWriter :=
  ⟨⟨(if disk.length < headerLen then header else disk).take (headerLen + kept.length * recordLen),
    headerLen + kept.length * recordLen, writes, syncs⟩, [], 0, crc⟩

/-- An open applies exactly `kept`, in order, and its file ends right behind them. -/
structure Recovers (crc : List Nat → UInt32) (disk : List Nat) (kept : List EdgeRecord) : Prop where
  opens : ∀ {σ ε : Type} (ofWal : WalError → ε) (apply : σ → EdgeRecord → Except ε σ) (state : σ)
    (writes : List WriteResult) (syncs : List Bool),
    openReplaying crc ofWal apply ⟨disk, disk.length, writes, syncs⟩ state =
      (kept.foldlM apply state).map fun final => (final, recovered crc disk kept writes syncs,
        ⟨kept.length, if disk.length ≤ headerLen + kept.length * recordLen then none
          else some (headerLen + kept.length * recordLen)⟩)
  boundary : ∀ writes syncs, (recovered crc disk kept writes syncs).file.bytes.length =
    headerLen + kept.length * recordLen

/-- A later life of the log: the answers the kernel will give and the calls made. -/
structure Session where
  writes : List WriteResult
  syncs : List Bool
  calls : List CommitCall

/-- Every open recovers, and behind a session and a crash the next open applies what this one
did, then the records of the session in order, the synced ones among them. -/
def RecoversLater (crc : List Nat → UInt32) : List Session → List Nat → List EdgeRecord → Prop
  | [], disk, kept => Recovers crc disk kept
  | s :: rest, disk, kept =>
      let start := CommitRun.opened (recovered crc disk kept s.writes s.syncs)
      Recovers crc disk kept ∧ (start.Together s.calls → ∀ disk', Crash (start.run s.calls).writer disk' →
        ∃ kept', kept ++ (start.run s.calls).durable <+: kept' ∧
          kept' <+: kept ++ (start.run s.calls).appended ∧ RecoversLater crc rest disk' kept')

namespace WalWriter

variable {w : WalWriter}

/-- `sync` behind its check for pending bytes. -/
theorem flushSync_effect (busy : w.pending ≠ 0) : SyncEffect w w.flushSync.2 w.flushSync.1 := by
  have effect := w.sync_effect
  rw [sync, if_neg busy] at effect
  exact effect

/-- A sync behind a write that took some of what is staged. -/
theorem SyncEffect.behind {w' w'' : WalWriter} {ok : Bool} (h : SyncEffect w' w'' ok)
    (content : w'.content = w.content) (crc_eq : w'.crc = w.crc)
    (grown : w.file.bytes <+: w'.file.bytes) (pending : w'.pending = w.pending)
    (synced : w'.file.synced = w.file.synced) (busy : w.pending ≠ 0) : SyncEffect w w'' ok where
  content_eq := h.content_eq.trans content
  crc_eq := h.crc_eq.trans crc_eq
  bytes_prefix := grown.trans h.bytes_prefix
  outcome := by
    rcases h.outcome with ⟨idle, -, -⟩ | ⟨-, done⟩ | ⟨-, failed, pending', synced'⟩
    · exact absurd (pending.symm.trans idle) busy
    · exact .inr (.inl ⟨busy, done⟩)
    · exact .inr (.inr ⟨busy, failed, pending'.trans pending, synced'.trans synced⟩)

/-- A ring commit that keeps its write and its barrier together does what a sync may do. -/
theorem syncRing_effect {result : RingResult} (together : (CommitCall.syncRing result).Together w) :
    SyncEffect w ((CommitCall.syncRing result).run w).2 ((CommitCall.syncRing result).run w).1 := by
  unfold CommitCall.run
  dsimp only
  by_cases idle : w.pending = 0
  · rw [if_pos idle]
    exact ⟨rfl, rfl, List.prefix_rfl, .inl ⟨idle, rfl, rfl⟩⟩
  rw [if_neg idle]
  by_cases empty : w.buf = []
  · have length : w.buf.length = 0 := List.length_eq_zero_iff.mpr empty
    cases result with
    | unconfirmed written =>
        dsimp only
        rw [if_pos length]
        exact flushSync_effect idle
    | reaped linked =>
        have barrier : w.syncUring linked = w.flushSync := by
          rw [syncUring]
          dsimp only
          rw [if_pos length, flushSync, flushBuf_of_nil empty]
        dsimp only
        rw [barrier]
        exact flushSync_effect idle
  obtain ⟨linked, rfl, whole⟩ := together.resolve_left empty
  have length : w.buf.length ≠ 0 := mt List.length_eq_zero_iff.mp empty
  dsimp only
  rw [syncUring]
  dsimp only
  rw [if_neg length]
  have nothing : SyncEffect w w false := ⟨rfl, rfl, List.prefix_rfl, .inr (.inr ⟨idle, rfl, rfl, rfl⟩)⟩
  cases wrote : linked.write with
  | failed => exact nothing
  | interrupted => exact nothing
  | wrote n =>
      dsimp only
      split
      · have tail : SyncEffect { w with
            file := { w.file with
              bytes := w.file.bytes ++ w.buf.take (min n (min w.buf.length maxSubmission)) }
            buf := w.buf.drop (min n (min w.buf.length maxSubmission)) } _ _ := flushSync_effect idle
        refine tail.behind ?_ rfl (List.prefix_append _ _) rfl rfl idle
        rw [content, content, List.append_assoc, List.take_append_drop]
      · rename_i all
        have synced := whole n wrote (by omega)
        rw [if_pos synced]
        refine ⟨?_, rfl, List.prefix_append .., .inr (.inl ⟨idle, rfl, rfl, rfl, rfl⟩)⟩
        rw [content, content, List.append_nil, List.take_of_length_le (Nat.le_of_not_lt all)]

end WalWriter

/-- With nothing staged the file is the whole log. -/
theorem Staged.length_eq {start : List Nat} {crc : List Nat → UInt32} {recs : List EdgeRecord}
    {w : WalWriter} (h : Staged start crc recs w) (empty : w.buf = []) :
    w.file.bytes.length = start.length + recs.length * recordLen := by
  have content := congrArg List.length h.content_eq
  rwa [WalWriter.content, empty, List.append_nil, List.length_append, encodeRecords_length] at content

namespace CommitRun

/-- The records of a run behind a log of the bytes `start`, and how much of them is durable. -/
structure Sound (crc : List Nat → UInt32) (start : List Nat) (s : CommitRun) : Prop where
  staged : Staged start crc s.appended s.writer
  prefix_ : s.durable <+: s.appended
  inRange : ∀ r ∈ s.appended, r.InRange
  synced : start.length + s.durable.length * recordLen ≤ s.writer.file.synced

variable {crc : List Nat → UInt32} {start : List Nat} {s : CommitRun}

theorem Sound.append (h : Sound crc start s) (src : BitVec 32) (dsts : List (BitVec 32)) :
    Sound crc start (s.step (.append src dsts)) := by
  have appended := s.writer.appendEdges_appended src.toNat (dsts.map BitVec.toNat)
  have staged := h.staged.append src.toNat (dsts.map BitVec.toNat)
  have synced := h.synced
  rw [← appended.synced_eq] at synced
  cases ok : (s.writer.appendEdges src.toNat (dsts.map BitVec.toNat)).1 with
  | false =>
      have after : s.step (.append src dsts) =
          ⟨(s.writer.appendEdges src.toNat (dsts.map BitVec.toNat)).2, s.appended, s.durable⟩ := by
        simp [step, CommitCall.run, ok]
      rw [ok, if_neg Bool.false_ne_true, List.append_nil] at staged
      rw [after]
      exact ⟨staged, h.prefix_, h.inRange, synced⟩
  | true =>
      have after : s.step (.append src dsts) =
          ⟨(s.writer.appendEdges src.toNat (dsts.map BitVec.toNat)).2,
            s.appended ++ StageCall.records (.append src dsts), s.durable⟩ := by
        simp [step, CommitCall.run, ok]
      rw [ok, if_pos rfl] at staged
      rw [after]
      refine ⟨staged, h.prefix_.trans (List.prefix_append _ _), fun r hr => ?_, synced⟩
      exact (List.mem_append.mp hr).elim (h.inRange r) (StageCall.records_inRange _ r)

/-- A sync that returns makes every record durable. -/
theorem Sound.barrier (h : Sound crc start s) {w : WalWriter} {ok : Bool}
    (effect : s.writer.SyncEffect w ok) :
    Sound crc start ⟨w, s.appended, if ok then s.appended else s.durable⟩ := by
  have staged := h.staged.of_effect effect
  refine ⟨staged, ?_, h.inRange, ?_⟩
  · dsimp only
    split
    · exact List.prefix_rfl
    · exact h.prefix_
  rcases effect.outcome with ⟨idle, rfl, rfl⟩ | ⟨-, rfl, empty, -, synced⟩ | ⟨-, rfl, -, synced⟩
  · rw [if_pos rfl]
    rcases h.staged.covered idle with none | covered
    · have nothing := h.prefix_
      rw [none, List.prefix_nil] at nothing
      have synced := h.synced
      rw [nothing] at synced
      rw [none]
      exact synced
    · rw [← h.staged.length_eq (h.staged.idle idle)]
      exact covered
  · rw [if_pos rfl, ← staged.length_eq empty]
    exact Nat.le_of_eq synced.symm
  · rw [if_neg Bool.false_ne_true]
    exact synced ▸ h.synced

theorem Sound.step (h : Sound crc start s) {call : CommitCall} (together : call.Together s.writer) :
    Sound crc start (s.step call) := by
  cases call with
  | append src dsts => exact h.append src dsts
  | sync => exact h.barrier s.writer.sync_effect
  | syncRing result => exact h.barrier (WalWriter.syncRing_effect together)

theorem Sound.run (h : Sound crc start s) {calls : List CommitCall} (together : s.Together calls) :
    Sound crc start (s.run calls) := by
  induction calls generalizing s with
  | nil => exact h
  | cons call rest ih => exact ih (h.step together.1) together.2

end CommitRun

/-- A disk with the records `kept` whole: not even a header, or a log and a torn tail. -/
def Left (crc : List Nat → UInt32) (disk : List Nat) (kept : List EdgeRecord) : Prop :=
  disk.length < headerLen ∧ kept = [] ∨
    ∃ whole torn, disk = whole ++ torn ∧ torn.length < recordLen ∧ LogOf crc whole kept

variable {crc : List Nat → UInt32} {disk : List Nat} {kept : List EdgeRecord}

/-- A crash keeps the durable records, and of the others the first ones. -/
theorem CommitRun.Sound.crash {start : List Nat} {s : CommitRun} (h : s.Sound crc start)
    (log : LogOf crc start kept) (crash : Crash s.writer disk) :
    ∃ kept', kept ++ s.durable <+: kept' ∧ kept' <+: kept ++ s.appended ∧ Left crc disk kept' := by
  obtain ⟨pre, enough⟩ := crash
  have whole : LogOf crc s.writer.content (kept ++ s.appended) :=
    h.staged.content_eq ▸ log.append h.inRange
  have synced := h.synced
  have start_length := log.length_eq
  have long : headerLen ≤ disk.length := by omega
  obtain ⟨front, torn, same, short, log'⟩ :=
    whole.of_prefix (pre.trans (List.prefix_append _ _)) long
  refine ⟨_, List.prefix_take_iff.mpr ⟨?_, ?_⟩, List.take_prefix _ _, .inr ⟨front, torn, same, short, log'⟩⟩
  · exact (List.prefix_append_right_inj kept).mpr h.prefix_
  · refine (Nat.le_div_iff_mul_le (by decide)).mpr ?_
    rw [List.length_append, Nat.add_mul]
    omega

/-- The file an open leaves is a log of what it replayed. -/
theorem Left.log (h : Left crc disk kept) (writes : List WriteResult) (syncs : List Bool) :
    LogOf crc (recovered crc disk kept writes syncs).file.bytes kept := by
  rcases h with ⟨short, rfl⟩ | ⟨whole, torn, rfl, -, log⟩
  · rw [recovered, if_pos short]
    exact ⟨Nat.le_refl 16, rfl, rfl, rfl, nofun⟩
  · have long : ¬ (whole ++ torn).length < headerLen := by
      have := log.long
      rw [List.length_append]
      omega
    rw [recovered, if_neg long, ← log.length_eq]
    dsimp only
    rw [List.take_left]
    exact log

theorem Left.recovers (h : Left crc disk kept) : Recovers crc disk kept := by
  refine ⟨fun ofWal apply state writes syncs => ?_, fun writes syncs => (h.log writes syncs).length_eq⟩
  rcases h with ⟨short, rfl⟩ | ⟨whole, torn, rfl, short, log⟩
  · have created : createOrOpen ⟨disk, disk.length, writes, syncs⟩ =
        .ok ⟨header, headerLen, writes, syncs⟩ := if_pos short
    have nothing : replayRecords crc apply header.length state 0 headerLen (header.drop headerLen) =
        .ok (state, ⟨0, none⟩) := by
      rw [replayRecords, if_pos (by decide)]
      rfl
    rw [openReplaying, created]
    dsimp only
    rw [nothing, recovered, if_pos short, List.length_nil, Nat.zero_mul, Nat.add_zero,
      if_pos (Nat.le_of_lt short)]
    rfl
  · have long := log.long
    have total : (whole ++ torn).length = whole.length + torn.length := List.length_append
    have magic_eq : (whole ++ torn).take 8 = magic := by
      rw [List.take_append_of_le_length (Nat.le_trans (by decide) long), log.magic_eq]
    have version_eq : ofLeBytes (((whole ++ torn).drop 8).take 4) = version := by
      have sixteen : 16 ≤ whole.length := long
      rw [List.drop_append_of_le_length (by omega), List.take_append_of_le_length (by
        rw [List.length_drop]; omega), log.version_eq]
    have rest : (whole ++ torn).drop headerLen = encodeRecords crc kept ++ torn := by
      rw [List.drop_append_of_le_length long, log.records]
    have created : createOrOpen ⟨whole ++ torn, (whole ++ torn).length, writes, syncs⟩ =
        .ok ⟨whole ++ torn, (whole ++ torn).length, writes, syncs⟩ := by
      rw [createOrOpen]
      dsimp only
      rw [if_neg (by omega), if_neg (not_not.mpr magic_eq), if_neg (not_not.mpr version_eq)]
    rw [openReplaying, created]
    dsimp only
    have long' : ¬ (whole ++ torn).length < headerLen := by omega
    rw [rest, replayRecords_encoded log.inRange _ _ _ _ short, ← log.length_eq, recovered,
      if_neg long', ← log.length_eq, List.take_left, Nat.zero_add]
    cases kept.foldlM apply state with
    | error e => rfl
    | ok final =>
        cases torn with
        | nil =>
            rw [List.append_nil, if_pos rfl, if_pos (Nat.le_refl _)]
            rfl
        | cons b torn =>
            rw [List.length_cons] at total
            rw [if_neg (by omega), if_neg (by omega)]
            simp only [Except.map, List.take_left]

theorem Left.later (h : Left crc disk kept) (sessions : List Session) :
    RecoversLater crc sessions disk kept := by
  induction sessions generalizing disk kept with
  | nil => exact h.recovers
  | cons s rest ih =>
      refine ⟨h.recovers, fun together disk' crash => ?_⟩
      have log := h.log s.writes s.syncs
      have start : (CommitRun.opened (recovered crc disk kept s.writes s.syncs)).Sound crc
          (recovered crc disk kept s.writes s.syncs).file.bytes := by
        refine ⟨⟨rfl, rfl, List.prefix_rfl, fun _ => rfl, fun _ => .inl rfl⟩, List.prefix_rfl, nofun, ?_⟩
        rw [log.length_eq]
        exact Nat.le_refl _
      obtain ⟨kept', some_, few, left⟩ := (start.run together).crash log crash
      exact ⟨kept', some_, few, ih left⟩

/-- In every life of a log whose ring commits keep the write and the barrier together: what a
crash leaves is opened, by applying a prefix of the appended records that holds every synced one,
and so is what every later crash leaves, behind exactly that prefix. -/
theorem wal_crash_recovery (crc : List Nat → UInt32) (file opened : LogFile)
    (new : file.bytes.length < headerLen) (created : createOrOpen file = .ok opened)
    (calls : List CommitCall) (together : (CommitRun.opened (.opened crc opened)).Together calls)
    (disk : List Nat)
    (crash : calls = [] ∧ disk.length < headerLen ∨
      Crash ((CommitRun.opened (.opened crc opened)).run calls).writer disk)
    (sessions : List Session) :
    let s := (CommitRun.opened (.opened crc opened)).run calls
    ∃ kept, s.durable <+: kept ∧ kept <+: s.appended ∧ RecoversLater crc sessions disk kept := by
  intro s
  rcases crash with ⟨rfl, short⟩ | crash
  · have left : Left crc disk [] := .inl ⟨short, rfl⟩
    exact ⟨[], List.prefix_rfl, List.prefix_rfl, left.later sessions⟩
  · have bytes : opened = { file with bytes := header, synced := headerLen } := by
      rw [createOrOpen, if_pos new] at created
      exact (Except.ok.inj created).symm
    subst bytes
    have log : LogOf crc header [] := ⟨Nat.le_refl 16, rfl, rfl, rfl, nofun⟩
    have start : (CommitRun.opened (.opened crc
        { file with bytes := header, synced := headerLen })).Sound crc header :=
      ⟨⟨rfl, rfl, List.prefix_rfl, fun _ => rfl, fun _ => .inl rfl⟩, List.prefix_rfl, nofun,
        Nat.le_refl 16⟩
    obtain ⟨kept, some_, few, left⟩ := (start.run together).crash log crash
    exact ⟨kept, some_, few, left.later sessions⟩

section Torn

/-- Two records behind a barrier, and five bytes of a third. -/
def tornLife : CommitRun :=
  (CommitRun.opened (.opened crc32Hash ⟨header, 16, [.wrote 24, .wrote 5, .failed], []⟩)).run
    [.append 1 [2, 3], .sync, .append 4 [5], .sync]

theorem wal_crash_recovery_torn :
    ∃ kept, tornLife.durable <+: kept ∧ kept <+: tornLife.appended ∧
      RecoversLater crc32Hash [⟨[], [], [.append 6 [7], .sync]⟩] tornLife.writer.file.bytes kept :=
  wal_crash_recovery crc32Hash ⟨[], 0, [.wrote 24, .wrote 5, .failed], []⟩
    ⟨header, 16, [.wrote 24, .wrote 5, .failed], []⟩ (by decide) rfl
    [.append 1 [2, 3], .sync, .append 4 [5], .sync] ⟨trivial, trivial, trivial, trivial, trivial⟩
    tornLife.writer.file.bytes (.inr ⟨List.prefix_rfl, by decide +kernel⟩)
    [⟨[], [], [.append 6 [7], .sync]⟩]

/-- A ring commit written whole without its barrier, and the retry. -/
def doubledLife : CommitRun :=
  (CommitRun.opened (.opened crc32Hash ⟨header, 16, [], []⟩)).run
    [.append 0 [1], .syncRing (.reaped ⟨.wrote 12, false⟩), .sync]

/-- The retry writes the record a second time, and an open applies both. -/
theorem ring_retry_doubles :
    Crash doubledLife.writer doubledLife.writer.file.bytes ∧ doubledLife.appended = [⟨0, 1⟩] ∧
      Recovers crc32Hash doubledLife.writer.file.bytes [⟨0, 1⟩, ⟨0, 1⟩] ∧
      ¬ ∃ kept, doubledLife.durable <+: kept ∧ kept <+: doubledLife.appended ∧
        Recovers crc32Hash doubledLife.writer.file.bytes kept := by
  have bytes : doubledLife.writer.file.bytes =
      header ++ encodeRecords crc32Hash [⟨0, 1⟩, ⟨0, 1⟩] := by decide +kernel
  have appended : doubledLife.appended = [⟨0, 1⟩] := by decide +kernel
  have log : LogOf crc32Hash (header ++ encodeRecords crc32Hash [⟨0, 1⟩, ⟨0, 1⟩])
      [⟨0, 1⟩, ⟨0, 1⟩] := by
    have empty : LogOf crc32Hash header [] := ⟨Nat.le_refl 16, rfl, rfl, rfl, nofun⟩
    refine empty.append fun r hr => ?_
    rw [List.mem_cons, List.mem_singleton, or_self] at hr
    rw [hr]
    exact ⟨by decide, by decide⟩
  have twice : Recovers crc32Hash doubledLife.writer.file.bytes [⟨0, 1⟩, ⟨0, 1⟩] := by
    rw [bytes]
    exact Left.recovers (.inr ⟨_, [], (List.append_nil _).symm, by decide, log⟩)
  refine ⟨⟨List.prefix_rfl, by decide +kernel⟩, appended, twice, ?_⟩
  rintro ⟨kept, -, few, recovers⟩
  have same := (twice.opens id collect [] [] []).symm.trans (recovers.opens id collect [] [] [])
  rw [foldlM_collect, foldlM_collect] at same
  have kept_eq := congrArg Prod.fst (Except.ok.inj same)
  dsimp only at kept_eq
  rw [List.nil_append, List.nil_append] at kept_eq
  rw [← kept_eq, appended] at few
  exact absurd few.length_le (by decide)

end Torn

end AetherGraph
