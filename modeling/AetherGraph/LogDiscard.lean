import AetherGraph.LogStaging

/-! Discarding what is staged.  A discard that finds the file on a record boundary keeps the
log usable: everything a later sync covers is replayed.  One behind a torn write leaves the
torn record in the file, and what is appended next lands inside it. -/

namespace AetherGraph

inductive LogCall where
  | stage (call : StageCall)
  | discard
  deriving DecidableEq, Repr

/-- A writer, the records appended since its last successful sync or discard, and the records
that a successful sync has covered. -/
structure LogRun where
  writer : WalWriter
  waiting : List EdgeRecord
  covered : List EdgeRecord

namespace LogRun

def step (s : LogRun) : LogCall → LogRun
  | .stage (.append src dsts) =>
      ⟨(StageCall.run s.writer (.append src dsts)).2,
        s.waiting ++ StageCall.accepted s.writer (.append src dsts), s.covered⟩
  | .stage .sync =>
      if s.writer.sync.1 then ⟨s.writer.sync.2, [], s.covered ++ s.waiting⟩
      else ⟨s.writer.sync.2, s.waiting, s.covered⟩
  | .discard => ⟨s.writer.discardPending, [], s.covered⟩

def run (s : LogRun) (calls : List LogCall) : LogRun := calls.foldl step s

/-- The file ends with a whole record. -/
def OnBoundary (s : LogRun) : Prop := (s.writer.file.bytes.length - headerLen) % recordLen = 0

/-- Every discard finds the file on a record boundary. -/
def DiscardsAligned (s : LogRun) : List LogCall → Prop
  | [] => True
  | call :: rest => (call = .discard → s.OnBoundary) ∧ (s.step call).DiscardsAligned rest

/-- How many records behind the first `old` the file holds whole. -/
def reached (s : LogRun) (old : List EdgeRecord) : Nat :=
  (s.writer.file.bytes.length - headerLen) / recordLen - old.length

/-- The log behind `old` and `base`, whose last records still wait for a sync. -/
structure Usable (crc : List Nat → UInt32) (old base : List EdgeRecord) (s : LogRun) : Prop where
  crc_eq : s.writer.crc = crc
  log : LogOf crc s.writer.content (old ++ base)
  long : headerLen + old.length * recordLen ≤ s.writer.file.bytes.length
  idle : s.writer.pending = 0 → s.writer.buf = []
  pending : s.writer.pending = s.waiting.length * recordLen
  settled : ∃ front, base = front ++ s.waiting ∧ s.covered.Sublist front
  whole : s.covered.Sublist (base.take (s.reached old))

variable {crc : List Nat → UInt32} {old base : List EdgeRecord} {s : LogRun}

theorem reached_mono {s' : LogRun} (grown : s.writer.file.bytes <+: s'.writer.file.bytes) :
    s.reached old ≤ s'.reached old :=
  Nat.sub_le_sub_right
    (Nat.div_le_div_right (Nat.sub_le_sub_right grown.length_le _)) _

/-- Whole records of the file, in a prefix of a longer log. -/
theorem take_reached {s' : LogRun} (grown : s.writer.file.bytes <+: s'.writer.file.bytes)
    (more : List EdgeRecord) :
    (base.take (s.reached old)).Sublist ((base ++ more).take (s'.reached old)) := by
  rw [List.take_append]
  exact (List.take_prefix_take_left (reached_mono grown)).sublist.trans
    (List.prefix_append _ _).sublist

theorem Usable.append (h : Usable crc old base s) (src : BitVec 32) (dsts : List (BitVec 32)) :
    ∃ base', Usable crc old base' (s.step (.stage (.append src dsts))) := by
  have appended := s.writer.appendEdges_appended src.toNat (dsts.map BitVec.toNat)
  obtain ⟨front, split, settled⟩ := h.settled
  have accepted : ∀ r ∈ StageCall.accepted s.writer (.append src dsts), r.InRange := by
    intro r hr
    unfold StageCall.accepted at hr
    split at hr
    · exact StageCall.records_inRange _ r hr
    · nomatch hr
  refine ⟨base ++ StageCall.accepted s.writer (.append src dsts), appended.crc_eq.trans h.crc_eq,
    ?_, Nat.le_trans h.long (List.IsPrefix.length_le appended.bytes_prefix), ?_, ?_,
    ⟨front, by rw [split, List.append_assoc]; rfl, settled⟩,
    h.whole.trans (take_reached appended.bytes_prefix _)⟩
  · have log := h.log.append accepted
    rw [List.append_assoc, ← h.crc_eq] at log
    rw [← h.crc_eq]
    exact appended.content_eq ▸ log
  · exact fun none => (WalWriter.appendEdges_idle h.idle none).2.2
  · show (s.writer.appendEdges _ _).2.pending = _
    rw [appended.pending_eq, h.pending, ← Nat.add_mul, ← List.length_append]
    rfl

/-- A sync that returns covers what was waiting; one that fails covers nothing. -/
theorem Usable.sync (h : Usable crc old base s) : Usable crc old base (s.step (.stage .sync)) := by
  have effect := s.writer.sync_effect
  obtain ⟨front, split, settled⟩ := h.settled
  have log : LogOf crc s.writer.sync.2.content (old ++ base) := effect.content_eq ▸ h.log
  have long := Nat.le_trans h.long (List.IsPrefix.length_le effect.bytes_prefix)
  have crc_eq := effect.crc_eq.trans h.crc_eq
  have reaches : s.covered.Sublist (base.take (reached ⟨s.writer.sync.2, [], []⟩ old)) := by
    have more : (base.take (s.reached old)).Sublist
        ((base ++ []).take (reached ⟨s.writer.sync.2, [], []⟩ old)) :=
      take_reached effect.bytes_prefix []
    rw [List.append_nil] at more
    exact h.whole.trans more
  -- with nothing staged the file holds every record whole
  have all : s.writer.sync.2.buf = [] →
      base.take (reached ⟨s.writer.sync.2, [], []⟩ old) = base := by
    intro empty
    have length := log.length_eq
    rw [WalWriter.content, empty, List.append_nil, List.length_append] at length
    refine List.take_of_length_le ?_
    unfold reached
    dsimp only
    rw [length, Nat.add_sub_cancel_left, Nat.mul_div_cancel _ (by decide)]
    omega
  rcases effect.outcome with ⟨idle, ok, same⟩ | ⟨-, ok, empty, none, -⟩ | ⟨busy, failed, pending, -⟩
  · have nobody : s.waiting = [] := by
      have pending := h.pending
      rw [idle] at pending
      unfold recordLen at pending
      exact List.length_eq_zero_iff.mp (by omega)
    have unchanged : s.step (.stage .sync) = s := by
      rw [step, if_pos ok, same, nobody, List.append_nil]
      rw [← nobody]
    rwa [unchanged]
  · rw [step, if_pos ok]
    refine ⟨crc_eq, log, long, fun _ => empty, none, ⟨base, (List.append_nil base).symm, ?_⟩, ?_⟩
    · rw [split]
      exact settled.append_right _
    · show (s.covered ++ s.waiting).Sublist (base.take (reached ⟨s.writer.sync.2, [], []⟩ old))
      rw [all empty, split]
      exact settled.append_right _
  · rw [step, if_neg (by rw [failed]; exact Bool.false_ne_true)]
    exact ⟨crc_eq, log, long, fun none => absurd (pending.symm.trans none) busy,
      pending.trans h.pending, ⟨front, split, settled⟩, reaches⟩

/-- The file is the records it holds whole and a torn tail. -/
theorem Usable.file_split (h : Usable crc old base s) :
    ∃ kept torn, s.writer.file.bytes = kept ++ torn ∧ torn.length < recordLen ∧
      LogOf crc kept (old ++ base.take (s.reached old)) := by
  have long := h.long
  obtain ⟨kept, torn, same, short, log⟩ := h.log.of_prefix (List.prefix_append _ s.writer.buf)
    (Nat.le_trans (Nat.le_add_right _ _) long)
  refine ⟨kept, torn, same, short, ?_⟩
  have enough : old.length ≤ (s.writer.file.bytes.length - headerLen) / recordLen :=
    (Nat.le_div_iff_mul_le (by decide)).mpr (by omega)
  rwa [List.take_append, List.take_of_length_le enough] at log

/-- A discard on a record boundary keeps the records the file holds. -/
theorem Usable.discard (h : Usable crc old base s) (aligned : s.OnBoundary) :
    Usable crc old (base.take (s.reached old)) (s.step .discard) := by
  obtain ⟨kept, torn, same, short, log⟩ := h.file_split
  have length := log.length_eq
  have total := congrArg List.length same
  rw [List.length_append] at total
  have none : torn = [] := by
    unfold OnBoundary headerLen at aligned
    unfold recordLen at aligned short length
    unfold headerLen at length
    exact List.length_eq_zero_iff.mp (by omega)
  rw [none, List.append_nil] at same
  have reached_eq : (s.step .discard).reached old = s.reached old := rfl
  refine ⟨h.crc_eq, ?_, h.long, fun _ => rfl, (Nat.zero_mul _).symm,
    ⟨_, (List.append_nil _).symm, h.whole⟩, ?_⟩
  · show LogOf crc (s.writer.file.bytes ++ []) _
    rw [List.append_nil, same]
    exact log
  · rw [reached_eq, List.take_take, Nat.min_self]
    exact h.whole

theorem Usable.step (h : Usable crc old base s) (call : LogCall)
    (aligned : call = .discard → s.OnBoundary) : ∃ base', Usable crc old base' (s.step call) := by
  cases call with
  | discard => exact ⟨_, h.discard (aligned rfl)⟩
  | stage call =>
      cases call with
      | append src dsts => exact h.append src dsts
      | sync => exact ⟨base, h.sync⟩

theorem Usable.run (h : Usable crc old base s) (calls : List LogCall)
    (aligned : s.DiscardsAligned calls) : ∃ base', Usable crc old base' (s.run calls) := by
  induction calls generalizing s base with
  | nil => exact ⟨base, h⟩
  | cons call rest ih =>
      obtain ⟨base', next⟩ := h.step call aligned.1
      exact ih next aligned.2

/-- The file of a usable log replays to every record a sync has covered. -/
theorem Usable.replays (h : Usable crc old base s) :
    ∃ more outcome, replay crc id collect (some s.writer.file.bytes) [] =
      .ok (old ++ more, outcome) ∧ s.covered.Sublist more := by
  obtain ⟨kept, torn, same, short, log⟩ := h.file_split
  have replayed := log.replay_torn id collect [] short
  rw [← same, foldlM_collect] at replayed
  exact ⟨base.take (s.reached old), _, replayed, h.whole⟩

/-- The writer as it was opened. -/
def opened (w : WalWriter) : LogRun := ⟨w, [], []⟩

end LogRun

/-- In every run whose discards find the file on a record boundary, at every state: the file
replays to the records of the open and to every record that a successful sync has covered since,
in order. -/
theorem discard_keeps_covered (crc : List Nat → UInt32) (file : LogFile)
    (small : ∀ b ∈ file.bytes, b < 256) (old : List EdgeRecord) (w : WalWriter)
    (outcome : ReplayOutcome)
    (open_ : openReplaying crc id collect file [] = .ok (old, w, outcome))
    (calls : List LogCall) (aligned : (LogRun.opened w).DiscardsAligned calls) :
    ∃ more outcome, replay crc id collect
        (some ((LogRun.opened w).run calls).writer.file.bytes) [] = .ok (old ++ more, outcome) ∧
      ((LogRun.opened w).run calls).covered.Sublist more := by
  obtain ⟨buf, pending, crc_eq, recs, log, folded, -⟩ := openReplaying_log small open_
  rw [foldlM_collect, List.nil_append] at folded
  obtain rfl := Except.ok.inj folded
  have start : LogRun.Usable crc recs [] (LogRun.opened w) :=
    { crc_eq := crc_eq
      log := by
        rw [List.append_nil]
        show LogOf crc (w.file.bytes ++ w.buf) recs
        rwa [buf, List.append_nil]
      long := Nat.le_of_eq log.length_eq.symm
      idle := fun _ => buf
      pending := pending
      settled := ⟨[], rfl, List.Sublist.refl _⟩
      whole := List.nil_sublist _ }
  obtain ⟨base, usable⟩ := start.run calls aligned
  exact usable.replays

/-- A discard of whole records, and what is appended behind it. -/
theorem discard_keeps_covered_fresh :
    ∃ more outcome, replay (fun _ => 7) id collect
        (some ((LogRun.opened ⟨⟨header, 16, [], []⟩, [], 0, fun _ => 7⟩).run
          [.stage (.append 0 [1]), .discard, .stage (.append 2 [3]),
            .stage .sync]).writer.file.bytes) [] = .ok ([] ++ more, outcome) ∧
      ((LogRun.opened ⟨⟨header, 16, [], []⟩, [], 0, fun _ => 7⟩).run
        [.stage (.append 0 [1]), .discard, .stage (.append 2 [3]),
          .stage .sync]).covered.Sublist more :=
  discard_keeps_covered (fun _ => 7) ⟨header, 16, [], []⟩ (by decide) [] _ ⟨0, none⟩
    (openReplaying_header id collect ⟨[], 16, [], []⟩ []) _
    ⟨nofun, fun _ => rfl, nofun, nofun, trivial⟩

section Torn

/-- The bit loop of the IEEE checksum, over one byte. -/
def crc32Step (crc byte : Nat) : Nat :=
  (List.range 8).foldl
    (fun c _ => if c % 2 = 1 then (c >>> 1) ^^^ 0xEDB88320 else c >>> 1) (crc ^^^ byte)

def crc32Hash (bytes : List Nat) : UInt32 :=
  UInt32.ofNat (bytes.foldl crc32Step 0xFFFFFFFF ^^^ 0xFFFFFFFF)

example : crc32Hash [0x31, 0x32, 0x33, 0x34, 0x35, 0x36, 0x37, 0x38, 0x39] = 0xCBF43926 := by
  decide +kernel

/-- A log whose first write is torn after five bytes. -/
def tornFile : LogFile := ⟨header, 16, [.wrote 5, .failed], []⟩

def tornCalls : List LogCall :=
  [.stage (.append 0 [1]), .stage .sync, .discard, .stage (.append 2 [3]), .stage .sync]

def tornRun : LogRun := (LogRun.opened ⟨tornFile, [], 0, crc32Hash⟩).run tornCalls

/-- The record appended after the discard is covered by a successful sync and never replayed. -/
theorem discard_after_torn_write :
    openReplaying crc32Hash id collect tornFile [] =
        .ok ([], ⟨tornFile, [], 0, crc32Hash⟩, ⟨0, none⟩) ∧
      tornRun.covered = [⟨2, 3⟩] ∧
      replay crc32Hash id collect (some tornRun.writer.file.bytes) [] =
        .ok ([], ⟨0, some 16⟩) := by
  have bytes : tornRun.writer.file.bytes =
      header ++ ([0, 0, 0, 0, 1] ++ encodeRecord crc32Hash ⟨2, 3⟩) := by decide +kernel
  have length : (header ++ ([0, 0, 0, 0, 1] ++ encodeRecord crc32Hash ⟨2, 3⟩)).length = 33 := rfl
  refine ⟨openReplaying_header id collect tornFile [], by decide +kernel, ?_⟩
  rw [bytes, replay, if_neg (by rw [length]; decide), if_neg (by rw [length]; decide),
    if_neg (by decide), if_neg (by decide), replayRecords, if_neg (by decide),
    if_pos (by decide +kernel)]
  rfl

end Torn

end AetherGraph
