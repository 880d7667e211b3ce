import AetherGraph.LogReplay

/-! What the log writer stages.  Whatever the kernel answers, the file and the staged bytes
together are the log at the open and every record of an append that returned; nothing is
pending only behind a barrier. -/

namespace AetherGraph

namespace WalWriter

/-- What a sync leaves: nothing to do, done, or short of the barrier. -/
structure SyncEffect (w w' : WalWriter) (ok : Bool) : Prop where
  content_eq : w'.content = w.content
  crc_eq : w'.crc = w.crc
  bytes_prefix : w.file.bytes <+: w'.file.bytes
  outcome : w.pending = 0 ∧ ok = true ∧ w' = w ∨
    w.pending ≠ 0 ∧ ok = true ∧ w'.buf = [] ∧ w'.pending = 0 ∧
      w'.file.synced = w'.file.bytes.length ∨
    w.pending ≠ 0 ∧ ok = false ∧ w'.pending = w.pending ∧ w'.file.synced = w.file.synced

/-- A barrier leaves the bytes alone. -/
theorem syncData_spec (f : LogFile) : f.syncData.2.bytes = f.bytes ∧
    f.syncData.2.synced = if f.syncData.1 then f.bytes.length else f.synced := by
  unfold LogFile.syncData
  cases f.syncs with
  | nil => exact ⟨rfl, rfl⟩
  | cons ok syncs => exact ⟨rfl, rfl⟩

theorem sync_effect (w : WalWriter) : SyncEffect w w.sync.2 w.sync.1 := by
  by_cases idle : w.pending = 0
  · rw [sync, if_pos idle]
    exact ⟨rfl, rfl, List.prefix_rfl, .inl ⟨idle, rfl, rfl⟩⟩
  rw [sync, if_neg idle]
  obtain ⟨flushed, emptied⟩ := w.flushBuf_appended
  have content := flushed.content_eq
  have pending := flushed.pending_eq
  rw [encodeRecords, List.flatMap_nil, List.append_nil] at content
  rw [List.length_nil, Nat.zero_mul, Nat.add_zero] at pending
  cases result : w.flushBuf with
  | mk ok w' =>
      rw [result] at emptied content pending flushed
      cases ok with
      | false =>
          exact ⟨content, flushed.crc_eq, flushed.bytes_prefix,
            .inr (.inr ⟨idle, rfl, pending, flushed.synced_eq⟩)⟩
      | true =>
          obtain ⟨bytes, synced⟩ := syncData_spec w'.file
          have kept := flushed.bytes_prefix
          dsimp only at content pending emptied kept ⊢
          cases barrier : w'.file.syncData with
          | mk done file =>
              rw [barrier] at bytes synced
              dsimp only at bytes synced
              rw [← bytes] at kept
              cases done with
              | false =>
                  refine ⟨?_, flushed.crc_eq, kept, .inr (.inr ⟨idle, rfl, pending, ?_⟩)⟩
                  · rw [← content, WalWriter.content, WalWriter.content, bytes]
                  · exact synced.trans flushed.synced_eq
              | true =>
                  refine ⟨?_, flushed.crc_eq, kept, .inr (.inl ⟨idle, rfl, emptied rfl, rfl, ?_⟩)⟩
                  · rw [← content, WalWriter.content, WalWriter.content, bytes]
                  · exact synced.trans (congrArg _ bytes.symm)

/-- With nothing staged there is nothing to spill. -/
theorem appendEdges_of_buf_nil {w : WalWriter} (empty : w.buf = []) (src : Nat) (dsts : List Nat) :
    w.appendEdges src dsts =
      (true, { w with buf := encodeRecords w.crc (dsts.map fun dst => ⟨src, dst⟩)
                      pending := w.pending + dsts.length * recordLen }) := by
  rw [appendEdges]
  dsimp only
  rw [if_neg (by rw [empty]; exact Bool.false_ne_true), empty]
  rfl

/-- A writer with nothing pending after an append has appended nothing. -/
theorem appendEdges_idle {w : WalWriter} (idle : w.pending = 0 → w.buf = []) {src : Nat}
    {dsts : List Nat} (none : (w.appendEdges src dsts).2.pending = 0) :
    w.pending = 0 ∧ dsts = [] ∧ (w.appendEdges src dsts).2.buf = [] := by
  have pending := (w.appendEdges_appended src dsts).pending_eq
  rw [none] at pending
  have before : w.pending = 0 := by omega
  rw [appendEdges_of_buf_nil (idle before), if_pos rfl, List.length_map] at pending
  unfold recordLen at pending
  obtain rfl : dsts = [] := List.length_eq_zero_iff.mp (by omega)
  refine ⟨before, rfl, ?_⟩
  rw [appendEdges_of_buf_nil (idle before)]
  rfl

end WalWriter

/-- A call of the writer that a guard makes. -/
inductive StageCall where
  | append (src : BitVec 32) (dsts : List (BitVec 32))
  | sync
  deriving DecidableEq, Repr

namespace StageCall

def run (w : WalWriter) : StageCall → Bool × WalWriter
  | append src dsts => w.appendEdges src.toNat (dsts.map BitVec.toNat)
  | sync => w.sync

/-- The records a call hands to the log. -/
def records : StageCall → List EdgeRecord
  | append src dsts => (dsts.map BitVec.toNat).map fun dst => ⟨src.toNat, dst⟩
  | sync => []

theorem records_inRange (call : StageCall) : ∀ r ∈ call.records, r.InRange := by
  intro r hr
  cases call with
  | sync => nomatch hr
  | append src dsts =>
      obtain ⟨d, hd, rfl⟩ := List.mem_map.mp hr
      obtain ⟨dst, -, rfl⟩ := List.mem_map.mp hd
      exact ⟨src.isLt, dst.isLt⟩

/-- The records of a call that returned without an error. -/
def accepted (w : WalWriter) (call : StageCall) : List EdgeRecord :=
  if (call.run w).1 then call.records else []

end StageCall

/-- The calls one after the other, with the records of those that returned without an error. -/
def runCalls (w : WalWriter) : List StageCall → WalWriter × List EdgeRecord
  | [] => (w, [])
  | call :: rest =>
      let (w', recs) := runCalls (call.run w).2 rest
      (w', call.accepted w ++ recs)

/-- The writer after `recs` went into a log whose file began with `start`. -/
structure Staged (start : List Nat) (crc : List Nat → UInt32) (recs : List EdgeRecord)
    (w : WalWriter) : Prop where
  content_eq : w.content = start ++ encodeRecords crc recs
  crc_eq : w.crc = crc
  grown : start <+: w.file.bytes
  idle : w.pending = 0 → w.buf = []
  covered : w.pending = 0 → recs = [] ∨ w.file.bytes.length ≤ w.file.synced

namespace Staged

variable {start : List Nat} {crc : List Nat → UInt32} {recs : List EdgeRecord} {w : WalWriter}

theorem of_effect (h : Staged start crc recs w) {w' : WalWriter} {ok : Bool}
    (effect : w.SyncEffect w' ok) : Staged start crc recs w' := by
  refine ⟨effect.content_eq.trans h.content_eq, effect.crc_eq.trans h.crc_eq,
    h.grown.trans effect.bytes_prefix, ?_, ?_⟩
  · rcases effect.outcome with ⟨idle, -, same⟩ | ⟨-, -, empty, -⟩ | ⟨busy, -, pending, -⟩
    · rw [same]
      exact h.idle
    · exact fun _ => empty
    · rw [pending]
      exact fun idle => absurd idle busy
  · rcases effect.outcome with ⟨idle, -, same⟩ | ⟨-, -, -, -, synced⟩ | ⟨busy, -, pending, -⟩
    · rw [same]
      exact h.covered
    · exact fun _ => .inr (Nat.le_of_eq synced.symm)
    · rw [pending]
      exact fun idle => absurd idle busy

theorem sync (h : Staged start crc recs w) : Staged start crc recs w.sync.2 :=
  h.of_effect w.sync_effect

theorem append (h : Staged start crc recs w) (src : Nat) (dsts : List Nat) :
    Staged start crc
      (recs ++ if (w.appendEdges src dsts).1 then dsts.map (⟨src, ·⟩) else [])
      (w.appendEdges src dsts).2 := by
  have appended := w.appendEdges_appended src dsts
  refine ⟨?_, appended.crc_eq.trans h.crc_eq, h.grown.trans appended.bytes_prefix,
    fun idle => ?_, fun idle => ?_⟩
  · rw [appended.content_eq, h.content_eq, h.crc_eq, List.append_assoc, encodeRecords_append]
  · exact (WalWriter.appendEdges_idle h.idle idle).2.2
  · obtain ⟨before, rfl, -⟩ := WalWriter.appendEdges_idle h.idle idle
    have covered := h.covered before
    rw [WalWriter.appendEdges_of_buf_nil (h.idle before), if_pos rfl, List.map_nil,
      List.append_nil]
    exact covered

theorem step (h : Staged start crc recs w) (call : StageCall) :
    Staged start crc (recs ++ call.accepted w) (call.run w).2 := by
  cases call with
  | append src dsts => exact h.append src.toNat (dsts.map BitVec.toNat)
  | sync =>
      have none : StageCall.accepted w .sync = [] := ite_self _
      rw [none, List.append_nil]
      exact h.sync

theorem runCalls (h : Staged start crc recs w) (calls : List StageCall) :
    Staged start crc (recs ++ (runCalls w calls).2) (runCalls w calls).1 := by
  induction calls generalizing recs w with
  | nil =>
      rw [show (AetherGraph.runCalls w []).2 = [] from rfl, List.append_nil]
      exact h
  | cons call rest ih =>
      have after := ih (h.step call)
      rwa [List.append_assoc] at after

/-- A sync that returns leaves nothing staged and nothing pending. -/
theorem sync_ok (h : Staged start crc recs w) (ok : w.sync.1 = true) :
    w.sync.2.buf = [] ∧ w.sync.2.pending = 0 := by
  rcases w.sync_effect.outcome with ⟨idle, -, same⟩ | ⟨-, -, empty, done, -⟩ | ⟨-, failed, -⟩
  · rw [same]
    exact ⟨h.idle idle, idle⟩
  · exact ⟨empty, done⟩
  · rw [ok] at failed
    cases failed

end Staged

/-- The writer that `create_or_open` hands out over an opened file. -/
def WalWriter.opened (crc : List Nat → UInt32) (file : LogFile) : WalWriter := ⟨file, [], 0, crc⟩

/-- Behind any calls and any answers of the kernel: the bytes past the header and the staged
bytes are what the log held at the open and the records of the appends that returned, a sync
that returns leaves nothing staged or pending, and while nothing is pending nothing is staged
and every record lies in front of the last barrier. -/
theorem wal_staging (crc : List Nat → UInt32) (file opened : LogFile)
    (created : createOrOpen file = .ok opened) (calls : List StageCall) :
    let w := (runCalls (.opened crc opened) calls).1
    let recs := (runCalls (.opened crc opened) calls).2
    w.file.bytes.drop headerLen ++ w.buf =
        opened.bytes.drop headerLen ++ encodeRecords crc recs ∧
      (file.bytes.length < headerLen → opened.bytes.drop headerLen = []) ∧
      (w.sync.1 = true → w.sync.2.buf = [] ∧ w.sync.2.pending = 0) ∧
      (w.pending = 0 → w.buf = [] ∧
        (recs = [] ∨ (w.file.bytes.take w.file.synced).drop headerLen =
          opened.bytes.drop headerLen ++ encodeRecords crc recs)) := by
  intro w recs
  have start : Staged opened.bytes crc [] (.opened crc opened) :=
    ⟨rfl, rfl, List.prefix_rfl, fun _ => rfl, fun _ => .inl rfl⟩
  have staged : Staged opened.bytes crc recs w := start.runCalls calls
  obtain ⟨long, -, -, source⟩ := createOrOpen_ok created
  have content : (w.file.bytes ++ w.buf).drop headerLen =
      opened.bytes.drop headerLen ++ encodeRecords crc recs := by
    rw [← List.drop_append_of_le_length long, ← staged.content_eq]
    rfl
  have file_long : headerLen ≤ w.file.bytes.length :=
    Nat.le_trans long staged.grown.length_le
  rw [List.drop_append_of_le_length file_long] at content
  refine ⟨content, fun short => ?_, staged.sync_ok, fun idle => ⟨staged.idle idle, ?_⟩⟩
  · rcases source with ⟨-, same⟩ | rfl
    · rw [same]
      rfl
    · exact absurd short (Nat.not_lt.mpr long)
  · rw [staged.idle idle, List.append_nil] at content
    refine (staged.covered idle).imp_right fun synced => ?_
    rw [List.take_of_length_le synced, content]

/-- A torn write, an error, and a retry that goes through. -/
theorem wal_staging_retry :
    let calls : List StageCall := [.append 1 [2, 3], .sync, .sync]
    let w := (runCalls (.opened (fun _ => 7) ⟨header, 16, [.wrote 5, .failed], []⟩) calls).1
    let recs := (runCalls (.opened (fun _ => 7) ⟨header, 16, [.wrote 5, .failed], []⟩) calls).2
    w.file.bytes.drop headerLen ++ w.buf =
        header.drop headerLen ++ encodeRecords (fun _ => 7) recs ∧
      (0 < headerLen → header.drop headerLen = []) ∧
      (w.sync.1 = true → w.sync.2.buf = [] ∧ w.sync.2.pending = 0) ∧
      (w.pending = 0 → w.buf = [] ∧
        (recs = [] ∨ (w.file.bytes.take w.file.synced).drop headerLen =
          header.drop headerLen ++ encodeRecords (fun _ => 7) recs)) :=
  wal_staging (fun _ => 7) ⟨[], 0, [.wrote 5, .failed], []⟩
    ⟨header, 16, [.wrote 5, .failed], []⟩ rfl [.append 1 [2, 3], .sync, .sync]

end AetherGraph
