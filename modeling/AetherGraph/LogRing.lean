import AetherGraph.LogStaging

/-! The group commit over a ring: the write and the barrier go out as one linked pair and their
results come back together.  Compared with the portable write and barrier under the same
results, exit by exit. -/

namespace AetherGraph

/-- The results of a linked pair, both completions in hand. -/
structure LinkedResult where
  write : WriteResult
  synced : Bool
  deriving DecidableEq, Repr

namespace WalWriter

/-- `flush_buf`, then `sync_data`. -/
def flushSync (w : WalWriter) : Bool × WalWriter :=
  match w.flushBuf with
  | (false, w) => (false, w)
  | (true, w) =>
      match w.file.syncData with
      | (false, file) => (false, { w with file := file })
      | (true, file) => (true, { w with file := file, pending := 0 })

/-- What one submission can carry. -/
def maxSubmission : Nat := 2 ^ 32 - 1

/-- `sync_uring` with a ring: whether the commit completed. -/
def syncUring (w : WalWriter) (linked : LinkedResult) : Bool × WalWriter :=
  let len := w.buf.length
  if len = 0 then
    -- only the barrier is outstanding
    match w.file.syncData with
    | (false, file) => (false, { w with file := file })
    | (true, file) => (true, { w with file := file, pending := 0 })
  else
    match linked.write with
    | .failed => (false, w)
    | .interrupted => (false, w)
    | .wrote n =>
        let written := min n (min len maxSubmission)
        let bytes := w.file.bytes ++ w.buf.take written
        if written < len then
          -- the portable path finishes the tail
          flushSync { w with file := { w.file with bytes := bytes }, buf := w.buf.drop written }
        else if linked.synced then
          (true, { w with file := { w.file with bytes := bytes, synced := bytes.length }
                          buf := []
                          pending := 0 })
        else (false, { w with file := { w.file with bytes := bytes } })

/-- The portable path under the same results: the write's answers its first write and, where
that write is whole, the barrier's answers its barrier.  With nothing staged no pair goes out. -/
def portable (w : WalWriter) (linked : LinkedResult) : WalWriter :=
  if w.buf.length = 0 then w
  else
    match linked.write with
    | .failed => { w with file := { w.file with writes := .failed :: w.file.writes } }
    | .interrupted => { w with file := { w.file with writes := .interrupted :: w.file.writes } }
    | .wrote n =>
        let written := min n (min w.buf.length maxSubmission)
        { w with file := { w.file with
            writes := .wrote written :: w.file.writes
            syncs := if written < w.buf.length then w.file.syncs
              else linked.synced :: w.file.syncs } }

/-- The two paths leave the same file bytes, staged bytes and pending count, and the staged
bytes are those the file does not hold yet. -/
structure Agrees (w : WalWriter) (linked : LinkedResult) : Prop where
  bytes : (w.syncUring linked).2.file.bytes = (w.portable linked).flushSync.2.file.bytes
  buf : (w.syncUring linked).2.buf = (w.portable linked).flushSync.2.buf
  pending : (w.syncUring linked).2.pending = (w.portable linked).flushSync.2.pending
  content : (w.syncUring linked).2.content = w.content

end WalWriter

/-- The next writes take nothing: interrupted up to one that fails or takes no byte. -/
def Stuck : List WriteResult → Prop
  | [] => False
  | .interrupted :: rest => Stuck rest
  | .failed :: _ => True
  | .wrote n :: _ => n = 0

/-- When the ring commit is the portable one.  A whole write needs its barrier; after a result
that only one of the paths retries, the retry must get nowhere. -/
def RingHolds (w : WalWriter) (linked : LinkedResult) : Prop :=
  w.buf = [] ∨
    match linked.write with
    | .failed => True
    | .interrupted => Stuck w.file.writes
    | .wrote n =>
        if n = 0 then Stuck w.file.writes
        else if min n WalWriter.maxSubmission < w.buf.length then True
        else linked.synced = true

namespace WalWriter

section Flush

variable {buf : List Nat}

theorem flushLoop_cons (result : WriteResult) (rest : List WriteResult) (bytes : List Nat)
    (written : Nat) : flushLoop buf (result :: rest) bytes written =
      if buf.length ≤ written then (true, bytes, written, result :: rest)
      else
        match result with
        | .wrote n =>
            if min n (buf.length - written) = 0 then (false, bytes, written, rest)
            else flushLoop buf rest (bytes ++ (buf.drop written).take (min n (buf.length - written)))
              (written + min n (buf.length - written))
        | .interrupted => flushLoop buf rest bytes written
        | .failed => (false, bytes, written, rest) := by
  cases result <;> rfl

/-- The loop over what is left of the buffer is the loop from where it stands. -/
theorem flushLoop_drop (writes : List WriteResult) (bytes : List Nat) {k : Nat} (j : Nat)
    (inside : k ≤ buf.length) :
    flushLoop buf writes bytes (k + j) =
      ((flushLoop (buf.drop k) writes bytes j).1, (flushLoop (buf.drop k) writes bytes j).2.1,
        k + (flushLoop (buf.drop k) writes bytes j).2.2.1,
        (flushLoop (buf.drop k) writes bytes j).2.2.2) := by
  induction writes generalizing bytes j with
  | nil =>
      simp only [flushLoop, List.drop_drop, List.length_drop]
      rw [Nat.add_sub_cancel' inside]
  | cons result rest ih =>
      have spent : buf.length ≤ k + j ↔ (buf.drop k).length ≤ j := by
        rw [List.length_drop]
        omega
      rw [flushLoop_cons, flushLoop_cons]
      by_cases done : (buf.drop k).length ≤ j
      · rw [if_pos done, if_pos (spent.mpr done)]
      rw [if_neg done, if_neg (mt spent.mp done)]
      cases result with
      | interrupted => exact ih bytes j
      | failed => rfl
      | wrote n =>
          have room : buf.length - (k + j) = (buf.drop k).length - j := by
            rw [List.length_drop]
            omega
          dsimp only
          rw [room, List.drop_drop, Nat.add_assoc]
          split
          · rfl
          · exact ih _ _

theorem flushLoop_stuck (staged : buf ≠ []) {writes : List WriteResult} (stuck : Stuck writes)
    (bytes : List Nat) : ∃ rest, flushLoop buf writes bytes 0 = (false, bytes, 0, rest) := by
  have more : ¬ buf.length ≤ 0 := by
    rw [Nat.le_zero, List.length_eq_zero_iff]
    exact staged
  induction writes with
  | nil => exact stuck.elim
  | cons result rest ih =>
      rw [flushLoop_cons, if_neg more]
      cases result with
      | interrupted => exact ih stuck
      | failed => exact ⟨rest, rfl⟩
      | wrote n =>
          obtain rfl : n = 0 := stuck
          exact ⟨rest, by simp⟩

theorem flushLoop_moves (staged : buf ≠ []) {writes : List WriteResult} (moves : ¬ Stuck writes)
    (bytes : List Nat) : bytes.length < (flushLoop buf writes bytes 0).2.1.length := by
  have positive : 0 < buf.length := List.length_pos_of_ne_nil staged
  induction writes with
  | nil =>
      show bytes.length < (bytes ++ buf.drop 0).length
      rw [List.drop_zero, List.length_append]
      omega
  | cons result rest ih =>
      rw [flushLoop_cons, if_neg (by omega)]
      cases result with
      | interrupted => exact ih moves
      | failed => exact absurd trivial moves
      | wrote n =>
          have some_ : n ≠ 0 := moves
          have taken : min n (buf.length - 0) ≠ 0 := by omega
          dsimp only
          rw [if_neg taken]
          have flushed := flushLoop_flushed buf rest
            (bytes ++ (buf.drop 0).take (min n (buf.length - 0))) (0 + min n (buf.length - 0))
          have grown := List.IsPrefix.length_le flushed.bytes_prefix
          rw [List.length_append, List.length_take, List.length_drop] at grown
          omega

variable {w : WalWriter}

theorem flushBuf_of_nil (empty : w.buf = []) : w.flushBuf = (true, w) := by
  obtain ⟨⟨bytes, synced, writes, syncs⟩, buf, pending, crc⟩ := w
  obtain rfl : buf = [] := empty
  cases writes with
  | nil =>
      show (true, (⟨⟨bytes ++ [], synced, [], syncs⟩, [], pending, crc⟩ : WalWriter)) = _
      rw [List.append_nil]
  | cons result rest => rfl

/-- A flush that takes nothing changes nothing but the answers to come. -/
theorem flushSync_stuck (staged : w.buf ≠ []) (stuck : Stuck w.file.writes) :
    w.flushSync.2.file.bytes = w.file.bytes ∧ w.flushSync.2.buf = w.buf ∧
      w.flushSync.2.pending = w.pending := by
  obtain ⟨rest, loop⟩ := flushLoop_stuck staged stuck w.file.bytes
  rw [flushSync, flushBuf, loop]
  exact ⟨rfl, rfl, rfl⟩

/-- The bytes behind the flush are those it wrote, barrier or not. -/
theorem flushSync_bytes : w.flushSync.2.file.bytes = w.flushBuf.2.file.bytes := by
  unfold flushSync
  split
  · rename_i w' flushed
    rw [flushed]
  · rename_i w' flushed
    have kept := (syncData_spec w'.file).1
    rw [flushed]
    split
    · rename_i file barrier
      rw [barrier] at kept
      exact kept
    · rename_i file barrier
      rw [barrier] at kept
      exact kept

theorem flushSync_buf : w.flushSync.2.buf = w.flushBuf.2.buf := by
  unfold flushSync
  split
  · rename_i w' flushed
    rw [flushed]
  · rename_i w' flushed
    rw [flushed]
    split <;> rfl

theorem flushSync_content : w.flushSync.2.content = w.content := by
  have content := w.flushBuf_appended.1.content_eq
  rw [encodeRecords, List.flatMap_nil, List.append_nil] at content
  rw [← content, WalWriter.content, WalWriter.content, flushSync_bytes, flushSync_buf]

theorem flushSync_moves (staged : w.buf ≠ []) (moves : ¬ Stuck w.file.writes) :
    w.flushSync.2.file.bytes ≠ w.file.bytes := by
  intro same
  have longer := flushLoop_moves staged moves w.file.bytes
  rw [flushSync_bytes] at same
  rw [show (flushLoop w.buf w.file.writes w.file.bytes 0).2.1 = w.flushBuf.2.file.bytes from rfl,
    same] at longer
  exact Nat.lt_irrefl _ longer

/-- A retried commit is the portable one again exactly when the retry gets nowhere. -/
theorem flushSync_unchanged (staged : w.buf ≠ []) :
    (w.flushSync.2.file.bytes = w.file.bytes ∧ w.flushSync.2.buf = w.buf ∧
      w.flushSync.2.pending = w.pending) ↔ Stuck w.file.writes :=
  ⟨fun same => by_contra fun moves => flushSync_moves staged moves same.1,
    flushSync_stuck staged⟩

end Flush

section Exits

variable {w : WalWriter} {linked : LinkedResult}

theorem agrees_of_nil (empty : w.buf = []) : Agrees w linked := by
  have length : w.buf.length = 0 := List.length_eq_zero_iff.mpr empty
  have same : w.syncUring linked = (w.portable linked).flushSync := by
    rw [syncUring, portable]
    dsimp only
    rw [if_pos length, if_pos length, flushSync, flushBuf_of_nil empty]
  refine ⟨by rw [same], by rw [same], by rw [same], ?_⟩
  rw [same, flushSync_content, portable, if_pos length]

theorem agrees_failed (staged : w.buf ≠ []) (failed : linked.write = .failed) :
    Agrees w linked := by
  have length : w.buf.length ≠ 0 := mt List.length_eq_zero_iff.mp staged
  have ring : w.syncUring linked = (false, w) := by
    rw [syncUring]
    dsimp only
    rw [if_neg length, failed]
  have first : w.portable linked =
      { w with file := { w.file with writes := .failed :: w.file.writes } } := by
    rw [portable, if_neg length, failed]
  obtain ⟨bytes, buf, pending⟩ := flushSync_stuck (w := w.portable linked)
    (by rw [first]; exact staged) (by rw [first]; trivial)
  rw [first] at bytes buf pending
  refine ⟨?_, ?_, ?_, ?_⟩
  all_goals rw [ring]
  · rw [first, bytes]
  · rw [first, buf]
  · rw [first, pending]

theorem agrees_interrupted (staged : w.buf ≠ []) (interrupted : linked.write = .interrupted) :
    Agrees w linked ↔ Stuck w.file.writes := by
  have length : w.buf.length ≠ 0 := mt List.length_eq_zero_iff.mp staged
  have ring : w.syncUring linked = (false, w) := by
    rw [syncUring]
    dsimp only
    rw [if_neg length, interrupted]
  have retried : (w.portable linked).flushSync = w.flushSync := by
    have loop : flushLoop w.buf (.interrupted :: w.file.writes) w.file.bytes 0 =
        flushLoop w.buf w.file.writes w.file.bytes 0 := by
      rw [flushLoop_cons, if_neg (by omega)]
    rw [portable, if_neg length, interrupted]
    dsimp only
    rw [flushSync, flushSync, flushBuf, flushBuf, loop]
  rw [← flushSync_unchanged staged]
  constructor
  · rintro ⟨bytes, buf, pending, -⟩
    rw [ring, retried] at bytes buf pending
    exact ⟨bytes.symm, buf.symm, pending.symm⟩
  · rintro ⟨bytes, buf, pending⟩
    refine ⟨?_, ?_, ?_, by rw [ring]⟩
    all_goals rw [ring, retried]
    · exact bytes.symm
    · exact buf.symm
    · exact pending.symm

theorem agrees_nothing (staged : w.buf ≠ []) (nothing : linked.write = .wrote 0) :
    Agrees w linked ↔ Stuck w.file.writes := by
  have length : w.buf.length ≠ 0 := mt List.length_eq_zero_iff.mp staged
  have ring : w.syncUring linked = w.flushSync := by
    rw [syncUring]
    dsimp only
    rw [if_neg length, nothing]
    dsimp only
    rw [Nat.zero_min, if_pos (Nat.pos_of_ne_zero length), List.take_zero, List.append_nil,
      List.drop_zero]
  have first : (w.portable linked).file.writes = .wrote 0 :: w.file.writes := by
    rw [portable, if_neg length, nothing]
    dsimp only
    rw [Nat.zero_min]
  have rest : (w.portable linked).buf = w.buf ∧ (w.portable linked).file.bytes = w.file.bytes ∧
      (w.portable linked).pending = w.pending := by
    rw [portable, if_neg length, nothing]
    exact ⟨rfl, rfl, rfl⟩
  obtain ⟨bytes, buf, pending⟩ := flushSync_stuck (w := w.portable linked)
    (by rw [rest.1]; exact staged) (by rw [first]; rfl)
  rw [rest.2.1] at bytes
  rw [rest.1] at buf
  rw [rest.2.2] at pending
  rw [← flushSync_unchanged staged]
  constructor
  · rintro ⟨bytes', buf', pending', -⟩
    rw [ring, bytes] at bytes'
    rw [ring, buf] at buf'
    rw [ring, pending] at pending'
    exact ⟨bytes', buf', pending'⟩
  · rintro ⟨bytes', buf', pending'⟩
    refine ⟨?_, ?_, ?_, ?_⟩
    all_goals rw [ring]
    · rw [bytes', bytes]
    · rw [buf', buf]
    · rw [pending', pending]
    · exact flushSync_content

/-- The bytes, the staged bytes and the pending count of a portable commit behind a write. -/
theorem portable_wrote (staged : w.buf ≠ []) {n : Nat} (some_ : n ≠ 0)
    (wrote : linked.write = .wrote n) :
    flushLoop (w.portable linked).buf (w.portable linked).file.writes
        (w.portable linked).file.bytes 0 =
      flushLoop w.buf w.file.writes
        (w.file.bytes ++ w.buf.take (min n (min w.buf.length maxSubmission)))
        (min n (min w.buf.length maxSubmission)) := by
  have length : 0 < w.buf.length := List.length_pos_of_ne_nil staged
  have some_' : min (min n (min w.buf.length maxSubmission)) (w.buf.length - 0) =
      min n (min w.buf.length maxSubmission) := by omega
  have positive : min n (min w.buf.length maxSubmission) ≠ 0 := by
    unfold maxSubmission
    omega
  rw [portable, if_neg (Nat.ne_of_gt length), wrote]
  dsimp only
  rw [flushLoop_cons, if_neg (by omega)]
  dsimp only
  rw [some_', if_neg positive, List.drop_zero, Nat.zero_add]

theorem agrees_short (staged : w.buf ≠ []) {n : Nat} (some_ : n ≠ 0)
    (wrote : linked.write = .wrote n) (short : min n maxSubmission < w.buf.length) :
    Agrees w linked := by
  have length : w.buf.length ≠ 0 := mt List.length_eq_zero_iff.mp staged
  have short' : min n (min w.buf.length maxSubmission) < w.buf.length := by omega
  have loop := portable_wrote staged some_ wrote
  have tail := @flushLoop_drop w.buf w.file.writes
    (w.file.bytes ++ w.buf.take (min n (min w.buf.length maxSubmission))) _ 0 (Nat.le_of_lt short')
  rw [Nat.add_zero] at tail
  have ring : w.syncUring linked = flushSync { w with
      file := { w.file with
        bytes := w.file.bytes ++ w.buf.take (min n (min w.buf.length maxSubmission)) }
      buf := w.buf.drop (min n (min w.buf.length maxSubmission)) } := by
    rw [syncUring]
    dsimp only
    rw [if_neg length, wrote]
    dsimp only
    rw [if_pos short']
  have same : (w.portable linked).flushBuf = flushBuf { w with
      file := { w.file with
        bytes := w.file.bytes ++ w.buf.take (min n (min w.buf.length maxSubmission)) }
      buf := w.buf.drop (min n (min w.buf.length maxSubmission)) } := by
    rw [flushBuf, loop, tail, portable, if_neg length, wrote, flushBuf]
    dsimp only
    rw [if_pos short', List.drop_drop]
  have commit : w.syncUring linked = (w.portable linked).flushSync := by
    rw [ring, flushSync, flushSync, same]
  refine ⟨by rw [commit], by rw [commit], by rw [commit], ?_⟩
  rw [ring, flushSync_content, WalWriter.content, WalWriter.content, List.append_assoc,
    List.take_append_drop]

theorem agrees_whole (staged : w.buf ≠ []) {n : Nat} (some_ : n ≠ 0)
    (wrote : linked.write = .wrote n) (whole : w.buf.length ≤ min n maxSubmission) :
    Agrees w linked ↔ linked.synced = true := by
  have length : w.buf.length ≠ 0 := mt List.length_eq_zero_iff.mp staged
  have all : min n (min w.buf.length maxSubmission) = w.buf.length := by omega
  have loop := portable_wrote staged some_ wrote
  have ended : flushLoop w.buf w.file.writes (w.file.bytes ++ w.buf) w.buf.length =
      (true, w.file.bytes ++ w.buf, w.buf.length, w.file.writes) := by
    cases w.file.writes with
    | nil =>
        rw [flushLoop, List.drop_eq_nil_of_le (Nat.le_refl _), List.append_nil]
    | cons result rest => rw [flushLoop_cons, if_pos (Nat.le_refl _)]
  rw [all, List.take_length, ended] at loop
  have flushed : (w.portable linked).flushBuf = (true, { w with
      file := { w.file with
        bytes := w.file.bytes ++ w.buf
        syncs := linked.synced :: w.file.syncs }
      buf := [] }) := by
    rw [flushBuf, loop, portable, if_neg length, wrote]
    dsimp only
    rw [all, if_neg (Nat.lt_irrefl _), if_pos rfl]
  have portable_buf : (w.portable linked).flushSync.2.buf = [] := by
    rw [flushSync_buf, flushed]
  constructor
  · rintro ⟨-, buf, -, -⟩
    by_contra failed
    have kept : (w.syncUring linked).2.buf = w.buf := by
      rw [syncUring]
      dsimp only
      rw [if_neg length, wrote]
      dsimp only
      rw [all, if_neg (Nat.lt_irrefl _), if_neg failed]
    rw [kept, portable_buf] at buf
    exact staged buf
  · intro synced
    have ring : w.syncUring linked = (true, { w with
        file := { w.file with
          bytes := w.file.bytes ++ w.buf
          synced := (w.file.bytes ++ w.buf).length }
        buf := []
        pending := 0 }) := by
      rw [syncUring]
      dsimp only
      rw [if_neg length, wrote]
      dsimp only
      rw [all, if_neg (Nat.lt_irrefl _), if_pos synced, List.take_length]
    have commit : (w.portable linked).flushSync = w.syncUring linked := by
      rw [flushSync, flushed, ring, synced]
      rfl
    refine ⟨by rw [commit], by rw [commit], by rw [commit], ?_⟩
    rw [ring, WalWriter.content, WalWriter.content, List.append_nil]

end Exits

end WalWriter

/-- The ring commit leaves what the portable commit leaves, and stages no byte that the file
holds, exactly under this condition. -/
theorem sync_uring_agrees_iff (w : WalWriter) (linked : LinkedResult) :
    w.Agrees linked ↔ RingHolds w linked := by
  by_cases empty : w.buf = []
  · exact ⟨fun _ => .inl empty, fun _ => WalWriter.agrees_of_nil empty⟩
  rw [RingHolds, or_iff_right empty]
  cases wrote : linked.write with
  | failed => exact ⟨fun _ => trivial, fun _ => WalWriter.agrees_failed empty wrote⟩
  | interrupted => exact WalWriter.agrees_interrupted empty wrote
  | wrote n =>
      dsimp only
      split
      · rename_i none
        exact WalWriter.agrees_nothing empty (none ▸ wrote)
      rename_i some_
      split
      · rename_i short
        exact ⟨fun _ => trivial, fun _ => WalWriter.agrees_short empty some_ wrote short⟩
      · rename_i whole
        exact WalWriter.agrees_whole empty some_ wrote (Nat.le_of_not_lt whole)

/-- A whole write whose barrier fails stays staged: the retry writes the record again. -/
theorem sync_uring_failed_barrier :
    let w : WalWriter := ⟨⟨header, 16, [], []⟩, encodeRecord (fun _ => 7) ⟨0, 1⟩, 12, fun _ => 7⟩
    ¬ w.Agrees ⟨.wrote 12, false⟩ ∧
      (w.syncUring ⟨.wrote 12, false⟩).2.sync.2.file.bytes =
        header ++ encodeRecords (fun _ => 7) [⟨0, 1⟩, ⟨0, 1⟩] := by
  refine ⟨fun agrees => ?_, by decide⟩
  have buf := agrees.buf
  revert buf
  decide

end AetherGraph
