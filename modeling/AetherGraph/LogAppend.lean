import AetherGraph.Wal

/-! Appending to the log.  The file and the staged bytes read one after the other change
only by whole appends, whatever answers the kernel gives to the writes. -/

namespace AetherGraph

namespace WalWriter

/-- The file, then what is staged. -/
def content (w : WalWriter) : List Nat := w.file.bytes ++ w.buf

/-- `w'` is `w` after staging `recs`; some staged bytes may have reached the file. -/
structure Appended (w w' : WalWriter) (recs : List EdgeRecord) : Prop where
  content_eq : w'.content = w.content ++ encodeRecords w.crc recs
  crc_eq : w'.crc = w.crc
  pending_eq : w'.pending = w.pending + recs.length * recordLen
  bytes_prefix : w.file.bytes <+: w'.file.bytes
  synced_eq : w'.file.synced = w.file.synced

theorem Appended.refl (w : WalWriter) : Appended w w [] where
  content_eq := (List.append_nil _).symm
  crc_eq := rfl
  pending_eq := by simp
  bytes_prefix := List.prefix_rfl
  synced_eq := rfl

theorem Appended.trans {w w' w'' : WalWriter} {recs recs' : List EdgeRecord}
    (h : Appended w w' recs) (h' : Appended w' w'' recs') : Appended w w'' (recs ++ recs') where
  content_eq := by
    rw [h'.content_eq, h.content_eq, h.crc_eq, List.append_assoc, encodeRecords, encodeRecords,
      encodeRecords, List.flatMap_append]
  crc_eq := h'.crc_eq.trans h.crc_eq
  pending_eq := by
    rw [h'.pending_eq, h.pending_eq, List.length_append, Nat.add_mul, Nat.add_assoc]
  bytes_prefix := h.bytes_prefix.trans h'.bytes_prefix
  synced_eq := h'.synced_eq.trans h.synced_eq

/-- What the loop has written is the staged bytes up to where it stopped. -/
structure Flushed (buf bytes : List Nat) (written : Nat)
    (result : Bool × List Nat × Nat × List WriteResult) : Prop where
  bytes_eq : result.2.1 ++ buf.drop result.2.2.1 = bytes ++ buf.drop written
  bytes_prefix : bytes <+: result.2.1
  done : result.1 = true → buf.length ≤ result.2.2.1

theorem flushLoop_flushed (buf : List Nat) (writes : List WriteResult) (bytes : List Nat)
    (written : Nat) : Flushed buf bytes written (flushLoop buf writes bytes written) := by
  induction writes generalizing bytes written with
  | nil => exact ⟨by simp [flushLoop], List.prefix_append .., fun _ => Nat.le_refl _⟩
  | cons result rest ih =>
      unfold flushLoop
      split
      · rename_i spent
        exact ⟨rfl, List.prefix_rfl, fun _ => spent⟩
      cases result with
      | interrupted => exact ih bytes written
      | failed => exact ⟨rfl, List.prefix_rfl, fun no => (nomatch no)⟩
      | wrote n =>
          dsimp only
          split
          · exact ⟨rfl, List.prefix_rfl, fun no => (nomatch no)⟩
          · generalize min n (buf.length - written) = m
            obtain ⟨eq, pre, done⟩ := ih (bytes ++ (buf.drop written).take m) (written + m)
            refine ⟨eq.trans ?_, (List.prefix_append ..).trans pre, done⟩
            rw [← List.drop_drop, List.append_assoc, List.take_append_drop]

theorem flushBuf_appended (w : WalWriter) :
    Appended w w.flushBuf.2 [] ∧ (w.flushBuf.1 = true → w.flushBuf.2.buf = []) := by
  obtain ⟨eq, pre, done⟩ := flushLoop_flushed w.buf w.file.writes w.file.bytes 0
  unfold flushBuf
  split
  rename_i ok bytes written writes result
  rw [result] at eq pre done
  refine ⟨⟨?_, rfl, (Nat.add_zero _).symm, pre, rfl⟩, fun ok => if_pos ok⟩
  change bytes ++ _ = _
  rw [List.drop_zero] at eq
  rw [encodeRecords, List.flatMap_nil, List.append_nil, content, ← eq]
  split
  · rename_i ok
    rw [List.drop_eq_nil_of_le (done ok)]
  · rfl

/-- All records are staged, or none. -/
theorem appendEdges_appended (w : WalWriter) (src : Nat) (dsts : List Nat) :
    Appended w (w.appendEdges src dsts).2
      (if (w.appendEdges src dsts).1 then dsts.map (⟨src, ·⟩) else []) := by
  have stage : ∀ w' : WalWriter, Appended w w' [] → Appended w
      { w' with buf := w'.buf ++ encodeRecords w'.crc (dsts.map (⟨src, ·⟩))
                pending := w'.pending + dsts.length * recordLen } (dsts.map (⟨src, ·⟩)) := by
    intro w' h
    refine Appended.trans h ⟨?_, rfl, ?_, List.prefix_rfl, rfl⟩
    · simp only [content, List.append_assoc]
    · rw [List.length_map]
  unfold appendEdges
  dsimp only
  split
  · obtain ⟨flushed, -⟩ := w.flushBuf_appended
    split
    · rename_i w' result
      rw [result] at flushed
      exact stage w' flushed
    · rename_i w' result
      rw [result] at flushed
      exact flushed
  · exact stage w (.refl w)

end WalWriter

/-- The same for a graph that may have no log. -/
def WalAppended : Option WalWriter → Option WalWriter → List EdgeRecord → Prop
  | none, none, _ => True
  | some w, some w', recs => w.Appended w' recs
  | _, _, _ => False

theorem WalAppended.refl (wal : Option WalWriter) : WalAppended wal wal [] := by
  cases wal with
  | none => trivial
  | some w => exact WalWriter.Appended.refl w

theorem WalAppended.none_left {wal : Option WalWriter} {recs : List EdgeRecord}
    (h : WalAppended none wal recs) : wal = none := by
  cases wal with
  | none => rfl
  | some w => exact False.elim h

theorem WalAppended.trans {a b c : Option WalWriter} {recs recs' : List EdgeRecord}
    (h : WalAppended a b recs) (h' : WalAppended b c recs') : WalAppended a c (recs ++ recs') := by
  cases a <;> cases b <;> cases c <;> first | trivial | exact h.elim | exact h'.elim | skip
  exact WalWriter.Appended.trans h h'

end AetherGraph
