import AetherGraph.GuardEffect
import AetherGraph.LogCrash
import AetherGraph.Session

/-! The log of a graph against its ledger: one record an edge, in the order of publication, the
committed ones in front of the last barrier. -/

namespace AetherGraph

open Foundation

namespace Staged

variable {start : List Nat} {crc : List Nat → UInt32} {recs new : List EdgeRecord}
  {w w' : WalWriter}

theorem appended (h : Staged start crc recs w) (step : w.Appended w' new) :
    Staged start crc (recs ++ new) w' := by
  have idle : w'.pending = 0 → w.pending = 0 ∧ new = [] ∧ w'.buf = [] ∧
      w'.file.bytes = w.file.bytes := fun none => by
    have pending := step.pending_eq
    unfold recordLen at pending
    have before : w.pending = 0 := by omega
    obtain rfl : new = [] := List.length_eq_zero_iff.mp (by omega)
    have same := step.content_eq
    rw [encodeRecords, List.flatMap_nil, List.append_nil, WalWriter.content, WalWriter.content,
      h.idle before, List.append_nil] at same
    obtain ⟨more, grown⟩ := step.bytes_prefix
    rw [← grown, List.append_assoc, List.append_right_eq_self, List.append_eq_nil_iff] at same
    exact ⟨before, rfl, same.2, by rw [← grown, same.1, List.append_nil]⟩
  refine ⟨?_, step.crc_eq.trans h.crc_eq, h.grown.trans step.bytes_prefix,
    fun none => (idle none).2.2.1, fun none => ?_⟩
  · rw [step.content_eq, h.content_eq, h.crc_eq, List.append_assoc, encodeRecords_append]
  · obtain ⟨before, rfl, -, same⟩ := idle none
    rw [same, step.synced_eq, List.append_nil]
    exact h.covered before

/-- With nothing staged the file ends behind the records. -/
theorem bytes_length (h : Staged start crc recs w) (head : LogOf crc start [])
    (empty : w.buf = []) : w.file.bytes.length = headerLen + recs.length * recordLen := by
  have whole := congrArg List.length h.content_eq
  rw [WalWriter.content, empty, List.append_nil, List.length_append, encodeRecords_length,
    head.length_eq] at whole
  rw [whole, List.length_nil, Nat.zero_mul, Nat.add_zero]

/-- What lay in front of a barrier stays there. -/
theorem synced_le (h : Staged start crc recs w) (head : LogOf crc start []) {n : Nat}
    (few : n ≤ recs.length) (durable : headerLen + n * recordLen ≤ w.file.synced) :
    headerLen + n * recordLen ≤ w.sync.2.file.synced := by
  rcases w.sync_effect.outcome with ⟨-, -, same⟩ | ⟨-, -, empty, -, synced⟩ | ⟨-, -, -, synced⟩
  · rw [same]
    exact durable
  · rw [synced, h.sync.bytes_length head empty]
    exact Nat.add_le_add_left (Nat.mul_le_mul_right _ few) _
  · rw [synced]
    exact durable

/-- A sync that returns has every record in front of it. -/
theorem synced_all (h : Staged start crc recs w) (head : LogOf crc start [])
    (opened : headerLen ≤ w.file.synced) (ok : w.sync.1 = true) :
    headerLen + recs.length * recordLen ≤ w.sync.2.file.synced := by
  obtain ⟨empty, idle⟩ := h.sync_ok ok
  rcases h.sync.covered idle with none | covered
  · refine h.synced_le head (Nat.le_refl _) ?_
    rw [none, List.length_nil, Nat.zero_mul]
    exact opened
  · exact (h.sync.bytes_length head empty).ge.trans covered

end Staged

/-- Whole records go on from `start`; a stopped writer may have thrown staged ones away. -/
structure Logged (start : List Nat) (crc : List Nat → UInt32) (w : WalWriter)
    (V : Ledger) : Prop where
  head : LogOf crc start []
  crc_eq : w.crc = crc
  holds : w.file.bytes <+: start ++ encodeRecords crc (recordsOf V.visible)
  durable : headerLen + V.committed.length * recordLen ≤ w.file.synced
  live : V.phase ≠ .stopped → Staged start crc (recordsOf V.visible) w

/-- What an open fixes: the first bytes of the log, its checksum and the vertex count. -/
structure LogBase where
  start : List Nat
  crc : List Nat → UInt32
  vertices : Nat

/-- Without a base a graph may have any log, or none. -/
def LogBooks (base : Option LogBase) (n : Nat) (wal : Option WalWriter)
    (V : Ledger) : Prop :=
  ∀ b ∈ base, n = b.vertices ∧ ∃ w, wal = some w ∧ Logged b.start b.crc w V

theorem Staged.holds {start : List Nat} {crc : List Nat → UInt32} {recs : List EdgeRecord}
    {w : WalWriter} (h : Staged start crc recs w) :
    w.file.bytes <+: start ++ encodeRecords crc recs :=
  h.content_eq ▸ List.prefix_append ..

namespace LogBooks

variable {base : Option LogBase} {n : Nat} {wal wal' : Option WalWriter} {V V' : Ledger}

/-- The same edges, with a writer no further on. -/
theorem congr (h : LogBooks base n wal V) (visible : V'.visible = V.visible)
    (committed : V'.committed = V.committed) (phase : V.phase = .stopped → V'.phase = .stopped) :
    LogBooks base n wal V' := fun b hb => by
  obtain ⟨vertices, w, own, logged⟩ := h b hb
  exact ⟨vertices, w, own, logged.head, logged.crc_eq, visible ▸ logged.holds,
    committed ▸ logged.durable, fun up => visible ▸ logged.live (mt phase up)⟩

theorem add (h : LogBooks base n wal V) (phase : V.phase = .writing) {new : List (Nat × Nat)}
    (appended : WalAppended wal wal' (recordsOf new)) : LogBooks base n wal' (V.add new) :=
  fun b hb => by
    obtain ⟨vertices, w, rfl, logged⟩ := h b hb
    cases wal' with
    | none => exact appended.elim
    | some w' =>
        have staged := (logged.live (by rw [phase]; nofun)).appended appended
        rw [recordsOf, recordsOf, ← List.map_append, ← recordsOf, ← V.visible_add] at staged
        exact ⟨vertices, w', rfl, logged.head, staged.crc_eq, staged.holds,
          logged.durable.trans appended.synced_eq.ge, fun _ => staged⟩

theorem commit (h : LogBooks base n wal V) (phase : V.phase = .writing)
    (synced : (syncLog wal).1 = true) : LogBooks base n (syncLog wal).2 V.commit := fun b hb => by
  obtain ⟨vertices, w, rfl, logged⟩ := h b hb
  have staged := logged.live (by rw [phase]; nofun)
  have visible : V.commit.visible = V.visible := by
    rw [Versions.visible, Versions.committed_commit]
    exact List.append_nil _
  have all := staged.synced_all logged.head (by have := logged.durable; omega) synced
  rw [recordsOf, List.length_map] at all
  refine ⟨vertices, w.sync.2, rfl, logged.head, staged.sync.crc_eq, visible ▸ staged.sync.holds, ?_,
    fun _ => visible ▸ staged.sync⟩
  rw [Versions.committed_commit]
  exact all

/-- Neither a failed barrier nor bytes thrown away take anything from the file. -/
theorem abandon (h : LogBooks base n wal V) (phase : V.phase = .writing) (panicking : Bool) :
    LogBooks base n (if panicking then wal.map WalWriter.discardPending else (syncLog wal).2)
      V.abandon := fun b hb => by
  obtain ⟨vertices, w, rfl, logged⟩ := h b hb
  cases panicking with
  | true =>
      exact ⟨vertices, w.discardPending, rfl, logged.head, logged.crc_eq, logged.holds,
        logged.durable, fun up => absurd rfl up⟩
  | false =>
      have staged := logged.live (by rw [phase]; nofun)
      have few : V.committed.length ≤ (recordsOf V.visible).length := by
        rw [recordsOf, List.length_map, Versions.visible, List.length_append]
        exact Nat.le_add_right _ _
      exact ⟨vertices, w.sync.2, rfl, logged.head, staged.sync.crc_eq, staged.sync.holds,
        staged.synced_le logged.head few logged.durable, fun up => absurd rfl up⟩

end LogBooks

end AetherGraph
