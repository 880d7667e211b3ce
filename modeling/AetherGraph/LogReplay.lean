import AetherGraph.LogAppend
import AetherGraph.Foundation.ByteFormat

/-! Replaying a log.  Whole records are read back from any bytes the writer left, a torn tail
is cut off, and what an open hands to its writer is a log of whole records. -/

namespace AetherGraph

open Foundation

/-- The fields of a record are 32-bit values. -/
structure EdgeRecord.InRange (r : EdgeRecord) : Prop where
  src : r.src < 2 ^ 32
  dst : r.dst < 2 ^ 32

/-- `replay`: `none` is a missing file. -/
def replay {σ ε : Type} (crc : List Nat → UInt32) (ofWal : WalError → ε)
    (apply : σ → EdgeRecord → Except ε σ) (file : Option (List Nat)) (state : σ) :
    Except ε (σ × ReplayOutcome) :=
  match file with
  | none => .ok (state, ⟨0, none⟩)
  | some bytes =>
      if bytes.length = 0 then .ok (state, ⟨0, none⟩)
      else if bytes.length < headerLen then .ok (state, ⟨0, some 0⟩)
      else if bytes.take 8 ≠ magic then .error (ofWal (.badMagic (bytes.take 8)))
      else if ofLeBytes ((bytes.drop 8).take 4) ≠ version then
        .error (ofWal (.unknownVersion (ofLeBytes ((bytes.drop 8).take 4))))
      else replayRecords crc apply bytes.length state 0 headerLen (bytes.drop headerLen)

/-- The callback that keeps every record it is given. -/
def collect (recs : List EdgeRecord) (r : EdgeRecord) : Except WalError (List EdgeRecord) :=
  .ok (recs ++ [r])

/-- The bytes of a log of whole records. -/
structure LogOf (crc : List Nat → UInt32) (bytes : List Nat) (recs : List EdgeRecord) : Prop where
  long : headerLen ≤ bytes.length
  magic_eq : bytes.take 8 = magic
  version_eq : ofLeBytes ((bytes.drop 8).take 4) = version
  records : bytes.drop headerLen = encodeRecords crc recs
  inRange : ∀ r ∈ recs, r.InRange

section Records

variable {crc : List Nat → UInt32} {σ ε : Type} {apply : σ → EdgeRecord → Except ε σ}

theorem ofLeBytes_leBytes {n : Nat} (small : n < 2 ^ 32) : ofLeBytes (leBytes n) = n := by
  simp only [ofLeBytes, leBytes, List.foldr_cons, List.foldr_nil]
  omega

theorem leBytes_ofLeBytes {bytes : List Nat} (length : bytes.length = 4)
    (bound : ∀ b ∈ bytes, b < 256) : leBytes (ofLeBytes bytes) = bytes ∧ ofLeBytes bytes < 2 ^ 32 := by
  match bytes, length with
  | [a, b, c, d], _ =>
      simp only [List.forall_mem_cons] at bound
      simp only [ofLeBytes, leBytes, List.foldr_cons, List.foldr_nil]
      obtain ⟨ha, hb, hc, hd, -⟩ := bound
      refine ⟨?_, by omega⟩
      congr 1
      · omega
      · congr 1
        · omega
        · congr 1
          · omega
          · congr 1
            omega

theorem encodeRecord_length (r : EdgeRecord) : (encodeRecord crc r).length = recordLen := rfl

theorem encodeRecords_length (recs : List EdgeRecord) :
    (encodeRecords crc recs).length = recs.length * recordLen :=
  flatMap_length fun r _ => encodeRecord_length r

theorem encodeRecords_append (recs recs' : List EdgeRecord) :
    encodeRecords crc (recs ++ recs') = encodeRecords crc recs ++ encodeRecords crc recs' :=
  List.flatMap_append

/-- A whole record is applied and passed over. -/
theorem replayRecords_record {r : EdgeRecord} (inRange : r.InRange) (total : Nat) (state : σ)
    (applied offset : Nat) (rest : List Nat) :
    replayRecords crc apply total state applied offset (encodeRecord crc r ++ rest) =
      apply state r >>= fun state =>
        replayRecords crc apply total state (applied + 1) (offset + recordLen) rest := by
  have long : ¬ (encodeRecord crc r ++ rest).length < recordLen := by
    rw [List.length_append, encodeRecord_length]
    omega
  have checked : ofLeBytes (((encodeRecord crc r ++ rest).drop 8).take 4) =
      (crc ((encodeRecord crc r ++ rest).take 8)).toNat :=
    ofLeBytes_leBytes (UInt32.toNat_lt _)
  have fields : (⟨ofLeBytes ((encodeRecord crc r ++ rest).take 4),
      ofLeBytes (((encodeRecord crc r ++ rest).drop 4).take 4)⟩ : EdgeRecord) = r := by
    obtain ⟨src, dst⟩ := r
    exact congrArg₂ EdgeRecord.mk (ofLeBytes_leBytes inRange.src) (ofLeBytes_leBytes inRange.dst)
  have next : (encodeRecord crc r ++ rest).drop recordLen = rest := rfl
  rw [replayRecords, if_neg long, if_neg (not_not.mpr checked), fields, next]
  cases apply state r <;> rfl

/-- Whole records are applied in order; a tail shorter than a record ends the walk. -/
theorem replayRecords_encoded {recs : List EdgeRecord} (inRange : ∀ r ∈ recs, r.InRange)
    (total : Nat) (state : σ) (applied offset : Nat) {torn : List Nat}
    (short : torn.length < recordLen) :
    replayRecords crc apply total state applied offset (encodeRecords crc recs ++ torn) =
      (recs.foldlM apply state).map fun state => (state, ⟨applied + recs.length,
        if offset + recs.length * recordLen = total then none
        else some (offset + recs.length * recordLen)⟩) := by
  induction recs generalizing state applied offset with
  | nil =>
      show replayRecords crc apply total state applied offset torn = _
      rw [replayRecords, if_pos short, List.length_nil, Nat.zero_mul]
      rfl
  | cons r recs ih =>
      rw [encodeRecords, List.flatMap_cons, List.append_assoc,
        replayRecords_record (inRange r List.mem_cons_self), List.foldlM_cons]
      cases apply state r with
      | error e => rfl
      | ok next =>
          have rest := ih (fun r' hr' => inRange r' (List.mem_cons_of_mem r hr')) next (applied + 1)
            (offset + recordLen)
          rw [List.length_cons, Nat.succ_mul, Nat.add_comm (recs.length * recordLen),
            Nat.add_comm recs.length, ← Nat.add_assoc, ← Nat.add_assoc]
          exact rest

/-- The walk reads whole records off any bytes and stops behind the last of them. -/
theorem replayRecords_decodes {total : Nat} {state : σ} {applied offset : Nat} {rest : List Nat}
    (bytes : ∀ b ∈ rest, b < 256) (ends : offset + rest.length = total) {final : σ}
    {outcome : ReplayOutcome}
    (ran : replayRecords crc apply total state applied offset rest = .ok (final, outcome)) :
    ∃ recs torn, rest = encodeRecords crc recs ++ torn ∧ (∀ r ∈ recs, r.InRange) ∧
      recs.foldlM apply state = .ok final ∧ outcome.applied = applied + recs.length ∧
      (outcome.truncateTo = none ∧ torn = [] ∨
        outcome.truncateTo = some (offset + recs.length * recordLen)) := by
  fun_induction replayRecords crc apply total state applied offset rest with
  | case1 state applied offset rest short =>
      obtain ⟨rfl, rfl⟩ := Prod.mk.inj (Except.ok.inj ran)
      refine ⟨[], rest, rfl, nofun, rfl, rfl, ?_⟩
      dsimp only
      split
      · rename_i whole
        exact .inl ⟨rfl, List.length_eq_zero_iff.mp (by omega)⟩
      · exact .inr (by simp)
  | case2 state applied offset rest long torn =>
      obtain ⟨rfl, rfl⟩ := Prod.mk.inj (Except.ok.inj ran)
      exact ⟨[], rest, rfl, nofun, rfl, rfl, .inr (by simp)⟩
  | case3 state applied offset rest long checked e failed => cases ran
  | case4 state applied offset rest long checked next applied_ ih =>
      have whole : recordLen ≤ rest.length := Nat.le_of_not_lt long
      unfold recordLen at whole
      have piece : ∀ i, i + 4 ≤ 12 → ((rest.drop i).take 4).length = 4 := fun i hi => by
        rw [List.length_take, List.length_drop]
        omega
      have small : ∀ i, ∀ b ∈ (rest.drop i).take 4, b < 256 := fun i b hb =>
        bytes b (List.mem_of_mem_drop (List.mem_of_mem_take hb))
      obtain ⟨src, srcRange⟩ := leBytes_ofLeBytes (piece 0 (by omega)) (small 0)
      obtain ⟨dst, dstRange⟩ := leBytes_ofLeBytes (piece 4 (by omega)) (small 4)
      obtain ⟨sum, -⟩ := leBytes_ofLeBytes (piece 8 (by omega)) (small 8)
      rw [List.drop_zero] at src srcRange
      rw [not_not] at checked
      have payload : rest.take 8 = rest.take 4 ++ (rest.drop 4).take 4 := by
        rw [show 8 = 4 + 4 from rfl, List.take_add]
      have head : rest.take recordLen = encodeRecord crc
          ⟨ofLeBytes (rest.take 4), ofLeBytes ((rest.drop 4).take 4)⟩ := by
        show rest.take (8 + 4) = _
        rw [encodeRecord, src, dst, ← payload, ← checked, sum, List.take_add]
      obtain ⟨recs, torn, same, inRange, folded, count, cut⟩ := ih
        (fun b hb => bytes b (List.mem_of_mem_drop hb))
        (by rw [List.length_drop]; unfold recordLen; omega) ran
      refine ⟨⟨ofLeBytes (rest.take 4), ofLeBytes ((rest.drop 4).take 4)⟩ :: recs, torn, ?_,
        List.forall_mem_cons.mpr ⟨⟨srcRange, dstRange⟩, inRange⟩, ?_, ?_, ?_⟩
      · rw [encodeRecords, List.flatMap_cons, ← head, List.append_assoc]
        exact (List.take_append_drop recordLen rest).symm.trans (congrArg _ same)
      · rw [List.foldlM_cons, applied_]
        exact folded
      · rw [count, List.length_cons]
        omega
      · rw [List.length_cons, Nat.succ_mul, Nat.add_comm (recs.length * recordLen), ← Nat.add_assoc]
        exact cut

end Records

namespace LogOf

variable {crc : List Nat → UInt32} {bytes : List Nat} {recs : List EdgeRecord}

theorem length_eq (h : LogOf crc bytes recs) :
    bytes.length = headerLen + recs.length * recordLen := by
  have rest := congrArg List.length h.records
  rw [List.length_drop, encodeRecords_length] at rest
  have := h.long
  omega

/-- Records written behind a log make a longer log. -/
theorem append (h : LogOf crc bytes recs) {more : List EdgeRecord}
    (inRange : ∀ r ∈ more, r.InRange) :
    LogOf crc (bytes ++ encodeRecords crc more) (recs ++ more) where
  long := by
    rw [List.length_append]
    exact Nat.le_add_right_of_le h.long
  magic_eq := by
    rw [List.take_append_of_le_length (Nat.le_trans (by decide) h.long), h.magic_eq]
  version_eq := by
    have long : 16 ≤ bytes.length := h.long
    rw [List.drop_append_of_le_length (by omega), List.take_append_of_le_length, h.version_eq]
    rw [List.length_drop]
    omega
  records := by
    rw [List.drop_append_of_le_length h.long, h.records, encodeRecords_append]
  inRange r hr := (List.mem_append.mp hr).elim (h.inRange r) (inRange r)

/-- A checked header and whole records behind it. -/
theorem of_header {front : List Nat} (long : headerLen ≤ front.length)
    (magic_eq : front.take 8 = magic)
    (version_eq : ofLeBytes ((front.drop 8).take 4) = version) (inRange : ∀ r ∈ recs, r.InRange) :
    LogOf crc (front.take headerLen ++ encodeRecords crc recs) recs := by
  have head : (front.take headerLen).length = headerLen := by
    rw [List.length_take, Nat.min_eq_left long]
  refine ⟨?_, ?_, ?_, ?_, inRange⟩
  · rw [List.length_append, head]
    exact Nat.le_add_right _ _
  · rw [List.take_append_of_le_length (by rw [head]; decide), List.take_take]
    exact magic_eq
  · rw [List.drop_append_of_le_length (by rw [head]; decide), List.take_append_of_le_length (by
      rw [List.length_drop, head]; decide), List.drop_take, List.take_take]
    exact version_eq
  · rw [List.drop_append_of_le_length (Nat.le_of_eq head.symm), List.drop_eq_nil_of_le
      (Nat.le_of_eq head), List.nil_append]

/-- A prefix that holds the header is a log of the records it holds whole, and a torn tail. -/
theorem of_prefix (h : LogOf crc bytes recs) {front : List Nat} (pre : front <+: bytes)
    (long : headerLen ≤ front.length) :
    ∃ kept torn, front = kept ++ torn ∧ torn.length < recordLen ∧
      LogOf crc kept (recs.take ((front.length - headerLen) / recordLen)) := by
  obtain ⟨after, rfl⟩ := pre
  have shorter : front.drop headerLen <+: encodeRecords crc recs := by
    rw [← h.records, List.drop_append_of_le_length long]
    exact List.prefix_append _ _
  obtain ⟨torn, same, short⟩ := prefix_flatMap (by decide) (fun r _ => encodeRecord_length r) shorter
  rw [List.length_drop] at same
  have sixteen : 16 ≤ front.length := long
  have magic_eq := h.magic_eq
  have version_eq := h.version_eq
  rw [List.take_append_of_le_length (by omega)] at magic_eq
  rw [List.drop_append_of_le_length (by omega), List.take_append_of_le_length (by
    rw [List.length_drop]; omega)] at version_eq
  refine ⟨front.take headerLen ++ encodeRecords crc
    (recs.take ((front.length - headerLen) / recordLen)), torn, ?_, short,
    of_header long magic_eq version_eq fun r hr => h.inRange r (List.mem_of_mem_take hr)⟩
  rw [List.append_assoc, encodeRecords, ← same, List.take_append_drop]

/-- A log with a torn tail is replayed record by record, and the tail is reported. -/
theorem replay_torn (h : LogOf crc bytes recs) {σ ε : Type} (ofWal : WalError → ε)
    (apply : σ → EdgeRecord → Except ε σ) (state : σ) {torn : List Nat}
    (short : torn.length < recordLen) :
    replay crc ofWal apply (some (bytes ++ torn)) state =
      (recs.foldlM apply state).map fun state => (state, ⟨recs.length,
        if torn = [] then none else some bytes.length⟩) := by
  have long : 16 ≤ bytes.length := h.long
  have total : (bytes ++ torn).length = bytes.length + torn.length := List.length_append
  have magic_eq : (bytes ++ torn).take 8 = magic := by
    rw [List.take_append_of_le_length (by omega), h.magic_eq]
  have version_eq : ofLeBytes (((bytes ++ torn).drop 8).take 4) = version := by
    rw [List.drop_append_of_le_length (by omega), List.take_append_of_le_length (by
      rw [List.length_drop]; omega), h.version_eq]
  have rest : (bytes ++ torn).drop headerLen = encodeRecords crc recs ++ torn := by
    rw [List.drop_append_of_le_length h.long, h.records]
  have cut : bytes.length = (bytes ++ torn).length ↔ torn = [] := by
    rw [total, ← List.length_eq_zero_iff]
    omega
  rw [replay, if_neg (by omega), if_neg (by rw [total]; unfold headerLen; omega),
    if_neg (not_not.mpr magic_eq), if_neg (not_not.mpr version_eq), rest,
    replayRecords_encoded h.inRange _ _ _ _ short, Nat.zero_add]
  simp only [← h.length_eq, cut]

end LogOf

section Opening

variable {crc : List Nat → UInt32}

/-- What the header check leaves. -/
theorem createOrOpen_ok {file opened : LogFile} (h : createOrOpen file = .ok opened) :
    headerLen ≤ opened.bytes.length ∧ opened.bytes.take 8 = magic ∧
      ofLeBytes ((opened.bytes.drop 8).take 4) = version ∧
      (file.bytes.length < headerLen ∧ opened.bytes = header ∨ opened = file) := by
  unfold createOrOpen at h
  split at h
  · rename_i short
    obtain rfl := Except.ok.inj h
    exact ⟨Nat.le_refl 16, rfl, rfl, .inl ⟨short, rfl⟩⟩
  · rename_i long
    split at h
    · cases h
    · rename_i magic_eq
      split at h
      · cases h
      · rename_i version_eq
        obtain rfl := Except.ok.inj h
        exact ⟨Nat.le_of_not_lt long, not_not.mp magic_eq, not_not.mp version_eq, .inr rfl⟩

/-- An open hands its writer a log of the records it has replayed. -/
theorem openReplaying_log {σ ε : Type} {ofWal : WalError → ε} {apply : σ → EdgeRecord → Except ε σ}
    {file : LogFile} (small : ∀ b ∈ file.bytes, b < 256) {state final : σ} {w : WalWriter}
    {outcome : ReplayOutcome}
    (h : openReplaying crc ofWal apply file state = .ok (final, w, outcome)) :
    w.buf = [] ∧ w.pending = 0 ∧ w.crc = crc ∧ ∃ recs, LogOf crc w.file.bytes recs ∧
      recs.foldlM apply state = .ok final ∧ outcome.applied = recs.length := by
  unfold openReplaying at h
  split at h
  · cases h
  rename_i opened created
  obtain ⟨long, magic_eq, version_eq, source⟩ := createOrOpen_ok created
  have bytes : ∀ b ∈ opened.bytes, b < 256 := by
    rcases source with ⟨-, same⟩ | rfl
    · rw [same]
      decide
    · exact small
  split at h
  · cases h
  rename_i final' outcome' replayed
  obtain ⟨recs, torn, rest, inRange, folded, count, cut⟩ := replayRecords_decodes
    (fun b hb => bytes b (List.mem_of_mem_drop hb))
    (by rw [List.length_drop]; exact Nat.add_sub_cancel' long) replayed
  have whole : LogOf crc (opened.bytes.take headerLen ++ encodeRecords crc recs) recs :=
    LogOf.of_header long magic_eq version_eq inRange
  have bytes_eq : opened.bytes = opened.bytes.take headerLen ++ encodeRecords crc recs ++ torn := by
    rw [List.append_assoc, ← rest, List.take_append_drop]
  rw [Nat.zero_add] at count
  rcases cut with ⟨none, clean⟩ | some_
  · rw [none] at h
    obtain ⟨rfl, both⟩ := Prod.mk.inj (Except.ok.inj h)
    obtain ⟨rfl, rfl⟩ := Prod.mk.inj both
    rw [clean, List.append_nil] at bytes_eq
    exact ⟨rfl, rfl, rfl, recs, bytes_eq ▸ whole, folded, count⟩
  · rw [some_] at h
    obtain ⟨rfl, both⟩ := Prod.mk.inj (Except.ok.inj h)
    obtain ⟨rfl, rfl⟩ := Prod.mk.inj both
    refine ⟨rfl, rfl, rfl, recs, ?_, folded, count⟩
    show LogOf crc (opened.bytes.take (headerLen + recs.length * recordLen)) recs
    rw [bytes_eq, ← whole.length_eq, List.take_left]
    exact whole

/-- A fresh log has nothing to replay. -/
theorem openReplaying_header {σ ε : Type} (ofWal : WalError → ε)
    (apply : σ → EdgeRecord → Except ε σ) (file : LogFile) (state : σ) :
    openReplaying crc ofWal apply { file with bytes := header } state =
      .ok (state, ⟨{ file with bytes := header }, [], 0, crc⟩, ⟨0, none⟩) := by
  have nothing : replayRecords crc apply header.length state 0 headerLen (header.drop headerLen) =
      .ok (state, ⟨0, none⟩) := by
    rw [replayRecords, if_pos (by decide)]
    rfl
  have created : createOrOpen { file with bytes := header } = .ok { file with bytes := header } :=
    rfl
  rw [openReplaying, created]
  dsimp only
  rw [nothing]

end Opening

theorem foldlM_collect (recs before : List EdgeRecord) :
    recs.foldlM collect before = .ok (before ++ recs) := by
  induction recs generalizing before with
  | nil => rw [List.append_nil]; rfl
  | cons r recs ih =>
      rw [List.foldlM_cons]
      show recs.foldlM collect (before ++ [r]) = _
      rw [ih, List.append_assoc]
      rfl

end AetherGraph
