import AetherGraph.StreamVByteFormat

/-! The StreamVByte parser on arbitrary bytes.  A logged decoder records what each delta reads:
a value the parser hands out is decoded from every byte of its two streams and no other. -/

namespace AetherGraph

open Foundation

namespace StreamVByte

/-- What the decoder reads for one delta: a control byte and a piece of the data. -/
structure Access where
  control : Nat
  start : Nat
  count : Nat
  deriving DecidableEq, Repr

/-- `decodeFrom` with what each delta reads. -/
def loggedFrom (sv : StreamVByte) : Nat → Nat → Nat → U32 → Option (List (U32 × Access))
  | 0, _, _, _ => some []
  | remaining + 1, i, pos, acc => do
      let tag ← controlTag sv.control i
      let nbytes := tag.toNat + 1
      let bytes ← bytesAt sv.data pos nbytes
      let acc := acc + deltaOf bytes
      let rest ← sv.loggedFrom remaining (i + 1) (pos + nbytes) acc
      some ((acc, ⟨i / 4, pos, nbytes⟩) :: rest)

def decodeLogged (sv : StreamVByte) : Option (List U32 × List Access) :=
  if sv.len = 0 then some ([], [])
  else (sv.loggedFrom (sv.len - 1) 0 0 sv.first).map fun log =>
    (sv.first :: log.map Prod.fst, log.map Prod.snd)

/-- Every data byte is read once and in order, and every control byte is read. -/
structure ReadsAll (sv : StreamVByte) (log : List Access) : Prop where
  data : log.flatMap (fun a => List.range' a.start a.count) = List.range sv.data.length
  control : ∀ b, b ∈ log.map Access.control ↔ b < sv.control.length

section Log

variable {sv : StreamVByte}

/-- The log changes nothing of what is decoded. -/
theorem loggedFrom_fst (remaining i pos : Nat) (acc : U32) :
    (sv.loggedFrom remaining i pos acc).map (List.map Prod.fst) =
      sv.decodeFrom remaining i pos acc := by
  induction remaining generalizing i pos acc with
  | zero => rfl
  | succ remaining ih =>
      rw [loggedFrom, decodeFrom]
      cases controlTag sv.control i with
      | none => rfl
      | some tag =>
          simp only [Option.bind_eq_bind, Option.bind_some]
          cases bytesAt sv.data pos (tag.toNat + 1) with
          | none => rfl
          | some bytes =>
              simp only [Option.bind_some]
              rw [← ih]
              cases sv.loggedFrom remaining (i + 1) (pos + (tag.toNat + 1))
                (acc + deltaOf bytes) with
              | none => rfl
              | some log => rfl

theorem decodeLogged_fst : sv.decodeLogged.map Prod.fst = sv.decode := by
  rw [decodeLogged, decode]
  split
  · rfl
  · rw [← loggedFrom_fst, Option.map_map, Option.map_map]
    rfl

/-- What delta `i` reads. -/
def accessAt (sv : StreamVByte) (i : Nat) : Access := ⟨i / 4, sv.offsetAt i, sv.lengthAt i⟩

theorem Shaped.loggedFrom_snd (h : sv.Shaped) (remaining i : Nat) (acc : U32)
    (room : i + remaining = sv.numDeltas) :
    (sv.loggedFrom remaining i (sv.offsetAt i) acc).map (List.map Prod.snd) =
      some ((List.range' i remaining).map sv.accessAt) := by
  induction remaining generalizing i acc with
  | zero => rfl
  | succ remaining ih =>
      have hi : i < sv.numDeltas := by omega
      obtain ⟨tag, read, length⟩ := h.tag_some hi
      have bytes : bytesAt sv.data (sv.offsetAt i) (tag.toNat + 1) =
          some ((sv.data.drop (sv.offsetAt i)).take (sv.lengthAt i)) := by
        rw [← length]
        exact if_pos (h.bytes_some hi)
      have step := ih (i + 1) (acc + sv.deltaAt i) (by omega)
      rw [offsetAt_succ, length] at step
      obtain ⟨log, ran, same⟩ := Option.map_eq_some_iff.mp step
      rw [loggedFrom, read]
      simp only [Option.bind_eq_bind, Option.bind_some, bytes]
      show ((sv.loggedFrom remaining (i + 1) (sv.offsetAt i + (tag.toNat + 1))
        (acc + sv.deltaAt i)).bind _).map _ = _
      rw [ran, Option.bind_some, Option.map_some, List.map_cons, same, List.range'_succ,
        List.map_cons, accessAt, length]

/-- The pieces of the deltas tile the data stream. -/
theorem pieces_flatten (n : Nat) :
    (List.range n).flatMap (fun i => List.range' (sv.offsetAt i) (sv.lengthAt i)) =
      List.range (sv.offsetAt n) := by
  induction n with
  | zero => rfl
  | succ n ih =>
      rw [List.range_succ, List.flatMap_append, ih, offsetAt_succ, List.range_eq_range',
        List.range_eq_range', List.flatMap_cons, List.flatMap_nil, List.append_nil]
      have joined := List.range'_append_1 (s := 0) (m := sv.offsetAt n) (n := sv.lengthAt n)
      rwa [Nat.zero_add] at joined

theorem Shaped.accesses_readAll (h : sv.Shaped) :
    ReadsAll sv ((List.range sv.numDeltas).map sv.accessAt) where
  data := by
    rw [List.flatMap_map, h.data]
    exact pieces_flatten sv.numDeltas
  control b := by
    rw [List.map_map, List.mem_map, h.control]
    constructor
    · rintro ⟨i, hi, rfl⟩
      have := List.mem_range.mp hi
      show i / 4 < _
      omega
    · intro inside
      refine ⟨4 * b, List.mem_range.mpr (by omega), ?_⟩
      show 4 * b / 4 = b
      omega

/-- The decoder reads both streams in step, to their ends and not past them. -/
theorem Shaped.decodeLogged_reads (h : sv.Shaped) :
    ∃ log, sv.decodeLogged = some (sv.values, log) ∧ ReadsAll sv log := by
  have decoded := h.decode_eq
  rw [← decodeLogged_fst] at decoded
  obtain ⟨⟨_, log⟩, ran, rfl⟩ := Option.map_eq_some_iff.mp decoded
  refine ⟨log, ran, ?_⟩
  rw [decodeLogged] at ran
  split at ran
  · rename_i empty
    obtain ⟨-, rfl⟩ := Prod.mk.inj (Option.some.inj ran)
    have none : sv.numDeltas = 0 := by rw [numDeltas, empty]
    have whole := h.accesses_readAll
    rwa [none] at whole
  · obtain ⟨entries, logged, same⟩ := Option.map_eq_some_iff.mp ran
    obtain ⟨-, rfl⟩ := Prod.mk.inj same
    have accesses := h.loggedFrom_snd (sv.len - 1) 0 sv.first (Nat.zero_add _)
    change (sv.loggedFrom (sv.len - 1) 0 0 sv.first).map _ = _ at accesses
    rw [logged, Option.map_some] at accesses
    rw [Option.some.inj accesses, ← List.range_eq_range']
    exact h.accesses_readAll

end Log

section Parse

variable {sv : StreamVByte}

theorem check_ne_panic : sv.check ≠ .error .panic := by
  intro stopped
  rw [check] at stopped
  by_cases control : sv.control.length = (sv.numDeltas + 3) / 4
  · rw [ByteReader.ensure_ok control, tags_read control] at stopped
    exact ByteReader.ensure_avoids stopped
  · rw [ensure, if_neg control] at stopped
    cases stopped

theorem parse_avoids : Avoids .panic parse :=
  ByteReader.u64_avoids.bind fun _ => ByteReader.u32_avoids.bind fun _ =>
    (ByteReader.withContext_avoids _ ByteReader.byteVec_avoids).bind fun _ =>
      (ByteReader.withContext_avoids _ ByteReader.byteVec_avoids).bind fun _ =>
        Avoids.check check_ne_panic fun _ _ => Avoids.pure _

theorem readFrom_ne_panic (bytes : List U8) : readFrom bytes ≠ .error .panic := by
  unfold readFrom
  cases ran : parse.run ⟨bytes, 0⟩ with
  | ok entry => exact nofun
  | error e =>
      intro stopped
      rw [show e = .panic from Except.error.inj stopped] at ran
      exact parse_avoids _ ran

end Parse

end StreamVByte

/-- What the language promises of every slice of 32-bit values. -/
def FitsSlice (values : List U32) : Prop := values.length * 4 < 2 ^ 63

/-- Every sequence survives the codec and its record is read back from before any bytes; whatever
the bytes, the parser fails with an error or hands out a value that is decoded from exactly its
two streams. -/
theorem stream_vbyte_codec_sound :
    (∀ values : List U32, FitsSlice values → ∃ sv, StreamVByte.encodeDeltas values = some sv ∧
      sv.decode = some values ∧ ∀ after : List U8,
        StreamVByte.readFrom (sv.writeInto ++ after) = .ok (sv, sv.writeInto.length)) ∧
    ∀ bytes : List U8,
      (∃ chain, StreamVByte.readFrom bytes = .error (.error chain)) ∨
        ∃ sv used values log, StreamVByte.readFrom bytes = .ok (sv, used) ∧
          sv.decode = some values ∧ values.length = sv.len ∧
          sv.decodeLogged = some (values, log) ∧ StreamVByte.ReadsAll sv log := by
  constructor
  · intro values memory
    obtain ⟨sv, encoded, shaped, same, len, data⟩ := StreamVByte.encodeDeltas_spec values
    unfold FitsSlice at memory
    refine ⟨sv, encoded, ?_, shaped.readFrom_eq (by omega) (by omega)⟩
    rw [shaped.decode_eq, same]
  · intro bytes
    cases ran : StreamVByte.readFrom bytes with
    | error e =>
        cases e with
        | error chain => exact .inl ⟨chain, rfl⟩
        | panic => exact absurd ran (StreamVByte.readFrom_ne_panic bytes)
    | ok entry =>
        obtain ⟨sv, used⟩ := entry
        have shaped := StreamVByte.readFrom_shaped ran
        obtain ⟨log, logged, whole⟩ := shaped.decodeLogged_reads
        exact .inr ⟨sv, used, sv.values, log, rfl, shaped.decode_eq, StreamVByte.values_length,
          logged, whole⟩

theorem stream_vbyte_codec_sound_wrapping :
    ∃ sv, StreamVByte.encodeDeltas [10, 0, 300] = some sv ∧ sv.decode = some [10, 0, 300] ∧
      ∀ after : List U8,
        StreamVByte.readFrom (sv.writeInto ++ after) = .ok (sv, sv.writeInto.length) :=
  stream_vbyte_codec_sound.1 [10, 0, 300] (by unfold FitsSlice; decide)

end AetherGraph
