import AetherGraph.StreamVByteEncode

/-! The StreamVByte wire format: the parser accepts exactly the streams its decoder relies on. -/

namespace AetherGraph

open Foundation

namespace StreamVByte

def writeInto (sv : StreamVByte) : List U8 :=
  lengthBytes sv.len ++ (u32Bytes sv.first ++
    ((lengthBytes sv.control.length ++ sv.control) ++ (lengthBytes sv.data.length ++ sv.data)))

def check (sv : StreamVByte) : Except Failure Unit := do
  ensure (sv.control.length = (sv.numDeltas + 3) / 4)
    s!"SVB control stream is {sv.control.length} bytes for {sv.numDeltas} deltas"
  match (List.range sv.numDeltas).mapM (controlTag sv.control) with
  | none => .error .panic
  | some tags =>
      let need := (tags.map fun tag => tag.toNat + 1).sum
      ensure (sv.data.length = need)
        s!"SVB data stream is {sv.data.length} bytes, control tags call for {need}"

def parse : Parse StreamVByte := do
  let len ← ByteReader.u64
  let first ← ByteReader.u32
  let control ← ByteReader.withContext "SVB control stream" ByteReader.byteVec
  let data ← ByteReader.withContext "SVB data stream" ByteReader.byteVec
  let sv : StreamVByte := ⟨len.toNat, first, control, data⟩
  StateT.lift sv.check
  pure sv

/-- The sequence at the front of `bytes` and the bytes it takes. -/
def readFrom (bytes : List U8) : Except Failure (StreamVByte × Nat) :=
  (parse.run ⟨bytes, 0⟩).map fun entry => (entry.1, entry.2.pos)

variable {sv : StreamVByte}

theorem tags_read (control : sv.control.length = (sv.numDeltas + 3) / 4) :
    (List.range sv.numDeltas).mapM (controlTag sv.control) =
      some ((List.range sv.numDeltas).map fun i => (controlTag sv.control i).getD 0) := by
  refine mapM_some fun i hi => ?_
  have inside : i / 4 < sv.control.length := by
    have := List.mem_range.mp hi
    omega
  rw [controlTag, List.getElem?_eq_getElem inside]
  rfl

/-- The parser's check passes exactly on the streams that stay in step. -/
theorem check_iff : sv.check = .ok () ↔ sv.Shaped := by
  rw [check]
  by_cases control : sv.control.length = (sv.numDeltas + 3) / 4
  · have sum : (((List.range sv.numDeltas).map fun i => (controlTag sv.control i).getD 0).map
        fun tag => tag.toNat + 1).sum = sv.offsetAt sv.numDeltas := by
      rw [List.map_map]
      rfl
    rw [ByteReader.ensure_ok control, tags_read control]
    show (ensure (sv.data.length = _) _ = _) ↔ _
    simp only [sum]
    by_cases data : sv.data.length = sv.offsetAt sv.numDeltas
    · rw [ByteReader.ensure_ok data]
      exact ⟨fun _ => ⟨control, data⟩, fun _ => rfl⟩
    · rw [ensure, if_neg data]
      exact ⟨nofun, fun h => absurd h.data data⟩
  · rw [ensure, if_neg control]
    exact ⟨nofun, fun h => absurd h.control control⟩

theorem readFrom_shaped {bytes : List U8} {used : Nat} (h : readFrom bytes = .ok (sv, used)) :
    sv.Shaped := by
  unfold readFrom at h
  cases ran : parse.run ⟨bytes, 0⟩ with
  | error e =>
      rw [ran] at h
      cases h
  | ok entry =>
      rw [ran] at h
      obtain ⟨rfl, -⟩ := Prod.mk.inj (Except.ok.inj h)
      obtain ⟨len, mid₁, -, ran⟩ := run_bind_ok ran
      obtain ⟨first, mid₂, -, ran⟩ := run_bind_ok ran
      obtain ⟨control, mid₃, -, ran⟩ := run_bind_ok ran
      obtain ⟨data, mid₄, -, ran⟩ := run_bind_ok ran
      obtain ⟨_, checked, ran⟩ := run_check_ok ran
      obtain ⟨same, -⟩ := Prod.mk.inj (Except.ok.inj ran)
      rw [← same]
      exact check_iff.mp checked

/-- A sequence is read back from its record, wherever it stands. -/
theorem Shaped.parse_reads (h : sv.Shaped) (len : sv.len < 2 ^ 64)
    (data : sv.data.length < 2 ^ 64) : Reads parse sv.writeInto sv := by
  have control := h.control
  have same : (⟨(BitVec.ofNat 64 sv.len).toNat, sv.first, sv.control, sv.data⟩ : StreamVByte) =
      sv := by rw [BitVec.toNat_ofNat, Nat.mod_eq_of_lt len]
  rw [numDeltas] at control
  refine (ByteReader.u64_reads (BitVec.ofNat 64 sv.len)).bind
    ((ByteReader.u32_reads sv.first).bind
      ((ByteReader.withContext_reads _ (ByteReader.byteVec_reads (by omega))).bind
        ((ByteReader.withContext_reads _ (ByteReader.byteVec_reads data)).last ?_)))
  dsimp only
  rw [same]
  exact Reads.check (check_iff.mpr h) (Reads.pure sv)

/-- The parser takes a stream that stays in step from the front of the bytes. -/
theorem Shaped.readFrom_eq (h : sv.Shaped) (len : sv.len < 2 ^ 64) (data : sv.data.length < 2 ^ 64)
    (after : List U8) : readFrom (sv.writeInto ++ after) = .ok (sv, sv.writeInto.length) := by
  rw [readFrom, (h.parse_reads len data).run_zero after]
  rfl

section Encoded

variable {first : U32} {rest : List U32}

theorem Encodes.data_le (h : Encodes first rest sv) : sv.data.length ≤ 4 * rest.length := by
  rw [h.data, ← deltas_length first rest]
  induction deltas first rest with
  | nil => exact Nat.le_refl 0
  | cons delta deltas ih =>
      have short := (svbLen_spec delta).2.1
      rw [List.flatMap_cons, List.length_append, deltaBytes_length, List.length_cons]
      omega

end Encoded

/-- Every sequence encodes to streams that stay in step and stand for it. -/
theorem encodeDeltas_spec (values : List U32) :
    ∃ sv, encodeDeltas values = some sv ∧ sv.Shaped ∧ sv.values = values ∧
      sv.len = values.length ∧ sv.data.length ≤ 4 * values.length := by
  cases values with
  | nil => exact ⟨⟨0, 0, [], []⟩, rfl, ⟨rfl, rfl⟩, rfl, rfl, Nat.le_refl 0⟩
  | cons first rest =>
      obtain ⟨sv, encoded, h⟩ := encodeDeltas_encodes first rest
      have data := h.data_le
      exact ⟨sv, encoded, h.shaped, h.values_eq, h.len, by
        rw [List.length_cons]
        omega⟩

/-- Where a value can come from: its fields are private to the codec. -/
inductive Built : StreamVByte → Prop
  | encoded {values : List U32} {sv : StreamVByte} (h : encodeDeltas values = some sv) : Built sv
  | read {bytes : List U8} {sv : StreamVByte} {used : Nat}
      (h : readFrom bytes = .ok (sv, used)) : Built sv

theorem Built.shaped (h : Built sv) : sv.Shaped := by
  cases h with
  | @encoded values _ h =>
      obtain ⟨sv', encoded, shaped, -⟩ := encodeDeltas_spec values
      obtain rfl := Option.some.inj (h.symm.trans encoded)
      exact shaped
  | read h => exact readFrom_shaped h

end StreamVByte

end AetherGraph
