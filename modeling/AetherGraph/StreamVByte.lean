import AetherGraph.ByteReader
import AetherGraph.Foundation.BitFields
import AetherGraph.Foundation.FoldM

/-! StreamVByte sequences: two control bits and one to four data bytes for each wrapping delta.
An index past the end of a stream is a panic, written `none`. -/

namespace AetherGraph

open Foundation

structure StreamVByte where
  len : Nat
  first : U32
  control : List U8
  data : List U8
  deriving DecidableEq, Repr

/-- The byte length of a delta and its tag. -/
def svbLen (v : U32) : Nat × U8 :=
  if v < 1#32 <<< 8 then (1, 0)
  else if v < 1#32 <<< 16 then (2, 1)
  else if v < 1#32 <<< 24 then (3, 2)
  else (4, 3)

/-- `control[i / 4] >> ((i % 4) * 2) & 0b11`. -/
def controlTag (control : List U8) (i : Nat) : Option U8 :=
  control[i / 4]?.map fun byte : U8 => (byte >>> (i % 4 * 2)) &&& 3#8

/-- A piece of a slice, whole or a panic. -/
def bytesAt (data : List U8) (pos n : Nat) : Option (List U8) :=
  if pos + n ≤ data.length then some ((data.drop pos).take n) else none

def deltaOf (bytes : List U8) : U32 := BitVec.ofNat 32 (ofLe bytes)

namespace StreamVByte

structure Streams where
  control : List U8
  data : List U8
  prev : U32

def encodeStep (streams : Streams) (entry : U32 × Nat) : Option Streams :=
  let delta := entry.1 - streams.prev
  let (nbytes, tag) := svbLen delta
  (orWord streams.control (entry.2 / 4) (tag <<< (entry.2 % 4 * 2))).map fun control =>
    ⟨control, streams.data ++ (u32Bytes delta).take nbytes, entry.1⟩

def encodeDeltas : List U32 → Option StreamVByte
  | [] => some ⟨0, 0, [], []⟩
  | first :: rest =>
      (rest.zipIdx.foldlM encodeStep ⟨List.replicate ((rest.length + 3) / 4) 0, [], first⟩).map
        fun streams => ⟨rest.length + 1, first, streams.control, streams.data⟩

/-- `remaining` more values from delta `i` on, whose bytes start at `pos`. -/
def decodeFrom (sv : StreamVByte) : Nat → Nat → Nat → U32 → Option (List U32)
  | 0, _, _, _ => some []
  | remaining + 1, i, pos, acc => do
      let tag ← controlTag sv.control i
      let nbytes := tag.toNat + 1
      let bytes ← bytesAt sv.data pos nbytes
      let acc := acc + deltaOf bytes
      let rest ← sv.decodeFrom remaining (i + 1) (pos + nbytes) acc
      some (acc :: rest)

def decode (sv : StreamVByte) : Option (List U32) :=
  if sv.len = 0 then some []
  else (sv.decodeFrom (sv.len - 1) 0 0 sv.first).map (sv.first :: ·)

section Spec

variable (sv : StreamVByte)

def numDeltas : Nat := sv.len - 1

/-- The byte length of a delta. -/
def lengthAt (i : Nat) : Nat := ((controlTag sv.control i).getD 0).toNat + 1

/-- Where the bytes of a delta start. -/
def offsetAt (i : Nat) : Nat := ((List.range i).map sv.lengthAt).sum

def deltaAt (i : Nat) : U32 := deltaOf ((sv.data.drop (sv.offsetAt i)).take (sv.lengthAt i))

/-- The values the two streams stand for. -/
def values : List U32 :=
  if sv.len = 0 then []
  else ((List.range sv.numDeltas).map sv.deltaAt).scanl (· + ·) sv.first

/-- What the decoders rely on. -/
structure Shaped : Prop where
  control : sv.control.length = (sv.numDeltas + 3) / 4
  data : sv.data.length = sv.offsetAt sv.numDeltas

variable {sv}

theorem offsetAt_succ (i : Nat) : sv.offsetAt (i + 1) = sv.offsetAt i + sv.lengthAt i := by
  rw [offsetAt, offsetAt, List.range_succ, List.map_append, List.sum_append]
  simp

theorem offsetAt_le {i k : Nat} (h : i ≤ k) : sv.offsetAt i ≤ sv.offsetAt k := by
  induction k with
  | zero => rw [Nat.le_zero.mp h]
  | succ k ih =>
      rcases Nat.lt_or_eq_of_le h with less | rfl
      · rw [offsetAt_succ]
        exact Nat.le_trans (ih (Nat.le_of_lt_succ less)) (Nat.le_add_right _ _)
      · exact Nat.le_refl _

theorem Shaped.tag_some (h : sv.Shaped) {i : Nat} (hi : i < sv.numDeltas) :
    ∃ tag, controlTag sv.control i = some tag ∧ sv.lengthAt i = tag.toNat + 1 := by
  have inside : i / 4 < sv.control.length := by
    rw [h.control]
    omega
  have tag : controlTag sv.control i =
      some ((sv.control[i / 4] >>> (i % 4 * 2)) &&& 3#8) := by
    rw [controlTag, List.getElem?_eq_getElem inside]
    rfl
  refine ⟨_, tag, ?_⟩
  rw [lengthAt, tag]
  rfl

theorem Shaped.bytes_some (h : sv.Shaped) {i : Nat} (hi : i < sv.numDeltas) :
    sv.offsetAt i + sv.lengthAt i ≤ sv.data.length := by
  rw [h.data, ← offsetAt_succ]
  exact offsetAt_le hi

theorem Shaped.decodeFrom_eq (h : sv.Shaped) (remaining i : Nat) (acc : U32)
    (room : i + remaining = sv.numDeltas) :
    (sv.decodeFrom remaining i (sv.offsetAt i) acc).map (acc :: ·) =
      some (((List.range' i remaining).map sv.deltaAt).scanl (· + ·) acc) := by
  induction remaining generalizing i acc with
  | zero => rfl
  | succ remaining ih =>
      have hi : i < sv.numDeltas := by omega
      obtain ⟨tag, read, length⟩ := h.tag_some hi
      have bytes : bytesAt sv.data (sv.offsetAt i) (tag.toNat + 1) =
          some ((sv.data.drop (sv.offsetAt i)).take (sv.lengthAt i)) := by
        rw [← length]
        exact if_pos (h.bytes_some hi)
      have step := ih (i + 1) (acc + sv.deltaAt i) (by omega)
      rw [offsetAt_succ, length] at step
      obtain ⟨rest, ran, same⟩ := Option.map_eq_some_iff.mp step
      rw [decodeFrom, read]
      simp only [Option.bind_eq_bind, Option.bind_some, bytes]
      show ((sv.decodeFrom remaining (i + 1) (sv.offsetAt i + (tag.toNat + 1))
        (acc + sv.deltaAt i)).bind _).map _ = _
      rw [ran, List.range'_succ, List.map_cons, List.scanl_cons, ← same]
      rfl

/-- The decoder reads both streams in step and never past their ends. -/
theorem Shaped.decode_eq (h : sv.Shaped) : sv.decode = some sv.values := by
  rw [decode, values]
  split
  · rfl
  · rw [List.range_eq_range']
    exact h.decodeFrom_eq sv.numDeltas 0 sv.first (Nat.zero_add _)

theorem values_length : sv.values.length = sv.len := by
  rw [values]
  split
  · rename_i empty
    exact empty.symm
  · rename_i some_
    rw [List.length_scanl, List.length_map, List.length_range, numDeltas]
    omega

end Spec

end StreamVByte

end AetherGraph
