import AetherGraph.GraphHeader
import AetherGraph.Foundation.PodArray

/-! The feature file's header: parsing, what an accepted header promises about every row, and the
element types with their decoders. -/

namespace AetherGraph

open Foundation

section Dtype

inductive FeatureDtype where
  | f32
  | f16
  | bf16
  deriving DecidableEq, Repr

namespace FeatureDtype

/-- Bytes per element. -/
def elementSize : FeatureDtype → Nat
  | .f32 => 4
  | .f16 => 2
  | .bf16 => 2

def fromU8 : Nat → Except Failure FeatureDtype
  | 0 => .ok .f32
  | 1 => .ok .f16
  | 2 => .ok .bf16
  | other => .error (.error [s!"unknown feature dtype tag: {other}"])

theorem elementSize_pos (dtype : FeatureDtype) : 0 < dtype.elementSize := by
  cases dtype <;> decide

end FeatureDtype

/-- The converters of an f16 row, by the instruction of their vector loop. -/
inductive F16Path where
  | scalar
  | f16c
  | avx512
  | neon
  deriving DecidableEq, Repr

/-- Elements of one turn of the vector loop; none on the scalar path. -/
def F16Path.lanes : F16Path → Nat
  | .scalar => 0
  | .f16c => 8
  | .avx512 => 16
  | .neon => 8

/-- `half`'s conversion of an f16 to an f32 and those of the vector instructions.  All widen the
same number, and quiet a NaN under its payload. -/
structure HalfToFloat where
  toF32 : BitVec 16 → U32
  lane : F16Path → BitVec 16 → U32
  lane_eq : ∀ path x, lane path x = toF32 x

/-- Two little-endian bytes at a time. -/
def halves (src : List U8) : List (BitVec 16) :=
  (chunksExact 2 src).map fun piece => BitVec.ofNat 16 (ofLe piece)

/-- The vector loop over whole turns of lanes, and its scalar tail. -/
def convertLanes (half : HalfToFloat) (path : F16Path) (xs : List (BitVec 16)) : List U32 :=
  if path.lanes = 0 ∨ xs.length < path.lanes then xs.map half.toF32
  else (xs.take path.lanes).map (half.lane path) ++
    convertLanes half path (xs.drop path.lanes)
termination_by xs.length
decreasing_by
  rw [List.length_drop]
  omega

/-- `bf16` is the top half of an f32. -/
def bf16ToF32 (x : BitVec 16) : U32 := x.setWidth 32 <<< 16

/-- `decode_row` of `src` into `len` elements, as bits; lengths that disagree are a panic. -/
def decodeRow (half : HalfToFloat) (path : F16Path) (dtype : FeatureDtype) (src : List U8)
    (len : Nat) : Option (List U32) :=
  if src.length = len * dtype.elementSize then
    some (match dtype with
      | .f32 => (chunksExact 4 src).map fun piece => BitVec.ofNat 32 (ofLe piece)
      | .f16 => convertLanes half path (halves src)
      | .bf16 => (halves src).map bf16ToF32)
  else none

/-- The element of a piece of bytes. -/
def decodeElement (half : HalfToFloat) (dtype : FeatureDtype) (piece : List U8) : U32 :=
  match dtype with
  | .f32 => BitVec.ofNat 32 (ofLe piece)
  | .f16 => half.toF32 (BitVec.ofNat 16 (ofLe piece))
  | .bf16 => bf16ToF32 (BitVec.ofNat 16 (ofLe piece))

/-- Every element of the bytes. -/
def decodeAll (half : HalfToFloat) (dtype : FeatureDtype) (src : List U8) : List U32 :=
  (chunksExact dtype.elementSize src).map (decodeElement half dtype)

theorem convertLanes_eq (half : HalfToFloat) (path : F16Path) (xs : List (BitVec 16)) :
    convertLanes half path xs = xs.map half.toF32 := by
  induction xs using convertLanes.induct path with
  | case1 xs tail => rw [convertLanes, if_pos tail]
  | case2 xs whole ih =>
      have lanes : half.lane path = half.toF32 := funext (half.lane_eq path)
      rw [convertLanes, if_neg whole, ih, lanes, ← List.map_append, List.take_append_drop]

/-- A row of the right length decodes element by element, whatever the vector width. -/
theorem decodeRow_eq (half : HalfToFloat) (path : F16Path) {dtype : FeatureDtype} {src : List U8}
    {len : Nat} (whole : src.length = len * dtype.elementSize) :
    decodeRow half path dtype src len = some (decodeAll half dtype src) := by
  unfold decodeRow
  rw [if_pos whole]
  cases dtype with
  | f32 => rfl
  | f16 =>
      show some (convertLanes half path (halves src)) = _
      rw [convertLanes_eq, halves, List.map_map]
      rfl
  | bf16 =>
      show some ((halves src).map bf16ToF32) = _
      rw [halves, List.map_map]
      rfl

/-- Rows one after another decode to the rows' elements one after another. -/
theorem decodeAll_flatMap {α : Type} (half : HalfToFloat) (dtype : FeatureDtype) (len : Nat)
    {row : α → List U8} {as : List α} (each : ∀ a ∈ as, (row a).length = len * dtype.elementSize) :
    decodeAll half dtype (as.flatMap row) = as.flatMap fun a => decodeAll half dtype (row a) := by
  induction as with
  | nil =>
      unfold decodeAll chunksExact
      simp
  | cons a as ih =>
      obtain ⟨here, each⟩ := List.forall_mem_cons.mp each
      rw [List.flatMap_cons, List.flatMap_cons, ← ih each]
      unfold decodeAll
      rw [chunksExact_append dtype.elementSize_pos here, List.map_append]

end Dtype

section Header

def headerSize : Nat := 32

/-- `AETHFEAT` -/
def featureMagic : List U8 := [0x41, 0x45, 0x54, 0x48, 0x46, 0x45, 0x41, 0x54]

def maxFeatureNodes : Nat := 10000000000

def maxFeatureDim : Nat := 100000

structure FeatureHeader where
  numNodes : Nat
  featureDim : Nat
  featuresStartOffset : Nat
  featureSize : Nat
  payloadBytes : Nat
  dtype : FeatureDtype
  deriving DecidableEq, Repr

/-- `filePrefix` is the file's first bytes, `fileSize` its size; both fit a `u64`. -/
def parseFeatureHeaderBytes (filePrefix : List U8) (fileSize : Nat) :
    Except Failure FeatureHeader := do
  ensure (headerSize ≤ filePrefix.length) s!"feature file too small: {fileSize} bytes"
  ensure (byteRange filePrefix (0, 8) = featureMagic) "invalid feature file format (bad magic)"
  let numNodes := ofLe (byteRange filePrefix (8, 16))
  let featureDim := ofLe (byteRange filePrefix (16, 24))
  ensure (numNodes ≤ maxFeatureNodes) s!"num_nodes {numNodes} exceeds maximum {maxFeatureNodes}"
  ensure (featureDim ≤ maxFeatureDim)
    s!"feature_dim {featureDim} exceeds maximum {maxFeatureDim}"
  let featuresStartOffset := ofLe (byteRange filePrefix (24, 32))
  ensure (headerSize < featuresStartOffset)
    s!"invalid data_offset {featuresStartOffset} (must be > {headerSize})"
  ensure (featuresStartOffset % 4 = 0)
    s!"invalid data_offset {featuresStartOffset} (must be 4-byte aligned)"
  ensure (featuresStartOffset ≤ fileSize)
    s!"invalid data_offset {featuresStartOffset} for file size {fileSize}"
  let tag ← okOr "failed to read dtype tag" filePrefix[headerSize]?
  let dtype ← FeatureDtype.fromU8 tag.toNat
  let featureSize ← okOr "feature_size overflow" (checkedMul featureDim dtype.elementSize)
  let totalBytes ← okOr "feature data size overflow" (checkedMul numNodes featureSize)
  let minFileSize ← okOr "minimum feature file size overflow"
    (checkedAdd featuresStartOffset totalBytes)
  ensure (minFileSize ≤ fileSize)
    s!"feature file truncated: expected at least {minFileSize} bytes, got {fileSize}"
  pure ⟨numNodes, featureDim, featuresStartOffset, featureSize, totalBytes, dtype⟩

/-- What parsing has checked. -/
structure FeatureHeader.Checked (h : FeatureHeader) (fileSize : Nat) : Prop where
  numNodes : h.numNodes ≤ maxFeatureNodes
  featureDim : h.featureDim ≤ maxFeatureDim
  start : headerSize < h.featuresStartOffset
  aligned : h.featuresStartOffset % 4 = 0
  featureSize : h.featureSize = h.featureDim * h.dtype.elementSize
  payload : h.payloadBytes = h.numNodes * h.featureSize
  inside : h.featuresStartOffset + h.payloadBytes ≤ fileSize
  narrow : h.featuresStartOffset + h.payloadBytes < 2 ^ 64

theorem okOr_bind_ok {α β : Type} {text : String} {a : Option α} {next : α → Except Failure β}
    {b : β} (h : (okOr text a >>= next) = .ok b) : ∃ x, a = some x ∧ next x = .ok b := by
  cases a with
  | none => cases h
  | some x => exact ⟨x, rfl, h⟩

theorem checkedMul_some {a b c : Nat} (h : checkedMul a b = some c) : c = a * b := by
  unfold checkedMul at h
  split_ifs at h
  exact (Option.some.inj h).symm

theorem checkedAdd_some {a b c : Nat} (h : checkedAdd a b = some c) : c = a + b ∧ c < 2 ^ 64 := by
  unfold checkedAdd at h
  split_ifs at h with small
  exact ⟨(Option.some.inj h).symm, Option.some.inj h ▸ small⟩

theorem parse_checked {filePrefix : List U8} {fileSize : Nat} {h : FeatureHeader}
    (parsed : parseFeatureHeaderBytes filePrefix fileSize = .ok h) : h.Checked fileSize := by
  obtain ⟨-, parsed⟩ := ByteReader.ensure_bind_ok parsed
  obtain ⟨-, parsed⟩ := ByteReader.ensure_bind_ok parsed
  obtain ⟨nodes, parsed⟩ := ByteReader.ensure_bind_ok parsed
  obtain ⟨dim, parsed⟩ := ByteReader.ensure_bind_ok parsed
  obtain ⟨start, parsed⟩ := ByteReader.ensure_bind_ok parsed
  obtain ⟨aligned, parsed⟩ := ByteReader.ensure_bind_ok parsed
  obtain ⟨-, parsed⟩ := ByteReader.ensure_bind_ok parsed
  obtain ⟨tag, -, parsed⟩ := okOr_bind_ok parsed
  cases read : FeatureDtype.fromU8 tag.toNat with
  | error e =>
      rw [read] at parsed
      cases parsed
  | ok dtype =>
      rw [read] at parsed
      obtain ⟨size, sized, parsed⟩ := okOr_bind_ok parsed
      obtain ⟨total, totalled, parsed⟩ := okOr_bind_ok parsed
      obtain ⟨least, summed, parsed⟩ := okOr_bind_ok parsed
      obtain ⟨inside, parsed⟩ := ByteReader.ensure_bind_ok parsed
      obtain rfl := Except.ok.inj parsed
      obtain ⟨rfl, narrow⟩ := checkedAdd_some summed
      exact ⟨nodes, dim, start, aligned, checkedMul_some sized, checkedMul_some totalled, inside,
        narrow⟩

/-- The row geometry of a store, as its readers carry it. -/
structure RowLayout where
  featuresStartOffset : Nat
  featureSize : Nat
  dtype : FeatureDtype
  featureDim : Nat

/-- Where a node's row stands in the file, in `u64` arithmetic. -/
def RowLayout.rowOffset (layout : RowLayout) (node : Nat) : Nat :=
  (layout.featuresStartOffset + node * layout.featureSize % 2 ^ 64) % 2 ^ 64

/-- The readers take the row size from the dimension again. -/
def FeatureHeader.layout (h : FeatureHeader) : RowLayout :=
  ⟨h.featuresStartOffset, h.featureDim * h.dtype.elementSize, h.dtype, h.featureDim⟩

/-- The rows of an accepted header: nowhere wrapped, in the payload, aligned. -/
theorem FeatureHeader.Checked.row {h : FeatureHeader} {fileSize node : Nat}
    (checked : h.Checked fileSize) (inside : node < h.numNodes) :
    h.layout.rowOffset node = h.featuresStartOffset + node * h.featureSize ∧
      h.layout.rowOffset node + h.featureSize ≤ h.featuresStartOffset + h.payloadBytes ∧
      h.layout.rowOffset node % h.dtype.elementSize = 0 := by
  have fits : (node + 1) * h.featureSize ≤ h.numNodes * h.featureSize :=
    Nat.mul_le_mul_right _ inside
  rw [Nat.add_mul, Nat.one_mul, ← checked.payload] at fits
  have narrow := checked.narrow
  have offset : h.layout.rowOffset node = h.featuresStartOffset + node * h.featureSize := by
    unfold FeatureHeader.layout RowLayout.rowOffset
    rw [← checked.featureSize]
    dsimp only
    rw [Nat.mod_eq_of_lt (show node * h.featureSize < 2 ^ 64 by omega), Nat.mod_eq_of_lt (by omega)]
  refine ⟨offset, by omega, ?_⟩
  rw [offset, checked.featureSize, ← Nat.mul_assoc, Nat.add_mul_mod_self_right]
  have aligned := checked.aligned
  cases h.dtype with
  | f32 => exact aligned
  | f16 => exact (show h.featuresStartOffset % 2 = 0 by omega)
  | bf16 => exact (show h.featuresStartOffset % 2 = 0 by omega)

end Header

end AetherGraph
