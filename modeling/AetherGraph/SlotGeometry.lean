import AetherGraph.GraphHeader
import AetherGraph.RowValidation

/-! Slot layout of the feature table, as the table computes it and as a peer's advertisement is
parsed.  Sizes are `usize` values; unchecked sums and products wrap at `2 ^ 64`. -/

namespace AetherGraph

def i32Max : Nat := 2 ^ 31 - 1

def invalid {α : Type} (text : String) : Except Failure α := .error (.error [text])

/-- The address as `{:#x}` prints it. -/
def hexAddr (n : Nat) : String := "0x" ++ String.ofList (Nat.toDigits 16 n)

/-- What a table advertises of its slots. -/
structure FeatureSchema where
  nodeCount : Nat
  featureDim : Nat
  slotSize : Nat
  featureOffsetInSlot : Nat
  tailOffsetInSlot : Nat

section Table

def featureSlotStrideAlign : Nat := 64

def nextMultipleOf (x m : Nat) : Nat := if x % m = 0 then x else (x + (m - x % m)) % 2 ^ 64

def computeTailOffset (featureDim : Nat) : Nat :=
  let afterFeatures := (featureSlotHeadBytes + featureDim * 4 % 2 ^ 64) % 2 ^ 64
  nextMultipleOf afterFeatures 8

def computeSlotSize (featureDim : Nat) : Nat := (computeTailOffset featureDim + 8) % 2 ^ 64

/-- The stride of `SlotRegion::new`, whose `slot_align` is a power of two here. -/
def alignedSlotSize (slotCount slotSize slotAlign : Nat) : Option Nat :=
  if slotCount = 0 then none
  else if slotSize = 0 then none
  else do
    let sum ← checkedAdd slotSize (slotAlign - 1)
    let aligned := sum - sum % slotAlign
    let _ ← checkedMul slotCount aligned
    some aligned

structure FeatureTable where
  nodeCount : Nat
  featureDim : Nat
  slotSize : Nat
  tailOffset : Nat

namespace FeatureTable

/-- The table over the region that was allocated for it. -/
def new (nodeCount featureDim : Nat) : Option FeatureTable :=
  if nodeCount = 0 ∨ featureDim = 0 then none
  else
    (alignedSlotSize nodeCount (computeSlotSize featureDim) featureSlotStrideAlign).map fun slotSize =>
      ⟨nodeCount, featureDim, slotSize, computeTailOffset featureDim⟩

def schema (t : FeatureTable) : FeatureSchema where
  nodeCount := t.nodeCount
  featureDim := t.featureDim
  slotSize := t.slotSize
  featureOffsetInSlot := featureSlotHeadBytes
  tailOffsetInSlot := t.tailOffset

end FeatureTable

/-- A table at `base` advertises `schema`.  Its region ends inside the address space. -/
def Advertised (base : Nat) (schema : FeatureSchema) : Prop :=
  ∃ nodeCount featureDim table, FeatureTable.new nodeCount featureDim = some table ∧
    schema = table.schema ∧ base + nodeCount * table.slotSize < 2 ^ 64

end Table

/-- Slot stride alignment the device gather's loads need. -/
def strideAlign : Nat := 16

/-- Head, payload and tail of a slot of `stride` bytes. -/
structure SlotGeometry where
  featureDim : Nat
  stride : Nat
  tailOffset : Nat

namespace SlotGeometry

def new (featureDim stride : Nat) : Except Failure SlotGeometry :=
  if featureDim = 0 then invalid "feature_dim must be > 0"
  else
    match (checkedMul featureDim 4).bind fun b => checkedAdd b (featureSlotHeadBytes + 7) with
    | none => invalid s!"feature_dim {featureDim} overflows the slot"
    | some sum =>
      let tailOffset := sum - sum % 8
      let live := (tailOffset + 8) % 2 ^ 64
      if stride < live then
        invalid s!"slot stride {stride} is shorter than the {live}-byte slot for dim {featureDim}"
      else if stride % strideAlign ≠ 0 then
        invalid s!"slot stride {stride} is not a multiple of {strideAlign}"
      else if i32Max < stride then invalid s!"slot stride {stride} exceeds i32::MAX"
      else .ok ⟨featureDim, stride, tailOffset⟩

def fromSchema (schema : FeatureSchema) : Except Failure SlotGeometry :=
  if schema.featureOffsetInSlot ≠ featureSlotHeadBytes then
    let advertised := schema.featureOffsetInSlot
    invalid (s!"advertised feature offset {advertised} != {featureSlotHeadBytes}: " ++
      "peer built with a different slot layout")
  else do
    let geometry ← new schema.featureDim schema.slotSize
    if schema.tailOffsetInSlot ≠ geometry.tailOffset then
      let advertised := schema.tailOffsetInSlot
      let tail := geometry.tailOffset
      let dim := schema.featureDim
      invalid (s!"advertised tail offset {advertised} != {tail} for dim {dim}: " ++
        "peer built with a different slot layout")
    else pure geometry

/-- Byte offset of the payload. -/
def featureOffset (_g : SlotGeometry) : Nat := featureSlotHeadBytes

/-- Bytes a READ fetches, as a `u32`. -/
def liveLen (g : SlotGeometry) : Nat := (g.tailOffset + 8) % 2 ^ 64 % 2 ^ 32

end SlotGeometry

structure RemoteTable where
  baseAddr : Nat
  rkey : Nat
  nodeCount : Nat
  geometry : SlotGeometry

namespace RemoteTable

def parse (baseAddr rkey : Nat) (schema : FeatureSchema) : Except Failure RemoteTable := do
  let geometry ← SlotGeometry.fromSchema schema
  let nodeCount := schema.nodeCount
  if nodeCount = 0 then invalid "advertised table has no nodes"
  else
    match (checkedMul nodeCount geometry.stride).bind fun len => checkedAdd baseAddr len with
    | none =>
      let stride := geometry.stride
      let base := hexAddr baseAddr
      invalid (s!"advertised table ({nodeCount} slots of {stride} bytes at {base}) wraps " ++
        "the address space")
    | some _ => pure ⟨baseAddr, rkey, nodeCount, geometry⟩

/-- Remote address of `node`'s slot. -/
def slotAddr (t : RemoteTable) (node : Nat) : Except Failure Nat :=
  if t.nodeCount ≤ node then
    let count := t.nodeCount
    invalid s!"node {node} out of range (node_count {count})"
  else .ok ((t.baseAddr + node * t.geometry.stride % 2 ^ 64) % 2 ^ 64)

/-- Head, payload and tail lie in order inside the stride, and every READ of a slot stays inside
the advertised span. -/
structure Sound (base : Nat) (schema : FeatureSchema) (t : RemoteTable) : Prop where
  baseAddr : t.baseAddr = base
  nodeCount : t.nodeCount = schema.nodeCount
  head : 8 ≤ t.geometry.featureOffset
  payload : t.geometry.featureOffset + t.geometry.featureDim * 4 ≤ t.geometry.tailOffset
  tail : t.geometry.tailOffset + 8 ≤ t.geometry.stride
  liveLen : t.geometry.liveLen = t.geometry.tailOffset + 8
  aligned : 16 ∣ t.geometry.stride
  indexed : t.geometry.stride ≤ i32Max
  inside : ∀ node < t.nodeCount, ∃ addr, t.slotAddr node = .ok addr ∧ base ≤ addr ∧
    addr + t.geometry.liveLen ≤ base + t.nodeCount * t.geometry.stride ∧
    addr + t.geometry.liveLen < 2 ^ 64

end RemoteTable

/-- What `RemoteTable::parse` promises about an advertisement. -/
structure ParsedSoundly (base rkey : Nat) (schema : FeatureSchema) : Prop where
  sound : ∀ t, RemoteTable.parse base rkey schema = .ok t → t.Sound base schema
  accepted : Advertised base schema → schema.slotSize ≤ i32Max →
    ∃ t, RemoteTable.parse base rkey schema = .ok t

/-- A schema whose tail is the last word below `2 ^ 64`, and that passes every comparison with a live
length that has wrapped to zero. -/
structure LiveWraps (base : Nat) (schema : FeatureSchema) : Prop where
  dim : schema.featureDim = 2 ^ 62 - 7 ∨ schema.featureDim = 2 ^ 62 - 6
  feature : schema.featureOffsetInSlot = 16
  tail : schema.tailOffsetInSlot = 2 ^ 64 - 8
  aligned : 16 ∣ schema.slotSize
  indexed : schema.slotSize ≤ i32Max
  nodes : schema.nodeCount ≠ 0
  span : base + schema.nodeCount * schema.slotSize < 2 ^ 64

/-- A table's advertisement whose slot size has wrapped. -/
structure TableWraps (base : Nat) (schema : FeatureSchema) : Prop where
  advertised : Advertised base schema
  indexed : schema.slotSize ≤ i32Max
  dim : 2 ^ 64 ≤ schema.featureDim * 4 + 23

section Parse

variable {base rkey : Nat} {schema : FeatureSchema}

theorem checkedMul_bind_checkedAdd {a b c : Nat} :
    ((checkedMul a b).bind fun product => checkedAdd product c) =
      if a * b + c < 2 ^ 64 then some (a * b + c) else none := by
  unfold checkedMul
  split
  · rfl
  · rw [if_neg (by omega)]
    rfl

theorem span_checked {a b c : Nat} :
    ((checkedMul a b).bind fun product => checkedAdd c product) =
      if c + a * b < 2 ^ 64 then some (c + a * b) else none := by
  unfold checkedMul
  split
  · rfl
  · rw [if_neg (by omega)]
    rfl

namespace SlotGeometry

theorem new_ok_iff {featureDim stride : Nat} {g : SlotGeometry} :
    new featureDim stride = .ok g ↔
      featureDim ≠ 0 ∧ featureDim * 4 + 23 < 2 ^ 64 ∧
        ((featureDim * 4 + 23) / 8 * 8 + 8) % 2 ^ 64 ≤ stride ∧ stride % 16 = 0 ∧ stride ≤ i32Max ∧
        g = ⟨featureDim, stride, (featureDim * 4 + 23) / 8 * 8⟩ := by
  have down : featureDim * 4 + 23 - (featureDim * 4 + 23) % 8 = (featureDim * 4 + 23) / 8 * 8 := by
    omega
  unfold new
  rw [checkedMul_bind_checkedAdd]
  unfold featureSlotHeadBytes strideAlign invalid
  by_cases zero : featureDim = 0
  · simp [zero]
  by_cases fits : featureDim * 4 + 23 < 2 ^ 64
  · rw [if_neg zero, if_pos (show featureDim * 4 + (16 + 7) < 2 ^ 64 from fits)]
    dsimp only [Nat.reduceAdd]
    rw [down]
    split_ifs with short misaligned large
    · simp only [false_iff]
      omega
    · simp only [false_iff]
      omega
    · simp only [false_iff]
      omega
    · rw [Except.ok.injEq, eq_comm]
      exact ⟨fun same => ⟨zero, fits, by omega, by omega, by omega, same⟩, fun all => all.2.2.2.2.2⟩
  · rw [if_neg zero, if_neg (show ¬ featureDim * 4 + (16 + 7) < 2 ^ 64 from fits)]
    exact ⟨fun no => (nomatch no), fun all => absurd all.2.1 fits⟩

theorem fromSchema_ok_iff {g : SlotGeometry} :
    fromSchema schema = .ok g ↔ schema.featureOffsetInSlot = 16 ∧
      new schema.featureDim schema.slotSize = .ok g ∧ schema.tailOffsetInSlot = g.tailOffset := by
  unfold fromSchema featureSlotHeadBytes invalid
  split_ifs with offset
  · exact ⟨fun no => (nomatch no), fun all => absurd all.1 offset⟩
  · cases made : new schema.featureDim schema.slotSize with
    | error failure => exact ⟨fun no => (nomatch no), fun all => (nomatch all.2.1)⟩
    | ok geometry =>
        rw [Except.ok.injEq]
        show (if schema.tailOffsetInSlot ≠ geometry.tailOffset then _ else Except.ok geometry) =
          Except.ok g ↔ _
        split_ifs with tail
        · exact ⟨fun no => (nomatch no), fun ⟨_, same, at_⟩ => absurd (same ▸ at_) tail⟩
        · rw [Except.ok.injEq]
          exact ⟨fun same => ⟨not_not.mp offset, same, same ▸ not_not.mp tail⟩, fun all => all.2.1⟩

end SlotGeometry

theorem RemoteTable.parse_ok_iff {t : RemoteTable} :
    RemoteTable.parse base rkey schema = .ok t ↔
      SlotGeometry.fromSchema schema = .ok t.geometry ∧ schema.nodeCount ≠ 0 ∧
        base + schema.nodeCount * t.geometry.stride < 2 ^ 64 ∧
        t = ⟨base, rkey, schema.nodeCount, t.geometry⟩ := by
  unfold RemoteTable.parse invalid
  cases made : SlotGeometry.fromSchema schema with
  | error failure => exact ⟨fun no => (nomatch no), fun all => (nomatch all.1)⟩
  | ok geometry =>
      show (if schema.nodeCount = 0 then _ else _) = _ ↔ _
      rw [span_checked, Except.ok.injEq]
      split_ifs with none_ fits
      · exact ⟨fun no => (nomatch no), fun all => absurd none_ all.2.1⟩
      · show Except.ok _ = _ ↔ _
        rw [Except.ok.injEq]
        constructor
        · rintro rfl
          exact ⟨rfl, none_, fits, rfl⟩
        · rintro ⟨same, -, -, at_⟩
          rw [at_, same]
      · refine ⟨fun no => (nomatch no), fun ⟨same, _, inside, _⟩ => ?_⟩
        exact absurd (same ▸ inside) fits

/-- A parsed table, by the values of its schema. -/
theorem RemoteTable.parse_ok {t : RemoteTable} (parsed : RemoteTable.parse base rkey schema = .ok t) :
    schema.featureOffsetInSlot = 16 ∧ schema.nodeCount ≠ 0 ∧ schema.featureDim ≠ 0 ∧
      schema.featureDim * 4 + 23 < 2 ^ 64 ∧
      (schema.tailOffsetInSlot + 8) % 2 ^ 64 ≤ schema.slotSize ∧ schema.slotSize % 16 = 0 ∧
      schema.slotSize ≤ i32Max ∧ schema.tailOffsetInSlot = (schema.featureDim * 4 + 23) / 8 * 8 ∧
      base + schema.nodeCount * schema.slotSize < 2 ^ 64 ∧
      t = ⟨base, rkey, schema.nodeCount,
        ⟨schema.featureDim, schema.slotSize, schema.tailOffsetInSlot⟩⟩ := by
  obtain ⟨made, nodes, span, at_⟩ := parse_ok_iff.mp parsed
  obtain ⟨offset, made, tail⟩ := SlotGeometry.fromSchema_ok_iff.mp made
  obtain ⟨dim, fits, live, aligned, indexed, geometry⟩ := SlotGeometry.new_ok_iff.mp made
  rw [geometry] at tail span at_
  dsimp only at tail span at_
  rw [← tail] at live at_
  exact ⟨offset, nodes, dim, fits, live, aligned, indexed, tail, span, at_⟩

/-- The values a schema must have to be parsed. -/
theorem RemoteTable.parse_of (offset : schema.featureOffsetInSlot = 16) (nodes : schema.nodeCount ≠ 0)
    (dim : schema.featureDim ≠ 0) (fits : schema.featureDim * 4 + 23 < 2 ^ 64)
    (live : (schema.tailOffsetInSlot + 8) % 2 ^ 64 ≤ schema.slotSize)
    (aligned : schema.slotSize % 16 = 0) (indexed : schema.slotSize ≤ i32Max)
    (tail : schema.tailOffsetInSlot = (schema.featureDim * 4 + 23) / 8 * 8)
    (span : base + schema.nodeCount * schema.slotSize < 2 ^ 64) :
    ∃ t, RemoteTable.parse base rkey schema = .ok t := by
  refine ⟨⟨base, rkey, schema.nodeCount, ⟨schema.featureDim, schema.slotSize,
    (schema.featureDim * 4 + 23) / 8 * 8⟩⟩, ?_⟩
  refine parse_ok_iff.mpr ⟨SlotGeometry.fromSchema_ok_iff.mpr ⟨offset, ?_, tail⟩, nodes, span, rfl⟩
  exact SlotGeometry.new_ok_iff.mpr ⟨dim, fits, tail ▸ live, aligned, indexed, rfl⟩

/-- With a tail whose end does not wrap, every promise holds of a parsed table. -/
theorem RemoteTable.sound_of_parse {t : RemoteTable}
    (parsed : RemoteTable.parse base rkey schema = .ok t)
    (live : schema.tailOffsetInSlot + 8 < 2 ^ 64) : t.Sound base schema := by
  obtain ⟨_, _, _, _, short, aligned, indexed, tail, span, rfl⟩ := parse_ok parsed
  rw [Nat.mod_eq_of_lt live] at short
  have small : schema.tailOffsetInSlot + 8 < 2 ^ 32 := by
    unfold i32Max at indexed
    omega
  have len : (schema.tailOffsetInSlot + 8) % 2 ^ 64 % 2 ^ 32 = schema.tailOffsetInSlot + 8 := by
    rw [Nat.mod_eq_of_lt live, Nat.mod_eq_of_lt small]
  refine ⟨rfl, rfl, ?_, ?_, short, len, Nat.dvd_of_mod_eq_zero aligned, indexed, fun node inside => ?_⟩
  · show 8 ≤ 16
    decide
  · show 16 + schema.featureDim * 4 ≤ schema.tailOffsetInSlot
    omega
  · change node < schema.nodeCount at inside
    have slot : (node + 1) * schema.slotSize ≤ schema.nodeCount * schema.slotSize :=
      Nat.mul_le_mul_right _ inside
    rw [Nat.add_mul, Nat.one_mul] at slot
    refine ⟨base + node * schema.slotSize, ?_, Nat.le_add_right .., ?_, ?_⟩
    · unfold slotAddr
      rw [if_neg (Nat.not_le_of_lt inside)]
      dsimp only
      rw [Nat.mod_eq_of_lt (by omega), Nat.mod_eq_of_lt (by omega)]
    · show base + _ + (_ % 2 ^ 64 % 2 ^ 32) ≤ _
      rw [len]
      dsimp only
      omega
    · show base + _ + (_ % 2 ^ 64 % 2 ^ 32) < _
      rw [len]
      omega

end Parse

section Advertisement

variable {base rkey : Nat} {schema : FeatureSchema}

theorem computeTailOffset_eq {dim : Nat} (fits : dim * 4 + 23 < 2 ^ 64) :
    computeTailOffset dim = (dim * 4 + 23) / 8 * 8 := by
  unfold computeTailOffset nextMultipleOf featureSlotHeadBytes
  dsimp only
  rw [Nat.mod_eq_of_lt (show dim * 4 < 2 ^ 64 by omega),
    Nat.mod_eq_of_lt (show 16 + dim * 4 < 2 ^ 64 by omega)]
  split_ifs <;> omega

theorem alignedSlotSize_eq {slotCount slotSize aligned : Nat}
    (made : alignedSlotSize slotCount slotSize featureSlotStrideAlign = some aligned) :
    slotCount ≠ 0 ∧ slotSize ≠ 0 ∧ aligned = (slotSize + 63) / 64 * 64 := by
  unfold alignedSlotSize featureSlotStrideAlign checkedAdd at made
  split_ifs at made with zero empty fits
  · change ((checkedMul slotCount _).bind fun _ => _) = _ at made
    obtain ⟨_, _, same⟩ := Option.bind_eq_some_iff.mp made
    obtain rfl := Option.some.inj same
    exact ⟨zero, empty, by omega⟩
  · cases made

/-- An advertised schema is parsed, unless its slot size has wrapped. -/
theorem parse_advertised (advertised : Advertised base schema) (indexed : schema.slotSize ≤ i32Max)
    (fits : schema.featureDim * 4 + 23 < 2 ^ 64) :
    ∃ t, RemoteTable.parse base rkey schema = .ok t := by
  obtain ⟨nodeCount, featureDim, table, made, rfl, span⟩ := advertised
  unfold FeatureTable.new at made
  split_ifs at made with proper
  obtain ⟨slotSize, aligned, rfl⟩ := Option.map_eq_some_iff.mp made
  obtain ⟨nodes, size, rfl⟩ := alignedSlotSize_eq aligned
  obtain ⟨-, dim⟩ := not_or.mp proper
  change featureDim * 4 + 23 < 2 ^ 64 at fits
  have tail := computeTailOffset_eq fits
  have live : (computeTailOffset featureDim + 8) % 2 ^ 64 = computeSlotSize featureDim := rfl
  refine RemoteTable.parse_of rfl nodes dim fits ?_ ?_ indexed tail span
  · show (computeTailOffset featureDim + 8) % 2 ^ 64 ≤ (computeSlotSize featureDim + 63) / 64 * 64
    rw [live]
    omega
  · show (computeSlotSize featureDim + 63) / 64 * 64 % 16 = 0
    omega

end Advertisement

/-- Parsing keeps its promise on every advertisement but those whose live length, or whose table's
slot size, has wrapped. -/
theorem parsedSoundly_iff (base rkey : Nat) (schema : FeatureSchema) :
    ParsedSoundly base rkey schema ↔ ¬ LiveWraps base schema ∧ ¬ TableWraps base schema := by
  constructor
  · refine fun right => ⟨fun wraps => ?_, fun wraps => ?_⟩
    · have tail : schema.tailOffsetInSlot = (schema.featureDim * 4 + 23) / 8 * 8 := by
        have := wraps.tail
        rcases wraps.dim with dim | dim <;> omega
      have dim : schema.featureDim ≠ 0 ∧ schema.featureDim * 4 + 23 < 2 ^ 64 := by
        rcases wraps.dim with dim | dim <;> omega
      obtain ⟨t, parsed⟩ : ∃ t, RemoteTable.parse base rkey schema = .ok t :=
        RemoteTable.parse_of wraps.feature wraps.nodes dim.1 dim.2 (by rw [wraps.tail]; simp)
          (Nat.mod_eq_zero_of_dvd wraps.aligned) wraps.indexed tail wraps.span
      have short := (right.sound t parsed).tail
      obtain ⟨-, -, -, -, -, -, indexed, -, -, rfl⟩ := RemoteTable.parse_ok parsed
      change schema.tailOffsetInSlot + 8 ≤ schema.slotSize at short
      have := wraps.tail
      unfold i32Max at indexed
      omega
    · obtain ⟨t, parsed⟩ := right.accepted wraps.advertised wraps.indexed
      have := (RemoteTable.parse_ok parsed).2.2.2.1
      have := wraps.dim
      omega
  · rintro ⟨live, table⟩
    refine ⟨fun t parsed => RemoteTable.sound_of_parse parsed ?_, fun advertised indexed => ?_⟩
    · by_contra wraps
      obtain ⟨offset, nodes, -, fits, -, aligned, indexed, tail, span, -⟩ :=
        RemoteTable.parse_ok parsed
      exact live ⟨by omega, offset, by omega, Nat.dvd_of_mod_eq_zero aligned, indexed, nodes, span⟩
    · refine parse_advertised advertised indexed (Nat.lt_of_not_le fun dim => ?_)
      exact table ⟨advertised, indexed, dim⟩

/-- Slots of 16 bytes for 2 ^ 62 - 7 features are parsed. -/
theorem parse_unsound :
    ¬ ParsedSoundly 4096 7 ⟨1, 2 ^ 62 - 7, 16, 16, 2 ^ 64 - 8⟩ := fun right =>
  absurd (right.sound ⟨4096, 7, 1, ⟨2 ^ 62 - 7, 16, 2 ^ 64 - 8⟩⟩ rfl).tail (by decide)

end AetherGraph
