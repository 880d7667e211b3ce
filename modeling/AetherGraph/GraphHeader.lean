import AetherGraph.ByteReader
import AetherGraph.Csr

/-! The 32-byte header both graph file formats share. -/

namespace AetherGraph

open Foundation

section Checked

def checkedAdd (a b : Nat) : Option Nat := if a + b < 2 ^ 64 then some (a + b) else none

def checkedMul (a b : Nat) : Option Nat := if a * b < 2 ^ 64 then some (a * b) else none

def okOr {α : Type} (text : String) : Option α → Except Failure α
  | some a => .ok a
  | none => .error (.error [text])

/-- A computation that panics where it is none. -/
def orPanic {α : Type} : Option α → Except Failure α
  | some a => .ok a
  | none => .error .panic

/-- The value as `{:#x}` prints it. -/
def hex (x : U32) : String := "0x" ++ String.ofList (Nat.toDigits 16 x.toNat)

theorem checkedAdd_eq {a b : Nat} (h : a + b < 2 ^ 64) : checkedAdd a b = some (a + b) := if_pos h

theorem checkedMul_eq {a b : Nat} (h : a * b < 2 ^ 64) : checkedMul a b = some (a * b) := if_pos h

end Checked

def graphMagic : U32 := 0x41455448

def flatVersion : U32 := 1

def compressedVersion : U32 := 2

def maxEdges : Nat := 100000000000

structure Header where
  magic : U32
  version : U32
  numNodes : U64
  numEdges : U64
  hasWeights : U32
  integrityChecksum32 : U32
  deriving DecidableEq

namespace Header

def size : Nat := 32

def new (numNodes numEdges : Nat) (hasWeights : Bool) (checksum32 : Option U32) : Header where
  magic := graphMagic
  version := flatVersion
  numNodes := BitVec.ofNat 64 numNodes
  numEdges := BitVec.ofNat 64 numEdges
  hasWeights := if hasWeights then 1 else 0
  integrityChecksum32 := checksum32.getD 0

def forCompressed (numNodes numEdges : Nat) (hasWeights : Bool) (payloadChecksum32 : U32) :
    Header where
  magic := graphMagic
  version := compressedVersion
  numNodes := BitVec.ofNat 64 numNodes
  numEdges := BitVec.ofNat 64 numEdges
  hasWeights := if hasWeights then 1 else 0
  integrityChecksum32 := payloadChecksum32

def validate (h : Header) : Except Failure Unit := do
  ensure (h.magic = graphMagic) "invalid magic number"
  ensure (h.version = flatVersion)
    s!"unsupported version: expected {flatVersion.toNat}, got {h.version.toNat}"

def validateCompressed (h : Header) : Except Failure Unit := do
  ensure (h.magic = graphMagic) "invalid magic number"
  ensure (h.version = compressedVersion)
    s!"not a compressed graph file: version {h.version.toNat}"
  ensure (h.numNodes.toNat ≤ maxNodes ∧ h.numEdges.toNat ≤ maxEdges)
    s!"graph dimensions out of bounds: {h.numNodes.toNat} nodes, {h.numEdges.toNat} edges"

/-- A zero field stands for an absent checksum. -/
def checksum32 (h : Header) : Option U32 :=
  if h.integrityChecksum32 = 0 then none else some h.integrityChecksum32

def toBytes (h : Header) : List U8 :=
  u32Bytes h.magic ++ (u32Bytes h.version ++ (u64Bytes h.numNodes ++ (u64Bytes h.numEdges ++
    (u32Bytes h.hasWeights ++ u32Bytes h.integrityChecksum32))))

/-- A little-endian field of `k` bytes. -/
def readField (w k : Nat) (bytes : List U8) (offset : Nat) : Except Failure (BitVec w) :=
  if offset + k ≤ bytes.length then
    .ok (BitVec.ofNat w (ofLe ((bytes.drop offset).take k)))
  else .error (.error [s!"header read out of bounds at offset {offset}"])

def readU32 (bytes : List U8) (offset : Nat) : Except Failure U32 := readField 32 4 bytes offset

def readU64 (bytes : List U8) (offset : Nat) : Except Failure U64 := readField 64 8 bytes offset

def fromBytes (bytes : List U8) : Except Failure Header := do
  ensure (size ≤ bytes.length)
    s!"insufficient bytes for header: got {bytes.length}, need {size}"
  let magic ← readU32 bytes 0
  let version ← readU32 bytes 4
  let numNodes ← readU64 bytes 8
  let numEdges ← readU64 bytes 16
  let hasWeights ← readU32 bytes 24
  let integrityChecksum32 ← readU32 bytes 28
  pure ⟨magic, version, numNodes, numEdges, hasWeights, integrityChecksum32⟩

/-- The header says what its file holds. -/
structure Describes (h : Header) (numNodes numEdges : Nat) (hasWeights : Bool) : Prop where
  numNodes : h.numNodes.toNat = numNodes
  numEdges : h.numEdges.toNat = numEdges
  hasWeights : decide (h.hasWeights ≠ 0) = hasWeights

theorem flag_ne_zero (flag : Bool) : decide ((if flag then 1 else 0 : U32) ≠ 0) = flag := by
  cases flag <;> rfl

theorem new_describes {numNodes numEdges : Nat} (nodes : numNodes ≤ maxNodes)
    (edges : numEdges ≤ maxEdges) (hasWeights : Bool) (checksum32 : Option U32) :
    (new numNodes numEdges hasWeights checksum32).Describes numNodes numEdges hasWeights where
  numNodes := by
    rw [new, BitVec.toNat_ofNat, Nat.mod_eq_of_lt]
    unfold maxNodes at nodes
    omega
  numEdges := by
    rw [new, BitVec.toNat_ofNat, Nat.mod_eq_of_lt]
    unfold maxEdges at edges
    omega
  hasWeights := flag_ne_zero hasWeights

theorem forCompressed_describes {numNodes numEdges : Nat} (nodes : numNodes ≤ maxNodes)
    (edges : numEdges ≤ maxEdges) (hasWeights : Bool) (checksum32 : U32) :
    (forCompressed numNodes numEdges hasWeights checksum32).Describes numNodes numEdges
      hasWeights := by
  have flat := new_describes nodes edges hasWeights none
  exact ⟨flat.numNodes, flat.numEdges, flat.hasWeights⟩

theorem validate_ok {h : Header} (magic : h.magic = graphMagic)
    (version : h.version = flatVersion) : h.validate = .ok () := by
  unfold validate
  rw [ByteReader.ensure_ok magic]
  exact ByteReader.ensure_ok version _

theorem validateCompressed_ok {h : Header} (magic : h.magic = graphMagic)
    (version : h.version = compressedVersion) (nodes : h.numNodes.toNat ≤ maxNodes)
    (edges : h.numEdges.toNat ≤ maxEdges) : h.validateCompressed = .ok () := by
  unfold validateCompressed
  rw [ByteReader.ensure_ok magic, ByteReader.ensure_ok version]
  exact ByteReader.ensure_ok ⟨nodes, edges⟩ _

theorem toBytes_length (h : Header) : h.toBytes.length = size := by
  simp only [toBytes, List.length_append, u32Bytes_length, u64Bytes_length]
  rfl

theorem readField_at {w : Nat} (k offset : Nat) (width : w = 8 * k) (before after : List U8)
    (here : before.length = offset) (x : BitVec w) :
    readField w k (before ++ (toLe k x.toNat ++ after)) offset = .ok x := by
  subst here
  have inside : before.length + k ≤ (before ++ (toLe k x.toNat ++ after)).length := by
    simp only [List.length_append, toLe_length]
    omega
  rw [readField, if_pos inside, List.drop_left, List.take_left' (toLe_length k _),
    ofNat_ofLe_toLe width]

theorem readU32_at (offset : Nat) (before after : List U8) (here : before.length = offset)
    (x : U32) : readU32 (before ++ (u32Bytes x ++ after)) offset = .ok x :=
  readField_at 4 offset rfl before after here x

theorem readU64_at (offset : Nat) (before after : List U8) (here : before.length = offset)
    (x : U64) : readU64 (before ++ (u64Bytes x ++ after)) offset = .ok x :=
  readField_at 8 offset rfl before after here x

/-- A header is read back from the front of its file. -/
theorem fromBytes_toBytes (h : Header) (rest : List U8) :
    fromBytes (h.toBytes ++ rest) = .ok h := by
  have long : size ≤ (h.toBytes ++ rest).length := by
    rw [List.length_append, toBytes_length]
    exact Nat.le_add_right _ _
  obtain ⟨m, v, n, e, w, c⟩ := h
  have one := readU32_at 0 [] (u32Bytes v ++ (u64Bytes n ++ (u64Bytes e ++ (u32Bytes w ++
    (u32Bytes c ++ rest))))) rfl m
  have two := readU32_at 4 (u32Bytes m) (u64Bytes n ++ (u64Bytes e ++ (u32Bytes w ++
    (u32Bytes c ++ rest)))) rfl v
  have three := readU64_at 8 (u32Bytes m ++ u32Bytes v) (u64Bytes e ++ (u32Bytes w ++
    (u32Bytes c ++ rest))) rfl n
  have four := readU64_at 16 (u32Bytes m ++ u32Bytes v ++ u64Bytes n) (u32Bytes w ++
    (u32Bytes c ++ rest)) rfl e
  have five := readU32_at 24 (u32Bytes m ++ u32Bytes v ++ u64Bytes n ++ u64Bytes e)
    (u32Bytes c ++ rest) rfl w
  have six := readU32_at 28 (u32Bytes m ++ u32Bytes v ++ u64Bytes n ++ u64Bytes e ++ u32Bytes w)
    rest rfl c
  simp only [toBytes, List.append_assoc, List.nil_append] at *
  rw [fromBytes, ByteReader.ensure_ok long, one, two, three, four, five, six]
  rfl

end Header

end AetherGraph
