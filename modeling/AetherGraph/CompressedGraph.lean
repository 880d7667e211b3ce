import AetherGraph.CsrBuild
import AetherGraph.GraphHeader
import AetherGraph.EliasFanoFormat
import AetherGraph.StreamVByteFormat

/-! The compressed graph file: offsets through Elias-Fano, edges through StreamVByte deltas,
weights raw. -/

namespace AetherGraph

open Foundation

def notHomogeneous : String :=
  "the graph file format has one node count; a bipartite CSR belongs in a hetero graph file"

/-- The weights section, empty without weights. -/
def weightsBytes {Time : Type} (csr : Csr Time) : List U8 :=
  (csr.weights.map weightPod.castSlice).getD []

section Format

variable {Time : Type} (crc32Parts : List (List U8) → U32)

def compressedPayload (csr : Csr Time) : Except Failure (List U8) := do
  let ef ← orPanic (EliasFano.encode (csr.offsets.map (BitVec.ofNat 64)))
  let svb ← orPanic (StreamVByte.encodeDeltas (csr.edges.map (BitVec.ofNat 32)))
  pure (ef.writeInto ++ (svb.writeInto ++ weightsBytes csr))

/-- The bytes of the file. -/
def saveGraphCompressed (g : ProvenGraph Time) : Except Failure (List U8) := do
  ensure g.csr.Homogeneous notHomogeneous
  let g ← g.validateWithMode .offsetsOnly
  let payload ← compressedPayload g.csr
  let header := Header.forCompressed g.csr.numNodes g.csr.edges.length g.csr.weights.isSome
    (crc32Parts [payload])
  pure (header.toBytes ++ payload)

def checkPayload (payload : List U8) : Option U32 → Except Failure Unit
  | none => .ok ()
  | some expected =>
      let actual := crc32Parts [payload]
      ensure (actual = expected)
        s!"compressed graph checksum mismatch: expected {hex expected}, got {hex actual}"

/-- The bytes behind the codec sections as weights, or their absence. -/
def readWeights (hasWeights : Bool) (payload : List U8) (used numEdges : Nat) :
    Except Failure (Option (List Float32)) := do
  if hasWeights then
    let raw := payload.drop used
    ensure (some raw.length = checkedMul numEdges 4)
      s!"weights section is {raw.length} bytes for {numEdges} edges"
    pure (some (weightPod.typedSlice raw))
  else
    ensure (used = payload.length) "trailing bytes after edges section"
    pure none

/-- Every mode decodes and proves everything. -/
def loadGraphCompressedFromBytes (bytes : List U8) (_validation : GraphValidationMode) :
    Except Failure (ProvenGraph Time) := do
  let header ← Header.fromBytes bytes
  header.validateCompressed
  let payload := bytes.drop Header.size
  checkPayload crc32Parts payload header.checksum32
  let numNodes := header.numNodes.toNat
  let numEdges := header.numEdges.toNat
  let (ef, efLen) ← (EliasFano.readFrom payload).mapError (Failure.context "offsets section")
  let (svb, svbLen) ← (StreamVByte.readFrom (payload.drop efLen)).mapError
    (Failure.context "edges section")
  ensure (ef.len = numNodes + 1)
    s!"offsets section has {ef.len} entries for {numNodes} nodes"
  ensure (svb.len = numEdges)
    s!"edges section has {svb.len} entries, header says {numEdges}"
  let weights ← readWeights (header.hasWeights ≠ 0) payload (efLen + svbLen) numEdges
  let offsets ← orPanic (ef.decodeInto (List.replicate ef.len 0))
  let edges ← orPanic svb.decode
  ProvenGraph.fromCsrVecs numNodes numNodes (offsets.map BitVec.toNat) (edges.map BitVec.toNat)
    weights .full

variable {csr : Csr Time}

/-- The sections a sorted graph's payload is made of. -/
structure Payload (csr : Csr Time) (ef : EliasFano) (svb : StreamVByte) : Prop where
  encodes : EliasFano.Encodes (csr.offsets.map (BitVec.ofNat 64)) ef
  shaped : svb.Shaped
  values : svb.values = csr.edges.map (BitVec.ofNat 32)
  svbLen : svb.len = csr.edges.length
  data : svb.data.length ≤ 4 * csr.edges.length

theorem offsets_chain (mono : csr.Monotone) (limit : csr.edges.length ≤ maxEdges) :
    (csr.offsets.map (BitVec.ofNat 64)).IsChain (· ≤ ·) := by
  have small := mono.offset_lt (Nat.lt_of_le_of_lt limit (by decide))
  rw [List.isChain_iff_getElem]
  intro i hi
  rw [List.length_map, csr.offsets_length] at hi
  have step := mono i (Nat.lt_of_succ_lt_succ hi)
  have before : i < csr.offsets.length := by rw [csr.offsets_length]; omega
  have after : i + 1 < csr.offsets.length := by rwa [csr.offsets_length]
  rw [List.getD_eq_getElem _ _ before, List.getD_eq_getElem _ _ after] at step
  rw [List.getElem_map, List.getElem_map, BitVec.le_def, BitVec.toNat_ofNat, BitVec.toNat_ofNat,
    Nat.mod_eq_of_lt (small _ (List.getElem_mem before)),
    Nat.mod_eq_of_lt (small _ (List.getElem_mem after))]
  exact step

theorem compressedPayload_ok (mono : csr.Monotone) (limit : csr.edges.length ≤ maxEdges) :
    ∃ ef svb, Payload csr ef svb ∧ compressedPayload csr =
      .ok (ef.writeInto ++ (svb.writeInto ++ weightsBytes csr)) := by
  obtain ⟨ef, encoded, encodes⟩ := EliasFano.encode_encodes (offsets_chain mono limit)
  obtain ⟨svb, streams, shaped, values, len, data⟩ :=
    StreamVByte.encodeDeltas_spec (csr.edges.map (BitVec.ofNat 32))
  rw [List.length_map] at len data
  refine ⟨ef, svb, ⟨encodes, shaped, values, len, data⟩, ?_⟩
  unfold compressedPayload
  rw [encoded, streams]
  rfl

theorem readWeights_ok (limit : csr.edges.length ≤ maxEdges) (front : List U8) :
    readWeights csr.weights.isSome (front ++ weightsBytes csr) front.length csr.edges.length =
      .ok csr.weights := by
  cases present : csr.weights with
  | none =>
      have rest : weightsBytes csr = [] := by rw [weightsBytes, present]; rfl
      show (ensure (front.length = (front ++ weightsBytes csr).length) _ >>= _) = _
      rw [rest, List.append_nil, ByteReader.ensure_ok rfl]
      rfl
  | some ws =>
      have rest : weightsBytes csr = weightPod.castSlice ws := by rw [weightsBytes, present]; rfl
      have length : (weightPod.castSlice ws).length = csr.edges.length * 4 := by
        rw [Pod.castSlice_length, csr.weights_length ws present]
        rfl
      have fits : csr.edges.length * 4 < 2 ^ 64 := by
        have : maxEdges = 100000000000 := rfl
        omega
      show (ensure (some ((front ++ weightsBytes csr).drop front.length).length = _) _ >>= _) = _
      rw [List.drop_left, rest, length, checkedMul_eq fits, ByteReader.ensure_ok rfl]
      exact congrArg (fun typed => Except.ok (some typed))
        (Pod.typedSlice_castSlice fun w _ => weightPod_stores w)

theorem map_toNat_ofNat {w : Nat} {xs : List Nat} (small : ∀ x ∈ xs, x < 2 ^ w) :
    (xs.map (BitVec.ofNat w)).map BitVec.toNat = xs := by
  rw [List.map_map]
  conv_rhs => rw [← List.map_id xs]
  refine List.map_congr_left fun x hx => ?_
  rw [Function.comp_apply, BitVec.toNat_ofNat, Nat.mod_eq_of_lt (small x hx)]
  rfl

theorem checkPayload_ok {header : Header} {payload : List U8}
    (sum : header.integrityChecksum32 = crc32Parts [payload]) :
    checkPayload crc32Parts payload header.checksum32 = .ok () := by
  unfold Header.checksum32
  split
  · rfl
  · exact ByteReader.ensure_ok sum.symm _

/-- A payload behind a header that describes it decodes to the graph. -/
theorem decode_payload {ef : EliasFano} {svb : StreamVByte} {header : Header} {payload : List U8}
    (holds : Payload csr ef svb)
    (sections : payload = ef.writeInto ++ (svb.writeInto ++ weightsBytes csr))
    (homogeneous : csr.Homogeneous) (mono : csr.Monotone) (dests : csr.DestinationsInRange)
    (limit : csr.edges.length ≤ maxEdges) (valid : header.validateCompressed = .ok ())
    (describes : header.Describes csr.numNodes csr.edges.length csr.weights.isSome)
    (sum : header.integrityChecksum32 = crc32Parts [payload]) (mode : GraphValidationMode) :
    ∃ g : ProvenGraph Time,
      loadGraphCompressedFromBytes crc32Parts (header.toBytes ++ payload) mode = .ok g ∧
        g.csr = csr.stored := by
  have nodes := csr.numNodes_le
  have edgeLimit : maxEdges = 100000000000 := rfl
  have nodeLimit : maxNodes = 2 ^ 32 - 1 := rfl
  have svbLen := holds.svbLen
  have data := holds.data
  have efLen := holds.encodes.len
  rw [List.length_map, csr.offsets_length] at efLen
  have memory : (csr.offsets.map (BitVec.ofNat 64)).length * 8 < 2 ^ 63 := by
    rw [List.length_map, csr.offsets_length]
    omega
  have chain := offsets_chain mono limit
  have first := holds.encodes.readFrom_eq chain memory (svb.writeInto ++ weightsBytes csr)
  rw [← sections] at first
  have second := holds.shaped.readFrom_eq (by omega) (by omega) (weightsBytes csr)
  have rest : payload.drop ef.writeInto.length = svb.writeInto ++ weightsBytes csr := by
    rw [sections, List.drop_left]
  have third := readWeights_ok limit (ef.writeInto ++ svb.writeInto)
  rw [List.append_assoc, ← sections, List.length_append] at third
  have offsets : ef.decodeInto (List.replicate ef.len 0) =
      some (csr.offsets.map (BitVec.ofNat 64)) := by
    rw [EliasFano.decodeInto_eq holds.encodes.shaped List.length_replicate,
      holds.encodes.elements_eq]
  have edges : svb.decode = some (csr.edges.map (BitVec.ofNat 32)) := by
    rw [holds.shaped.decode_eq, holds.values]
  obtain ⟨g, built, same⟩ := ProvenGraph.fromCsrVecs_ok mono dests .full
  rw [homogeneous] at built
  refine ⟨g, ?_, same⟩
  unfold loadGraphCompressedFromBytes
  rw [Header.fromBytes_toBytes]
  show (header.validateCompressed >>= _) = _
  rw [valid, List.drop_left' header.toBytes_length]
  show (checkPayload crc32Parts payload header.checksum32 >>= _) = _
  rw [checkPayload_ok crc32Parts sum, describes.numNodes, describes.numEdges, describes.hasWeights]
  show ((EliasFano.readFrom payload).mapError _ >>= _) = _
  rw [first]
  show ((StreamVByte.readFrom (payload.drop ef.writeInto.length)).mapError _ >>= _) = _
  rw [rest, second]
  show (ensure (ef.len = csr.numNodes + 1) _ >>= _) = _
  rw [ByteReader.ensure_ok efLen]
  show (ensure (svb.len = csr.edges.length) _ >>= _) = _
  rw [ByteReader.ensure_ok svbLen]
  show (readWeights _ payload (ef.writeInto.length + svb.writeInto.length) _ >>= _) = _
  rw [third, offsets, edges]
  show ProvenGraph.fromCsrVecs _ _ ((csr.offsets.map _).map _) ((csr.edges.map _).map _) _ _ = _
  rw [map_toNat_ofNat (mono.offset_lt (by omega)), map_toNat_ofNat dests.edge_lt]
  exact built

/-- The compressed file of a valid graph loads to the graph. -/
theorem load_saveGraphCompressed {g : ProvenGraph Time} (homogeneous : g.csr.Homogeneous)
    (mono : g.csr.Monotone) (dests : g.csr.DestinationsInRange)
    (limit : g.csr.edges.length ≤ maxEdges) :
    ∃ header payload, saveGraphCompressed crc32Parts g = .ok (Header.toBytes header ++ payload) ∧
      header.version = compressedVersion ∧ ∀ mode, ∃ g' : ProvenGraph Time,
        loadGraphCompressedFromBytes crc32Parts (header.toBytes ++ payload) mode = .ok g' ∧
          g'.csr = g.csr.stored := by
  obtain ⟨g₁, validated, same⟩ := ProvenGraph.validate_of_full mono dests .offsetsOnly
  obtain ⟨ef, svb, holds, encoded⟩ := compressedPayload_ok mono limit
  have describes := Header.forCompressed_describes g.csr.numNodes_le limit g.csr.weights.isSome
    (crc32Parts [ef.writeInto ++ (svb.writeInto ++ weightsBytes g.csr)])
  refine ⟨_, _, ?_, ?_, fun mode => decode_payload crc32Parts holds rfl homogeneous mono dests limit
    ?_ describes rfl mode⟩
  · unfold saveGraphCompressed
    rw [ByteReader.ensure_ok homogeneous, validated]
    show (compressedPayload g₁.csr >>= _) = _
    rw [same, encoded]
    rfl
  · rfl
  · have nodes := Nat.le_trans (Nat.le_of_eq describes.numNodes) g.csr.numNodes_le
    exact Header.validateCompressed_ok rfl rfl nodes
      (Nat.le_trans (Nat.le_of_eq describes.numEdges) limit)

end Format

end AetherGraph
