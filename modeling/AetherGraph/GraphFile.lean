import AetherGraph.CompressedGraph

/-! The flat graph file and the loaders over both formats. -/

namespace AetherGraph

open Foundation

structure GraphFileLayout where
  numNodes : Nat
  numEdges : Nat
  offsetsRange : Nat × Nat
  edgesRange : Nat × Nat
  weightsRange : Option (Nat × Nat)
  checksum32 : Option U32

def fullValidationThresholdBytes : Nat := 512 * 1024 * 1024

def defaultValidationMode (fileSize : Nat) : GraphValidationMode :=
  if fullValidationThresholdBytes < fileSize then .offsetsOnly else .full

section Layout

/-- The weights behind the edges, with the end of what the file must hold. -/
def weightsEnd (hasWeights : Bool) (edgesEnd numEdges : Nat) :
    Except Failure (Option (Nat × Nat) × Nat) := do
  if hasWeights then
    let weightsSize ← okOr "weights size overflow" (checkedMul numEdges weightPod.size)
    let weightsEnd ← okOr "weights range overflow" (checkedAdd edgesEnd weightsSize)
    pure (some (edgesEnd, weightsEnd), weightsEnd)
  else pure (none, edgesEnd)

def checkSection {α : Type} (pod : Pod α) (what : String) (range : Nat × Nat) :
    Except Failure Unit :=
  ensure ((range.2 - range.1) % pod.size = 0)
    s!"{what} section length {range.2 - range.1} is not a multiple of {pod.size}"

def checkWeightsSection : Option (Nat × Nat) → Except Failure Unit
  | none => .ok ()
  | some range => checkSection weightPod "weights" range

def parseLayout (bytes : List U8) : Except Failure GraphFileLayout := do
  let header ← Header.fromBytes bytes
  header.validate
  let numNodes := header.numNodes.toNat
  let numEdges := header.numEdges.toNat
  ensure (numNodes ≤ maxNodes) s!"num_nodes {numNodes} exceeds maximum {maxNodes}"
  ensure (numEdges ≤ maxEdges) s!"num_edges {numEdges} exceeds maximum {maxEdges}"
  let offsetsSize ← okOr "offsets size overflow"
    ((checkedAdd numNodes 1).bind fun n => checkedMul n edgeOffsetPod.size)
  let edgesSize ← okOr "edges size overflow" (checkedMul numEdges nodeIdPod.size)
  let offsetsEnd ← okOr "offsets range overflow" (checkedAdd Header.size offsetsSize)
  let edgesEnd ← okOr "edges range overflow" (checkedAdd offsetsEnd edgesSize)
  let (weightsRange, requiredSize) ← weightsEnd (header.hasWeights ≠ 0) edgesEnd numEdges
  ensure (requiredSize ≤ bytes.length)
    s!"file too small: expected at least {requiredSize} bytes, got {bytes.length}"
  checkSection edgeOffsetPod "offsets" (Header.size, offsetsEnd)
  checkSection nodeIdPod "edges" (offsetsEnd, edgesEnd)
  checkWeightsSection weightsRange
  pure ⟨numNodes, numEdges, (Header.size, offsetsEnd), (offsetsEnd, edgesEnd), weightsRange,
    header.checksum32⟩

end Layout

section Loaders

variable {Time : Type} (crc32Parts : List (List U8) → U32)

/-- The bytes of the file. -/
def saveGraph (g : ProvenGraph Time) : Except Failure (List U8) := do
  ensure g.csr.Homogeneous notHomogeneous
  let offsetsBytes := edgeOffsetPod.castSlice g.csr.offsets
  let edgesBytes := nodeIdPod.castSlice g.csr.edges
  let header := Header.new g.csr.numNodes g.csr.edges.length g.csr.weights.isSome
    (some (crc32Parts [offsetsBytes, edgesBytes]))
  pure (header.toBytes ++ (offsetsBytes ++ (edgesBytes ++ weightsBytes g.csr)))

/-- Only full validation pays for the checksum. -/
def validateChecksumIfPresent (bytes : List U8) (layout : GraphFileLayout)
    (validation : GraphValidationMode) : Except Failure Unit :=
  if validation ≠ .full then .ok ()
  else
    match layout.checksum32 with
    | none => .ok ()
    | some expected =>
        let actual :=
          crc32Parts [byteRange bytes layout.offsetsRange, byteRange bytes layout.edgesRange]
        ensure (actual = expected)
          s!"graph integrity checksum mismatch: expected {hex expected}, got {hex actual}"

def loadGraphFromMmapWithValidation (mmap : List U8) (validation : GraphValidationMode) :
    Except Failure (ProvenGraph Time) := do
  let layout ← parseLayout mmap
  validateChecksumIfPresent crc32Parts mmap layout validation
  ProvenGraph.fromCsrVecs layout.numNodes layout.numNodes
    (edgeOffsetPod.typedSlice (byteRange mmap layout.offsetsRange))
    (nodeIdPod.typedSlice (byteRange mmap layout.edgesRange))
    (layout.weightsRange.map fun range => weightPod.typedSlice (byteRange mmap range)) .full

/-- The version field of the header alone. -/
def sniffVersion (file : List U8) : Except Failure U32 := do
  if Header.size ≤ file.length then
    let header ← Header.fromBytes (file.take Header.size)
    pure header.version
  else .error (.error ["failed to read graph header", "failed to fill whole buffer"])

def loadGraphCompressed (file : List U8) (validation : GraphValidationMode) :
    Except Failure (ProvenGraph Time) :=
  loadGraphCompressedFromBytes crc32Parts file validation

/-- The file at `path` mapped at address `base`. -/
def loadGraphMmap (base : Nat) (path : String) (file : List U8)
    (validation : GraphValidationMode) : Except Failure (ProvenGraph Time) := do
  let version ← sniffVersion file
  ensure (version ≠ compressedVersion)
    (s!"{path} is a compressed graph file, which always decodes into owned " ++
      "storage; load it with the auto or owned storage mode instead of mmap")
  let layout ← parseLayout file
  validateChecksumIfPresent crc32Parts file layout validation
  ProvenGraph.fromMappedParts layout.numNodes layout.numNodes layout.numEdges base file
    layout.offsetsRange layout.edgesRange layout.weightsRange validation

def loadGraphWithValidation (base : Nat) (path : String) (file : List U8)
    (validation : GraphValidationMode) : Except Failure (ProvenGraph Time) :=
  loadGraphMmap crc32Parts base path file validation

def loadGraphOwned (file : List U8) (validation : GraphValidationMode) :
    Except Failure (ProvenGraph Time) := do
  let version ← sniffVersion file
  if version = compressedVersion then loadGraphCompressed crc32Parts file validation
  else loadGraphFromMmapWithValidation crc32Parts file validation

/-- Dispatches on the header's version field. -/
def loadGraph (base : Nat) (path : String) (file : List U8) :
    Except Failure (ProvenGraph Time) := do
  let validation := defaultValidationMode file.length
  let version ← sniffVersion file
  if version = compressedVersion then loadGraphCompressed crc32Parts file validation
  else loadGraphMmap crc32Parts base path file validation

end Loaders

section Flat

variable {Time : Type} {crc32Parts : List (List U8) → U32} {csr : Csr Time} {header : Header}

/-- The flat file's sections behind its header. -/
def flatBody (csr : Csr Time) : List U8 :=
  edgeOffsetPod.castSlice csr.offsets ++ (nodeIdPod.castSlice csr.edges ++ weightsBytes csr)

def offsetsStop (csr : Csr Time) : Nat := 32 + (csr.numNodes + 1) * 8

def edgesStop (csr : Csr Time) : Nat := offsetsStop csr + csr.edges.length * 4

def flatLayout (csr : Csr Time) (checksum32 : Option U32) : GraphFileLayout where
  numNodes := csr.numNodes
  numEdges := csr.edges.length
  offsetsRange := (32, offsetsStop csr)
  edgesRange := (offsetsStop csr, edgesStop csr)
  weightsRange := csr.weights.map fun _ => (edgesStop csr, edgesStop csr + csr.edges.length * 4)
  checksum32 := checksum32

theorem offsets_at (csr : Csr Time) (header : Header) :
    edgeOffsetPod.At (header.toBytes ++ flatBody csr) (32, offsetsStop csr) csr.offsets := by
  have here := Pod.at_middle edgeOffsetPod csr.offsets
    (nodeIdPod.castSlice csr.edges ++ weightsBytes csr) header.toBytes_length
  rwa [csr.offsets_length] at here

theorem offsetsStop_eq (csr : Csr Time) (header : Header) :
    (header.toBytes ++ edgeOffsetPod.castSlice csr.offsets).length = offsetsStop csr := by
  rw [List.length_append, header.toBytes_length, Pod.castSlice_length, csr.offsets_length]
  rfl

theorem edges_at (csr : Csr Time) (header : Header) :
    nodeIdPod.At (header.toBytes ++ flatBody csr) (offsetsStop csr, edgesStop csr) csr.edges := by
  have here := Pod.at_middle nodeIdPod csr.edges (weightsBytes csr) (offsetsStop_eq csr header)
  rwa [List.append_assoc] at here

theorem weights_at (csr : Csr Time) (header : Header) {base : Nat} (aligned : base % 8 = 0) :
    ProvenGraph.WeightsAt base (header.toBytes ++ flatBody csr)
      (flatLayout csr header.checksum32).weightsRange csr.weights := by
  cases present : csr.weights with
  | none =>
      rw [flatLayout, present]
      exact .none
  | some ws =>
      have rest : weightsBytes csr = weightPod.castSlice ws := by rw [weightsBytes, present]; rfl
      have front : (header.toBytes ++ edgeOffsetPod.castSlice csr.offsets ++
          nodeIdPod.castSlice csr.edges).length = edgesStop csr := by
        rw [List.length_append, offsetsStop_eq, Pod.castSlice_length]
        rfl
      have here := Pod.at_middle weightPod ws [] front
      rw [List.append_nil, ← rest, List.append_assoc, List.append_assoc,
        csr.weights_length ws present] at here
      rw [flatLayout, present]
      refine .some ⟨here, ?_⟩
      show (base + (32 + (csr.numNodes + 1) * 8 + csr.edges.length * 4)) % 4 = 0
      omega

/-- The end of the flat file. -/
def fileStop (csr : Csr Time) : Nat :=
  edgesStop csr + if csr.weights.isSome then csr.edges.length * 4 else 0

theorem flatBody_length (csr : Csr Time) (header : Header) :
    (header.toBytes ++ flatBody csr).length = fileStop csr := by
  rw [flatBody, ← List.append_assoc, ← List.append_assoc, List.length_append, List.length_append,
    offsetsStop_eq, Pod.castSlice_length, fileStop]
  congr 1
  cases present : csr.weights with
  | none => rw [weightsBytes, present]; rfl
  | some ws =>
      rw [weightsBytes, present]
      show (weightPod.castSlice ws).length = _
      rw [Pod.castSlice_length, csr.weights_length ws present]
      rfl

theorem weightsEnd_ok (csr : Csr Time) (limit : csr.edges.length ≤ maxEdges) :
    weightsEnd csr.weights.isSome (edgesStop csr) csr.edges.length =
      .ok ((csr.weights.map fun _ => (edgesStop csr, edgesStop csr + csr.edges.length * 4)),
        fileStop csr) := by
  have edgeLimit : maxEdges = 100000000000 := rfl
  have nodeLimit : maxNodes = 2 ^ 32 - 1 := rfl
  have nodes := csr.numNodes_le
  have stop : edgesStop csr = 32 + (csr.numNodes + 1) * 8 + csr.edges.length * 4 := rfl
  unfold weightsEnd fileStop
  cases csr.weights with
  | none => rfl
  | some ws =>
      show (okOr _ (checkedMul csr.edges.length 4) >>= _) = _
      rw [checkedMul_eq (by omega)]
      show (okOr _ (checkedAdd (edgesStop csr) (csr.edges.length * 4)) >>= _) = _
      rw [checkedAdd_eq (by omega)]
      rfl

theorem checkSection_ok {α : Type} {pod : Pod α} {bytes : List U8} {range : Nat × Nat}
    {xs : List α} (h : pod.At bytes range xs) (what : String) :
    checkSection pod what range = .ok () :=
  ByteReader.ensure_ok (by rw [h.width, Nat.mul_mod_left]) _

theorem checkWeightsSection_ok {base : Nat} {bytes : List U8} {range : Option (Nat × Nat)}
    {weights : Option (List Float32)} (h : ProvenGraph.WeightsAt base bytes range weights) :
    checkWeightsSection range = .ok () := by
  cases h with
  | none => rfl
  | some here => exact checkSection_ok here.1 "weights"

theorem parseLayout_ok (valid : header.validate = .ok ()) (limit : csr.edges.length ≤ maxEdges)
    (describes : header.Describes csr.numNodes csr.edges.length csr.weights.isSome) :
    parseLayout (header.toBytes ++ flatBody csr) = .ok (flatLayout csr header.checksum32) := by
  have edgeLimit : maxEdges = 100000000000 := rfl
  have nodeLimit : maxNodes = 2 ^ 32 - 1 := rfl
  have nodes := csr.numNodes_le
  unfold parseLayout
  rw [Header.fromBytes_toBytes]
  show (header.validate >>= _) = _
  rw [valid]
  show (ensure (header.numNodes.toNat ≤ maxNodes) _ >>= _) = _
  rw [describes.numNodes, describes.numEdges, describes.hasWeights, ByteReader.ensure_ok nodes,
    ByteReader.ensure_ok limit]
  show (okOr _ ((checkedAdd csr.numNodes 1).bind fun n => checkedMul n 8) >>= _) = _
  rw [checkedAdd_eq (by omega)]
  show (okOr _ (checkedMul (csr.numNodes + 1) 8) >>= _) = _
  rw [checkedMul_eq (by omega)]
  show (okOr _ (checkedMul csr.edges.length 4) >>= _) = _
  rw [checkedMul_eq (by omega)]
  show (okOr _ (checkedAdd 32 ((csr.numNodes + 1) * 8)) >>= _) = _
  rw [checkedAdd_eq (by omega)]
  show (okOr _ (checkedAdd (offsetsStop csr) (csr.edges.length * 4)) >>= _) = _
  have stop : offsetsStop csr = 32 + (csr.numNodes + 1) * 8 := rfl
  rw [checkedAdd_eq (by omega)]
  show (weightsEnd csr.weights.isSome (edgesStop csr) csr.edges.length >>= _) = _
  rw [weightsEnd_ok csr limit]
  show (ensure (fileStop csr ≤ (header.toBytes ++ flatBody csr).length) _ >>= _) = _
  rw [ByteReader.ensure_ok (Nat.le_of_eq (flatBody_length csr header).symm)]
  show (checkSection edgeOffsetPod _ (32, offsetsStop csr) >>= _) = _
  rw [checkSection_ok (offsets_at csr header)]
  show (checkSection nodeIdPod _ (offsetsStop csr, edgesStop csr) >>= _) = _
  rw [checkSection_ok (edges_at csr header)]
  show (checkWeightsSection (flatLayout csr header.checksum32).weightsRange >>= _) = _
  rw [checkWeightsSection_ok (weights_at csr header (Nat.zero_mod 8))]
  rfl

theorem validateChecksum_ok
    (sum : header.integrityChecksum32 =
      crc32Parts [edgeOffsetPod.castSlice csr.offsets, nodeIdPod.castSlice csr.edges])
    (mode : GraphValidationMode) :
    validateChecksumIfPresent crc32Parts (header.toBytes ++ flatBody csr)
      (flatLayout csr header.checksum32) mode = .ok () := by
  unfold validateChecksumIfPresent
  split
  · rfl
  · split
    · rfl
    · rename_i expected present
      have stored : header.checksum32 = some expected := present
      unfold Header.checksum32 at stored
      split at stored
      · cases stored
      · refine ByteReader.ensure_ok ?_ _
        show crc32Parts [byteRange _ (32, offsetsStop csr),
          byteRange _ (offsetsStop csr, edgesStop csr)] = expected
        rw [(offsets_at csr header).content, (edges_at csr header).content, ← sum]
        exact Option.some.inj stored

/-- The version a file's header carries. -/
theorem sniffVersion_ok (header : Header) (rest : List U8) :
    sniffVersion (header.toBytes ++ rest) = .ok header.version := by
  have long : Header.size ≤ (header.toBytes ++ rest).length := by
    rw [List.length_append, header.toBytes_length]
    exact Nat.le_add_right _ _
  have front := Header.fromBytes_toBytes header []
  rw [List.append_nil] at front
  unfold sniffVersion
  rw [if_pos long, List.take_left' header.toBytes_length, front]
  rfl

end Flat

section RoundTrip

variable {Time : Type} {crc32Parts : List (List U8) → U32} {csr : Csr Time} {header : Header}

theorem maxEdges_lt : maxEdges < 2 ^ 64 := by
  unfold maxEdges
  omega

/-- The loader returned the graph, as a file stores it. -/
def Loads (csr : Csr Time) (loaded : Except Failure (ProvenGraph Time)) : Prop :=
  ∃ g, loaded = .ok g ∧ g.csr = csr.stored

/-- A flat file as its writer lays it out. -/
structure FlatFile (crc32Parts : List (List U8) → U32) (csr : Csr Time) (header : Header) :
    Prop where
  valid : header.validate = .ok ()
  version : header.version = flatVersion
  describes : header.Describes csr.numNodes csr.edges.length csr.weights.isSome
  sum : header.integrityChecksum32 =
    crc32Parts [edgeOffsetPod.castSlice csr.offsets, nodeIdPod.castSlice csr.edges]

theorem saveGraph_flat (crc32Parts : List (List U8) → U32) {g : ProvenGraph Time}
    (homogeneous : g.csr.Homogeneous)
    (limit : g.csr.edges.length ≤ maxEdges) :
    ∃ header, saveGraph crc32Parts g = .ok (header.toBytes ++ flatBody g.csr) ∧
      FlatFile crc32Parts g.csr header := by
  unfold saveGraph
  rw [ByteReader.ensure_ok homogeneous]
  exact ⟨_, rfl, Header.validate_ok rfl rfl, rfl,
    Header.new_describes g.csr.numNodes_le limit _ _, rfl⟩

/-- The owned load of a flat file. -/
theorem FlatFile.load_owned (file : FlatFile crc32Parts csr header)
    (homogeneous : csr.Homogeneous) (mono : csr.Monotone) (dests : csr.DestinationsInRange)
    (limit : csr.edges.length ≤ maxEdges) (mode : GraphValidationMode) :
    Loads csr (loadGraphFromMmapWithValidation crc32Parts (header.toBytes ++ flatBody csr)
      mode) := by
  have small := Nat.lt_of_le_of_lt limit maxEdges_lt
  have offsets := (offsets_at csr header).typed fun o ho =>
    edgeOffsetPod_stores (mono.offset_lt small o ho)
  have edges := (edges_at csr header).typed fun d hd => nodeIdPod_stores (dests.edge_lt d hd)
  have weights := ProvenGraph.weightsAt_typed (weights_at csr header (Nat.zero_mod 8))
  obtain ⟨g, built, same⟩ := ProvenGraph.fromCsrVecs_ok mono dests .full
  rw [homogeneous] at built
  refine ⟨g, ?_, same⟩
  unfold loadGraphFromMmapWithValidation
  rw [parseLayout_ok file.valid limit file.describes]
  show (validateChecksumIfPresent _ _ _ _ >>= _) = _
  rw [validateChecksum_ok file.sum mode]
  show ProvenGraph.fromCsrVecs _ _
    (edgeOffsetPod.typedSlice (byteRange _ (32, offsetsStop csr)))
    (nodeIdPod.typedSlice (byteRange _ (offsetsStop csr, edgesStop csr)))
    ((flatLayout csr header.checksum32).weightsRange.map _) _ = _
  rw [offsets, edges, weights]
  exact built

/-- The mapped load of a flat file. -/
theorem FlatFile.load_mapped (file : FlatFile crc32Parts csr header) {base : Nat}
    (aligned : base % 8 = 0) (path : String) (homogeneous : csr.Homogeneous)
    (mono : csr.Monotone) (dests : csr.DestinationsInRange)
    (limit : csr.edges.length ≤ maxEdges) (mode : GraphValidationMode) :
    Loads csr (loadGraphMmap crc32Parts base path (header.toBytes ++ flatBody csr) mode) := by
  have small := Nat.lt_of_le_of_lt limit maxEdges_lt
  have edgesAligned : (base + offsetsStop csr) % 4 = 0 := by
    unfold offsetsStop
    omega
  obtain ⟨g, built, same⟩ := ProvenGraph.fromMappedParts_ok mono dests small (offsets_at csr header)
    (edges_at csr header) (weights_at csr header aligned)
    ⟨by omega, edgesAligned⟩ mode
  rw [homogeneous] at built
  refine ⟨g, ?_, same⟩
  unfold loadGraphMmap
  rw [sniffVersion_ok]
  show (ensure (header.version ≠ compressedVersion) _ >>= _) = _
  rw [ByteReader.ensure_ok (by rw [file.version]; decide),
    parseLayout_ok file.valid limit file.describes]
  show (validateChecksumIfPresent _ _ _ _ >>= _) = _
  rw [validateChecksum_ok file.sum mode]
  exact built

section Dispatch

variable {base : Nat} {path : String} (rest : List U8)

theorem loadGraph_flat (flat : ¬ header.version = compressedVersion) :
    (loadGraph crc32Parts base path (header.toBytes ++ rest) :
      Except Failure (ProvenGraph Time)) =
      loadGraphMmap crc32Parts base path (header.toBytes ++ rest)
        (defaultValidationMode (header.toBytes ++ rest).length) := by
  unfold loadGraph
  rw [sniffVersion_ok]
  exact if_neg flat

theorem loadGraph_compressed (compressed : header.version = compressedVersion) :
    (loadGraph crc32Parts base path (header.toBytes ++ rest) :
      Except Failure (ProvenGraph Time)) =
      loadGraphCompressed crc32Parts (header.toBytes ++ rest)
        (defaultValidationMode (header.toBytes ++ rest).length) := by
  unfold loadGraph
  rw [sniffVersion_ok]
  exact if_pos compressed

theorem loadGraphOwned_flat (flat : ¬ header.version = compressedVersion)
    (mode : GraphValidationMode) :
    (loadGraphOwned crc32Parts (header.toBytes ++ rest) mode :
      Except Failure (ProvenGraph Time)) =
      loadGraphFromMmapWithValidation crc32Parts (header.toBytes ++ rest) mode := by
  unfold loadGraphOwned
  rw [sniffVersion_ok]
  exact if_neg flat

theorem loadGraphOwned_compressed (compressed : header.version = compressedVersion)
    (mode : GraphValidationMode) :
    (loadGraphOwned crc32Parts (header.toBytes ++ rest) mode :
      Except Failure (ProvenGraph Time)) =
      loadGraphCompressed crc32Parts (header.toBytes ++ rest) mode := by
  unfold loadGraphOwned
  rw [sniffVersion_ok]
  exact if_pos compressed

end Dispatch

/-- What the loaders make of the flat and the compressed file of one graph. -/
structure FormatsAgree (crc32Parts : List (List U8) → U32) (base : Nat) (path : String)
    (csr : Csr Time) (flat compressed : List U8) : Prop where
  mapped : ∀ mode, Loads csr (loadGraphMmap crc32Parts base path flat mode)
  withValidation : ∀ mode, Loads csr (loadGraphWithValidation crc32Parts base path flat mode)
  owned : ∀ mode, Loads csr (loadGraphOwned crc32Parts flat mode)
  fromMmap : ∀ mode, Loads csr (loadGraphFromMmapWithValidation crc32Parts flat mode)
  ownedCompressed : ∀ mode, Loads csr (loadGraphOwned crc32Parts compressed mode)
  decoded : ∀ mode, Loads csr (loadGraphCompressed crc32Parts compressed mode)
  picksFlat : (loadGraph crc32Parts base path flat : Except Failure (ProvenGraph Time)) =
    loadGraphMmap crc32Parts base path flat (defaultValidationMode flat.length)
  picksCompressed :
    (loadGraph crc32Parts base path compressed : Except Failure (ProvenGraph Time)) =
      loadGraphCompressed crc32Parts compressed (defaultValidationMode compressed.length)
  auto : Loads csr (loadGraph crc32Parts base path flat)
  autoCompressed : Loads csr (loadGraph crc32Parts base path compressed)

/-- A valid homogeneous graph comes back from both files through every loader that takes them;
`base` is the page the file is mapped at. -/
theorem graph_files_round_trip (crc32Parts : List (List U8) → U32) {base : Nat}
    (page : base % 4096 = 0) (path : String) {g proven : ProvenGraph Time}
    (homogeneous : g.csr.Homogeneous) (valid : g.validateWithMode .full = .ok proven)
    (limit : g.csr.edges.length ≤ maxEdges) :
    ∃ flat compressed, saveGraph crc32Parts g = .ok flat ∧
      saveGraphCompressed crc32Parts g = .ok compressed ∧
      FormatsAgree crc32Parts base path g.csr flat compressed := by
  obtain ⟨mono, dests⟩ := ProvenGraph.validate_full valid
  obtain ⟨header, saved, file⟩ := saveGraph_flat crc32Parts homogeneous limit
  obtain ⟨header', payload, savedCompressed, version, decoded⟩ :=
    load_saveGraphCompressed crc32Parts homogeneous mono dests limit
  have mapped := fun mode =>
    file.load_mapped (show base % 8 = 0 by omega) path homogeneous mono dests limit mode
  have fromMmap := fun mode => file.load_owned homogeneous mono dests limit mode
  have picked : ¬ header.version = compressedVersion := by
    rw [file.version]
    decide
  refine ⟨_, _, saved, savedCompressed, mapped, mapped, fun mode => ?_, fromMmap, fun mode => ?_,
    decoded, loadGraph_flat _ picked, loadGraph_compressed _ version, ?_, ?_⟩
  · rw [loadGraphOwned_flat _ picked]
    exact fromMmap mode
  · rw [loadGraphOwned_compressed _ version]
    exact decoded mode
  · rw [loadGraph_flat _ picked]
    exact mapped _
  · rw [loadGraph_compressed _ version]
    exact decoded _

/-- One byte through the reflected IEEE polynomial. -/
def crc32Byte (crc : U32) (byte : U8) : U32 :=
  (List.range 8).foldl
    (fun c _ => if c.getLsbD 0 then (c >>> 1) ^^^ 0xEDB88320 else c >>> 1)
    (crc ^^^ byte.setWidth 32)

def crc32Ieee (parts : List (List U8)) : U32 := ~~~ (parts.flatten.foldl crc32Byte 0xFFFFFFFF)

example : crc32Ieee [[0x31, 0x32, 0x33], [0x34, 0x35, 0x36, 0x37, 0x38, 0x39]] = 0xCBF43926 := by
  decide +kernel

/-- Unsorted rows, one of them empty, with weights. -/
def sampleCsr : Csr Nat where
  numNodes := 3
  numDstNodes := 3
  offsets := [0, 2, 2, 3]
  edges := [2, 1, 0]
  weights := some [1, 2, 3]
  timestamps := none
  numNodes_le := three_le_maxNodes
  numDstNodes_le := three_le_maxNodes
  offsets_length := rfl
  first_offset := rfl
  last_offset := rfl
  weights_length := by rintro _ ⟨⟩; rfl
  timestamps_length := nofun

def sampleGraph : ProvenGraph Nat where
  csr := sampleCsr
  validated := .full
  monotone _ := by decide
  destinations _ := by decide

theorem graph_files_round_trip_sample :
    ∃ flat compressed, saveGraph crc32Ieee sampleGraph = .ok flat ∧
      saveGraphCompressed crc32Ieee sampleGraph = .ok compressed ∧
      FormatsAgree crc32Ieee 4096 "graph.bin" sampleGraph.csr flat compressed :=
  graph_files_round_trip crc32Ieee rfl "graph.bin" rfl rfl (by decide)

end RoundTrip

end AetherGraph
