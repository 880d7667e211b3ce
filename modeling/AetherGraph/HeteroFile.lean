import AetherGraph.HeteroParts
import AetherGraph.CsrBuild
import AetherGraph.GraphHeader

/-! The heterogeneous graph file: fixed-width tables of zero-padded names, then each edge type's
arrays in sections padded to eight bytes. -/

namespace AetherGraph

open Foundation

section Format

/-- `AETHHETG` -/
def heteroMagic : List U8 := [0x41, 0x45, 0x54, 0x48, 0x48, 0x45, 0x54, 0x47]

def heteroVersion : Nat := 1

def heteroHeaderSize : Nat := 64

def nodeTypeEntrySize : Nat := 72

def edgeTypeEntrySize : Nat := 216

def maxTypes : Nat := 256

/-- The zero bytes that align `len` up to 8. -/
def pad8 (len : Nat) : Nat := (2 ^ 64 - len % 2 ^ 64) % 8

theorem add_pad8 (len : Nat) : (len + pad8 len) % 8 = 0 := by
  unfold pad8
  omega

def nameBytes (name : String) : List U8 := name.toByteArray.data.toList.map UInt8.toBitVec

def stringFromUtf8 (bytes : List U8) : Option String :=
  String.fromUTF8? ⟨(bytes.map UInt8.ofBitVec).toArray⟩

/-- The bytes of the name and zeros up to 64; a longer name is an assertion failure. -/
def writePaddedName (name : String) : Except Failure (List U8) :=
  let bytes := nameBytes name
  if bytes.length < 64 then .ok (bytes ++ List.replicate (64 - bytes.length) 0)
  else .error .panic

def readPaddedName (data : List U8) : Except Failure String := do
  let stop ← okOr "type name field has no NUL terminator — file is corrupt"
    (data.findIdx? fun b => b = 0)
  okOr "invalid UTF-8 in type name" (stringFromUtf8 (data.take stop))

end Format

section Errors

def EdgeTypeError.text : EdgeTypeError → String
  | .notMonotonic index next previous =>
      s!"offsets not monotonic at index {index}: {next} < {previous}"
  | .sourcesPastCount edges srcCount =>
      s!"{edges} edges leave source ids at or past the source type's count {srcCount}"
  | .destination d edge dstCount =>
      s!"destination {d} at edge {edge} is not below the destination type's count {dstCount}"

def HeteroBuildError.text : HeteroBuildError → String
  | .tooManyNodeTypes n => s!"too many node types ({n}, max 255)"
  | .tooManyEdgeTypes n => s!"too many edge types ({n}, max 255)"
  | .unknownNodeType name => s!"unknown node type: {name}"
  | .duplicateNodeType name => s!"duplicate node type: {name}"
  | .duplicateEdgeType src rel dst => s!"duplicate edge type: ({src}, {rel}, {dst})"
  | .nodeTypeTooLarge name count =>
      s!"node type {name} has {count} nodes, over the u32 node-id limit {maxNodes}"
  | .invalidEdgeType src rel dst reason => s!"edge type ({src}, {rel}, {dst}): {reason.text}"

end Errors

section Save

variable {Time : Type}

def nodeTypeEntry (entry : NodeTypeMeta) : Except Failure (List U8) := do
  let name ← writePaddedName entry.name
  pure (name ++ lengthBytes entry.count)

def edgeTypeEntry (g : HeteroGraph Time) (et : Nat) : Except Failure (List U8) := do
  let entry ← orPanic g.edgeTypes[et]?
  let src ← orPanic g.nodeTypes[entry.srcType]?
  let dst ← orPanic g.nodeTypes[entry.dstType]?
  let csr ← orPanic g.csrGraphs[et]?
  let srcName ← writePaddedName src.name
  let relName ← writePaddedName entry.relation
  let dstName ← writePaddedName dst.name
  pure (srcName ++ (relName ++ (dstName ++ (lengthBytes csr.numNodes ++
    (lengthBytes csr.edges.length ++ (u32Bytes (if csr.weights.isSome then 1 else 0) ++
      u32Bytes 0))))))

/-- A section with its padding. -/
def padded (bytes : List U8) : List U8 := bytes ++ List.replicate (pad8 bytes.length) 0

def weightsSection : Option (List Float32) → List U8
  | none => []
  | some weights => padded (weightPod.castSlice weights)

def csrSection (csr : Csr Time) : List U8 :=
  edgeOffsetPod.castSlice csr.offsets ++ (padded (nodeIdPod.castSlice csr.edges) ++
    weightsSection csr.weights)

def heteroHeader (numNt numEt : Nat) : List U8 :=
  heteroMagic ++ (u32Bytes (BitVec.ofNat 32 heteroVersion) ++ (u32Bytes (BitVec.ofNat 32 numNt) ++
    (u32Bytes (BitVec.ofNat 32 numEt) ++ List.replicate 44 0)))

/-- Type ids run over `0..count as u8`. -/
def writeHetero (g : HeteroGraph Time) : Except Failure (List U8) := do
  let numNt := g.nodeTypes.length
  let numEt := g.edgeTypes.length
  let nodeTypes ← (List.range (numNt % 256)).mapM fun nt => do
    let entry ← orPanic g.nodeTypes[nt]?
    nodeTypeEntry entry
  let edgeTypes ← (List.range (numEt % 256)).mapM (edgeTypeEntry g)
  let sections ← (List.range (numEt % 256)).mapM fun et => do
    let csr ← orPanic g.csrGraphs[et]?
    pure (csrSection csr)
  pure (heteroHeader numNt numEt ++ (nodeTypes.flatten ++ (edgeTypes.flatten ++ sections.flatten)))

/-- The bytes of the file. -/
def saveHeteroGraph (g : HeteroGraph Time) : Except Failure (List U8) := do
  let numNt := g.nodeTypes.length
  let numEt := g.edgeTypes.length
  ensure (numNt ≤ maxTypes ∧ numEt ≤ maxTypes)
    s!"type counts ({numNt} node, {numEt} edge) exceed the format limit of {maxTypes}"
  writeHetero g

end Save

section Load

variable {Time : Type}

structure EdgeTypeHeader where
  srcName : String
  relName : String
  dstName : String
  numSrcNodes : Nat
  numEdges : Nat
  hasWeights : Bool

/-- The next `n` bytes of a table that fits the file. -/
def tableEntry (n : Nat) : Parse (List U8) := fun r =>
  if r.pos + n ≤ r.items.length then
    .ok (byteRange r.items (r.pos, r.pos + n), { r with pos := r.pos + n })
  else .error .panic

def readNodeType : Parse (String × Nat) := do
  let entry ← tableEntry nodeTypeEntrySize
  let name ← StateT.lift (readPaddedName (byteRange entry (0, 64)))
  let count := ofLe (byteRange entry (64, 72))
  StateT.lift (ensure (count ≤ maxNodes)
    s!"node type '{name}' count {count} exceeds maximum {maxNodes} — file is corrupt")
  pure (name, count)

def readEdgeTypeHeader : Parse EdgeTypeHeader := do
  let entry ← tableEntry edgeTypeEntrySize
  let srcName ← StateT.lift (readPaddedName (byteRange entry (0, 64)))
  let relName ← StateT.lift (readPaddedName (byteRange entry (64, 128)))
  let dstName ← StateT.lift (readPaddedName (byteRange entry (128, 192)))
  let numSrcNodes := ofLe (byteRange entry (192, 200))
  let numEdges := ofLe (byteRange entry (200, 208))
  StateT.lift (ensure (numSrcNodes ≤ maxNodes)
    (s!"edge type '{relName}' num_src_nodes {numSrcNodes} exceeds maximum {maxNodes} " ++
      "— file is corrupt"))
  StateT.lift (ensure (numEdges ≤ maxEdges)
    (s!"edge type '{relName}' num_edges {numEdges} exceeds maximum {maxEdges} " ++
      "— file is corrupt"))
  pure ⟨srcName, relName, dstName, numSrcNodes, numEdges, ofLe (byteRange entry (208, 212)) ≠ 0⟩

def sectionOverflow (rel : String) : String := s!"section size overflows for edge type '{rel}'"

/-- The range of the next `len` bytes. -/
def takeSection (len : Nat) (what rel : String) : Parse (Nat × Nat) := fun r => do
  let stop ← okOr (sectionOverflow rel) (checkedAdd r.pos len)
  ensure (stop ≤ r.items.length)
    (s!"file truncated: {what} section of edge type '{rel}' needs bytes {r.pos}..{stop}, " ++
      s!"file has {r.items.length}")
  pure ((r.pos, stop), { r with pos := stop })

def skipPadding (len : Nat) (rel : String) : Parse Unit := fun r => do
  let stop ← okOr (sectionOverflow rel) (checkedAdd r.pos (pad8 len))
  pure ((), { r with pos := stop })

def takeWeights (hasWeights : Bool) (len : Nat) (rel : String) : Parse (Option (Nat × Nat)) := do
  if hasWeights then
    let range ← takeSection len "weights" rel
    skipPadding len rel
    pure (some range)
  else pure none

def checkPadding (rel : String) : Parse Unit := fun r => do
  ensure (r.pos ≤ r.items.length)
    s!"file truncated: section padding of edge type '{rel}' extends past EOF"
  pure ((), r)

/-- The graph over the ranges of the mapping at address `base`. -/
def mappedGraph (base : Nat) (hdr : EdgeTypeHeader) (dstCount : Nat)
    (offsetsRange edgesRange : Nat × Nat) (weightsRange : Option (Nat × Nat)) :
    Parse (ProvenGraph Time) := fun r => do
  let graph ← (ProvenGraph.fromMappedParts hdr.numSrcNodes dstCount hdr.numEdges base r.items
    offsetsRange edgesRange weightsRange .full).mapError
      (Failure.context s!"edge type '{hdr.relName}' is inconsistent — file is corrupt")
  pure (graph, r)

def readEdgeType (base : Nat) (nodeTypes : List (String × Nat)) (hdr : EdgeTypeHeader) :
    Parse (HeteroGraph.EdgePart Time) := do
  let rel := hdr.relName
  -- later names overwrite earlier ones in the map
  let dstCount ← StateT.lift (okOr
    s!"edge type '{rel}' names unknown destination type '{hdr.dstName}' — file is corrupt"
    (nodeTypes.reverse.lookup hdr.dstName))
  let offsetsBytes ← StateT.lift (okOr s!"offsets size overflows for edge type '{rel}'"
    ((checkedAdd hdr.numSrcNodes 1).bind fun n => checkedMul n edgeOffsetPod.size))
  let edgesBytes ← StateT.lift (okOr s!"edges size overflows for edge type '{rel}'"
    (checkedMul hdr.numEdges nodeIdPod.size))
  let offsetsRange ← takeSection offsetsBytes "offsets" rel
  let edgesRange ← takeSection edgesBytes "edges" rel
  skipPadding edgesBytes rel
  let weightsRange ← takeWeights hdr.hasWeights edgesBytes rel
  checkPadding rel
  let graph ← mappedGraph base hdr dstCount offsetsRange edgesRange weightsRange
  pure (hdr.srcName, hdr.relName, hdr.dstName, graph)

def readParts (base numNt numEt : Nat) :
    Parse (List (String × Nat) × List (HeteroGraph.EdgePart Time)) := do
  let nodeTypes ← readMany readNodeType numNt
  let headers ← readMany readEdgeTypeHeader numEt
  let edgeTypes ← headers.mapM (readEdgeType base nodeTypes)
  pure (nodeTypes, edgeTypes)

/-- The file mapped at address `base`. -/
def loadHeteroGraph (base : Nat) (mmap : List U8) : Except Failure (HeteroGraph Time) := do
  let fileLen := mmap.length
  ensure (heteroHeaderSize ≤ fileLen) s!"file too small for header: {fileLen} bytes"
  ensure (byteRange mmap (0, 8) = heteroMagic) "invalid magic (expected AETHHETG)"
  let version := ofLe (byteRange mmap (8, 12))
  ensure (version = heteroVersion)
    (s!"hetero graph file format version {version} is not supported by this build " ++
      s!"(max {heteroVersion})")
  let numNt := ofLe (byteRange mmap (12, 16))
  let numEt := ofLe (byteRange mmap (16, 20))
  ensure (numNt ≤ maxTypes ∧ numEt ≤ maxTypes)
    (s!"type counts ({numNt} node, {numEt} edge) exceed the format limit of {maxTypes} " ++
      "— file is corrupt")
  -- both counts are at most 256, so the sizes never overflow
  let tablesLen := heteroHeaderSize + numNt * nodeTypeEntrySize + numEt * edgeTypeEntrySize
  ensure (tablesLen ≤ fileLen)
    s!"file truncated: type tables need {tablesLen} bytes, file has {fileLen}"
  let parts ← (readParts base numNt numEt).run ⟨mmap, heteroHeaderSize⟩
  (HeteroGraph.tryFromParts parts.1.1 parts.1.2).mapError fun e =>
    .error ["hetero graph type tables are inconsistent — file is corrupt", e.text]

end Load

section Names

/-- The names a field holds whole: short, and without the terminator. -/
structure Storable (name : String) : Prop where
  short : (nameBytes name).length < 64
  unterminated : ∀ b ∈ nameBytes name, b ≠ 0

def paddedName (name : String) : List U8 :=
  nameBytes name ++ List.replicate (64 - (nameBytes name).length) 0

variable {name : String}

theorem writePaddedName_ok (short : (nameBytes name).length < 64) :
    writePaddedName name = .ok (paddedName name) := if_pos short

theorem writePaddedName_panic (long : 64 ≤ (nameBytes name).length) :
    writePaddedName name = .error .panic := if_neg (Nat.not_lt_of_le long)

theorem paddedName_length (short : (nameBytes name).length < 64) :
    (paddedName name).length = 64 := by
  rw [paddedName, List.length_append, List.length_replicate]
  omega

theorem stringFromUtf8_nameBytes (name : String) : stringFromUtf8 (nameBytes name) = some name := by
  have back : ((nameBytes name).map UInt8.ofBitVec).toArray = name.toByteArray.data := by
    rw [nameBytes, List.map_map]
    show (name.toByteArray.data.toList.map id).toArray = _
    rw [List.map_id, Array.toArray_toList]
  rw [stringFromUtf8, back]
  exact dif_pos name.isValidUTF8

theorem readPaddedName_ok (h : Storable name) : readPaddedName (paddedName name) = .ok name := by
  have stop : (paddedName name).findIdx? (fun b => b = 0) = some (nameBytes name).length := by
    rw [List.findIdx?_eq_some_iff_getElem]
    have inside : (nameBytes name).length < (paddedName name).length := by
      rw [paddedName_length h.short]
      exact h.short
    refine ⟨inside, ?_, fun j before => ?_⟩
    · simp [paddedName]
    · have letter := h.unterminated _ (List.getElem_mem before)
      simp only [paddedName, List.getElem_append_left before, decide_eq_true_eq]
      exact letter
  rw [readPaddedName, stop]
  show okOr _ (stringFromUtf8 ((paddedName name).take (nameBytes name).length)) = _
  rw [paddedName, List.take_left, stringFromUtf8_nameBytes]
  rfl

end Names

section Tables

variable {Time : Type}

def nodeRecord (part : String × Nat) : List U8 := paddedName part.1 ++ lengthBytes part.2

def headerOf (part : HeteroGraph.EdgePart Time) : EdgeTypeHeader where
  srcName := part.1
  relName := part.2.1
  dstName := part.2.2.1
  numSrcNodes := part.2.2.2.csr.numNodes
  numEdges := part.2.2.2.csr.edges.length
  hasWeights := part.2.2.2.csr.weights.isSome

def headerRecord (hdr : EdgeTypeHeader) : List U8 :=
  paddedName hdr.srcName ++ (paddedName hdr.relName ++ (paddedName hdr.dstName ++
    (lengthBytes hdr.numSrcNodes ++ (lengthBytes hdr.numEdges ++
      (u32Bytes (if hdr.hasWeights then 1 else 0) ++ u32Bytes 0)))))

theorem tableEntry_reads (record : List U8) : Reads (tableEntry record.length) record record :=
  fun before after => by
    have inside : before.length + record.length ≤ (before ++ record ++ after).length := by
      simp only [List.length_append]
      omega
    have here := byteRange_middle before record after
    rw [← List.append_assoc] at here
    show (if before.length + record.length ≤ (before ++ record ++ after).length then _ else _) = _
    rw [if_pos inside]
    dsimp only
    rw [here]

theorem ofLe_lengthBytes {n : Nat} (h : n < 2 ^ 64) : ofLe (lengthBytes n) = n :=
  edgeOffsetPod_stores h

theorem nodeRecord_length {part : String × Nat} (h : Storable part.1) :
    (nodeRecord part).length = nodeTypeEntrySize := by
  rw [nodeRecord, List.length_append, paddedName_length h.short, lengthBytes, u64Bytes_length]
  rfl

theorem readNodeType_reads {part : String × Nat} (h : Storable part.1)
    (small : part.2 ≤ maxNodes) : Reads readNodeType (nodeRecord part) part := by
  have entry := tableEntry_reads (nodeRecord part)
  rw [nodeRecord_length h] at entry
  have nodeLimit : maxNodes = 2 ^ 32 - 1 := rfl
  have name : byteRange (nodeRecord part) (0, 64) = paddedName part.1 :=
    byteRange_at (show ([] : List U8).length = 0 from rfl) (by rw [paddedName_length h.short])
  have count : ofLe (byteRange (nodeRecord part) (64, 72)) = part.2 := by
    have tail : byteRange (paddedName part.1 ++ (lengthBytes part.2 ++ [])) (64, 72) =
        lengthBytes part.2 := byteRange_at (paddedName_length h.short) (by rw [lengthBytes,
          u64Bytes_length])
    rw [List.append_nil] at tail
    rw [nodeRecord, tail, ofLe_lengthBytes (by omega)]
  refine entry.last ?_
  refine Reads.check (name ▸ readPaddedName_ok h) ?_
  dsimp only
  rw [count]
  exact Reads.check (ByteReader.ensure_ok small _) (Reads.pure part)

structure EdgeTypeHeader.Storable (hdr : EdgeTypeHeader) : Prop where
  src : AetherGraph.Storable hdr.srcName
  rel : AetherGraph.Storable hdr.relName
  dst : AetherGraph.Storable hdr.dstName
  numSrcNodes : hdr.numSrcNodes ≤ maxNodes
  numEdges : hdr.numEdges ≤ maxEdges

theorem headerRecord_length {hdr : EdgeTypeHeader} (h : hdr.Storable) :
    (headerRecord hdr).length = edgeTypeEntrySize := by
  simp only [headerRecord, List.length_append, paddedName_length h.src.short,
    paddedName_length h.rel.short, paddedName_length h.dst.short, lengthBytes, u64Bytes_length,
    u32Bytes_length]
  rfl

/-- The fields of an entry, each at its place. -/
theorem headerRecord_fields {hdr : EdgeTypeHeader} (h : hdr.Storable) :
    byteRange (headerRecord hdr) (0, 64) = paddedName hdr.srcName ∧
      byteRange (headerRecord hdr) (64, 128) = paddedName hdr.relName ∧
      byteRange (headerRecord hdr) (128, 192) = paddedName hdr.dstName ∧
      byteRange (headerRecord hdr) (192, 200) = lengthBytes hdr.numSrcNodes ∧
      byteRange (headerRecord hdr) (200, 208) = lengthBytes hdr.numEdges ∧
      byteRange (headerRecord hdr) (208, 212) = u32Bytes (if hdr.hasWeights then 1 else 0) := by
  obtain ⟨src, rel, dst, nodes, edges, flag⟩ := hdr
  have srcLength := paddedName_length h.src.short
  have relLength := paddedName_length h.rel.short
  have dstLength := paddedName_length h.dst.short
  have word : ∀ n, (lengthBytes n).length = 8 := fun n => u64Bytes_length _
  have pieces : headerRecord ⟨src, rel, dst, nodes, edges, flag⟩ =
      [paddedName src, paddedName rel, paddedName dst, lengthBytes nodes, lengthBytes edges,
        u32Bytes (if flag then 1 else 0), u32Bytes 0].flatten := by simp [headerRecord]
  rw [pieces]
  refine ⟨byteRange_piece (i := 0) rfl ?_ ?_, byteRange_piece (i := 1) rfl ?_ ?_,
    byteRange_piece (i := 2) rfl ?_ ?_, byteRange_piece (i := 3) rfl ?_ ?_,
    byteRange_piece (i := 4) rfl ?_ ?_, byteRange_piece (i := 5) rfl ?_ ?_⟩ <;>
    simp [srcLength, relLength, dstLength, word]

theorem readEdgeTypeHeader_reads {hdr : EdgeTypeHeader} (h : hdr.Storable) :
    Reads readEdgeTypeHeader (headerRecord hdr) hdr := by
  have entry := tableEntry_reads (headerRecord hdr)
  rw [headerRecord_length h] at entry
  obtain ⟨src, rel, dst, nodes, edges, flag⟩ := headerRecord_fields h
  have nodeLimit : maxNodes = 2 ^ 32 - 1 := rfl
  have edgeLimit : maxEdges = 100000000000 := rfl
  have numSrcNodes := h.numSrcNodes
  have numEdges := h.numEdges
  have hasWeights : decide (ofLe (u32Bytes (if hdr.hasWeights then 1 else 0)) ≠ 0) =
      hdr.hasWeights := by
    cases hdr.hasWeights <;> rfl
  refine entry.last ?_
  refine Reads.check (src ▸ readPaddedName_ok h.src) ?_
  refine Reads.check (rel ▸ readPaddedName_ok h.rel) ?_
  refine Reads.check (dst ▸ readPaddedName_ok h.dst) ?_
  dsimp only
  rw [nodes, edges, flag, ofLe_lengthBytes (by omega), ofLe_lengthBytes (by omega)]
  refine Reads.check (ByteReader.ensure_ok h.numSrcNodes _) ?_
  refine Reads.check (ByteReader.ensure_ok h.numEdges _) ?_
  rw [hasWeights]
  exact Reads.pure hdr

end Tables

section Sections

variable {Time : Type} {file : List U8} {pos len : Nat}

theorem takeSection_run (inside : pos + len ≤ file.length) (small : file.length < 2 ^ 64)
    (what rel : String) : (takeSection len what rel).run ⟨file, pos⟩ =
      .ok ((pos, pos + len), ⟨file, pos + len⟩) := by
  show (okOr _ (checkedAdd pos len) >>= _) = _
  rw [checkedAdd_eq (Nat.lt_of_le_of_lt inside small)]
  show (ensure (pos + len ≤ file.length) _ >>= _) = _
  rw [ByteReader.ensure_ok inside]
  rfl

theorem skipPadding_run (small : pos + pad8 len < 2 ^ 64) (rel : String) :
    (skipPadding len rel).run ⟨file, pos⟩ = .ok ((), ⟨file, pos + pad8 len⟩) := by
  show (okOr _ (checkedAdd pos (pad8 len)) >>= _) = _
  rw [checkedAdd_eq small]
  rfl

theorem checkPadding_run (inside : pos ≤ file.length) (rel : String) :
    (checkPadding rel).run ⟨file, pos⟩ = .ok ((), ⟨file, pos⟩) := by
  show (ensure (pos ≤ file.length) _ >>= _) = _
  rw [ByteReader.ensure_ok inside]
  rfl

theorem padded_length (bytes : List U8) :
    (padded bytes).length = bytes.length + pad8 bytes.length := by
  rw [padded, List.length_append, List.length_replicate]

/-- The bytes of a section without its arrays' contents. -/
def sectionSize (csr : Csr Time) : Nat :=
  let edges := csr.edges.length * 4
  (csr.numNodes + 1) * 8 + (edges + pad8 edges) +
    if csr.weights.isSome then edges + pad8 edges else 0

theorem csrSection_length (csr : Csr Time) : (csrSection csr).length = sectionSize csr := by
  have edges : (nodeIdPod.castSlice csr.edges).length = csr.edges.length * 4 :=
    Pod.castSlice_length _
  have offsets : (edgeOffsetPod.castSlice csr.offsets).length = (csr.numNodes + 1) * 8 := by
    rw [Pod.castSlice_length, csr.offsets_length]
    rfl
  rw [csrSection, List.length_append, List.length_append, padded_length, offsets, edges,
    sectionSize, ← Nat.add_assoc]
  congr 1
  cases present : csr.weights with
  | none => rfl
  | some ws =>
      have weights : (weightPod.castSlice ws).length = csr.edges.length * 4 := by
        rw [Pod.castSlice_length, csr.weights_length ws present]
        rfl
      rw [weightsSection, padded_length, weights]
      rfl

/-- Sections keep the running offset aligned. -/
theorem sectionSize_aligned (csr : Csr Time) : sectionSize csr % 8 = 0 := by
  have padding := add_pad8 (csr.edges.length * 4)
  unfold sectionSize
  dsimp only
  split <;> omega

theorem sectionSize_le {csr : Csr Time} (limit : csr.edges.length ≤ maxEdges) :
    sectionSize csr ≤ 1000000000000 := by
  have nodes := csr.numNodes_le
  have nodeLimit : maxNodes = 2 ^ 32 - 1 := rfl
  have edgeLimit : maxEdges = 100000000000 := rfl
  have padding : pad8 (csr.edges.length * 4) < 8 := Nat.mod_lt _ (by decide)
  unfold sectionSize
  dsimp only
  split <;> omega

variable {csr : Csr Time} {before after : List U8} {base : Nat}

def edgesStart (csr : Csr Time) (pos : Nat) : Nat := pos + (csr.numNodes + 1) * 8

def edgesEnd (csr : Csr Time) (pos : Nat) : Nat := edgesStart csr pos + csr.edges.length * 4

/-- Where the padded edges end. -/
def weightsStart (csr : Csr Time) (pos : Nat) : Nat :=
  edgesEnd csr pos + pad8 (csr.edges.length * 4)

def weightsRange (csr : Csr Time) (pos : Nat) : Option (Nat × Nat) :=
  csr.weights.map fun _ => (weightsStart csr pos, weightsStart csr pos + csr.edges.length * 4)

theorem front_length (csr : Csr Time) (before : List U8) :
    (before ++ edgeOffsetPod.castSlice csr.offsets).length = edgesStart csr before.length := by
  rw [List.length_append, Pod.castSlice_length, csr.offsets_length]
  rfl

theorem section_offsets (csr : Csr Time) (before after : List U8) :
    edgeOffsetPod.At (before ++ (csrSection csr ++ after))
      (before.length, edgesStart csr before.length) csr.offsets := by
  have here := Pod.at_middle edgeOffsetPod csr.offsets
    (padded (nodeIdPod.castSlice csr.edges) ++ weightsSection csr.weights ++ after)
    (show before.length = before.length from rfl)
  rw [csr.offsets_length] at here
  rwa [csrSection, List.append_assoc]

theorem section_edges (csr : Csr Time) (before after : List U8) :
    nodeIdPod.At (before ++ (csrSection csr ++ after))
      (edgesStart csr before.length, edgesEnd csr before.length) csr.edges := by
  have here := Pod.at_middle nodeIdPod csr.edges
    (List.replicate (pad8 (nodeIdPod.castSlice csr.edges).length) 0 ++
      (weightsSection csr.weights ++ after)) (front_length csr before)
  simp only [csrSection, padded, List.append_assoc] at here ⊢
  exact here

theorem section_weights (csr : Csr Time) (before after : List U8)
    (aligned : base % 8 = 0 ∧ before.length % 8 = 0) :
    ProvenGraph.WeightsAt base (before ++ (csrSection csr ++ after))
      (weightsRange csr before.length) csr.weights := by
  cases present : csr.weights with
  | none =>
      rw [weightsRange, present]
      exact .none
  | some ws =>
      have front : (before ++ edgeOffsetPod.castSlice csr.offsets ++
          padded (nodeIdPod.castSlice csr.edges)).length = weightsStart csr before.length := by
        rw [List.length_append, front_length, padded_length, Pod.castSlice_length, ← Nat.add_assoc]
        rfl
      have here := Pod.at_middle weightPod ws
        (List.replicate (pad8 (weightPod.castSlice ws).length) 0 ++ after) front
      rw [csr.weights_length ws present] at here
      rw [weightsRange, present, csrSection, present]
      simp only [weightsSection, padded, List.append_assoc, Option.map_some] at here ⊢
      refine .some ⟨here, ?_⟩
      have padding := add_pad8 (csr.edges.length * 4)
      show (base + (before.length + (csr.numNodes + 1) * 8 + csr.edges.length * 4 +
        pad8 (csr.edges.length * 4))) % 4 = 0
      omega

theorem takeWeights_run (small : file.length < 2 ^ 64)
    (inside : weightsStart csr pos + (if csr.weights.isSome then
      csr.edges.length * 4 + pad8 (csr.edges.length * 4) else 0) ≤ file.length) (rel : String) :
    (takeWeights csr.weights.isSome (csr.edges.length * 4) rel).run ⟨file, weightsStart csr pos⟩ =
      .ok (weightsRange csr pos, ⟨file, weightsStart csr pos + (if csr.weights.isSome then
        csr.edges.length * 4 + pad8 (csr.edges.length * 4) else 0)⟩) := by
  unfold takeWeights weightsRange
  cases present : csr.weights with
  | none => rfl
  | some ws =>
      rw [present] at inside
      simp only [Option.isSome_some, if_true] at inside ⊢
      refine (run_bind_of (takeSection_run (by omega) small "weights" rel)).trans ?_
      refine (run_bind_of (skipPadding_run (by omega) rel)).trans ?_
      rw [Nat.add_assoc]
      rfl

theorem mappedGraph_run (hdr : EdgeTypeHeader) {dstCount : Nat}
    {offsetsRange edgesRange : Nat × Nat} {weightsRange : Option (Nat × Nat)}
    {graph : ProvenGraph Time}
    (built : ProvenGraph.fromMappedParts hdr.numSrcNodes dstCount hdr.numEdges base file
      offsetsRange edgesRange weightsRange .full = .ok graph) (pos : Nat) :
    (mappedGraph base hdr dstCount offsetsRange edgesRange weightsRange).run ⟨file, pos⟩ =
      .ok (graph, ⟨file, pos⟩) := by
  show ((ProvenGraph.fromMappedParts _ _ _ _ file _ _ _ _).mapError _ >>= _) = _
  rw [built]
  rfl

/-- An edge type's sections read back as a graph of the same arrays. -/
theorem readEdgeType_run {nodes : List (String × Nat)} {part : HeteroGraph.EdgePart Time}
    {dstCount : Nat} (same : part.2.2.2.csr = csr)
    (aligned : base % 8 = 0 ∧ before.length % 8 = 0)
    (known : nodes.reverse.lookup part.2.2.1 = some dstCount) (dstSmall : dstCount ≤ maxNodes)
    (mono : csr.Monotone) (dests : ∀ d ∈ csr.edges, d < dstCount)
    (limit : csr.edges.length ≤ maxEdges)
    (small : (before ++ (csrSection csr ++ after)).length < 2 ^ 64) :
    ∃ graph : ProvenGraph Time, (readEdgeType base nodes (headerOf part)).run
        ⟨before ++ (csrSection csr ++ after), before.length⟩ =
      .ok ((part.1, part.2.1, part.2.2.1, graph),
        ⟨before ++ (csrSection csr ++ after), before.length + sectionSize csr⟩) ∧
      Csr.SameArrays csr graph.csr := by
  have nodeLimit : maxNodes = 2 ^ 32 - 1 := rfl
  have edgeLimit : maxEdges = 100000000000 := rfl
  have rows := csr.numNodes_le
  have length : (before ++ (csrSection csr ++ after)).length =
      before.length + sectionSize csr + after.length := by
    rw [List.length_append, List.length_append, csrSection_length, Nat.add_assoc]
  have start : edgesStart csr before.length = before.length + (csr.numNodes + 1) * 8 := rfl
  have stop : edgesEnd csr before.length =
      edgesStart csr before.length + csr.edges.length * 4 := rfl
  have weights : weightsStart csr before.length =
      edgesEnd csr before.length + pad8 (csr.edges.length * 4) := rfl
  have size : before.length + sectionSize csr = weightsStart csr before.length +
      (if csr.weights.isSome then csr.edges.length * 4 + pad8 (csr.edges.length * 4) else 0) := by
    rw [weights, stop, start, sectionSize]
    omega
  have wide : (csr.bipartite dstCount dstSmall).edges.length < 2 ^ 64 := by
    show csr.edges.length < 2 ^ 64
    omega
  have edgesAligned : (base + edgesStart csr before.length) % 4 = 0 := by omega
  obtain ⟨graph, built, arrays⟩ := ProvenGraph.fromMappedParts_ok
    (show (csr.bipartite dstCount dstSmall).Monotone from mono) dests wide
    (section_offsets csr before after) (section_edges csr before after)
    (section_weights csr before after aligned) ⟨by omega, edgesAligned⟩ .full
  refine ⟨graph, ?_, by rw [arrays]; exact ⟨rfl, rfl, rfl, rfl⟩⟩
  have header : headerOf part = ⟨part.1, part.2.1, part.2.2.1, csr.numNodes, csr.edges.length,
      csr.weights.isSome⟩ := by rw [← same]; rfl
  have offsetsTaken : (takeSection ((csr.numNodes + 1) * 8) "offsets" part.2.1).run
      ⟨before ++ (csrSection csr ++ after), before.length⟩ =
        .ok ((before.length, edgesStart csr before.length), ⟨_, edgesStart csr before.length⟩) :=
    takeSection_run (by omega) small _ _
  have edgesTaken : (takeSection (csr.edges.length * 4) "edges" part.2.1).run
      ⟨before ++ (csrSection csr ++ after), edgesStart csr before.length⟩ =
        .ok ((edgesStart csr before.length, edgesEnd csr before.length),
          ⟨_, edgesEnd csr before.length⟩) :=
    takeSection_run (by omega) small _ _
  have mapped := mappedGraph_run ⟨part.1, part.2.1, part.2.2.1, csr.numNodes, csr.edges.length,
    csr.weights.isSome⟩ built (before.length + sectionSize csr)
  rw [size] at mapped
  rw [header]
  refine (run_bind_of (run_lift_of (by rw [known]; rfl) _)).trans ?_
  refine (run_bind_of (run_lift_of (a := (csr.numNodes + 1) * 8) ?_ _)).trans ?_
  · dsimp only
    rw [checkedAdd_eq (by omega)]
    show okOr _ (checkedMul (csr.numNodes + 1) 8) = _
    rw [checkedMul_eq (by omega)]
    rfl
  refine (run_bind_of (run_lift_of (a := csr.edges.length * 4) ?_ _)).trans ?_
  · show okOr _ (checkedMul csr.edges.length 4) = _
    rw [checkedMul_eq (by omega)]
    rfl
  refine (run_bind_of offsetsTaken).trans ?_
  refine (run_bind_of edgesTaken).trans ?_
  refine (run_bind_of (skipPadding_run (by omega) _)).trans ?_
  refine (run_bind_of (takeWeights_run small (by omega) _)).trans ?_
  refine (run_bind_of (checkPadding_run (by omega) _)).trans ?_
  refine (run_bind_of mapped).trans ?_
  rw [size]
  rfl

end Sections

section RoundTrip

variable {Time : Type} {base : Nat} {nodes : List (String × Nat)}
  {parts : List (HeteroGraph.EdgePart Time)}

theorem lookup_of_nodup {α β : Type} [BEq α] [LawfulBEq α] {entries : List (α × β)} {a : α} {b : β}
    (nodup : (entries.map Prod.fst).Nodup) (mem : (a, b) ∈ entries) :
    entries.lookup a = some b := by
  obtain ⟨before, after, rfl⟩ := List.append_of_mem mem
  rw [List.lookup_eq_some_iff]
  refine ⟨before, after, rfl, fun entry earlier => ?_⟩
  rw [List.map_append, List.nodup_append] at nodup
  have differs := nodup.2.2 entry.1 (List.mem_map_of_mem earlier) a List.mem_cons_self
  exact bne_iff_ne.mpr (Ne.symm differs)

/-- What a graph's parts must satisfy for a file to hold them. -/
structure Fileable (nodes : List (String × Nat)) (parts : List (HeteroGraph.EdgePart Time)) :
    Prop where
  names : ∀ node ∈ nodes, Storable node.1
  relations : ∀ part ∈ parts, Storable part.2.1
  edges : ∀ part ∈ parts, part.2.2.2.csr.edges.length ≤ maxEdges

/-- The parts' sections in a row. -/
def sectionsOf (parts : List (HeteroGraph.EdgePart Time)) : List U8 :=
  parts.flatMap fun part => csrSection part.2.2.2.csr

/-- What the reader of the sections needs of an edge type. -/
structure Readable (nodes : List (String × Nat)) (part : HeteroGraph.EdgePart Time) : Prop where
  known : ∃ dstCount, nodes.reverse.lookup part.2.2.1 = some dstCount ∧ dstCount ≤ maxNodes ∧
    ∀ d ∈ part.2.2.2.csr.edges, d < dstCount
  monotone : part.2.2.2.csr.Monotone
  limit : part.2.2.2.csr.edges.length ≤ maxEdges

theorem readEdgeTypes_run (aligned : base % 8 = 0) (readable : ∀ part ∈ parts, Readable nodes part)
    {before : List U8} (start : before.length % 8 = 0)
    (small : (before ++ sectionsOf parts).length < 2 ^ 64) :
    ∃ loaded stop, ((parts.map headerOf).mapM (readEdgeType base nodes)).run
        ⟨before ++ sectionsOf parts, before.length⟩ = .ok (loaded, stop) ∧
      List.Forall₂ HeteroGraph.SamePart parts loaded := by
  induction parts generalizing before with
  | nil => exact ⟨[], _, rfl, .nil⟩
  | cons part parts ih =>
      obtain ⟨dstCount, known, dstSmall, dests⟩ := (readable part List.mem_cons_self).known
      have split : before ++ sectionsOf (part :: parts) =
          before ++ (csrSection part.2.2.2.csr ++ sectionsOf parts) := rfl
      rw [split] at small ⊢
      obtain ⟨graph, first, arrays⟩ := readEdgeType_run rfl ⟨aligned, start⟩ known dstSmall
        (readable part List.mem_cons_self).monotone dests (readable part List.mem_cons_self).limit
        small
      rw [← csrSection_length, ← List.length_append, ← List.append_assoc] at first
      rw [← List.append_assoc] at small ⊢
      have next : (before ++ csrSection part.2.2.2.csr).length % 8 = 0 := by
        rw [List.length_append, csrSection_length, Nat.add_mod, start, sectionSize_aligned]
      obtain ⟨loaded, stop, rest, same⟩ := ih
        (fun p mem => readable p (List.mem_cons_of_mem _ mem)) next small
      refine ⟨(part.1, part.2.1, part.2.2.1, graph) :: loaded, stop, ?_,
        .cons ⟨rfl, rfl, rfl, arrays⟩ same⟩
      rw [List.map_cons, List.mapM_cons]
      refine (run_bind_of first).trans ((run_bind_of rest).trans rfl)

theorem sectionsOf_length (limit : ∀ part ∈ parts, part.2.2.2.csr.edges.length ≤ maxEdges) :
    (sectionsOf parts).length ≤ parts.length * 1000000000000 := by
  induction parts with
  | nil => exact Nat.zero_le _
  | cons part parts ih =>
      have here := sectionSize_le (limit part List.mem_cons_self)
      have rest := ih fun p mem => limit p (List.mem_cons_of_mem _ mem)
      rw [sectionsOf, List.flatMap_cons, List.length_append, csrSection_length, List.length_cons]
      rw [sectionsOf] at rest
      omega

section Written

variable {g : HeteroGraph Time}

theorem forall₂_getElem? {α β : Type} {R : α → β → Prop} {as : List α} {bs : List β}
    (h : List.Forall₂ R as bs) {i : Nat} {a : α} (at_ : as[i]? = some a) :
    ∃ b, bs[i]? = some b ∧ R a b := by
  obtain ⟨inside, rfl⟩ := List.getElem?_eq_some_iff.mp at_
  have inside' : i < bs.length := h.length_eq ▸ inside
  exact ⟨bs[i], List.getElem?_eq_getElem inside', h.get inside inside'⟩

/-- The tables of a graph built from the parts, read at one edge type. -/
theorem entry_of_part (built : HeteroGraph.BuiltFrom nodes parts g) {et : Nat}
    {part : HeteroGraph.EdgePart Time} (at_ : parts[et]? = some part) :
    ∃ entry src dst, g.edgeTypes[et]? = some entry ∧ entry.relation = part.2.1 ∧
      g.nodeTypes[entry.srcType]? = some src ∧ src.name = part.1 ∧
      g.nodeTypes[entry.dstType]? = some dst ∧ dst.name = part.2.2.1 ∧
      g.csrGraphs[et]? = some part.2.2.2.csr := by
  obtain ⟨entry, found, links⟩ := forall₂_getElem? built.edged.edgeTypes at_
  obtain ⟨srcCount, src⟩ := links.src
  obtain ⟨dstCount, dst, -⟩ := links.dst
  refine ⟨entry, ⟨part.1, srcCount⟩, ⟨part.2.2.1, dstCount⟩, found, links.relation, ?_, rfl, ?_,
    rfl, ?_⟩
  · rw [built.edged.nodeTypes, List.getElem?_map, src]
    rfl
  · rw [built.edged.nodeTypes, List.getElem?_map, dst]
    rfl
  · rw [built.edged.csrGraphs, List.getElem?_map, at_]
    rfl

theorem nodeCount_eq (built : HeteroGraph.BuiltFrom nodes parts g) :
    g.nodeTypes.length % 256 = nodes.length := by
  rw [built.edged.nodeTypes, List.length_map, Nat.mod_eq_of_lt (Nat.lt_succ_of_le built.nodeCount)]

theorem edgeCount_eq (built : HeteroGraph.BuiltFrom nodes parts g) :
    g.edgeTypes.length % 256 = parts.length := by
  rw [← built.edged.edgeTypes.length_eq, Nat.mod_eq_of_lt (Nat.lt_succ_of_le built.edgeCount)]

/-- The node type behind an id of the table. -/
theorem node_of_part (built : HeteroGraph.BuiltFrom nodes parts g) {nt : Nat}
    {node : String × Nat} (at_ : nodes[nt]? = some node) :
    g.nodeTypes[nt]? = some ⟨node.1, node.2⟩ := by
  rw [built.edged.nodeTypes, List.getElem?_map, at_]
  rfl

theorem edgeTypeEntry_eq (built : HeteroGraph.BuiltFrom nodes parts g) {et : Nat}
    {part : HeteroGraph.EdgePart Time} (at_ : parts[et]? = some part) :
    edgeTypeEntry g et = (do
      let srcName ← writePaddedName part.1
      let relName ← writePaddedName part.2.1
      let dstName ← writePaddedName part.2.2.1
      pure (srcName ++ (relName ++ (dstName ++ (lengthBytes part.2.2.2.csr.numNodes ++
        (lengthBytes part.2.2.2.csr.edges.length ++
          (u32Bytes (if part.2.2.2.csr.weights.isSome then 1 else 0) ++ u32Bytes 0))))))) := by
  obtain ⟨entry, src, dst, found, relation, atSrc, srcName, atDst, dstName, csr⟩ :=
    entry_of_part built at_
  unfold edgeTypeEntry
  rw [found, csr]
  show (orPanic g.nodeTypes[entry.srcType]? >>= _) = _
  rw [atSrc]
  show (orPanic g.nodeTypes[entry.dstType]? >>= _) = _
  rw [atDst]
  show (writePaddedName src.name >>= _) = _
  rw [srcName, relation, dstName]

/-- The names of an edge type's ends are names of node types. -/
theorem ends_mem (built : HeteroGraph.BuiltFrom nodes parts g)
    {part : HeteroGraph.EdgePart Time} (mem : part ∈ parts) :
    (∃ count, (part.1, count) ∈ nodes) ∧ ∃ count, (part.2.2.1, count) ∈ nodes ∧
      ∀ d ∈ part.2.2.2.csr.edges, d < count := by
  obtain ⟨et, at_⟩ := List.mem_iff_getElem?.mp mem
  obtain ⟨entry, -, links⟩ := forall₂_getElem? built.edged.edgeTypes at_
  obtain ⟨srcCount, src⟩ := links.src
  obtain ⟨dstCount, dst, dests⟩ := links.dst
  exact ⟨⟨srcCount, List.mem_of_getElem? src⟩, dstCount, List.mem_of_getElem? dst, dests⟩

theorem header_storable (built : HeteroGraph.BuiltFrom nodes parts g)
    (fileable : Fileable nodes parts) {part : HeteroGraph.EdgePart Time} (mem : part ∈ parts) :
    (headerOf part).Storable := by
  obtain ⟨⟨srcCount, src⟩, dstCount, dst, -⟩ := ends_mem built mem
  exact ⟨fileable.names _ src, fileable.relations part mem, fileable.names _ dst,
    part.2.2.2.csr.numNodes_le, fileable.edges part mem⟩

def fileOf (nodes : List (String × Nat)) (parts : List (HeteroGraph.EdgePart Time)) : List U8 :=
  heteroHeader nodes.length parts.length ++ (nodes.flatMap nodeRecord ++
    ((parts.map headerOf).flatMap headerRecord ++ sectionsOf parts))

theorem writeHetero_ok (built : HeteroGraph.BuiltFrom nodes parts g)
    (fileable : Fileable nodes parts) : writeHetero g = .ok (fileOf nodes parts) := by
  have nodeTable : (List.range nodes.length).mapM (fun nt => do
      let entry ← orPanic g.nodeTypes[nt]?
      nodeTypeEntry entry) = .ok (nodes.map nodeRecord) := mapM_range_ok fun nt node at_ => by
    rw [node_of_part built at_]
    show (writePaddedName node.1 >>= _) = _
    rw [writePaddedName_ok (fileable.names _ (List.mem_of_getElem? at_)).short]
    rfl
  have edgeTable : (List.range parts.length).mapM (edgeTypeEntry g) =
      .ok (parts.map fun part => headerRecord (headerOf part)) := mapM_range_ok
    fun et part at_ => by
      have names := header_storable built fileable (List.mem_of_getElem? at_)
      rw [edgeTypeEntry_eq built at_]
      show (writePaddedName (headerOf part).srcName >>= _) = _
      rw [writePaddedName_ok names.src.short]
      show (writePaddedName (headerOf part).relName >>= _) = _
      rw [writePaddedName_ok names.rel.short]
      show (writePaddedName (headerOf part).dstName >>= _) = _
      rw [writePaddedName_ok names.dst.short]
      rfl
  have sections : (List.range parts.length).mapM (fun et => do
      let csr ← orPanic g.csrGraphs[et]?
      pure (csrSection csr)) = .ok (parts.map fun part => csrSection part.2.2.2.csr) :=
    mapM_range_ok fun et part at_ => by
      obtain ⟨_, _, _, -, -, -, -, -, -, csr⟩ := entry_of_part built at_
      rw [csr]
      rfl
  have numNt : g.nodeTypes.length = nodes.length := by
    rw [built.edged.nodeTypes, List.length_map]
  unfold writeHetero
  simp only [nodeCount_eq built, edgeCount_eq built]
  rw [nodeTable, edgeTable, sections, numNt, ← built.edged.edgeTypes.length_eq]
  show Except.ok _ = Except.ok _
  rw [fileOf, sectionsOf, List.flatMap_map, List.flatMap_def, List.flatMap_def, List.flatMap_def]

theorem heteroHeader_length (numNt numEt : Nat) : (heteroHeader numNt numEt).length = 64 := by
  simp [heteroHeader, heteroMagic]

/-- The header's fields, each at its place. -/
theorem heteroHeader_fields (numNt numEt : Nat) (rest : List U8) :
    byteRange (heteroHeader numNt numEt ++ rest) (0, 8) = heteroMagic ∧
      byteRange (heteroHeader numNt numEt ++ rest) (8, 12) =
        u32Bytes (BitVec.ofNat 32 heteroVersion) ∧
      byteRange (heteroHeader numNt numEt ++ rest) (12, 16) = u32Bytes (BitVec.ofNat 32 numNt) ∧
      byteRange (heteroHeader numNt numEt ++ rest) (16, 20) = u32Bytes (BitVec.ofNat 32 numEt) := by
  have pieces : heteroHeader numNt numEt ++ rest =
      [heteroMagic, u32Bytes (BitVec.ofNat 32 heteroVersion), u32Bytes (BitVec.ofNat 32 numNt),
        u32Bytes (BitVec.ofNat 32 numEt), List.replicate 44 0, rest].flatten := by
    simp [heteroHeader]
  have magicLength : heteroMagic.length = 8 := rfl
  rw [pieces]
  refine ⟨byteRange_piece (i := 0) rfl ?_ ?_, byteRange_piece (i := 1) rfl ?_ ?_,
    byteRange_piece (i := 2) rfl ?_ ?_, byteRange_piece (i := 3) rfl ?_ ?_⟩ <;> simp [magicLength]

theorem readable_of_built (built : HeteroGraph.BuiltFrom nodes parts g)
    (fileable : Fileable nodes parts) {part : HeteroGraph.EdgePart Time} (mem : part ∈ parts) :
    Readable nodes part := by
  obtain ⟨-, dstCount, dst, dests⟩ := ends_mem built mem
  obtain ⟨et, at_⟩ := List.mem_iff_getElem?.mp mem
  obtain ⟨entry, -, links⟩ := forall₂_getElem? built.edged.edgeTypes at_
  refine ⟨⟨dstCount, lookup_of_nodup ?_ (List.mem_reverse.mpr dst), built.counts _ dst, dests⟩,
    links.monotone, fileable.edges part mem⟩
  rw [List.map_reverse, List.nodup_reverse]
  exact built.names

theorem tables_length (built : HeteroGraph.BuiltFrom nodes parts g)
    (fileable : Fileable nodes parts) :
    (nodes.flatMap nodeRecord).length = nodes.length * nodeTypeEntrySize ∧
      ((parts.map headerOf).flatMap headerRecord).length = parts.length * edgeTypeEntrySize := by
  constructor
  · exact flatMap_length fun node mem => nodeRecord_length (fileable.names node mem)
  · rw [flatMap_length fun hdr mem => ?_, List.length_map]
    obtain ⟨part, here, rfl⟩ := List.mem_map.mp mem
    exact headerRecord_length (header_storable built fileable here)

theorem readParts_run (built : HeteroGraph.BuiltFrom nodes parts g)
    (fileable : Fileable nodes parts) (aligned : base % 8 = 0) :
    ∃ loaded stop, (readParts base nodes.length parts.length).run
        ⟨fileOf nodes parts, heteroHeaderSize⟩ = .ok ((nodes, loaded), stop) ∧
      List.Forall₂ HeteroGraph.SamePart parts loaded := by
  obtain ⟨nodeTable, edgeTable⟩ := tables_length built fileable
  have header := heteroHeader_length nodes.length parts.length
  have nodeCount := built.nodeCount
  have edgeCount := built.edgeCount
  have body := sectionsOf_length fileable.edges
  have types : Reads (readMany readNodeType nodes.length) (nodes.flatMap nodeRecord) nodes :=
    Reads.many fun node mem =>
      readNodeType_reads (fileable.names node mem) (built.counts node mem)
  have headers : Reads (readMany readEdgeTypeHeader (parts.map headerOf).length)
      ((parts.map headerOf).flatMap headerRecord) (parts.map headerOf) :=
    Reads.many fun hdr mem => by
      obtain ⟨part, here, rfl⟩ := List.mem_map.mp mem
      exact readEdgeTypeHeader_reads (header_storable built fileable here)
  have first := types (heteroHeader nodes.length parts.length)
    ((parts.map headerOf).flatMap headerRecord ++ sectionsOf parts)
  have second := headers (heteroHeader nodes.length parts.length ++ nodes.flatMap nodeRecord)
    (sectionsOf parts)
  have file : heteroHeader nodes.length parts.length ++ nodes.flatMap nodeRecord ++
      ((parts.map headerOf).flatMap headerRecord ++ sectionsOf parts) = fileOf nodes parts :=
    List.append_assoc _ _ _
  have tables : (heteroHeader nodes.length parts.length ++ nodes.flatMap nodeRecord ++
      (parts.map headerOf).flatMap headerRecord).length % 8 = 0 := by
    rw [List.length_append, List.length_append, header, nodeTable, edgeTable, nodeTypeEntrySize,
      edgeTypeEntrySize]
    omega
  rw [List.append_assoc (_ ++ _) _ (sectionsOf parts), List.length_map] at second
  rw [file, header] at first
  rw [file, List.length_append, header] at second
  have small : (heteroHeader nodes.length parts.length ++ nodes.flatMap nodeRecord ++
      (parts.map headerOf).flatMap headerRecord ++ sectionsOf parts).length < 2 ^ 64 := by
    rw [List.length_append, List.length_append, List.length_append, header, nodeTable, edgeTable,
      nodeTypeEntrySize, edgeTypeEntrySize]
    omega
  obtain ⟨loaded, stop, third, same⟩ := readEdgeTypes_run aligned
    (fun part mem => readable_of_built built fileable mem) tables small
  rw [List.append_assoc (_ ++ _) _ (sectionsOf parts), file, List.length_append,
    List.length_append, header] at third
  refine ⟨loaded, stop, ?_, same⟩
  refine (run_bind_of first).trans ((run_bind_of second).trans ((run_bind_of third).trans rfl))

theorem load_fileOf (built : HeteroGraph.BuiltFrom nodes parts g)
    (graph : HeteroGraph.tryFromParts nodes parts = .ok g) (fileable : Fileable nodes parts)
    (aligned : base % 8 = 0) :
    ∃ g', loadHeteroGraph base (fileOf nodes parts) = .ok g' ∧ g.SameGraph g' := by
  obtain ⟨loaded, stop, ran, same⟩ := readParts_run built fileable aligned
  obtain ⟨g', rebuilt, agree⟩ := HeteroGraph.tryFromParts_same same graph
  obtain ⟨nodeTable, edgeTable⟩ := tables_length built fileable
  obtain ⟨magic, version, numNt, numEt⟩ := heteroHeader_fields nodes.length parts.length
    (nodes.flatMap nodeRecord ++ ((parts.map headerOf).flatMap headerRecord ++ sectionsOf parts))
  rw [← fileOf] at magic version numNt numEt
  have nodeCount := built.nodeCount
  have edgeCount := built.edgeCount
  have length : (fileOf nodes parts).length = heteroHeaderSize + nodes.length * nodeTypeEntrySize +
      parts.length * edgeTypeEntrySize + (sectionsOf parts).length := by
    rw [fileOf, List.length_append, List.length_append, List.length_append, heteroHeader_length,
      nodeTable, edgeTable, ← Nat.add_assoc, ← Nat.add_assoc]
    rfl
  have few : nodes.length ≤ maxTypes ∧ parts.length ≤ maxTypes := by
    unfold maxTypes
    omega
  have nodesRead : ofLe (u32Bytes (BitVec.ofNat 32 nodes.length)) = nodes.length :=
    nodeIdPod_stores (by omega)
  have edgesRead : ofLe (u32Bytes (BitVec.ofNat 32 parts.length)) = parts.length :=
    nodeIdPod_stores (by omega)
  have header : heteroHeaderSize ≤ (fileOf nodes parts).length := by omega
  have tables : heteroHeaderSize + nodes.length * nodeTypeEntrySize +
      parts.length * edgeTypeEntrySize ≤ (fileOf nodes parts).length := by omega
  have supported : ofLe (u32Bytes (BitVec.ofNat 32 heteroVersion)) = heteroVersion := rfl
  refine ⟨g', ?_, agree⟩
  unfold loadHeteroGraph
  dsimp only
  rw [ByteReader.ensure_ok header, ByteReader.ensure_ok magic, version,
    ByteReader.ensure_ok supported, numNt, numEt, nodesRead, edgesRead, ByteReader.ensure_ok few,
    ByteReader.ensure_ok tables]
  show ((readParts base nodes.length parts.length).run ⟨fileOf nodes parts, _⟩ >>= _) = _
  rw [ran]
  show (HeteroGraph.tryFromParts nodes loaded).mapError _ = _
  rw [rebuilt]
  rfl

theorem few_types (built : HeteroGraph.BuiltFrom nodes parts g) :
    g.nodeTypes.length ≤ maxTypes ∧ g.edgeTypes.length ≤ maxTypes := by
  have numNt : g.nodeTypes.length = nodes.length := by
    rw [built.edged.nodeTypes, List.length_map]
  have numEt := built.edged.edgeTypes.length_eq
  have nodeCount := built.nodeCount
  have edgeCount := built.edgeCount
  unfold maxTypes
  omega

theorem writePaddedName_cases (name : String) :
    (∃ bytes, writePaddedName name = .ok bytes) ∨ writePaddedName name = .error .panic := by
  unfold writePaddedName
  dsimp only
  split
  · exact .inl ⟨_, rfl⟩
  · exact .inr rfl

theorem save_eq_write (built : HeteroGraph.BuiltFrom nodes parts g) :
    saveHeteroGraph g = writeHetero g := by
  unfold saveHeteroGraph
  dsimp only
  rw [ByteReader.ensure_ok (few_types built)]
  rfl

theorem padded_cases {name : String} {next : List U8 → Except Failure (List U8)}
    (rest : ∀ bytes, (∃ out, next bytes = .ok out) ∨ next bytes = .error .panic) :
    (∃ out, (writePaddedName name >>= next) = .ok out) ∨
      (writePaddedName name >>= next) = .error .panic := by
  rcases writePaddedName_cases name with ⟨bytes, here⟩ | here
  · rw [here]
    exact rest bytes
  · rw [here]
    exact .inr rfl

theorem edgeTypeEntry_cases (built : HeteroGraph.BuiltFrom nodes parts g) {et : Nat}
    {part : HeteroGraph.EdgePart Time} (at_ : parts[et]? = some part) :
    (∃ out, edgeTypeEntry g et = .ok out) ∨ edgeTypeEntry g et = .error .panic := by
  rw [edgeTypeEntry_eq built at_]
  exact padded_cases fun _ => padded_cases fun _ => padded_cases fun _ => .inl ⟨_, rfl⟩

/-- A relation that does not fit its field stops the entry, whatever the other names. -/
theorem edgeTypeEntry_panics (built : HeteroGraph.BuiltFrom nodes parts g) {et : Nat}
    {part : HeteroGraph.EdgePart Time} (at_ : parts[et]? = some part)
    (long : 64 ≤ (nameBytes part.2.1).length) : edgeTypeEntry g et = .error .panic := by
  rw [edgeTypeEntry_eq built at_, writePaddedName_panic long]
  rcases writePaddedName_cases part.1 with ⟨bytes, here⟩ | here
  · rw [here]
    rfl
  · rw [here]
    rfl

theorem nodeTypeEntry_eq (built : HeteroGraph.BuiltFrom nodes parts g) {nt : Nat}
    {node : String × Nat} (at_ : nodes[nt]? = some node) :
    (orPanic g.nodeTypes[nt]? >>= nodeTypeEntry) =
      (writePaddedName node.1 >>= fun name => pure (name ++ lengthBytes node.2)) := by
  rw [node_of_part built at_]
  rfl

/-- A name that does not fit its field stops the save. -/
theorem save_panics (built : HeteroGraph.BuiltFrom nodes parts g)
    (long : (∃ node ∈ nodes, 64 ≤ (nameBytes node.1).length) ∨
      ∃ part ∈ parts, 64 ≤ (nameBytes part.2.1).length) :
    saveHeteroGraph g = .error .panic := by
  have at_ : ∀ {α : Type} {as : List α} {i : Nat}, i ∈ List.range as.length →
      ∃ a, as[i]? = some a := fun mem =>
    ⟨_, List.getElem?_eq_getElem (List.mem_range.mp mem)⟩
  rw [save_eq_write built]
  unfold writeHetero
  simp only [nodeCount_eq built, edgeCount_eq built]
  by_cases nodesFit : ∀ node ∈ nodes, (nameBytes node.1).length < 64
  · have nodeTable : (List.range nodes.length).mapM (fun nt =>
        orPanic g.nodeTypes[nt]? >>= nodeTypeEntry) = .ok (nodes.map nodeRecord) :=
      mapM_range_ok fun nt node here => by
        rw [nodeTypeEntry_eq built here,
          writePaddedName_ok (nodesFit node (List.mem_of_getElem? here))]
        rfl
    obtain ⟨part, mem, relation⟩ : ∃ part ∈ parts, 64 ≤ (nameBytes part.2.1).length := by
      rcases long with ⟨node, mem, name⟩ | relation
      · exact absurd (nodesFit node mem) (Nat.not_lt_of_le name)
      · exact relation
    obtain ⟨et, here⟩ := List.mem_iff_getElem?.mp mem
    have edgeTable : (List.range parts.length).mapM (edgeTypeEntry g) = .error .panic :=
      mapM_error (fun et mem => (at_ mem).elim fun _ here => edgeTypeEntry_cases built here)
        ⟨et, List.mem_range.mpr (List.getElem?_eq_some_iff.mp here).1,
          edgeTypeEntry_panics built here relation⟩
    rw [nodeTable, edgeTable]
    rfl
  · obtain ⟨node, tooLong⟩ := not_forall.mp nodesFit
    obtain ⟨mem, tooLong⟩ := Classical.not_imp.mp tooLong
    obtain ⟨nt, here⟩ := List.mem_iff_getElem?.mp mem
    have nodeTable : (List.range nodes.length).mapM (fun nt =>
        orPanic g.nodeTypes[nt]? >>= nodeTypeEntry) = .error .panic := by
      refine mapM_error (fun nt mem => (at_ mem).elim fun node here => ?_)
        ⟨nt, List.mem_range.mpr (List.getElem?_eq_some_iff.mp here).1, ?_⟩
      · rw [nodeTypeEntry_eq built here]
        exact padded_cases fun _ => .inl ⟨_, rfl⟩
      · rw [nodeTypeEntry_eq built here, writePaddedName_panic (Nat.le_of_not_lt tooLong)]
        rfl
    rw [nodeTable]
    rfl

end Written

/-- A graph of names that fit their fields and of edges within the limit comes back from its
file; `base` is the page the file is mapped at. -/
theorem hetero_file_round_trip {base : Nat} (page : base % 4096 = 0) {nodes : List (String × Nat)}
    {parts : List (HeteroGraph.EdgePart Time)} {g : HeteroGraph Time}
    (built : HeteroGraph.tryFromParts nodes parts = .ok g) (fileable : Fileable nodes parts) :
    ∃ bytes g', saveHeteroGraph g = .ok bytes ∧ loadHeteroGraph base bytes = .ok g' ∧
      g.SameGraph g' := by
  have from_ := HeteroGraph.tryFromParts_builtFrom built
  obtain ⟨g', loaded, same⟩ := load_fileOf from_ built fileable (show base % 8 = 0 by omega)
  refine ⟨fileOf nodes parts, g', ?_, loaded, same⟩
  rw [save_eq_write from_]
  exact writeHetero_ok from_ fileable

/-- Two node types, one of them isolated, and a relation of one edge. -/
def samplePart : HeteroGraph.EdgePart Nat := ("user", "follows", "user", {
  csr := {
    numNodes := 2
    numDstNodes := 2
    offsets := [0, 1, 1]
    edges := [1]
    weights := some [1]
    timestamps := none
    numNodes_le := by unfold maxNodes; omega
    numDstNodes_le := by unfold maxNodes; omega
    offsets_length := rfl
    first_offset := rfl
    last_offset := rfl
    weights_length := by rintro _ ⟨⟩; rfl
    timestamps_length := nofun }
  validated := .full
  monotone := fun _ => by decide
  destinations := fun _ => by decide })

theorem sample_fileable : Fileable [("user", 2), ("tag", 0)] [samplePart] where
  names := by
    simp only [List.forall_mem_cons]
    exact ⟨⟨by decide, by decide⟩, ⟨by decide, by decide⟩, nofun⟩
  relations := by
    simp only [List.forall_mem_cons]
    exact ⟨⟨by decide, by decide⟩, nofun⟩
  edges := by
    simp only [List.forall_mem_cons]
    exact ⟨by decide, nofun⟩

theorem hetero_file_round_trip_sample :
    ∃ g : HeteroGraph Nat, HeteroGraph.tryFromParts [("user", 2), ("tag", 0)] [samplePart] = .ok g ∧
      ∃ bytes g', saveHeteroGraph g = .ok bytes ∧ loadHeteroGraph 4096 bytes = .ok g' ∧
        g.SameGraph g' := by
  have built : HeteroGraph.tryFromParts [("user", 2), ("tag", 0)] [samplePart] = .ok _ := rfl
  exact ⟨_, built, hetero_file_round_trip rfl built sample_fileable⟩

/-- A graph of node types, saved and loaded again. -/
def reload (nodes : List (String × Nat)) : Except Failure (List NodeTypeMeta) := do
  let g ← (HeteroGraph.tryFromParts nodes ([] : List (HeteroGraph.EdgePart Nat))).mapError
    fun e => .error [e.text]
  let bytes ← saveHeteroGraph g
  let loaded ← (loadHeteroGraph 4096 bytes : Except Failure (HeteroGraph Nat))
  pure loaded.nodeTypes

/-- The constructor accepts a name of 64 bytes, the writer asserts; a name ends at its first
NUL. -/
theorem hetero_file_names :
    (∃ g : HeteroGraph Nat,
      HeteroGraph.tryFromParts [(String.ofList (List.replicate 64 'a'), 1)] [] = .ok g ∧
        saveHeteroGraph g = .error .panic) ∧
      reload [("a\x00b", 1)] = .ok [⟨"a", 1⟩] := by
  have built : HeteroGraph.tryFromParts [(String.ofList (List.replicate 64 'a'), 1)]
    ([] : List (HeteroGraph.EdgePart Nat)) = .ok _ := rfl
  have long : 64 ≤ (nameBytes (String.ofList (List.replicate 64 'a'))).length := by decide
  exact ⟨⟨_, built, save_panics (HeteroGraph.tryFromParts_builtFrom built)
    (.inl ⟨_, List.mem_singleton_self _, long⟩)⟩, by decide +kernel⟩

end RoundTrip

end AetherGraph
