import AetherGraph.HeteroFile
import AetherGraph.Foundation.RecordReaders

/-! Loading a heterogeneous graph from any bytes.  The loader is taken again with every slice it
cuts and every size it adds or multiplies unchecked written out: one that is out of bounds,
misaligned or past `usize` stops it with a panic. -/

namespace AetherGraph

open Foundation

open ProvenGraph (checkRange checkWeightsRange)

/-- The bytes of a file as they stand in memory. -/
structure Mapping where
  base : Nat
  bytes : List U8
  inside : base + bytes.length < 2 ^ 64

section Slices

/-- `&data[start..stop]` -/
def sliceBytes (data : List U8) (range : Nat × Nat) : Except Failure (List U8) :=
  if range.1 ≤ range.2 ∧ range.2 ≤ data.length then .ok (byteRange data range) else .error .panic

/-- A sum or product of sizes that nothing checks. -/
def usize (n : Nat) : Except Failure Nat := if n < 2 ^ 64 then .ok n else .error .panic

/-- `typed_slice` over a piece of the mapping. -/
def typedSliceAt {α : Type} (pod : Pod α) (base : Nat) (mmap : List U8) (range : Nat × Nat) :
    Except Failure (List α) := do
  let bytes ← sliceBytes mmap range
  if (base + range.1) % pod.size = 0 ∧ bytes.length % pod.size = 0 then pure (pod.typedSlice bytes)
  else .error .panic

theorem sliceBytes_eq {data : List U8} {range : Nat × Nat} (order : range.1 ≤ range.2)
    (inside : range.2 ≤ data.length) : sliceBytes data range = .ok (byteRange data range) :=
  if_pos ⟨order, inside⟩

theorem usize_eq {n : Nat} (small : n < 2 ^ 64) : usize n = .ok n := if_pos small

theorem byteRange_length {data : List U8} {range : Nat × Nat} (inside : range.2 ≤ data.length) :
    (byteRange data range).length = range.2 - range.1 := by
  rw [byteRange, List.length_take, List.length_drop]
  omega

theorem typedSliceAt_eq {α : Type} {pod : Pod α} {base : Nat} {mmap : List U8} {range : Nat × Nat}
    (order : range.1 ≤ range.2) (inside : range.2 ≤ mmap.length)
    (start : (base + range.1) % pod.size = 0) (whole : (range.2 - range.1) % pod.size = 0) :
    typedSliceAt pod base mmap range = .ok (pod.typedSlice (byteRange mmap range)) := by
  unfold typedSliceAt
  rw [sliceBytes_eq order inside]
  show (if (base + range.1) % pod.size = 0 ∧ (byteRange mmap range).length % pod.size = 0 then
    _ else _) = _
  rw [byteRange_length inside, if_pos ⟨start, whole⟩]
  rfl

/-- A slice inside its bounds goes on with the bytes. -/
theorem lift_sliceBytes {α : Type} {data : List U8} {range : Nat × Nat} (order : range.1 ≤ range.2)
    (inside : range.2 ≤ data.length) (next : List U8 → Parse α) :
    (StateT.lift (sliceBytes data range) >>= next) = next (byteRange data range) := by
  rw [sliceBytes_eq order inside]
  rfl

end Slices

section Sliced

variable {Time : Type}

def readPaddedNameSliced (data : List U8) : Except Failure String := do
  let stop ← okOr "type name field has no NUL terminator — file is corrupt"
    (data.findIdx? fun b => b = 0)
  let name ← sliceBytes data (0, stop)
  okOr "invalid UTF-8 in type name" (stringFromUtf8 name)

def tableEntrySliced (n : Nat) : Parse (List U8) := fun r => do
  let stop ← usize (r.pos + n)
  let entry ← sliceBytes r.items (r.pos, stop)
  pure (entry, { r with pos := stop })

def readNodeTypeSliced : Parse (String × Nat) := do
  let entry ← tableEntrySliced nodeTypeEntrySize
  let nameField ← StateT.lift (sliceBytes entry (0, 64))
  let name ← StateT.lift (readPaddedNameSliced nameField)
  let countField ← StateT.lift (sliceBytes entry (64, 72))
  let count := ofLe countField
  StateT.lift (ensure (count ≤ maxNodes)
    s!"node type '{name}' count {count} exceeds maximum {maxNodes} — file is corrupt")
  pure (name, count)

def readEdgeTypeHeaderSliced : Parse EdgeTypeHeader := do
  let entry ← tableEntrySliced edgeTypeEntrySize
  let srcField ← StateT.lift (sliceBytes entry (0, 64))
  let srcName ← StateT.lift (readPaddedNameSliced srcField)
  let relField ← StateT.lift (sliceBytes entry (64, 128))
  let relName ← StateT.lift (readPaddedNameSliced relField)
  let dstField ← StateT.lift (sliceBytes entry (128, 192))
  let dstName ← StateT.lift (readPaddedNameSliced dstField)
  let nodesField ← StateT.lift (sliceBytes entry (192, 200))
  let numSrcNodes := ofLe nodesField
  let edgesField ← StateT.lift (sliceBytes entry (200, 208))
  let numEdges := ofLe edgesField
  StateT.lift (ensure (numSrcNodes ≤ maxNodes)
    (s!"edge type '{relName}' num_src_nodes {numSrcNodes} exceeds maximum {maxNodes} " ++
      "— file is corrupt"))
  StateT.lift (ensure (numEdges ≤ maxEdges)
    (s!"edge type '{relName}' num_edges {numEdges} exceeds maximum {maxEdges} " ++
      "— file is corrupt"))
  let flagField ← StateT.lift (sliceBytes entry (208, 212))
  pure ⟨srcName, relName, dstName, numSrcNodes, numEdges, ofLe flagField ≠ 0⟩

def checkRangeSliced {α : Type} (pod : Pod α) (typeName : String) (base mapLen : Nat)
    (range : Nat × Nat) (what : String) : Except Failure Unit := do
  ensure (range.1 ≤ range.2 ∧ range.2 ≤ mapLen)
    s!"mmap {what} range {range.1}..{range.2} lies outside the {mapLen}-byte mapping"
  let start ← usize (base + range.1)
  ensure (start % pod.size = 0 ∧ (range.2 - range.1) % pod.size = 0)
    s!"mmap {what} range misaligned for {typeName}"

def checkWeightsRangeSliced (base mapLen : Nat) (edgesRange : Nat × Nat) :
    Option (Nat × Nat) → Except Failure Unit
  | none => .ok ()
  | some w => do
      checkRangeSliced weightPod "f32" base mapLen w "weights"
      ensure (w.2 - w.1 = edgesRange.2 - edgesRange.1)
        (s!"weights section length {w.2 - w.1} doesn't match edges section " ++
          s!"{edgesRange.2 - edgesRange.1}")

def weightsSlice (base : Nat) (mmap : List U8) :
    Option (Nat × Nat) → Except Failure (Option (List Float32))
  | none => .ok none
  | some range => (typedSliceAt weightPod base mmap range).map some

def fromMappedPartsSliced (numNodes numDstNodes numEdges : Nat) (base : Nat) (mmap : List U8)
    (offsetsRange edgesRange : Nat × Nat) (weightsRange : Option (Nat × Nat))
    (mode : GraphValidationMode) : Except Failure (ProvenGraph Time) := do
  checkRangeSliced edgeOffsetPod "u64" base mmap.length offsetsRange "offsets"
  checkRangeSliced nodeIdPod "u32" base mmap.length edgesRange "edges"
  checkWeightsRangeSliced base mmap.length edgesRange weightsRange
  let edgesBytes ← usize (numEdges * nodeIdPod.size)
  ensure (edgesRange.2 - edgesRange.1 = edgesBytes)
    s!"edges section holds {edgesRange.2 - edgesRange.1} bytes for {numEdges} edges"
  ensure (offsetsRange.1 < offsetsRange.2)
    "offsets section is empty; it needs num_nodes + 1 entries"
  let offsets ← typedSliceAt edgeOffsetPod base mmap offsetsRange
  let edges ← typedSliceAt nodeIdPod base mmap edgesRange
  let weights ← weightsSlice base mmap weightsRange
  let csr ← ProvenGraph.shaped numNodes numDstNodes offsets edges weights
  (ProvenGraph.unproven csr).validateWithMode mode

def mappedGraphSliced (base : Nat) (hdr : EdgeTypeHeader) (dstCount : Nat)
    (offsetsRange edgesRange : Nat × Nat) (weightsRange : Option (Nat × Nat)) :
    Parse (ProvenGraph Time) := fun r => do
  let graph ← (fromMappedPartsSliced hdr.numSrcNodes dstCount hdr.numEdges base r.items
    offsetsRange edgesRange weightsRange .full).mapError
      (Failure.context s!"edge type '{hdr.relName}' is inconsistent — file is corrupt")
  pure (graph, r)

def readEdgeTypeSliced (base : Nat) (nodeTypes : List (String × Nat)) (hdr : EdgeTypeHeader) :
    Parse (HeteroGraph.EdgePart Time) := do
  let rel := hdr.relName
  let dstCount ← StateT.lift (okOr
    s!"edge type '{rel}' names unknown destination type '{hdr.dstName}' — file is corrupt"
    (nodeTypes.reverse.lookup hdr.dstName))
  let offsetsBytes ← StateT.lift (okOr s!"offsets size overflows for edge type '{rel}'"
    ((checkedAdd hdr.numSrcNodes 1).bind fun n => checkedMul n edgeOffsetPod.size))
  let edgesBytes ← StateT.lift (okOr s!"edges size overflows for edge type '{rel}'"
    (checkedMul hdr.numEdges nodeIdPod.size))
  let offsetsRange ← takeSection offsetsBytes "offsets" rel
  let edgesRange ← takeSection edgesBytes "edges" rel
  skipPadding edgesBytes rel
  let weightsRange ← takeWeights hdr.hasWeights edgesBytes rel
  checkPadding rel
  let graph ← mappedGraphSliced base hdr dstCount offsetsRange edgesRange weightsRange
  pure (hdr.srcName, hdr.relName, hdr.dstName, graph)

def readPartsSliced (base numNt numEt : Nat) :
    Parse (List (String × Nat) × List (HeteroGraph.EdgePart Time)) := do
  let nodeTypes ← readMany readNodeTypeSliced numNt
  let headers ← readMany readEdgeTypeHeaderSliced numEt
  let edgeTypes ← headers.mapM (readEdgeTypeSliced base nodeTypes)
  pure (nodeTypes, edgeTypes)

def loadHeteroGraphSliced (m : Mapping) : Except Failure (HeteroGraph Time) := do
  let mmap := m.bytes
  let fileLen := mmap.length
  ensure (heteroHeaderSize ≤ fileLen) s!"file too small for header: {fileLen} bytes"
  let magic ← sliceBytes mmap (0, 8)
  ensure (magic = heteroMagic) "invalid magic (expected AETHHETG)"
  let versionField ← sliceBytes mmap (8, 12)
  let version := ofLe versionField
  ensure (version = heteroVersion)
    (s!"hetero graph file format version {version} is not supported by this build " ++
      s!"(max {heteroVersion})")
  let nodesField ← sliceBytes mmap (12, 16)
  let numNt := ofLe nodesField
  let edgesField ← sliceBytes mmap (16, 20)
  let numEt := ofLe edgesField
  ensure (numNt ≤ maxTypes ∧ numEt ≤ maxTypes)
    (s!"type counts ({numNt} node, {numEt} edge) exceed the format limit of {maxTypes} " ++
      "— file is corrupt")
  let tablesLen ← okOr "type table size overflows"
    ((checkedMul numNt nodeTypeEntrySize).bind fun n =>
      (checkedMul numEt edgeTypeEntrySize).bind fun e =>
        (checkedAdd n e).bind fun t => checkedAdd t heteroHeaderSize)
  ensure (tablesLen ≤ fileLen)
    s!"file truncated: type tables need {tablesLen} bytes, file has {fileLen}"
  let parts ← (readPartsSliced m.base numNt numEt).run ⟨mmap, heteroHeaderSize⟩
  (HeteroGraph.tryFromParts parts.1.1 parts.1.2).mapError fun e =>
    .error ["hetero graph type tables are inconsistent — file is corrupt", e.text]

end Sliced

section Tables

variable {bound : Nat}

theorem readPaddedNameSliced_eq (data : List U8) :
    readPaddedNameSliced data = readPaddedName data := by
  unfold readPaddedNameSliced readPaddedName
  cases found : data.findIdx? fun b => b = 0 with
  | none => rfl
  | some stop =>
      have inside : stop < data.length := (List.findIdx?_eq_some_iff_getElem.mp found).1
      show (sliceBytes data (0, stop) >>= _) = _
      rw [sliceBytes_eq (Nat.zero_le _) (Nat.le_of_lt inside)]
      rfl

theorem tableEntrySliced_run {n : Nat} {r : ByteReader} (small : r.items.length < 2 ^ 64) :
    (tableEntrySliced n).run r = (tableEntry n).run r := by
  unfold tableEntrySliced tableEntry
  dsimp only [StateT.run]
  split_ifs with fits
  · rw [usize_eq (Nat.lt_of_le_of_lt fits small)]
    show Except.bind (sliceBytes r.items (r.pos, r.pos + n)) _ = _
    rw [sliceBytes_eq (Nat.le_add_right ..) fits]
    rfl
  · have outside : sliceBytes r.items (r.pos, r.pos + n) = .error .panic :=
      if_neg fun both => fits both.2
    unfold usize
    split_ifs with within
    · show Except.bind (sliceBytes r.items (r.pos, r.pos + n)) _ = _
      rw [outside]
      rfl
    · rfl

theorem tableEntry_ok {n : Nat} {r r' : ByteReader} {entry : List U8}
    (ran : (tableEntry n).run r = .ok (entry, r')) :
    entry.length = n ∧ r'.items = r.items ∧ r'.pos = r.pos + n := by
  change (if r.pos + n ≤ r.items.length then _ else _) = _ at ran
  split_ifs at ran with fits
  obtain ⟨rfl, rfl⟩ := Prod.mk.inj (Except.ok.inj ran)
  exact ⟨(byteRange_length fits).trans (Nat.add_sub_cancel_left ..), rfl, rfl⟩

/-- What is read of an entry may depend on its length. -/
theorem entry_agrees {α : Type} {n : Nat} (limit : bound < 2 ^ 64) {next next' : List U8 → Parse α}
    (same : ∀ entry, entry.length = n → next entry = next' entry) :
    Agrees bound (tableEntrySliced n >>= next) (tableEntry n >>= next') := fun r small => by
  rw [StateT.run_bind, StateT.run_bind, tableEntrySliced_run (Nat.lt_of_le_of_lt small limit)]
  cases ran : (tableEntry n).run r with
  | error e => rfl
  | ok entry =>
      show (next entry.1).run entry.2 = (next' entry.1).run entry.2
      rw [same entry.1 (tableEntry_ok ran).1]

theorem readNodeTypeSliced_agrees (limit : bound < 2 ^ 64) :
    Agrees bound readNodeTypeSliced readNodeType := by
  refine entry_agrees limit fun entry length => ?_
  have size : nodeTypeEntrySize = 72 := rfl
  rw [lift_sliceBytes (by decide) (show 64 ≤ entry.length by omega), readPaddedNameSliced_eq]
  refine bind_congr fun name => ?_
  rw [lift_sliceBytes (by decide) (show 72 ≤ entry.length by omega)]

theorem readEdgeTypeHeaderSliced_agrees (limit : bound < 2 ^ 64) :
    Agrees bound readEdgeTypeHeaderSliced readEdgeTypeHeader := by
  refine entry_agrees limit fun entry length => ?_
  have size : edgeTypeEntrySize = 216 := rfl
  rw [lift_sliceBytes (by decide) (show 64 ≤ entry.length by omega), readPaddedNameSliced_eq]
  refine bind_congr fun srcName => ?_
  rw [lift_sliceBytes (by decide) (show 128 ≤ entry.length by omega), readPaddedNameSliced_eq]
  refine bind_congr fun relName => ?_
  rw [lift_sliceBytes (by decide) (show 192 ≤ entry.length by omega), readPaddedNameSliced_eq]
  refine bind_congr fun dstName => ?_
  rw [lift_sliceBytes (by decide) (show 200 ≤ entry.length by omega),
    lift_sliceBytes (by decide) (show 208 ≤ entry.length by omega)]
  refine bind_congr fun _ => ?_
  refine bind_congr fun _ => ?_
  rw [lift_sliceBytes (by decide) (show 212 ≤ entry.length by omega)]

theorem okOr_ne_panic {α : Type} {text : String} (a : Option α) : okOr text a ≠ .error .panic := by
  cases a with
  | none => exact nofun
  | some a => exact nofun

theorem readPaddedName_ne_panic (data : List U8) : readPaddedName data ≠ .error .panic := by
  unfold readPaddedName
  cases data.findIdx? fun b => b = 0 with
  | none => exact nofun
  | some stop => exact okOr_ne_panic (stringFromUtf8 (data.take stop))

theorem ensure_ne_panic {holds : Prop} [Decidable holds] (text : String) :
    ensure holds text ≠ .error .panic := by
  unfold ensure
  split
  · exact nofun
  · exact nofun

theorem tableEntry_record (n : Nat) : Record .panic n (tableEntry n) where
  avoids := fun r fits => by
    show (if r.pos + n ≤ r.items.length then _ else _) ≠ _
    rw [if_pos fits]
    exact nofun
  moves := fun _ _ _ ran => (tableEntry_ok ran).2

theorem readNodeType_record : Record .panic nodeTypeEntrySize readNodeType := by
  refine (tableEntry_record nodeTypeEntrySize).last fun entry => ?_
  refine .check (readPaddedName_ne_panic _) fun name _ => ?_
  exact .check (ensure_ne_panic _) fun _ _ => .pure _

theorem readEdgeTypeHeader_record : Record .panic edgeTypeEntrySize readEdgeTypeHeader := by
  refine (tableEntry_record edgeTypeEntrySize).last fun entry => ?_
  refine .check (readPaddedName_ne_panic _) fun srcName _ => ?_
  refine .check (readPaddedName_ne_panic _) fun relName _ => ?_
  refine .check (readPaddedName_ne_panic _) fun dstName _ => ?_
  refine .check (ensure_ne_panic _) fun _ _ => ?_
  exact .check (ensure_ne_panic _) fun _ _ => .pure _

end Tables

section Sections

variable {base : Nat}

/-- Behind a check, only what passes it matters. -/
theorem ensure_bind_congr {α : Type} {holds : Prop} [Decidable holds] {text : String}
    {next next' : Unit → Except Failure α} (same : holds → next () = next' ()) :
    (ensure holds text >>= next) = (ensure holds text >>= next') := by
  unfold ensure
  split_ifs with h
  · exact same h
  · rfl

theorem checkRangeSliced_eq {α : Type} (pod : Pod α) (typeName : String) {mapLen : Nat}
    (limit : base + mapLen < 2 ^ 64) (range : Nat × Nat) (what : String) :
    checkRangeSliced pod typeName base mapLen range what =
      checkRange pod typeName base mapLen range what := by
  refine ensure_bind_congr fun inside => ?_
  rw [usize_eq (by omega)]
  rfl

/-- What a range has passed. -/
theorem checkRange_ok {α : Type} {pod : Pod α} {typeName : String} {mapLen : Nat}
    {range : Nat × Nat} {what : String} {u : Unit}
    (passed : checkRange pod typeName base mapLen range what = .ok u) :
    (range.1 ≤ range.2 ∧ range.2 ≤ mapLen) ∧ (base + range.1) % pod.size = 0 ∧
      (range.2 - range.1) % pod.size = 0 := by
  obtain ⟨inside, passed⟩ := ByteReader.ensure_bind_ok passed
  exact ⟨inside, ByteReader.ensure_holds passed⟩

theorem checkRange_bind_congr {α δ : Type} {pod : Pod α} {typeName : String} {mapLen : Nat}
    {range : Nat × Nat} {what : String} {next next' : Unit → Except Failure δ}
    (same : (range.1 ≤ range.2 ∧ range.2 ≤ mapLen) ∧ (base + range.1) % pod.size = 0 ∧
      (range.2 - range.1) % pod.size = 0 → next () = next' ()) :
    (checkRange pod typeName base mapLen range what >>= next) =
      (checkRange pod typeName base mapLen range what >>= next') := by
  cases passed : checkRange pod typeName base mapLen range what with
  | error e => rfl
  | ok u => exact same (checkRange_ok passed)

theorem checkWeightsRangeSliced_eq {mapLen : Nat} (limit : base + mapLen < 2 ^ 64)
    (edgesRange : Nat × Nat) (weightsRange : Option (Nat × Nat)) :
    checkWeightsRangeSliced base mapLen edgesRange weightsRange =
      checkWeightsRange base mapLen edgesRange weightsRange := by
  cases weightsRange with
  | none => rfl
  | some w =>
      unfold checkWeightsRangeSliced checkWeightsRange
      dsimp only
      rw [checkRangeSliced_eq _ _ limit]

theorem weightsSlice_eq {mmap : List U8} {edgesRange : Nat × Nat}
    {weightsRange : Option (Nat × Nat)} {u : Unit}
    (passed : checkWeightsRange base mmap.length edgesRange weightsRange = .ok u) :
    weightsSlice base mmap weightsRange =
      .ok (weightsRange.map fun range => weightPod.typedSlice (byteRange mmap range)) := by
  cases weightsRange with
  | none => rfl
  | some w =>
      cases ranged : checkRange weightPod "f32" base mmap.length w "weights" with
      | error e =>
          rw [checkWeightsRange, ranged] at passed
          cases passed
      | ok u =>
          obtain ⟨inside, start, whole⟩ := checkRange_ok ranged
          unfold weightsSlice
          dsimp only
          rw [typedSliceAt_eq inside.1 inside.2 start whole]
          rfl

variable {Time : Type}

theorem fromMappedPartsSliced_eq {numNodes numDstNodes numEdges : Nat} {mmap : List U8}
    (limit : base + mmap.length < 2 ^ 64) (few : numEdges * 4 < 2 ^ 64)
    (offsetsRange edgesRange : Nat × Nat) (weightsRange : Option (Nat × Nat))
    (mode : GraphValidationMode) :
    (fromMappedPartsSliced numNodes numDstNodes numEdges base mmap offsetsRange edgesRange
      weightsRange mode : Except Failure (ProvenGraph Time)) =
    ProvenGraph.fromMappedParts numNodes numDstNodes numEdges base mmap offsetsRange edgesRange
      weightsRange mode := by
  unfold fromMappedPartsSliced ProvenGraph.fromMappedParts
  rw [checkRangeSliced_eq _ _ limit, checkRangeSliced_eq _ _ limit,
    checkWeightsRangeSliced_eq limit, usize_eq (show numEdges * nodeIdPod.size < 2 ^ 64 from few)]
  refine checkRange_bind_congr fun offsets => checkRange_bind_congr fun edges => ?_
  cases weights : checkWeightsRange base mmap.length edgesRange weightsRange with
  | error e => rfl
  | ok u =>
      refine ensure_bind_congr fun _ => ensure_bind_congr fun _ => ?_
      rw [typedSliceAt_eq offsets.1.1 offsets.1.2 offsets.2.1 offsets.2.2,
        typedSliceAt_eq edges.1.1 edges.1.2 edges.2.1 edges.2.2, weightsSlice_eq weights]
      rfl

theorem mappedGraphSliced_agrees {bound : Nat} (limit : base + bound < 2 ^ 64)
    {hdr : EdgeTypeHeader} (few : hdr.numEdges * 4 < 2 ^ 64) (dstCount : Nat)
    (offsetsRange edgesRange : Nat × Nat) (weightsRange : Option (Nat × Nat)) :
    Agrees bound (@mappedGraphSliced Time base hdr dstCount offsetsRange edgesRange
      weightsRange) (mappedGraph base hdr dstCount offsetsRange edgesRange weightsRange) :=
  fun r small => by
    unfold mappedGraphSliced mappedGraph
    dsimp only [StateT.run]
    rw [fromMappedPartsSliced_eq (by omega) few]

theorem takeSection_keeps (len : Nat) (what rel : String) : Keeps (takeSection len what rel) :=
  fun r range r' ran => by
    unfold takeSection okOr at ran
    dsimp only [StateT.run] at ran
    cases sum : checkedAdd r.pos len with
    | none =>
        rw [sum] at ran
        cases ran
    | some stop =>
        rw [sum] at ran
        obtain ⟨-, ran⟩ := ByteReader.ensure_bind_ok ran
        obtain ⟨-, rfl⟩ := Prod.mk.inj (Except.ok.inj ran)
        rfl

theorem skipPadding_keeps (len : Nat) (rel : String) : Keeps (skipPadding len rel) :=
  fun r u r' ran => by
    unfold skipPadding okOr at ran
    dsimp only [StateT.run] at ran
    cases sum : checkedAdd r.pos (pad8 len) with
    | none =>
        rw [sum] at ran
        cases ran
    | some stop =>
        rw [sum] at ran
        obtain ⟨-, rfl⟩ := Prod.mk.inj (Except.ok.inj ran)
        rfl

theorem takeWeights_keeps (hasWeights : Bool) (len : Nat) (rel : String) :
    Keeps (takeWeights hasWeights len rel) := by
  unfold takeWeights
  split
  · exact (takeSection_keeps _ _ _).bind fun _ => (skipPadding_keeps _ _).bind fun _ => .pure _
  · exact .pure none

theorem checkPadding_keeps (rel : String) : Keeps (checkPadding rel) := fun r u r' ran => by
  obtain ⟨-, ran⟩ := ByteReader.ensure_bind_ok ran
  obtain ⟨-, rfl⟩ := Prod.mk.inj (Except.ok.inj ran)
  rfl

theorem mappedGraph_keeps (hdr : EdgeTypeHeader) (dstCount : Nat)
    (offsetsRange edgesRange : Nat × Nat) (weightsRange : Option (Nat × Nat)) :
    Keeps (@mappedGraph Time base hdr dstCount offsetsRange edgesRange weightsRange) :=
  fun r graph r' ran => by
    unfold mappedGraph at ran
    dsimp only [StateT.run] at ran
    cases built : @ProvenGraph.fromMappedParts Time hdr.numSrcNodes dstCount hdr.numEdges
        base r.items offsetsRange edgesRange weightsRange .full with
    | error e =>
        rw [built] at ran
        cases ran
    | ok graph =>
        rw [built] at ran
        obtain ⟨-, rfl⟩ := Prod.mk.inj (Except.ok.inj ran)
        rfl

theorem readEdgeType_keeps (nodeTypes : List (String × Nat)) (hdr : EdgeTypeHeader) :
    Keeps (@readEdgeType Time base nodeTypes hdr) := by
  refine .check fun dstCount _ => .check fun offsetsBytes _ => .check fun edgesBytes _ => ?_
  refine (takeSection_keeps _ _ _).bind fun offsetsRange => ?_
  refine (takeSection_keeps _ _ _).bind fun edgesRange => ?_
  refine (skipPadding_keeps _ _).bind fun _ => (takeWeights_keeps _ _ _).bind fun weightsRange => ?_
  exact (checkPadding_keeps _).bind fun _ => (mappedGraph_keeps _ _ _ _ _).bind fun _ => .pure _

theorem readEdgeTypeSliced_agrees {bound : Nat} (limit : base + bound < 2 ^ 64)
    (nodeTypes : List (String × Nat)) (hdr : EdgeTypeHeader) :
    Agrees bound (@readEdgeTypeSliced Time base nodeTypes hdr)
      (readEdgeType base nodeTypes hdr) := by
  refine .check fun dstCount _ => .check fun offsetsBytes _ => .check fun edgesBytes sized => ?_
  have few : hdr.numEdges * 4 < 2 ^ 64 := by
    by_contra many
    rw [show checkedMul hdr.numEdges nodeIdPod.size = none from if_neg many] at sized
    cases sized
  refine Agrees.bind (.refl _) (takeSection_keeps _ _ _) fun offsetsRange => ?_
  refine Agrees.bind (.refl _) (takeSection_keeps _ _ _) fun edgesRange => ?_
  refine .bind (.refl _) (skipPadding_keeps _ _) fun _ => ?_
  refine .bind (.refl _) (takeWeights_keeps _ _ _) fun weightsRange => ?_
  refine .bind (.refl _) (checkPadding_keeps _) fun _ => ?_
  exact .bind (mappedGraphSliced_agrees limit few _ _ _ _) (mappedGraph_keeps _ _ _ _ _) fun _ => .refl _

theorem readPartsSliced_agrees {bound : Nat} (limit : base + bound < 2 ^ 64) (numNt numEt : Nat) :
    Agrees bound (@readPartsSliced Time base numNt numEt) (readParts base numNt numEt) := by
  have small : bound < 2 ^ 64 := by omega
  have nodeKeeps := readNodeType_record.keeps
  have headerKeeps := readEdgeTypeHeader_record.keeps
  refine ((readNodeTypeSliced_agrees small).many nodeKeeps numNt).bind (nodeKeeps.many numNt)
    fun nodeTypes => ?_
  refine ((readEdgeTypeHeaderSliced_agrees small).many headerKeeps numEt).bind
    (headerKeeps.many numEt) fun headers => ?_
  obtain ⟨agree, keeps⟩ := Agrees.mapM (@readEdgeTypeSliced_agrees base Time bound limit nodeTypes)
    (readEdgeType_keeps nodeTypes) headers
  exact agree.bind keeps fun _ => .refl _

end Sections

section NoPanic

variable {Time : Type} {base : Nat}

theorem bind_ne_panic {α δ : Type} {first : Except Failure α} {next : α → Except Failure δ}
    (here : first ≠ .error .panic) (rest : ∀ a, next a ≠ .error .panic) :
    (first >>= next) ≠ .error .panic := by
  cases ran : first with
  | error e =>
      intro stopped
      rw [show e = .panic from Except.error.inj stopped] at ran
      exact here ran
  | ok a => exact rest a

theorem checkRange_ne_panic {α : Type} (pod : Pod α) (typeName : String) (mapLen : Nat)
    (range : Nat × Nat) (what : String) :
    checkRange pod typeName base mapLen range what ≠ .error .panic :=
  bind_ne_panic (ensure_ne_panic _) fun _ => ensure_ne_panic _

theorem checkWeightsRange_ne_panic (mapLen : Nat) (edgesRange : Nat × Nat)
    (weightsRange : Option (Nat × Nat)) :
    checkWeightsRange base mapLen edgesRange weightsRange ≠ .error .panic := by
  cases weightsRange with
  | none => exact nofun
  | some w => exact bind_ne_panic (checkRange_ne_panic _ _ _ _ _) fun _ => ensure_ne_panic _

theorem checkShape_ne_panic (numNodes numDstNodes : Nat) (offsets : List Nat) (numEdges : Nat)
    (weightsLen : Option Nat) :
    checkShape numNodes numDstNodes offsets numEdges weightsLen ≠ .error .panic := by
  refine bind_ne_panic (ensure_ne_panic _) fun _ => bind_ne_panic (ensure_ne_panic _) fun _ => ?_
  refine bind_ne_panic (ensure_ne_panic _) fun _ => bind_ne_panic (ensure_ne_panic _) fun _ => ?_
  refine bind_ne_panic (ensure_ne_panic _) fun _ => ?_
  cases weightsLen with
  | none => exact nofun
  | some w => exact ensure_ne_panic _

theorem shaped_ne_panic (numNodes numDstNodes : Nat) (offsets edges : List Nat)
    (weights : Option (List Float32)) :
    @ProvenGraph.shaped Time numNodes numDstNodes offsets edges weights ≠
      .error .panic := by
  unfold ProvenGraph.shaped
  split
  · rename_i e failed
    intro stopped
    rw [show e = .panic from Except.error.inj stopped] at failed
    exact checkShape_ne_panic _ _ _ _ _ failed
  · exact nofun

theorem checkMonotone_ne_panic (g : Csr Time) : g.checkMonotone ≠ .error .panic := by
  unfold Csr.checkMonotone
  split
  · exact nofun
  · exact nofun

theorem checkDestinations_ne_panic (g : Csr Time) : g.checkDestinations ≠ .error .panic := by
  unfold Csr.checkDestinations
  split
  · exact nofun
  · exact nofun

theorem validateWithMode_ne_panic (g : ProvenGraph Time) (mode : GraphValidationMode) :
    g.validateWithMode mode ≠ .error .panic := by
  unfold ProvenGraph.validateWithMode
  split
  · rintro ⟨⟩
  · refine bind_ne_panic ?_ fun monotone => ?_
    · unfold ProvenGraph.proveMonotone
      split
      · exact checkMonotone_ne_panic _
      · rintro ⟨⟩
    · cases mode with
      | full => exact bind_ne_panic (checkDestinations_ne_panic _) fun _ => by rintro ⟨⟩
      | headerOnly => rintro ⟨⟩
      | offsetsOnly => rintro ⟨⟩

theorem fromMappedParts_ne_panic (numNodes numDstNodes numEdges : Nat) (mmap : List U8)
    (offsetsRange edgesRange : Nat × Nat) (weightsRange : Option (Nat × Nat))
    (mode : GraphValidationMode) :
    @ProvenGraph.fromMappedParts Time numNodes numDstNodes numEdges base mmap offsetsRange
      edgesRange weightsRange mode ≠ .error .panic := by
  refine bind_ne_panic (checkRange_ne_panic _ _ _ _ _) fun _ => ?_
  refine bind_ne_panic (checkRange_ne_panic _ _ _ _ _) fun _ => ?_
  refine bind_ne_panic (checkWeightsRange_ne_panic _ _ _) fun _ => ?_
  refine bind_ne_panic (ensure_ne_panic _) fun _ => bind_ne_panic (ensure_ne_panic _) fun _ => ?_
  exact bind_ne_panic (shaped_ne_panic _ _ _ _ _) fun _ => validateWithMode_ne_panic _ _

theorem takeSection_avoids (len : Nat) (what rel : String) :
    Avoids .panic (takeSection len what rel) := fun _ =>
  bind_ne_panic (okOr_ne_panic _) fun _ => bind_ne_panic (ensure_ne_panic _) fun _ => nofun

theorem skipPadding_avoids (len : Nat) (rel : String) : Avoids .panic (skipPadding len rel) :=
  fun _ => bind_ne_panic (okOr_ne_panic _) fun _ => nofun

theorem takeWeights_avoids (hasWeights : Bool) (len : Nat) (rel : String) :
    Avoids .panic (takeWeights hasWeights len rel) := by
  unfold takeWeights
  split
  · exact (takeSection_avoids _ _ _).bind fun _ => (skipPadding_avoids _ _).bind fun _ => .pure _
  · exact .pure none

theorem mappedGraph_avoids (hdr : EdgeTypeHeader) (dstCount : Nat)
    (offsetsRange edgesRange : Nat × Nat) (weightsRange : Option (Nat × Nat)) :
    Avoids .panic (@mappedGraph Time base hdr dstCount offsetsRange edgesRange
      weightsRange) := fun r => by
  refine bind_ne_panic ?_ fun _ => nofun
  cases built : @ProvenGraph.fromMappedParts Time hdr.numSrcNodes dstCount hdr.numEdges
      base r.items offsetsRange edgesRange weightsRange .full with
  | ok graph => exact nofun
  | error e =>
      cases e with
      | error chain => exact nofun
      | panic => exact absurd built (fromMappedParts_ne_panic _ _ _ _ _ _ _ _)

theorem readEdgeType_avoids (nodeTypes : List (String × Nat)) (hdr : EdgeTypeHeader) :
    Avoids .panic (@readEdgeType Time base nodeTypes hdr) := by
  refine .check (okOr_ne_panic _) fun dstCount _ => .check (okOr_ne_panic _) fun offsetsBytes _ => ?_
  refine .check (okOr_ne_panic _) fun edgesBytes _ => ?_
  refine (takeSection_avoids _ _ _).bind fun offsetsRange => ?_
  refine (takeSection_avoids _ _ _).bind fun edgesRange => ?_
  refine (skipPadding_avoids _ _).bind fun _ => (takeWeights_avoids _ _ _).bind fun weightsRange => ?_
  have padding : Avoids .panic (checkPadding hdr.relName) := fun _ =>
    bind_ne_panic (ensure_ne_panic _) fun _ => nofun
  exact padding.bind fun _ => (mappedGraph_avoids _ _ _ _ _).bind fun _ => .pure _

/-- Once both tables fit, no part of the file stops the readers with a panic. -/
theorem readParts_ne_panic {numNt numEt : Nat} {r : ByteReader}
    (fits : r.pos + (numNt * nodeTypeEntrySize + numEt * edgeTypeEntrySize) ≤ r.items.length) :
    (@readParts Time base numNt numEt).run r ≠ .error .panic := by
  have tables : ∀ (next : List (String × Nat) → List EdgeTypeHeader →
      Parse (List (String × Nat) × List (HeteroGraph.EdgePart Time))),
      (∀ nodeTypes headers, Avoids .panic (next nodeTypes headers)) →
      (readMany readNodeType numNt >>= fun nodeTypes =>
        readMany readEdgeTypeHeader numEt >>= next nodeTypes).run r ≠ .error .panic := by
    intro next rest
    rw [StateT.run_bind]
    cases ran : (readMany readNodeType numNt).run r with
    | error e =>
        intro stopped
        rw [show e = .panic from Except.error.inj stopped] at ran
        exact (readNodeType_record.many numNt).avoids r (by omega) ran
    | ok entry =>
        obtain ⟨same, moved⟩ := (readNodeType_record.many numNt).moves r entry.1 entry.2 ran
        show (readMany readEdgeTypeHeader numEt >>= next entry.1).run entry.2 ≠ _
        rw [StateT.run_bind]
        refine bind_ne_panic ((readEdgeTypeHeader_record.many numEt).avoids entry.2 ?_) fun header =>
          rest entry.1 header.1 header.2
        rw [same, moved]
        omega
  exact tables _ fun nodeTypes headers =>
    (Avoids.mapM (readEdgeType_avoids nodeTypes) headers).bind fun _ => .pure _

end NoPanic

section Load

variable {Time : Type} (m : Mapping)

theorem tablesLen_checked {numNt numEt : Nat} (nodes : numNt ≤ maxTypes) (edges : numEt ≤ maxTypes) :
    ((checkedMul numNt nodeTypeEntrySize).bind fun n =>
      (checkedMul numEt edgeTypeEntrySize).bind fun e =>
        (checkedAdd n e).bind fun t => checkedAdd t heteroHeaderSize) =
      some (heteroHeaderSize + numNt * nodeTypeEntrySize + numEt * edgeTypeEntrySize) := by
  unfold maxTypes at nodes edges
  have nodeSize : nodeTypeEntrySize = 72 := rfl
  have edgeSize : edgeTypeEntrySize = 216 := rfl
  have headerSize : heteroHeaderSize = 64 := rfl
  rw [nodeSize, edgeSize, headerSize, checkedMul_eq (by omega), checkedMul_eq (by omega),
    Option.bind_some, Option.bind_some, checkedAdd_eq (by omega), Option.bind_some, checkedAdd_eq (by omega)]
  congr 1
  omega

/-- No slice, cast or size of the loader goes wrong. -/
theorem loadHeteroGraphSliced_eq :
    @loadHeteroGraphSliced Time m = loadHeteroGraph m.base m.bytes := by
  have small := m.inside
  unfold loadHeteroGraphSliced loadHeteroGraph
  refine ensure_bind_congr fun long => ?_
  have header : 64 ≤ m.bytes.length := long
  rw [sliceBytes_eq (by decide) (show 8 ≤ m.bytes.length by omega),
    sliceBytes_eq (by decide) (show 12 ≤ m.bytes.length by omega),
    sliceBytes_eq (by decide) (show 16 ≤ m.bytes.length by omega),
    sliceBytes_eq (by decide) (show 20 ≤ m.bytes.length by omega)]
  refine ensure_bind_congr fun magic => ensure_bind_congr fun version => ?_
  refine ensure_bind_congr fun few => ?_
  rw [tablesLen_checked few.1 few.2]
  refine ensure_bind_congr fun tables => ?_
  rw [readPartsSliced_agrees m.inside _ _ _ (Nat.le_refl _)]

theorem loadHeteroGraph_ne_panic (base : Nat) (mmap : List U8) :
    @loadHeteroGraph Time base mmap ≠ .error .panic := by
  have whole : ∀ {holds : Prop} [Decidable holds] {text : String}
      {next : Unit → Except Failure (HeteroGraph Time)}, (holds → next () ≠ .error .panic) →
      (ensure holds text >>= next) ≠ .error .panic := by
    intro holds _ text next rest
    unfold ensure
    split_ifs with h
    · exact rest h
    · exact nofun
  refine whole fun _ => whole fun _ => whole fun _ => whole fun _ => whole fun tables => ?_
  refine bind_ne_panic (readParts_ne_panic (by dsimp only; omega)) fun parts => ?_
  cases HeteroGraph.tryFromParts parts.1.1 parts.1.2 with
  | error e => exact nofun
  | ok g => exact nofun

theorem loadHeteroGraph_built {base : Nat} {mmap : List U8} {g : HeteroGraph Time}
    (loaded : loadHeteroGraph base mmap = .ok g) :
    ∃ nodes parts, HeteroGraph.tryFromParts nodes parts = .ok g := by
  obtain ⟨-, loaded⟩ := ByteReader.ensure_bind_ok loaded
  obtain ⟨-, loaded⟩ := ByteReader.ensure_bind_ok loaded
  obtain ⟨-, loaded⟩ := ByteReader.ensure_bind_ok loaded
  obtain ⟨-, loaded⟩ := ByteReader.ensure_bind_ok loaded
  obtain ⟨-, loaded⟩ := ByteReader.ensure_bind_ok loaded
  cases ran : (@readParts Time base (ofLe (byteRange mmap (12, 16)))
      (ofLe (byteRange mmap (16, 20)))).run ⟨mmap, heteroHeaderSize⟩ with
  | error e =>
      rw [ran] at loaded
      cases loaded
  | ok parts =>
      rw [ran] at loaded
      refine ⟨parts.1.1, parts.1.2, ?_⟩
      change (HeteroGraph.tryFromParts parts.1.1 parts.1.2).mapError _ = _ at loaded
      cases built : HeteroGraph.tryFromParts parts.1.1 parts.1.2 with
      | error e =>
          rw [built] at loaded
          cases loaded
      | ok g' =>
          rw [built] at loaded
          exact congrArg Except.ok (Except.ok.inj loaded)

end Load

/-- What the samplers rely on of an edge type and its arrays. -/
structure SoundEdgeType {Time : Type} (g : HeteroGraph Time) (entry : EdgeTypeMeta)
    (csr : Csr Time) : Prop where
  src : entry.srcType < g.nodeTypes.length
  dst : entry.dstType < g.nodeTypes.length
  offsets_length : csr.offsets.length = csr.numNodes + 1
  first : csr.offsets[0]? = some 0
  monotone : ∀ i < csr.numNodes, csr.offsets.getD i 0 ≤ csr.offsets.getD (i + 1) 0
  last : csr.offsets[csr.numNodes]? = some csr.edges.length
  -- rows at or past the source type's count hold no edges
  rows : ∀ s, g.numNodes entry.srcType ≤ s → csr.neighbors s = []
  destinations : ∀ d ∈ csr.edges, d < g.numNodes entry.dstType
  weights : ∀ ws ∈ csr.weights, ws.length = csr.edges.length

/-- On any bytes the loader stops with an error or returns a graph whose every edge type is sound,
and none of its slices, casts and sizes goes wrong. -/
theorem hetero_load_sound {Time : Type} (m : Mapping) :
    @loadHeteroGraphSliced Time m ≠ .error .panic ∧
      ∀ g : HeteroGraph Time, loadHeteroGraphSliced m = .ok g →
        g.csrGraphs.length = g.edgeTypes.length ∧
          ∀ (et : Nat) (entry : EdgeTypeMeta) (csr : Csr Time), g.edgeTypes[et]? = some entry →
            g.csrGraphs[et]? = some csr → SoundEdgeType g entry csr := by
  rw [loadHeteroGraphSliced_eq]
  refine ⟨loadHeteroGraph_ne_panic m.base m.bytes, fun g loaded => ?_⟩
  obtain ⟨nodes, parts, built⟩ := loadHeteroGraph_built loaded
  have valid := HeteroGraph.tryFromParts_valid built
  refine ⟨valid.csrs, fun et entry csr at_entry at_csr => ?_⟩
  have here : g.edgeType et = entry := by
    rw [HeteroGraph.edgeType, List.getD_eq_getElem?_getD, at_entry]
    rfl
  have types := valid.types et (List.getElem?_eq_some_iff.mp at_entry).1
  have fits := valid.fits et csr at_csr
  rw [HeteroGraph.srcCount, HeteroGraph.dstCount, here] at fits
  rw [here] at types
  exact ⟨types.1, types.2, csr.offsets_length, csr.first_offset, fits.monotone, csr.last_offset,
    fits.sources, fits.destinations, csr.weights_length⟩

/-- Two rows of edges, the second one empty, over a source type of one node. -/
def widePart : HeteroGraph.EdgePart Nat := ("user", "likes", "user", {
  csr := {
    numNodes := 2
    numDstNodes := 1
    offsets := [0, 1, 1]
    edges := [0]
    weights := none
    timestamps := none
    numNodes_le := two_le_maxNodes
    numDstNodes_le := one_le_maxNodes
    offsets_length := by decide
    first_offset := by decide
    last_offset := by decide
    weights_length := nofun
    timestamps_length := nofun }
  validated := .full
  monotone := fun _ => by decide
  destinations := fun _ => by decide })

theorem wide_fileable : Fileable [("user", 1)] [widePart] where
  names := by
    simp only [List.forall_mem_cons]
    exact ⟨⟨by decide, by decide⟩, nofun⟩
  relations := by
    simp only [List.forall_mem_cons]
    exact ⟨⟨by decide, by decide⟩, nofun⟩
  edges := by
    simp only [List.forall_mem_cons]
    exact ⟨by decide, nofun⟩

/-- A file may hold more rows than its source type has nodes. -/
theorem hetero_load_wide : ∃ (m : Mapping) (g : HeteroGraph Nat) (entry : EdgeTypeMeta)
    (csr : Csr Nat), loadHeteroGraphSliced m = .ok g ∧ g.edgeTypes[0]? = some entry ∧
      g.csrGraphs[0]? = some csr ∧ csr.offsets.length ≠ g.numNodes entry.srcType + 1 := by
  obtain ⟨g, built, entries, csrs, counts⟩ : ∃ g : HeteroGraph Nat,
      HeteroGraph.tryFromParts [("user", 1)] [widePart] = .ok g ∧
        g.edgeTypes = [⟨0, "likes", 0⟩] ∧ g.csrGraphs = [widePart.2.2.2.csr] ∧
          g.nodeTypes = [⟨"user", 1⟩] := ⟨_, rfl, rfl, rfl, rfl⟩
  obtain ⟨g', loaded, same⟩ := load_fileOf (HeteroGraph.tryFromParts_builtFrom built) built
    wide_fileable (show 0 % 8 = 0 from rfl)
  have short : 0 + (fileOf [("user", 1)] [widePart]).length < 2 ^ 64 := by decide +kernel
  have copies := same.csrGraphs
  rw [csrs] at copies
  obtain ⟨csr, rest, arrays, -, same_⟩ := List.forall₂_cons_left_iff.mp copies
  refine ⟨⟨0, _, short⟩, g', ⟨0, "likes", 0⟩, csr, ?_, ?_, ?_, ?_⟩
  · rw [loadHeteroGraphSliced_eq]
    exact loaded
  · rw [same.edgeTypes, entries]
    rfl
  · rw [same_]
    rfl
  · rw [arrays.offsets, HeteroGraph.numNodes, same.nodeTypes, counts]
    decide

end AetherGraph
