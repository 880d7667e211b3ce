import AetherGraph.HeteroGraph
import AetherGraph.ByteReader
import AetherGraph.Foundation.PodArray
import AetherGraph.Foundation.FloatBits

/-! Graphs built from arrays, owned or mapped: the shape checks, the levels of proof, and that a
well formed graph passes them. -/

namespace AetherGraph

open Foundation

section Pods

/-- `u64` offsets. -/
def edgeOffsetPod : Pod Nat where
  size := 8
  enc o := u64Bytes (BitVec.ofNat 64 o)
  dec := ofLe
  size_pos := by decide
  enc_length _ := u64Bytes_length _

/-- `u32` node ids. -/
def nodeIdPod : Pod Nat where
  size := 4
  enc d := u32Bytes (BitVec.ofNat 32 d)
  dec := ofLe
  size_pos := by decide
  enc_length _ := u32Bytes_length _

def weightPod : Pod Float32 where
  size := 4
  enc w := u32Bytes w.toBits.toBitVec
  dec bytes := Float32.ofBits ⟨BitVec.ofNat 32 (ofLe bytes)⟩
  size_pos := by decide
  enc_length _ := u32Bytes_length _

theorem edgeOffsetPod_stores {o : Nat} (h : o < 2 ^ 64) : edgeOffsetPod.Stores o := by
  show ofLe (toLe 8 (BitVec.ofNat 64 o).toNat) = o
  rw [BitVec.toNat_ofNat, Nat.mod_eq_of_lt h, ofLe_toLe_of_lt h]

theorem nodeIdPod_stores {d : Nat} (h : d < 2 ^ 32) : nodeIdPod.Stores d := by
  show ofLe (toLe 4 (BitVec.ofNat 32 d).toNat) = d
  rw [BitVec.toNat_ofNat, Nat.mod_eq_of_lt h, ofLe_toLe_of_lt h]

theorem weightPod_stores (w : Float32) : weightPod.Stores w := by
  show Float32.ofBits ⟨BitVec.ofNat 32 (ofLe (u32Bytes w.toBits.toBitVec))⟩ = w
  rw [ByteReader.u32_ofBytes]
  exact float32_ofBits_toBits w

end Pods

/-- What `check_shape` proves. -/
structure Shape (numNodes numDstNodes : Nat) (offsets : List Nat) (numEdges : Nat)
    (weightsLen : Option Nat) : Prop where
  numNodes_le : numNodes ≤ maxNodes
  numDstNodes_le : numDstNodes ≤ maxNodes
  offsets_length : offsets.length = numNodes + 1
  first_offset : offsets[0]? = some 0
  last_offset : offsets[numNodes]? = some numEdges
  weights_length : ∀ w ∈ weightsLen, w = numEdges

def checkWeights (numEdges : Nat) : Option Nat → Except Failure Unit
  | none => .ok ()
  | some w => ensure (w = numEdges) s!"weights length {w} doesn't match num_edges {numEdges}"

def checkShape (numNodes numDstNodes : Nat) (offsets : List Nat) (numEdges : Nat)
    (weightsLen : Option Nat) : Except Failure Unit := do
  ensure (numNodes ≤ maxNodes)
    s!"num_nodes {numNodes} exceeds the u32 node-id limit {maxNodes}"
  ensure (numDstNodes ≤ maxNodes)
    s!"destination id space {numDstNodes} exceeds the u32 node-id limit {maxNodes}"
  ensure (offsets.length = numNodes + 1)
    s!"offsets length {offsets.length} should be num_nodes + 1 = {numNodes + 1}"
  ensure (offsets[0]? = some 0) s!"first offset should be 0, got {offsets.getD 0 0}"
  ensure (offsets[numNodes]? = some numEdges)
    s!"last offset {offsets.getD numNodes 0} should equal num_edges {numEdges}"
  checkWeights numEdges weightsLen

theorem checkWeights_iff {numEdges : Nat} {weightsLen : Option Nat} :
    checkWeights numEdges weightsLen = .ok () ↔ ∀ w ∈ weightsLen, w = numEdges := by
  cases weightsLen with
  | none => exact ⟨fun _ => nofun, fun _ => rfl⟩
  | some w =>
      constructor
      · intro h w' hw
        obtain rfl := Option.some.inj hw
        exact ByteReader.ensure_holds h
      · exact fun h => ByteReader.ensure_ok (h w rfl) _

theorem checkShape_iff {numNodes numDstNodes : Nat} {offsets : List Nat} {numEdges : Nat}
    {weightsLen : Option Nat} : checkShape numNodes numDstNodes offsets numEdges weightsLen =
      .ok () ↔ Shape numNodes numDstNodes offsets numEdges weightsLen := by
  constructor
  · intro h
    obtain ⟨nodes, h⟩ := ByteReader.ensure_bind_ok h
    obtain ⟨dstNodes, h⟩ := ByteReader.ensure_bind_ok h
    obtain ⟨length, h⟩ := ByteReader.ensure_bind_ok h
    obtain ⟨first, h⟩ := ByteReader.ensure_bind_ok h
    obtain ⟨last, h⟩ := ByteReader.ensure_bind_ok h
    exact ⟨nodes, dstNodes, length, first, last, checkWeights_iff.mp h⟩
  · intro h
    unfold checkShape
    rw [ByteReader.ensure_ok h.numNodes_le, ByteReader.ensure_ok h.numDstNodes_le,
      ByteReader.ensure_ok h.offsets_length, ByteReader.ensure_ok h.first_offset,
      ByteReader.ensure_ok h.last_offset]
    exact checkWeights_iff.mpr h.weights_length

namespace Csr

variable {Time : Type}

/-- Arrays that passed the shape checks. -/
def ofShape {numNodes numDstNodes : Nat} {offsets edges : List Nat}
    {weights : Option (List Float32)}
    (shape : Shape numNodes numDstNodes offsets edges.length (weights.map List.length)) :
    Csr Time where
  numNodes := numNodes
  numDstNodes := numDstNodes
  offsets := offsets
  edges := edges
  weights := weights
  timestamps := none
  numNodes_le := shape.numNodes_le
  numDstNodes_le := shape.numDstNodes_le
  offsets_length := shape.offsets_length
  first_offset := shape.first_offset
  last_offset := shape.last_offset
  weights_length _ hw := shape.weights_length _ (Option.mem_map_of_mem List.length hw)
  timestamps_length := nofun

theorem shape (g : Csr Time) :
    Shape g.numNodes g.numDstNodes g.offsets g.edges.length (g.weights.map List.length) where
  numNodes_le := g.numNodes_le
  numDstNodes_le := g.numDstNodes_le
  offsets_length := g.offsets_length
  first_offset := g.first_offset
  last_offset := g.last_offset
  weights_length w hw := by
    obtain ⟨weights, mem, rfl⟩ := Option.mem_map.mp hw
    exact g.weights_length weights mem

/-- A graph file stores no timestamps. -/
def stored (g : Csr Time) : Csr Time where
  numNodes := g.numNodes
  numDstNodes := g.numDstNodes
  offsets := g.offsets
  edges := g.edges
  weights := g.weights
  timestamps := none
  numNodes_le := g.numNodes_le
  numDstNodes_le := g.numDstNodes_le
  offsets_length := g.offsets_length
  first_offset := g.first_offset
  last_offset := g.last_offset
  weights_length := g.weights_length
  timestamps_length := nofun

/-- The same rows over another destination space. -/
def bipartite (g : Csr Time) (numDst : Nat) (small : numDst ≤ maxNodes) : Csr Time :=
  { g.stored with
    numDstNodes := numDst
    numDstNodes_le := small }

variable (g : Csr Time)

/-- The first edge past the destination space, with its place. -/
def stray : Option (Nat × Nat) := g.edges.zipIdx.find? fun edge => decide (g.numDstNodes ≤ edge.1)

variable {g}

theorem destinationsInRange_of_stray (h : g.stray = none) : g.DestinationsInRange := by
  intro d hd
  obtain ⟨i, hi⟩ := List.mem_iff_getElem?.mp hd
  have here := List.find?_eq_none.mp h (d, i) (List.mk_mem_zipIdx_iff_getElem?.mpr hi)
  rw [decide_eq_true_eq] at here
  exact Nat.lt_of_not_le here

theorem DestinationsInRange.stray (h : g.DestinationsInRange) : g.stray = none :=
  List.find?_eq_none.mpr fun edge mem => by
    obtain ⟨d, i⟩ := edge
    have inside := h d (List.mem_of_getElem? (List.mk_mem_zipIdx_iff_getElem?.mp mem))
    rw [decide_eq_true_eq]
    exact Nat.not_le_of_lt inside

theorem Monotone.descent (h : g.Monotone) : g.descent = none :=
  List.find?_eq_none.mpr fun i mem => by
    rw [decide_eq_true_eq]
    exact Nat.not_lt_of_le (h i (List.mem_range.mp mem))

variable (g)

def checkMonotone : Except Failure (PLift g.Monotone) :=
  match h : g.descent with
  | none => .ok ⟨monotone_of_descent h⟩
  | some i => .error (.error [s!"offsets not monotonic at index {i + 1}: " ++
      s!"{g.offsets.getD (i + 1) 0} < {g.offsets.getD i 0}"])

def checkDestinations : Except Failure (PLift g.DestinationsInRange) :=
  match h : g.stray with
  | none => .ok ⟨destinationsInRange_of_stray h⟩
  | some edge => .error (.error [s!"edge destination {edge.1} at edge {edge.2} out of range " ++
      s!"[0, {g.numDstNodes})"])

variable {g}

theorem Monotone.offset_lt (h : g.Monotone) (limit : g.edges.length < 2 ^ 64) :
    ∀ o ∈ g.offsets, o < 2 ^ 64 := by
  intro o ho
  obtain ⟨i, hi⟩ := List.mem_iff_getElem?.mp ho
  obtain ⟨inside, -⟩ := List.getElem?_eq_some_iff.mp hi
  rw [g.offsets_length] at inside
  have le := h.offsets_le (Nat.le_of_lt_succ inside) (Nat.le_refl _)
  rw [List.getD_eq_getElem?_getD, List.getD_eq_getElem?_getD, hi, g.last_offset] at le
  exact Nat.lt_of_le_of_lt le limit

theorem DestinationsInRange.edge_lt (h : g.DestinationsInRange) : ∀ d ∈ g.edges, d < 2 ^ 32 := by
  intro d hd
  have below := Nat.lt_of_lt_of_le (h d hd) g.numDstNodes_le
  exact Nat.lt_of_lt_of_le below (by unfold maxNodes; omega)

theorem Monotone.check (h : g.Monotone) : g.checkMonotone = .ok ⟨h⟩ := by
  unfold checkMonotone
  split
  · rfl
  · rename_i i found
    rw [h.descent] at found
    cases found

theorem DestinationsInRange.check (h : g.DestinationsInRange) :
    g.checkDestinations = .ok ⟨h⟩ := by
  unfold checkDestinations
  split
  · rfl
  · rename_i i found
    rw [h.stray] at found
    cases found

end Csr

namespace GraphValidationMode

/-- Each level implies the levels below it. -/
def level : GraphValidationMode → Nat
  | .headerOnly => 0
  | .offsetsOnly => 1
  | .full => 2

end GraphValidationMode

namespace ProvenGraph

variable {Time : Type}

/-- Nothing proven beyond the shape. -/
def unproven (csr : Csr Time) : ProvenGraph Time := ⟨csr, .headerOnly, nofun, nofun⟩

def proveMonotone (g : ProvenGraph Time) : Except Failure (PLift g.csr.Monotone) :=
  if h : g.validated = .headerOnly then g.csr.checkMonotone else .ok ⟨g.monotone h⟩

/-- The level of proof is an atomic of the graph, so the raised graph is the graph itself. -/
def validateWithMode (g : ProvenGraph Time) (mode : GraphValidationMode) :
    Except Failure (ProvenGraph Time) :=
  if mode.level ≤ g.validated.level then .ok g
  else do
    let monotone ← g.proveMonotone
    match mode with
    | .full =>
        let destinations ← g.csr.checkDestinations
        pure ⟨g.csr, .full, fun _ => monotone.down, fun _ => destinations.down⟩
    | _ => pure ⟨g.csr, .offsetsOnly, fun _ => monotone.down, nofun⟩

def proveTo (csr : Csr Time) : GraphValidationMode → Except Failure (ProvenGraph Time)
  | .headerOnly => pure (unproven csr)
  | .offsetsOnly => do
      let monotone ← csr.checkMonotone
      pure ⟨csr, .offsetsOnly, fun _ => monotone.down, nofun⟩
  | .full => do
      let monotone ← csr.checkMonotone
      let destinations ← csr.checkDestinations
      pure ⟨csr, .full, fun _ => monotone.down, fun _ => destinations.down⟩

/-- The shape checks, then the graph over the arrays. -/
def shaped (numNodes numDstNodes : Nat) (offsets edges : List Nat)
    (weights : Option (List Float32)) : Except Failure (Csr Time) :=
  match h : checkShape numNodes numDstNodes offsets edges.length (weights.map List.length) with
  | .error e => .error e
  | .ok () => .ok (Csr.ofShape (checkShape_iff.mp h))

def fromCsrVecs (numNodes numDstNodes : Nat) (offsets edges : List Nat)
    (weights : Option (List Float32)) (mode : GraphValidationMode) :
    Except Failure (ProvenGraph Time) := do
  ensure (offsets ≠ []) "offsets array is empty; it needs num_nodes + 1 entries"
  let csr ← shaped numNodes numDstNodes offsets edges weights
  proveTo csr mode

section Mapped

/-- A byte range of a mapping that holds whole aligned values. -/
def checkRange {α : Type} (pod : Pod α) (typeName : String) (base mapLen : Nat) (range : Nat × Nat)
    (what : String) : Except Failure Unit := do
  ensure (range.1 ≤ range.2 ∧ range.2 ≤ mapLen)
    s!"mmap {what} range {range.1}..{range.2} lies outside the {mapLen}-byte mapping"
  ensure ((base + range.1) % pod.size = 0 ∧ (range.2 - range.1) % pod.size = 0)
    s!"mmap {what} range misaligned for {typeName}"

def checkWeightsRange (base mapLen : Nat) (edgesRange : Nat × Nat) :
    Option (Nat × Nat) → Except Failure Unit
  | none => .ok ()
  | some w => do
      checkRange weightPod "f32" base mapLen w "weights"
      ensure (w.2 - w.1 = edgesRange.2 - edgesRange.1)
        (s!"weights section length {w.2 - w.1} doesn't match edges section " ++
          s!"{edgesRange.2 - edgesRange.1}")

/-- A graph over the bytes of a mapping at address `base`. -/
def fromMappedParts (numNodes numDstNodes numEdges : Nat) (base : Nat) (mmap : List U8)
    (offsetsRange edgesRange : Nat × Nat) (weightsRange : Option (Nat × Nat))
    (mode : GraphValidationMode) : Except Failure (ProvenGraph Time) := do
  checkRange edgeOffsetPod "u64" base mmap.length offsetsRange "offsets"
  checkRange nodeIdPod "u32" base mmap.length edgesRange "edges"
  checkWeightsRange base mmap.length edgesRange weightsRange
  ensure (edgesRange.2 - edgesRange.1 = numEdges * nodeIdPod.size)
    s!"edges section holds {edgesRange.2 - edgesRange.1} bytes for {numEdges} edges"
  ensure (offsetsRange.1 < offsetsRange.2)
    "offsets section is empty; it needs num_nodes + 1 entries"
  -- the edges section holds `numEdges` edges here, so the shape checks see that count
  let csr ← shaped numNodes numDstNodes (edgeOffsetPod.typedSlice (byteRange mmap offsetsRange))
    (nodeIdPod.typedSlice (byteRange mmap edgesRange))
    (weightsRange.map fun range => weightPod.typedSlice (byteRange mmap range))
  (unproven csr).validateWithMode mode

end Mapped

variable {csr : Csr Time}

theorem shaped_of_arrays (csr : Csr Time) :
    shaped csr.numNodes csr.numDstNodes csr.offsets csr.edges csr.weights = .ok csr.stored := by
  unfold shaped
  split
  · rename_i e failed
    rw [checkShape_iff.mpr csr.shape] at failed
    cases failed
  · rfl

theorem proveTo_of_full (mono : csr.Monotone) (dests : csr.DestinationsInRange)
    (mode : GraphValidationMode) :
    ∃ g : ProvenGraph Time, proveTo csr mode = .ok g ∧ g.csr = csr ∧ g.validated = mode := by
  cases mode with
  | headerOnly => exact ⟨_, rfl, rfl, rfl⟩
  | offsetsOnly =>
      rw [proveTo, mono.check]
      exact ⟨_, rfl, rfl, rfl⟩
  | full =>
      rw [proveTo, mono.check, dests.check]
      exact ⟨_, rfl, rfl, rfl⟩

theorem validate_of_full {g : ProvenGraph Time} (mono : g.csr.Monotone)
    (dests : g.csr.DestinationsInRange) (mode : GraphValidationMode) :
    ∃ g' : ProvenGraph Time, g.validateWithMode mode = .ok g' ∧ g'.csr = g.csr := by
  have proven : g.proveMonotone = .ok ⟨mono⟩ := by
    unfold proveMonotone
    split
    · exact mono.check
    · rfl
  unfold validateWithMode
  rw [proven]
  split
  · exact ⟨g, rfl, rfl⟩
  · cases mode with
    | headerOnly => exact ⟨_, rfl, rfl⟩
    | offsetsOnly => exact ⟨_, rfl, rfl⟩
    | full =>
        rw [dests.check]
        exact ⟨_, rfl, rfl⟩

/-- What a graph that passed `mode` satisfies. -/
theorem validate_full {g g' : ProvenGraph Time} (h : g.validateWithMode .full = .ok g') :
    g.csr.Monotone ∧ g.csr.DestinationsInRange := by
  unfold validateWithMode at h
  split at h
  · rename_i already
    have full : g.validated = .full := by
      cases level : g.validated with
      | headerOnly => rw [level] at already; exact absurd already (by decide)
      | offsetsOnly => rw [level] at already; exact absurd already (by decide)
      | full => rfl
    exact ⟨g.monotone (by rw [full]; nofun), g.destinations full⟩
  · cases mono : g.proveMonotone with
    | error e =>
        rw [mono] at h
        cases h
    | ok m =>
        cases dests : g.csr.checkDestinations with
        | error e =>
            rw [mono, dests] at h
            cases h
        | ok d => exact ⟨m.down, d.down⟩

section Arrays

variable {csr : Csr Time} {base : Nat} {mmap : List U8}

theorem checkRange_ok {α : Type} {pod : Pod α} {range : Nat × Nat} {xs : List α}
    (h : pod.At mmap range xs) (aligned : (base + range.1) % pod.size = 0)
    (typeName what : String) : checkRange pod typeName base mmap.length range what = .ok () := by
  have stop := h.stop
  have width : (range.2 - range.1) % pod.size = 0 := by rw [h.width, Nat.mul_mod_left]
  unfold checkRange
  rw [ByteReader.ensure_ok (show range.1 ≤ range.2 ∧ range.2 ≤ mmap.length from
    ⟨by omega, h.inside⟩)]
  exact ByteReader.ensure_ok ⟨aligned, width⟩ _

/-- The weights stand at their range, where the graph has weights. -/
def WeightsAt (base : Nat) (mmap : List U8) (range : Option (Nat × Nat))
    (weights : Option (List Float32)) : Prop :=
  Option.Rel (fun r ws => weightPod.At mmap r ws ∧ (base + r.1) % 4 = 0) range weights

theorem checkWeightsRange_ok {edgesRange : Nat × Nat} {range : Option (Nat × Nat)}
    {edges : List Nat} {weights : Option (List Float32)} (h : WeightsAt base mmap range weights)
    (at_ : nodeIdPod.At mmap edgesRange edges) (length : ∀ w ∈ weights, w.length = edges.length) :
    checkWeightsRange base mmap.length edgesRange range = .ok () := by
  cases h with
  | none => rfl
  | @some r ws here =>
      show (checkRange weightPod "f32" base mmap.length r "weights" >>= _) = _
      rw [checkRange_ok here.1 here.2]
      refine ByteReader.ensure_ok ?_ _
      rw [here.1.width, at_.width, length ws rfl]
      rfl

theorem weightsAt_typed {range : Option (Nat × Nat)} {weights : Option (List Float32)}
    (h : WeightsAt base mmap range weights) :
    (range.map fun r => weightPod.typedSlice (byteRange mmap r)) = weights := by
  cases h with
  | none => rfl
  | some here => exact congrArg some (here.1.typed fun w _ => weightPod_stores w)

/-- A mapping that holds a graph's arrays loads to the graph. -/
theorem fromMappedParts_ok {offsetsRange edgesRange : Nat × Nat}
    {weightsRange : Option (Nat × Nat)} (mono : csr.Monotone) (dests : csr.DestinationsInRange)
    (limit : csr.edges.length < 2 ^ 64) (offsets : edgeOffsetPod.At mmap offsetsRange csr.offsets)
    (edges : nodeIdPod.At mmap edgesRange csr.edges)
    (weights : WeightsAt base mmap weightsRange csr.weights)
    (aligned : (base + offsetsRange.1) % 8 = 0 ∧ (base + edgesRange.1) % 4 = 0)
    (mode : GraphValidationMode) :
    ∃ g : ProvenGraph Time, fromMappedParts csr.numNodes csr.numDstNodes csr.edges.length base mmap
      offsetsRange edgesRange weightsRange mode = .ok g ∧ g.csr = csr.stored := by
  have stop := offsets.stop
  have nonempty : offsetsRange.1 < offsetsRange.2 := by
    rw [stop, csr.offsets_length]
    show _ < _ + _ * 8
    omega
  obtain ⟨g, validated, same⟩ := validate_of_full (g := unproven csr.stored) mono dests mode
  refine ⟨g, ?_, same⟩
  unfold fromMappedParts
  rw [checkRange_ok offsets aligned.1, checkRange_ok edges aligned.2,
    checkWeightsRange_ok weights edges csr.weights_length, ByteReader.ensure_ok edges.width,
    ByteReader.ensure_ok nonempty,
    offsets.typed fun o ho => edgeOffsetPod_stores (mono.offset_lt limit o ho),
    edges.typed fun d hd => nodeIdPod_stores (dests.edge_lt d hd), weightsAt_typed weights,
    shaped_of_arrays]
  exact validated

theorem fromCsrVecs_ok (mono : csr.Monotone) (dests : csr.DestinationsInRange)
    (mode : GraphValidationMode) :
    ∃ g : ProvenGraph Time, fromCsrVecs csr.numNodes csr.numDstNodes csr.offsets csr.edges
      csr.weights mode = .ok g ∧ g.csr = csr.stored := by
  have nonempty : csr.offsets ≠ [] := by
    intro empty
    have length := csr.offsets_length
    rw [empty] at length
    cases length
  obtain ⟨g, proven, same, -⟩ :=
    proveTo_of_full (show csr.stored.Monotone from mono) dests mode
  refine ⟨g, ?_, same⟩
  unfold fromCsrVecs
  rw [ByteReader.ensure_ok nonempty, shaped_of_arrays]
  exact proven

end Arrays

end ProvenGraph

end AetherGraph
