import AetherGraph.GatherFaithful

/-! The compressed cold tier: blocks of rows packed against a trained dictionary, built from a
payload in memory or streamed from a feature file, and one block's way back. -/

namespace AetherGraph

open Foundation

/-- The compressor behind the tier.  A call that fails is `none`. -/
structure Zstd where
  fromContinuous : List U8 → List Nat → Nat → Option (List U8)
  compress : List U8 → Int → Option (List U8)
  compressor : Int → List U8 → Option (List U8 → Option (List U8))
  decompress : List U8 → Nat → Option (List U8)
  decompressor : List U8 → Option (List U8 → Nat → Option (List U8))

/-- Decompression with the same dictionary gives back what was compressed. -/
structure Zstd.Inverts (z : Zstd) : Prop where
  plain : ∀ raw level packed, z.compress raw level = some packed →
    z.decompress packed raw.length = some raw
  prepared : ∀ dictionary, dictionary ≠ [] → (z.decompressor dictionary).isSome
  bound : ∀ level dictionary encode decode raw packed,
    z.compressor level dictionary = some encode → z.decompressor dictionary = some decode →
    encode raw = some packed → decode packed raw.length = some raw

def rowsPerBlock : Nat := 512

/-- The blocks a number of rows takes. -/
def numBlocks (numRows : Nat) : Nat := (numRows + (rowsPerBlock - 1)) / rowsPerBlock

def maxSampleBytes : Nat := 64 <<< 20

def maxSamples : Nat := 1024

def recentBlocks : Nat := 8

/-- The tier as built.  An empty dictionary is none at all. -/
structure ColdTier where
  rowBytes : Nat
  numRows : Nat
  dictionary : List U8
  blocks : List (List U8)
  deriving DecidableEq, Repr

namespace ColdTier

section Build

variable (z : Zstd)

/-- The heads of the sampled blocks one after another, and the length of each. -/
def sampleBlocks (readBlock : Nat → Except Failure (List U8)) (numBlocks rowBytes : Nat) :
    Except Failure (List U8 × List Nat) :=
  let samples := min numBlocks maxSamples
  let perSample := max (maxSampleBytes / samples / rowBytes) 1 * rowBytes
  (List.range samples).foldlM (fun (data, sizes) i => do
    let buf ← readBlock (i * numBlocks / samples)
    let take := min buf.length perSample
    pure (data ++ buf.take take, sizes ++ [take])) ([], [])

/-- Few blocks, or a training that fails, leave the tier without a dictionary. -/
def trainDictionary (readBlock : Nat → Except Failure (List U8))
    (numBlocks rowBytes totalBytes : Nat) : Except Failure (List U8) :=
  if 8 ≤ numBlocks then do
    let (data, sizes) ← sampleBlocks readBlock numBlocks rowBytes
    let maxDict := max (4 * 1024) (min (totalBytes / 100) (112 * 1024))
    pure ((z.fromContinuous data sizes maxDict).getD [])
  else pure []

/-- One encoder for the whole tier. -/
def encoder (level : Int) (dictionary : List U8) :
    Except Failure (List U8 → Except Failure (List U8)) :=
  if dictionary = [] then
    pure fun buf => okOr "zstd compress" (z.compress buf level)
  else do
    let encode ← okOr "zstd compressor" (z.compressor level dictionary)
    pure fun buf => okOr "zstd compress (dict)" (encode buf)

def buildFromBlocks (numRows rowBytes : Nat) (level : Int)
    (readBlock : Nat → Except Failure (List U8)) : Except Failure ColdTier := do
  let _ ← okOr "block size overflows usize" (checkedMul rowsPerBlock rowBytes)
  let totalBytes ← okOr "tier size overflows usize" (checkedMul numRows rowBytes)
  let dictionary ← trainDictionary z readBlock (numBlocks numRows) rowBytes totalBytes
  let encode ← encoder z level dictionary
  let blocks ← (List.range (numBlocks numRows)).mapM fun b => readBlock b >>= encode
  pure ⟨rowBytes, numRows, dictionary, blocks⟩

/-- Block `b` of a payload; a range that ends before it starts is a panic. -/
def readPayload (data : List U8) (blockSize b : Nat) : Except Failure (List U8) :=
  let start := b * blockSize
  (sliceExact data start (min (start + blockSize) data.length - start)).elim (.error .panic) .ok

/-- The block size is computed before anything checks that it fits a word. -/
def build (data : List U8) (rowBytes : Nat) (level : Int) : Except Failure ColdTier := do
  ensure (rowBytes ≠ 0) "row_bytes must be > 0"
  ensure (data.length % rowBytes = 0)
    s!"data length {data.length} is not a multiple of row_bytes {rowBytes}"
  let blockSize := rowsPerBlock * rowBytes % 2 ^ 64
  buildFromBlocks z (data.length / rowBytes) rowBytes level (readPayload data blockSize)

end Build

/-- By the bound decoder where the tier has a dictionary. -/
def unpack (z : Zstd) (decoder : Option (List U8 → Nat → Option (List U8)))
    (compressed : List U8) (capacity : Nat) : Except Failure (List U8) :=
  match decoder with
  | some decode => okOr "zstd decompress (dict)" (decode compressed capacity)
  | none => okOr "zstd decompress" (z.decompress compressed capacity)

/-- One block back to its raw rows.  Only the last block may be short. -/
def decompressBlock (tier : ColdTier) (z : Zstd)
    (decoder : Option (List U8 → Nat → Option (List U8))) (block : Nat) :
    Except Failure (List U8) :=
  match tier.blocks[block]? with
  | none => .error .panic
  | some compressed => do
      let rowsHere :=
        if block = tier.blocks.length - 1 then tier.numRows - block * rowsPerBlock
        else rowsPerBlock
      let capacity := rowsHere * tier.rowBytes
      let raw ← unpack z decoder compressed capacity
      ensure (raw.length = capacity)
        s!"block {block} decompressed to {raw.length} bytes, expected {capacity}"
      pure raw

/-- The decoder of a gather, bound to the dictionary at its first miss. -/
def bindDecoder (tier : ColdTier) (z : Zstd)
    (decoder : Option (List U8 → Nat → Option (List U8))) :
    Except Failure (Option (List U8 → Nat → Option (List U8))) :=
  if decoder.isNone ∧ tier.dictionary ≠ [] then
    (okOr "zstd decompressor" (z.decompressor tier.dictionary)).map some
  else .ok decoder

end ColdTier

structure ColdStore where
  tier : ColdTier
  dtype : FeatureDtype
  featureDim : Nat
  deriving DecidableEq, Repr

namespace ColdStore

/-- Block `b` of the payload behind a header, read from the file. -/
def readStore {file : List U8} (device : Device file) (h : FeatureHeader) (blockSize b : Nat) :
    Except Failure (List U8) :=
  let start := b * blockSize
  let len := min blockSize (h.payloadBytes - start)
  match RowLayout.readExactAt device len (h.featuresStartOffset + start) with
  | .ok buf => .ok buf
  | .error .panic => .error .panic
  | .error (.failed _ text) => .error (.error ["failed to read feature payload", text])

/-- `h` is what parsing made of the file's header. -/
def buildFromStore (z : Zstd) {file : List U8} (device : Device file) (path : String)
    (h : FeatureHeader) (level : Int) : Except Failure ColdStore := do
  ensure (h.featureSize ≠ 0) s!"feature store {path} has zero-width rows"
  let blockSize := rowsPerBlock * h.featureSize % 2 ^ 64
  let tier ← ColdTier.buildFromBlocks z h.numNodes h.featureSize level
    (readStore device h blockSize)
  pure ⟨tier, h.dtype, h.featureDim⟩

end ColdStore

/-! ### What a build packs -/

/-- The raw rows of block `b`, fewer in the last one. -/
def blockOf (payload : List U8) (rowBytes b : Nat) : List U8 :=
  (payload.drop (b * (rowsPerBlock * rowBytes))).take (rowsPerBlock * rowBytes)

/-- A block begins before the last row's end. -/
theorem block_starts {numRows b : Nat} (inside : b < numBlocks numRows) :
    b * rowsPerBlock < numRows := by
  unfold numBlocks rowsPerBlock at *
  omega

/-- The rows of a block, as the decoder counts them. -/
theorem rowsHere_eq {numRows b : Nat} (inside : b < numBlocks numRows) :
    (if b = numBlocks numRows - 1 then numRows - b * rowsPerBlock else rowsPerBlock) =
      min rowsPerBlock (numRows - b * rowsPerBlock) := by
  unfold numBlocks rowsPerBlock at *
  split_ifs with last <;> omega

theorem blockOf_length {payload : List U8} {numRows rowBytes b : Nat}
    (whole : payload.length = numRows * rowBytes) :
    (blockOf payload rowBytes b).length =
      min rowsPerBlock (numRows - b * rowsPerBlock) * rowBytes := by
  rw [blockOf, List.length_take, List.length_drop, whole, ← Nat.mul_assoc, ← Nat.sub_mul,
    Nat.mul_min_mul_right]

/-- A row's place in its block is its place in the payload. -/
theorem row_of_block (payload : List U8) (rowBytes row : Nat) :
    ((blockOf payload rowBytes (row / rowsPerBlock)).drop
        (row % rowsPerBlock * rowBytes)).take rowBytes =
      (payload.drop (row * rowBytes)).take rowBytes := by
  have within : row % rowsPerBlock + 1 ≤ rowsPerBlock := Nat.mod_lt _ (by decide)
  have fits : row % rowsPerBlock * rowBytes + rowBytes ≤ rowsPerBlock * rowBytes := by
    rw [← Nat.succ_mul]
    exact Nat.mul_le_mul_right _ within
  have place : row / rowsPerBlock * (rowsPerBlock * rowBytes) + row % rowsPerBlock * rowBytes =
      row * rowBytes := by
    rw [← Nat.mul_assoc, ← Nat.add_mul, Nat.mul_comm (row / rowsPerBlock), Nat.div_add_mod]
  rw [blockOf, List.drop_take, List.drop_drop, place, List.take_take, Nat.min_eq_left (by omega)]

/-- Every block of the payload under its own number, packed with the tier's dictionary. -/
structure Packs (z : Zstd) (tier : ColdTier) (payload : List U8) : Prop where
  whole : payload.length = tier.numRows * tier.rowBytes
  count : tier.blocks.length = numBlocks tier.numRows
  packed : ∃ level encode, ColdTier.encoder z level tier.dictionary = .ok encode ∧
    ∀ b compressed, tier.blocks[b]? = some compressed →
      encode (blockOf payload tier.rowBytes b) = .ok compressed

theorem bind_ok {α β : Type} {x : Except Failure α} {f : α → Except Failure β} {b : β}
    (h : (x >>= f) = .ok b) : ∃ a, x = .ok a ∧ f a = .ok b := by
  cases x with
  | error e => cases h
  | ok a => exact ⟨a, rfl, h⟩

theorem okOr_ok {α : Type} {text : String} {x : Option α} {a : α} (h : okOr text x = .ok a) :
    x = some a := by
  cases x with
  | none => cases h
  | some b => exact congrArg some (Except.ok.inj h)

section Build

variable {z : Zstd} {numRows rowBytes : Nat} {level : Int}
variable {readBlock readBlock' : Nat → Except Failure (List U8)} {tier : ColdTier}

theorem buildFromBlocks_ok
    (built : ColdTier.buildFromBlocks z numRows rowBytes level readBlock = .ok tier) :
    rowsPerBlock * rowBytes < 2 ^ 64 ∧ tier.rowBytes = rowBytes ∧ tier.numRows = numRows ∧
      ∃ encode, ColdTier.encoder z level tier.dictionary = .ok encode ∧
        (List.range (numBlocks numRows)).mapM (fun b => readBlock b >>= encode) =
          .ok tier.blocks := by
  obtain ⟨size, sized, built⟩ := okOr_bind_ok built
  obtain ⟨total, -, built⟩ := okOr_bind_ok built
  obtain ⟨dictionary, -, built⟩ := bind_ok built
  obtain ⟨encode, bound, built⟩ := bind_ok built
  obtain ⟨blocks, ran, built⟩ := bind_ok built
  obtain rfl := Except.ok.inj built
  refine ⟨?_, rfl, rfl, encode, bound, ran⟩
  unfold checkedMul at sized
  split_ifs at sized with fits
  exact fits

theorem packs_of_reads {payload : List U8} (whole : payload.length = numRows * rowBytes)
    (reads : ∀ b < numBlocks numRows, readBlock b = .ok (blockOf payload rowBytes b))
    (built : ColdTier.buildFromBlocks z numRows rowBytes level readBlock = .ok tier) :
    Packs z tier payload := by
  obtain ⟨-, rfl, rfl, encode, bound, ran⟩ := buildFromBlocks_ok built
  have each := mapM_each ran
  have length := each.length_eq
  rw [List.length_range] at length
  refine ⟨whole, length.symm, level, encode, bound, fun b compressed at_ => ?_⟩
  obtain ⟨inside, value⟩ := List.getElem?_eq_some_iff.mp at_
  have here := List.forall₂_iff_get.mp each |>.2 b (by rw [List.length_range]; omega) inside
  simp only [List.get_eq_getElem, List.getElem_range] at here
  rw [reads b (by omega), value] at here
  exact here

/-- Only the blocks' own bytes matter. -/
theorem buildFromBlocks_congr (same : ∀ b < numBlocks numRows, readBlock b = readBlock' b) :
    ColdTier.buildFromBlocks z numRows rowBytes level readBlock =
      ColdTier.buildFromBlocks z numRows rowBytes level readBlock' := by
  have sampled : ColdTier.sampleBlocks readBlock (numBlocks numRows) rowBytes =
      ColdTier.sampleBlocks readBlock' (numBlocks numRows) rowBytes := by
    refine foldlM_congr_mem (fun _ i mem => ?_) _
    have below : i < min (numBlocks numRows) maxSamples := List.mem_range.mp mem
    have inside : i * numBlocks numRows / min (numBlocks numRows) maxSamples <
        numBlocks numRows :=
      Nat.div_lt_of_lt_mul (Nat.mul_lt_mul_of_pos_right below (by omega))
    dsimp only
    rw [same _ inside]
  have trained : ∀ totalBytes,
      ColdTier.trainDictionary z readBlock (numBlocks numRows) rowBytes totalBytes =
        ColdTier.trainDictionary z readBlock' (numBlocks numRows) rowBytes totalBytes := by
    intro totalBytes
    rw [ColdTier.trainDictionary, sampled]
    rfl
  have packed : ∀ encode : List U8 → Except Failure (List U8),
      (List.range (numBlocks numRows)).mapM (fun b => readBlock b >>= encode) =
        (List.range (numBlocks numRows)).mapM (fun b => readBlock' b >>= encode) :=
    fun encode => mapM_congr_mem fun b mem => by rw [same b (List.mem_range.mp mem)]
  simp only [ColdTier.buildFromBlocks, trained, packed]

/-- A tier was built from blocks that were all read. -/
theorem reads_of_built
    (built : ColdTier.buildFromBlocks z numRows rowBytes level readBlock = .ok tier) {b : Nat}
    (inside : b < numBlocks numRows) : ∃ buf, readBlock b = .ok buf := by
  obtain ⟨-, -, -, encode, -, ran⟩ := buildFromBlocks_ok built
  have each := mapM_each ran
  have length := each.length_eq
  rw [List.length_range] at length
  have here := List.forall₂_iff_get.mp each |>.2 b (by rwa [List.length_range]) (by omega)
  rw [List.get_eq_getElem, List.getElem_range] at here
  obtain ⟨buf, read, -⟩ := bind_ok here
  exact ⟨buf, read⟩

end Build

section Decode

variable {z : Zstd} {tier : ColdTier} {payload : List U8}
variable {decoder : Option (List U8 → Nat → Option (List U8))}

/-- The decoder that a gather of the tier binds. -/
def Bound (z : Zstd) (tier : ColdTier) (decoder : Option (List U8 → Nat → Option (List U8))) :
    Prop :=
  decoder = if tier.dictionary = [] then none else z.decompressor tier.dictionary

theorem bindDecoder_ok (inverts : z.Inverts) (before : decoder = none ∨ Bound z tier decoder) :
    ∃ bound, tier.bindDecoder z decoder = .ok bound ∧ Bound z tier bound := by
  unfold ColdTier.bindDecoder
  by_cases plain : tier.dictionary = []
  · refine ⟨decoder, if_neg fun h => h.2 plain, ?_⟩
    rcases before with rfl | bound
    · exact (if_pos plain).symm
    · exact bound
  · obtain ⟨decode, prepared⟩ := Option.isSome_iff_exists.mp (inverts.prepared _ plain)
    have whole : Bound z tier (some decode) := by rw [Bound, if_neg plain, prepared]
    rcases before with rfl | bound
    · refine ⟨some decode, ?_, whole⟩
      rw [if_pos ⟨rfl, plain⟩, prepared]
      rfl
    · obtain rfl : decoder = some decode := bound.trans whole.symm
      exact ⟨some decode, if_neg fun h => (by cases h.1), whole⟩

theorem unpack_ok (inverts : z.Inverts) (bound : Bound z tier decoder) {level : Int}
    {encode : List U8 → Except Failure (List U8)}
    (encoder : ColdTier.encoder z level tier.dictionary = .ok encode) {raw compressed : List U8}
    (packed : encode raw = .ok compressed) :
    ColdTier.unpack z decoder compressed raw.length = .ok raw := by
  unfold ColdTier.encoder at encoder
  split_ifs at encoder with plain
  · obtain rfl : decoder = none := by rw [bound, if_pos plain]
    obtain rfl := Except.ok.inj encoder
    unfold ColdTier.unpack
    dsimp only
    rw [inverts.plain _ level _ (okOr_ok packed)]
    rfl
  · obtain ⟨pack, loaded, encoder⟩ := okOr_bind_ok encoder
    obtain rfl := Except.ok.inj encoder
    obtain ⟨decode, prepared⟩ := Option.isSome_iff_exists.mp (inverts.prepared _ plain)
    obtain rfl : decoder = some decode := by rw [bound, if_neg plain, prepared]
    unfold ColdTier.unpack
    dsimp only
    rw [inverts.bound level _ pack decode _ _ loaded prepared (okOr_ok packed)]
    rfl

/-- Every block comes back as its own raw rows. -/
theorem Packs.decompressBlock (packs : Packs z tier payload) (inverts : z.Inverts)
    (bound : Bound z tier decoder) {block : Nat} (inside : block < numBlocks tier.numRows) :
    tier.decompressBlock z decoder block = .ok (blockOf payload tier.rowBytes block) := by
  have at_ := List.getElem?_eq_getElem (packs.count ▸ inside : block < tier.blocks.length)
  obtain ⟨level, encode, encoder, packed⟩ := packs.packed
  have length := blockOf_length (b := block) packs.whole
  rw [← rowsHere_eq inside, ← packs.count] at length
  unfold ColdTier.decompressBlock
  rw [at_]
  dsimp only
  rw [← length, unpack_ok inverts bound encoder (packed block _ at_)]
  show (ensure _ _ >>= fun _ => pure _) = _
  rw [ensure, if_pos rfl]
  rfl

end Decode

section Payload

variable {payload : List U8} {numRows rowBytes : Nat}

theorem readPayload_eq (whole : payload.length = numRows * rowBytes)
    (small : rowsPerBlock * rowBytes < 2 ^ 64) {b : Nat} (inside : b < numBlocks numRows) :
    ColdTier.readPayload payload (rowsPerBlock * rowBytes % 2 ^ 64) b =
      .ok (blockOf payload rowBytes b) := by
  have starts : b * (rowsPerBlock * rowBytes) ≤ payload.length := by
    rw [whole, ← Nat.mul_assoc]
    exact Nat.mul_le_mul_right _ (Nat.le_of_lt (block_starts inside))
  rw [Nat.mod_eq_of_lt small]
  unfold ColdTier.readPayload blockOf
  dsimp only
  rw [sliceExact_ok (by omega)]
  refine congrArg Except.ok (List.take_eq_take_iff.mpr ?_)
  rw [List.length_drop]
  omega

theorem build_packs {z : Zstd} {level : Int} {tier : ColdTier}
    (built : ColdTier.build z payload rowBytes level = .ok tier) :
    Packs z tier payload ∧ 0 < rowBytes ∧ tier.rowBytes = rowBytes := by
  obtain ⟨positive, built⟩ := ByteReader.ensure_bind_ok built
  obtain ⟨multiple, built⟩ := ByteReader.ensure_bind_ok built
  have whole : payload.length = payload.length / rowBytes * rowBytes :=
    (Nat.div_mul_cancel (Nat.dvd_of_mod_eq_zero multiple)).symm
  obtain ⟨small, width, -⟩ := buildFromBlocks_ok built
  exact ⟨packs_of_reads whole (fun b inside => readPayload_eq whole small inside) built,
    Nat.pos_of_ne_zero positive, width⟩

end Payload

section Store

variable {file : List U8} {h : FeatureHeader}

/-- The rows of a feature file. -/
def payloadOf (h : FeatureHeader) (file : List U8) : List U8 :=
  (file.drop h.featuresStartOffset).take h.payloadBytes

theorem readExactAt_ok {device : Device file} {len offset : Nat} {buf : List U8}
    (read : RowLayout.readExactAt device len offset = .ok buf) :
    buf = (file.drop offset).take len := by
  unfold RowLayout.readExactAt at read
  split_ifs at read with empty
  · rw [empty, List.take_zero]
    exact (Except.ok.inj read).symm
  · cases failed : device.pread offset len with
    | some e =>
        rw [failed] at read
        cases read
    | none =>
        rw [failed] at read
        unfold sliceExact at read
        dsimp only at read
        split_ifs at read
        · exact (Except.ok.inj read).symm
        · cases read

theorem readStore_ok {device : Device file} {b : Nat}
    {buf : List U8}
    (read : ColdStore.readStore device h (rowsPerBlock * h.featureSize) b = .ok buf) :
    buf = blockOf (payloadOf h file) h.featureSize b := by
  unfold ColdStore.readStore at read
  dsimp only at read
  cases filled : RowLayout.readExactAt device
      (min (rowsPerBlock * h.featureSize) (h.payloadBytes - b * (rowsPerBlock * h.featureSize)))
      (h.featuresStartOffset + b * (rowsPerBlock * h.featureSize)) with
  | error e =>
      rw [filled] at read
      cases e <;> cases read
  | ok got =>
      rw [filled] at read
      obtain rfl := Except.ok.inj read
      rw [readExactAt_ok filled, blockOf, payloadOf, List.drop_take, List.take_take, List.drop_drop]

/-- A store streamed from a file is the tier its payload gives in memory. -/
theorem buildFromStore_build {filePrefix : List U8}
    (parsed : parseFeatureHeaderBytes filePrefix file.length = .ok h) {z : Zstd}
    {device : Device file} {path : String} {level : Int} {store : ColdStore}
    (built : ColdStore.buildFromStore z device path h level = .ok store) :
    ColdTier.build z (payloadOf h file) h.featureSize level = .ok store.tier ∧
      store.tier.numRows = h.numNodes ∧ store.dtype = h.dtype ∧
      store.featureDim = h.featureDim := by
  have checked := parse_checked parsed
  obtain ⟨wide, built⟩ := ByteReader.ensure_bind_ok built
  obtain ⟨tier, tiered, built⟩ := bind_ok built
  obtain rfl := Except.ok.inj built
  obtain ⟨small, -, count, -⟩ := buildFromBlocks_ok tiered
  refine ⟨?_, count, rfl, rfl⟩
  have whole : (payloadOf h file).length = h.numNodes * h.featureSize := by
    have inside := checked.inside
    rw [payloadOf, List.length_take, List.length_drop, ← checked.payload]
    omega
  have same : ∀ b < numBlocks h.numNodes,
      ColdStore.readStore device h (rowsPerBlock * h.featureSize % 2 ^ 64) b =
        ColdTier.readPayload (payloadOf h file) (rowsPerBlock * h.featureSize % 2 ^ 64) b := by
    intro b inside
    obtain ⟨buf, read⟩ := reads_of_built tiered inside
    rw [read, readPayload_eq whole small inside]
    rw [Nat.mod_eq_of_lt small] at read
    rw [readStore_ok read]
  rw [buildFromBlocks_congr same] at tiered
  have multiple : (payloadOf h file).length % h.featureSize = 0 := by
    rw [whole, Nat.mul_mod_left]
  have rows : (payloadOf h file).length / h.featureSize = h.numNodes := by
    rw [whole, Nat.mul_div_cancel _ (Nat.pos_of_ne_zero wide)]
  unfold ColdTier.build ensure
  rw [if_pos wide, if_pos multiple, rows]
  exact tiered

end Store

end AetherGraph
