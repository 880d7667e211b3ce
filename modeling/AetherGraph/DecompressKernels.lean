import AetherGraph.EliasFanoFormat
import AetherGraph.Foundation.PrefixScan
import AetherGraph.Foundation.Scatter
import AetherGraph.StreamVByteFormat
import AetherGraph.WarpSampler
import Mathlib.Data.BitVec

/-! The device decoders: what an upload accepts, the warp decoder of StreamVByte wave by wave and
the block decoder of Elias-Fano.  A read past a stream, a counter outside `int` and a shift past
the word are `none`; the stores are collected. -/

namespace AetherGraph

open Foundation

/-- A value of type `int`. -/
def cInt (x : Nat) : Option Nat := if x < 2 ^ 31 then some x else none

/-- What every thread of a block computes; undefined when one thread's part is. -/
def eachThread {n : Nat} {α : Type} (f : Fin n → Option α) : Option (Fin n → α) :=
  if h : ∀ tid, (f tid).isSome then some fun tid => (f tid).get (h tid) else none

def warpInclusiveScanU32 (v : Lane → U32) : Lane → U32 := inclusiveScan 32 v

def warpExclusiveScanU32 (v : Lane → U32) : Lane → U32 := fun lane =>
  warpInclusiveScanU32 v lane - v lane

structure StreamVByteDevice where
  control : List U8
  data : List U8
  len : Nat
  first : U32
  deriving DecidableEq, Repr

structure WaveState where
  acc : U32
  dataPos : Nat
  produced : Nat

namespace StreamVByteDevice

def upload (svb : StreamVByte) : Except String StreamVByteDevice :=
  if 2 ^ 31 ≤ svb.len ∨ 2 ^ 31 ≤ svb.data.length then
    .error (s!"{svb.len} values in {svb.data.length} data bytes exceed " ++
      "the kernel's i32 extents")
  else .ok ⟨svb.control, svb.data, svb.len, svb.first⟩

variable (dev : StreamVByteDevice)

def laneLength (produced wave : Nat) (lane : Lane) : Option U32 := do
  let di ← cInt (produced - 1 + lane)
  if lane < wave then (controlTag dev.control di).map fun tag => tag.setWidth 32 + 1 else some 0

/-- Byte `k` of a delta at its place, zero past its length. -/
def deltaByte (p : Nat) (nbytes : U32) (k : Nat) : Option U32 :=
  if k = 0 ∨ k < nbytes.toNat then
    dev.data[p + k]?.map fun byte : U8 => byte.setWidth 32 <<< (8 * k)
  else some 0

def gatherDelta (p : Nat) (nbytes : U32) : Option U32 := do
  let b0 ← dev.deltaByte p nbytes 0
  let b1 ← dev.deltaByte p nbytes 1
  let b2 ← dev.deltaByte p nbytes 2
  let b3 ← dev.deltaByte p nbytes 3
  some (b0 ||| b1 ||| b2 ||| b3)

def laneDelta (dataPos wave : Nat) (excl nbytes : Lane → U32) (lane : Lane) : Option U32 :=
  if lane < wave then dev.gatherDelta (dataPos + (excl lane).toNat) (nbytes lane) else some 0

/-- A warp has a last lane. -/
local instance laneCount : NeZero 32 := ⟨by decide⟩

/-- One wave of up to 32 deltas: its stores and what it carries on. -/
def wave (st : WaveState) : Option (List (Nat × U32) × WaveState) := do
  let remaining := dev.len - st.produced
  let wave := if remaining < 32 then remaining else 32
  let nbytes ← eachThread (dev.laneLength st.produced wave)
  let excl := warpExclusiveScanU32 nbytes
  let last : Lane := Fin.ofNat 32 (wave - 1)
  let waveBytes := excl last + nbytes last
  let delta ← eachThread (dev.laneDelta st.dataPos wave excl nbytes)
  let scan := warpInclusiveScanU32 delta
  let dataPos ← cInt (st.dataPos + waveBytes.toNat)
  let stores := (List.finRange 32).filterMap fun lane : Lane =>
    if lane < wave then some (st.produced + lane, st.acc + scan lane) else none
  some (stores, ⟨st.acc + scan last, dataPos, st.produced + wave⟩)

/-- At most `fuel` waves. -/
def waves : Nat → WaveState → Option (List (Nat × U32))
  | 0, st => if st.produced < dev.len then none else some []
  | fuel + 1, st =>
      if st.produced < dev.len then do
        let (stores, st) ← dev.wave st
        let rest ← waves fuel st
        some (stores ++ rest)
      else some []

/-- The stores of `streamvbyte_delta_decode`; every wave produces a value. -/
def streamvbyteDeltaDecode : Option (List (Nat × U32)) :=
  if dev.len = 0 then some []
  else (dev.waves dev.len ⟨dev.first, 0, 1⟩).map ((0, dev.first) :: ·)

/-- The decoder's launch, where the output buffer holds `maxLen` values. -/
def decode (maxLen : Nat) : Except String (Option (List (Nat × U32))) :=
  if maxLen < dev.len then .error s!"len {dev.len} exceeds {maxLen}"
  else if dev.len = 0 then .ok (some [])
  else .ok dev.streamvbyteDeltaDecode

end StreamVByteDevice

structure EliasFanoDeviceParts where
  low : List U64
  high : List U64
  lowBits : Nat
  len : Nat
  highWords : Nat
  deriving DecidableEq, Repr

namespace EliasFanoDeviceParts

def upload (ef : EliasFano) : Except String EliasFanoDeviceParts :=
  if 2 ^ 31 ≤ ef.len ∨ 2 ^ 31 ≤ ef.high.length then
    .error "Elias-Fano sequence exceeds the kernel's i32 extents"
  else .ok ⟨ef.low, ef.high, ef.lowBits, ef.len, ef.high.length⟩

variable (parts : EliasFanoDeviceParts)

def bitMask (bits : Nat) : Option U64 := (checkedShl 1 bits).map (· - 1)

def readLowBits (index : Nat) : Option U64 :=
  if parts.lowBits = 0 then some 0
  else
    let bit := index * parts.lowBits
    let word := bit / 64 % 2 ^ 32
    let offset := bit % 64
    if offset + parts.lowBits ≤ 64 then do
      let mask ← EliasFano.lowMask parts.lowBits
      let w ← parts.low[word]?
      some (w >>> offset &&& mask)
    else do
      let loBits := 64 - offset
      let loMask ← bitMask loBits
      let hiMask ← bitMask (parts.lowBits - loBits)
      let w0 ← parts.low[word]?
      let w1 ← parts.low[word + 1]?
      some ((w0 >>> offset &&& loMask) ||| ((w1 &&& hiMask) <<< loBits))

/-- `output[i] = (high_part << low_bits) | low_part`. -/
def element (setPos i : Nat) : Option (Nat × U64) := do
  let highPart := BitVec.ofNat 64 setPos - BitVec.ofNat 64 i
  let lowPart ← parts.readLowBits i
  let shifted ← checkedShl highPart parts.lowBits
  some (i, shifted ||| lowPart)

/-- `ef_linear_decode` from element `i` on, over the set positions still to come. -/
def linearFrom : List Nat → Nat → Option (List (Nat × U64))
  | [], _ => some []
  | setPos :: rest, i =>
      if i < parts.len then do
        let store ← parts.element setPos i
        let i ← cInt (i + 1)
        let stores ← linearFrom rest i
        some (store :: stores)
      else some []

def efLinearDecode : Option (List (Nat × U64)) := parts.linearFrom (scanOnes parts.high) 0

abbrev Thread := Fin 256

def blockInclusiveScanU32 (s : Thread → U32) (n : Nat) : Thread → U32 := inclusiveScan n s

def pops (tid : Thread) : Option U32 :=
  if tid < parts.highWords then parts.high[(tid : Nat)]?.map fun word => word.cpop.setWidth 32
  else some 0

/-- The stores of one thread for the bits of its word, `count` of them already written. -/
def threadFrom (tid : Nat) (base : U32) : List Nat → U32 → Option (List (Nat × U64))
  | [], _ => some []
  | bit :: bits, count =>
      let i := base + count
      if (parts.len : Int) ≤ i.toInt then some []
      else do
        let store ← parts.element (tid * 64 + bit) i.toNat
        let stores ← threadFrom tid base bits (count + 1)
        some (store :: stores)

def threadStores (excl : Thread → U32) (tid : Thread) : Option (List (Nat × U64)) :=
  if tid < parts.highWords then do
    let w ← parts.high[(tid : Nat)]?
    let base := if (tid : Nat) = 0 then 0 else excl (Fin.ofNat 256 (tid - 1))
    parts.threadFrom tid base (drain 64 w) 0
  else some []

def blockDecode : Option (List (Nat × U64)) := do
  let pops ← eachThread parts.pops
  let excl := blockInclusiveScanU32 pops parts.highWords
  let stores ← eachThread (parts.threadStores excl)
  some ((List.finRange 256).flatMap stores)

/-- The stores of `elias_fano_decode_all` by one block of 256 threads. -/
def eliasFanoDecodeAll : Option (List (Nat × U64)) :=
  if parts.len = 0 then some []
  else if 256 < parts.highWords then parts.efLinearDecode
  else parts.blockDecode

def decodeAll (maxLen : Nat) : Except String (Option (List (Nat × U64))) :=
  if maxLen < parts.len then .error s!"len {parts.len} exceeds {maxLen}"
  else if parts.len = 0 then .ok (some [])
  else .ok parts.eliasFanoDecodeAll

end EliasFanoDeviceParts

end AetherGraph
