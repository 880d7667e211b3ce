import AetherGraph.Foundation.Chunks
import AetherGraph.SlotGeometry

/-! The feature client of a reliable connection: READs posted in chains with one signaled entry,
and the two snapshots of a batch's rows posted in windows. -/

namespace AetherGraph

open Foundation

structure RdmaQpRead where
  localAddr : Nat
  localLkey : Nat
  remoteAddr : Nat
  remoteRkey : Nat
  length : Nat
  deriving DecidableEq, Repr

/-- A work request; an unsignaled one completes without an entry unless it fails. -/
structure SendWr where
  wrId : Nat
  signaled : Bool
  read : RdmaQpRead

structure IbvWc where
  status : Nat
  vendorErr : Nat
  wrId : Nat
  deriving DecidableEq, Repr

def ibvWcSuccess : Nat := 0

/-- Never 0, and never `u32::MAX`. -/
def nextWrGeneration (g : Nat) : Nat := if 2 ^ 32 - 2 ≤ g then 1 else g + 1

inductive LinkEvent where
  /-- The chain taken by the send queue. -/
  | post (chain : List RdmaQpRead)
  | complete (read : RdmaQpRead) (status : Nat)
  /-- The GPUDirect write flush ran. -/
  | flush

/-- What the device and the driver do on one chain: the refusal of `ibv_post_send` with the position
of the first request it did not process, then before each poll made in time the completions, with
status and vendor error, and the poll's failure or how many entries it gives at most. -/
structure ChainIo where
  refused : Option (Nat × Nat)
  polls : List (List (Nat × Nat) × Except String Nat)

/-- Two staging regions of `maxBatchSize` slots each. -/
structure GpuGatherBuffer where
  devicePtr : Nat
  lkey : Nat
  slotSize : Nat
  maxBatchSize : Nat
  sized : 0 < slotSize
  fits : devicePtr + slotSize * maxBatchSize * 2 < 2 ^ 64

namespace GpuGatherBuffer

variable (b : GpuGatherBuffer)

def slotAddr (i : Nat) : Nat := b.devicePtr + i * b.slotSize

def slotAddr2 (i : Nat) : Nat := b.devicePtr + (b.maxBatchSize + i) * b.slotSize

end GpuGatherBuffer

/-- A queue pair's depth, a `u32`; `create` refuses none. -/
structure RdmaQp where
  maxSendWr : Nat
  deep : 0 < maxSendWr
  narrow : maxSendWr < 2 ^ 32

/-- The client, its send queue's outstanding requests in order and its completion queue. -/
structure RdmaFeatureClient where
  qp : RdmaQp
  outstanding : List SendWr
  cq : List IbvWc
  generation : Nat
  failed : Bool
  posts : Nat
  flushes : Nat
  log : List LinkEvent

/-- One `read_snapshots`: the rows' slot addresses, a subset of the rows, and the outcomes of the
chains and flushes, numbered over the client's life. -/
structure SnapshotCall where
  buffer : GpuGatherBuffer
  table : RemoteTable
  remote : List Nat
  capacity : remote.length ≤ buffer.maxBatchSize
  indices : List (Fin remote.length)
  chain : Nat → ChainIo
  flush : Nat → Except String Nat

inductive RdmaSnapshot where
  | first
  | second
  deriving DecidableEq, Repr

namespace SnapshotCall

variable (call : SnapshotCall)

/-- The READ of a row into its slot of a snapshot. -/
def read (snapshot : RdmaSnapshot) (i : Fin call.remote.length) : RdmaQpRead where
  localAddr := match snapshot with
    | .first => call.buffer.slotAddr i
    | .second => call.buffer.slotAddr2 i
  localLkey := call.buffer.lkey
  remoteAddr := call.remote.get i
  remoteRkey := call.table.rkey
  length := call.table.geometry.liveLen

def build (rows : List (Fin call.remote.length)) (snapshot : RdmaSnapshot) : List RdmaQpRead :=
  rows.map (call.read snapshot)

end SnapshotCall

namespace RdmaFeatureClient

/-- A connected client. -/
def connected (qp : RdmaQp) : RdmaFeatureClient :=
  { qp := qp
    outstanding := []
    cq := []
    generation := 0
    failed := false
    posts := 0
    flushes := 0
    log := [] }

variable (s : RdmaFeatureClient)

section Device

def wcOf (wr : SendWr) (outcome : Nat × Nat) : Option IbvWc :=
  if wr.signaled ∨ outcome.1 ≠ ibvWcSuccess then some ⟨outcome.1, outcome.2, wr.wrId⟩ else none

/-- A reliable connection completes its requests in order. -/
def complete : List (Nat × Nat) → RdmaFeatureClient → RdmaFeatureClient
  | [], s => s
  | outcome :: outcomes, s =>
      match s.outstanding with
      | [] => s
      | wr :: rest => complete outcomes
          { s with
            outstanding := rest
            cq := s.cq ++ (wcOf wr outcome).toList
            log := s.log ++ [.complete wr.read outcome.1] }

/-- `ibv_post_send` takes the requests before the refused one. -/
def take (wrs : List SendWr) : RdmaFeatureClient :=
  { s with
    outstanding := s.outstanding ++ wrs
    log := s.log ++ [.post (wrs.map SendWr.read)] }

/-- Stop the queue pair; on return every request it was given has finished or was flushed (the
process aborts when the marker behind them does not complete). -/
def quiesce : RdmaFeatureClient :=
  { s with
    outstanding := []
    cq := []
    log := s.log ++ s.outstanding.map fun wr => .complete wr.read 5 }

end Device

/-- Requests numbered from `base`, each `signalEveryN`-th and the last signaled. -/
def workRequests (reads : List RdmaQpRead) (signalEveryN base : Nat) : List SendWr :=
  reads.mapIdx fun i read =>
    { wrId := (base + i) % 2 ^ 64
      signaled := (i + 1) % signalEveryN = 0 || i = reads.length - 1
      read := read }

def postReadsTagged (reads : List RdmaQpRead) (signalEveryN base : Nat)
    (refused : Option (Nat × Nat)) : Except String Unit × RdmaFeatureClient :=
  if reads.isEmpty then (.ok (), s)
  else if signalEveryN = 0 then (.error "signal_every_n must be >= 1", s)
  else if s.qp.maxSendWr < reads.length then
    let max := s.qp.maxSendWr
    (.error s!"reads.len() {reads.length} exceeds QP max_send_wr {max}", s)
  else
    let wrs := workRequests reads signalEveryN base
    match refused with
    | none => (.ok (), s.take wrs)
    | some (ret, bad) =>
        let accepted := if bad < wrs.length then bad else 0
        (.error (s!"ibv_post_send failed: {ret} ({accepted} of {wrs.length} WRs accepted " ++
          "before bad_wr)"), s.take (wrs.take accepted))

/-- The entries of one poll in order: the first failed one, or the signaled one, ends the wait. -/
def scan (signaled : Nat) : List IbvWc → Option (Except String Unit)
  | [] => none
  | wc :: wcs =>
      if wc.status ≠ ibvWcSuccess then
        let status := wc.status
        let vendor := wc.vendorErr
        let wrId := hexAddr wc.wrId
        some (.error s!"RDMA READ failed: status={status}, vendor_err={vendor}, wr_id={wrId}")
      else if wc.wrId = signaled then some (.ok ())
      else scan signaled wcs

/-- Polls, sixteen entries at most each, until the wait ends or the deadline passes. -/
def awaitSignaled (signaled : Nat) : List (List (Nat × Nat) × Except String Nat) →
    RdmaFeatureClient → Except String Unit × RdmaFeatureClient
  | [], s =>
      let wrId := hexAddr signaled
      (.error (s!"RDMA READ completion timed out after 10s (signaled wr_id {wrId} " ++
        "never landed)"), s)
  | (outcomes, answer) :: polls, s =>
      let s := s.complete outcomes
      match answer with
      | .error e => (.error e, s)
      | .ok most =>
          let n := min most 16
          let s' := { s with cq := s.cq.drop n }
          match scan signaled (s.cq.take n) with
          | some result => (result, s')
          | none => awaitSignaled signaled polls s'

def postAndWaitWindow (reads : List RdmaQpRead) (io : ChainIo) :
    Except String Unit × RdmaFeatureClient :=
  if reads.isEmpty then (.ok (), s)
  else
    let generation := nextWrGeneration s.generation
    let s := { s with generation := generation, posts := s.posts + 1 }
    let base := generation * 2 ^ 32
    match s.postReadsTagged reads reads.length base io.refused with
    | (.error e, s) => (.error e, s)
    | (.ok (), s) => awaitSignaled (base + (reads.length - 1)) io.polls s

/-- The chains one after the other; a failure stops the queue pair. -/
def postWindows (io : Nat → ChainIo) : List (List RdmaQpRead) → RdmaFeatureClient →
    Except String Unit × RdmaFeatureClient
  | [], s => (.ok (), s)
  | window :: windows, s =>
      match s.postAndWaitWindow window (io s.posts) with
      | (.error e, s) => (.error e, { s.quiesce with failed := true })
      | (.ok (), s) => postWindows io windows s

def postAndWait (reads : List RdmaQpRead) (io : Nat → ChainIo) :
    Except String Unit × RdmaFeatureClient :=
  postWindows io (chunks s.qp.maxSendWr reads) s

def cudaErrorNotSupported : Nat := 801

def flushGpudirectWrites (flush : Nat → Except String Nat) :
    Except String Unit × RdmaFeatureClient :=
  let s' := { s with flushes := s.flushes + 1 }
  match flush s.flushes with
  | .error e => (.error e, s')
  | .ok res =>
      if res ≠ 0 ∧ res ≠ cudaErrorNotSupported then
        (.error s!"cuFlushGPUDirectRDMAWrites failed: {res}", s')
      else (.ok (), { s' with log := s.log ++ [.flush] })

/-- Post, wait, then flush. -/
def round (reads : List RdmaQpRead) (call : SnapshotCall) :
    Except String Unit × RdmaFeatureClient :=
  match s.postAndWait reads call.chain with
  | (.error e, s) => (.error e, s)
  | (.ok (), s) => s.flushGpudirectWrites call.flush

/-- Snapshot 2 of each window, chained with snapshot 1 of the next. -/
def rounds (call : SnapshotCall) : List (List (Fin call.remote.length)) → RdmaFeatureClient →
    Except String Unit × RdmaFeatureClient
  | [], s => (.ok (), s)
  | window :: windows, s =>
      let combined := call.build window .second ++ call.build (windows.headD []) .first
      match s.round combined call with
      | (.error e, s) => (.error e, s)
      | (.ok (), s) => rounds call windows s

/-- At most half the send queue, and half the rows; at least one. -/
def windowSize (rows : Nat) : Nat := min (max ((rows + 1) / 2) 1) (max (s.qp.maxSendWr / 2) 1)

def readSnapshots (call : SnapshotCall) : Except String Unit × RdmaFeatureClient :=
  if call.indices.isEmpty then (.ok (), s)
  else
    let windows := chunks (s.windowSize call.indices.length) call.indices
    match s.round (call.build (windows.headD []) .first) call with
    | (.error e, s) => (.error e, s)
    | (.ok (), s) => rounds call windows s

/-- A gather's snapshots; none on a client that failed. -/
def gatherSnapshots (call : SnapshotCall) : Except String Unit × RdmaFeatureClient :=
  if s.failed then (.error "RDMA QP failed on an earlier gather; reconnect", s)
  else s.readSnapshots call

/-- The batches of a client one after the other. -/
def gathers (calls : List SnapshotCall) : RdmaFeatureClient :=
  calls.foldl (fun s call => (s.gatherSnapshots call).2) s

end RdmaFeatureClient

end AetherGraph
