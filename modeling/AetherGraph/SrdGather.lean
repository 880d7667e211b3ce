import AetherGraph.Foundation.LoggedRun
import AetherGraph.RdmaReads
import AetherGraph.RowValidation
import Mathlib.Data.List.FinRange

/-! The feature clients of unordered datagrams, one queue or a shard each: READs that are all
signaled, drained by count, and re-read while a row's two snapshots disagree. -/

namespace AetherGraph

open Foundation

structure AetherSrdRead where
  remoteAddr : Nat
  localAddr : Nat
  length : Nat
  deriving DecidableEq, Repr

/-- A READ the provider accepted. -/
structure SrdWr where
  wrId : Nat
  read : AetherSrdRead

structure AetherCqeSnapshot where
  status : Nat
  wrId : Nat
  vendorErr : Nat

/-- What happened on one queue: the READs a post got accepted, the completion of one with what it
landed, the client given up. -/
inductive SrdEvent where
  | post (reads : List AetherSrdRead)
  | complete (read : AetherSrdRead) (status : Nat) (bytes : SlotBytes)
  | failed

/-- One entry of a poll: the completion of the `k`-th READ in flight, which landed `bytes`, or an
entry that is none of this post's. -/
inductive Delivery where
  | own (k status vendorErr : Nat) (bytes : SlotBytes)
  | stray (wrId status vendorErr : Nat)

/-- A poll's failure or entries, and whether the deadline has passed by then. -/
structure PollTurn where
  answer : Except String (List Delivery)
  late : Bool

/-- What a client is connected to, and its provider: what each post refuses, by position and error,
and the polls of each drain. -/
structure SrdConnection where
  baseAddr : Nat
  rkey : Nat
  schema : FeatureSchema
  table : RemoteTable
  parsed : RemoteTable.parse baseAddr rkey schema = .ok table
  maxInflight : Nat
  some : 0 < maxInflight
  narrow : maxInflight < 2 ^ 32
  dstAddr : Nat
  refusals : Nat → Option (Nat × Int)
  polls : Nat → List PollTurn

/-- `dst` holds the two staging regions of `maxInflight` slots. -/
structure SrdFeatureClient where
  link : SrdConnection
  dst : SlotBytes
  inflight : List SrdWr
  generation : Nat
  failed : Bool
  poisoned : Bool
  posts : Nat
  drains : Nat

namespace SrdFeatureClient

def connected (link : SrdConnection) : SrdFeatureClient :=
  { link := link
    dst := fun _ => 0
    inflight := []
    generation := 0
    failed := false
    poisoned := false
    posts := 0
    drains := 0 }

variable (s : SrdFeatureClient)

def stride : Nat := s.link.table.geometry.stride

/-- Where a region starts in the buffer. -/
def regionOffset : RdmaSnapshot → Nat
  | .first => 0
  | .second => s.link.maxInflight * s.stride

def regionPtr (snap : RdmaSnapshot) : Nat := s.link.dstAddr + s.regionOffset snap

/-- The bytes of a row's slot. -/
def slot (snap : RdmaSnapshot) (i : Nat) : SlotBytes :=
  fun o => s.dst (s.regionOffset snap + i * s.stride + o)

def remoteAddrs (nodes : List Nat) : Except Failure (List Nat) :=
  if s.link.maxInflight < nodes.length then
    let depth := s.link.maxInflight
    invalid s!"{nodes.length} nodes exceed max_inflight {depth}"
  else nodes.mapM s.link.table.slotAddr

/-- The READ of a row of `remote` into its slot. -/
def readOf (remote : List Nat) (snap : RdmaSnapshot) (i : Nat) : AetherSrdRead where
  remoteAddr := remote.getD i 0
  localAddr := s.regionPtr snap + i * s.stride
  length := s.link.table.geometry.liveLen

/-- One request a READ, numbered from `base`. -/
def requests (base : Nat) (reads : List AetherSrdRead) : List SrdWr :=
  reads.mapIdx fun i read => ⟨base + i, read⟩

/-- How many of `count` requests are accepted, and the refusal of the next. -/
def acceptedOf (refusal : Option (Nat × Int)) (count : Nat) : Nat × Option Failure :=
  match refusal with
  | some (taken, rc) =>
      if taken < count then (taken, some (.error [s!"post_rdma_reads_srd_batch rc={rc}"]))
      else (count, none)
  | none => (count, none)

def postSnapshot (remote rows : List Nat) (snap : RdmaSnapshot) :
    Logged SrdFeatureClient SrdEvent (Nat × Option Failure) := fun s =>
  if rows.isEmpty then some ((0, none), s, [])
  else
    let reads := rows.map (s.readOf remote snap)
    let generation := nextWrGeneration s.generation
    let accepted := acceptedOf (s.link.refusals s.posts) reads.length
    some (accepted,
      { s with
        inflight := s.inflight ++ (requests (generation * 2 ^ 32) reads).take accepted.1
        generation := generation
        posts := s.posts + 1 },
      [.post (reads.take accepted.1)])

section Drain

/-- A READ lands in its slot as it completes. -/
def land (read : AetherSrdRead) (bytes : SlotBytes) : SlotBytes := fun p =>
  let start := read.localAddr - s.link.dstAddr
  if start ≤ p ∧ p < start + read.length then bytes (p - start) else s.dst p

/-- Each READ completes once; an entry with the tag of the latest post is of one of its READs. -/
def deliver : Delivery → Logged SrdFeatureClient SrdEvent (Option AetherCqeSnapshot)
  | .own k status vendorErr bytes => fun s =>
      match s.inflight[k]? with
      | none => some (none, s, [])
      | some wr => some (some ⟨status, wr.wrId, vendorErr⟩,
          { s with inflight := s.inflight.eraseIdx k, dst := s.land wr.read bytes },
          [.complete wr.read status bytes])
  | .stray wrId status vendorErr => fun s =>
      if wrId / 2 ^ 32 = s.generation then some (none, s, [])
      else some (some ⟨status, wrId, vendorErr⟩, s, [])

def deliverAll : List Delivery → Logged SrdFeatureClient SrdEvent (List AetherCqeSnapshot)
  | [] => pure []
  | d :: ds => do
      let cqe ← deliver d
      let cqes ← deliverAll ds
      pure (cqe.toList ++ cqes)

/-- The entries of the drained post. -/
def ownOf (tag : Nat) (cqes : List AetherCqeSnapshot) : List AetherCqeSnapshot :=
  cqes.filter fun cqe => cqe.wrId / 2 ^ 32 = tag

def wcFailed (cqe : AetherCqeSnapshot) : Option Failure :=
  if cqe.status ≠ ibvWcSuccess then
    let wrId := hexAddr cqe.wrId
    let status := cqe.status
    let vendor := cqe.vendorErr
    some (.error [s!"SRD WC failed at wr_id {wrId}: status={status} vendor_err={vendor}"])
  else none

/-- The client is given up. -/
def giveUp (poisoned : Bool) : Logged SrdFeatureClient SrdEvent Unit := fun s =>
  some ((), { s with failed := true, poisoned := s.poisoned || poisoned }, [.failed])

def poison : Logged SrdFeatureClient SrdEvent Unit := fun s =>
  some ((), { s with poisoned := true }, [])

def drained (firstErr : Option Failure) : Except Failure Unit :=
  match firstErr with
  | some e => .error e
  | none => .ok ()

/-- Polls until `posted` entries of the post are reaped.  The first time the deadline passes the
queue is flushed, the second time the client is poisoned. -/
def drainLoop (posted tag : Nat) : List PollTurn → Nat → Option Failure → Bool →
    Logged SrdFeatureClient SrdEvent (Except Failure Unit)
  | [], reaped, firstErr, _ => fun s =>
      if posted ≤ reaped then some (drained firstErr, s, []) else none
  | turn :: turns, reaped, firstErr, forced =>
      if posted ≤ reaped then pure (drained firstErr)
      else match turn.answer with
        | .error e => do
            giveUp true
            pure (invalid s!"SRD CQ poll failed: {e}")
        | .ok deliveries => do
            let cqes ← deliverAll (deliveries.take (min posted 256))
            let own := ownOf tag cqes
            let reaped := reaped + own.length
            let firstErr := firstErr.or (own.findSome? wcFailed)
            if cqes.isEmpty && turn.late then
              if forced then do
                poison
                pure (invalid s!"SRD gather reaped {reaped}/{posted} even after flushing")
              else do
                giveUp false
                drainLoop posted tag turns reaped
                  (firstErr.or (some (.error [s!"SRD gather stalled at {reaped}/{posted} after 30s"])))
                  true
            else drainLoop posted tag turns reaped firstErr forced

def drain (posted : Nat) : Logged SrdFeatureClient SrdEvent (Except Failure Unit) := fun s =>
  if posted = 0 then some (.ok (), s, [])
  else drainLoop posted s.generation (s.link.polls s.drains) 0 none false
    { s with drains := s.drains + 1 }

end Drain

def readSnapshot (remote rows : List Nat) (snap : RdmaSnapshot) :
    Logged SrdFeatureClient SrdEvent (Except Failure Unit) := do
  let (posted, postErr) ← postSnapshot remote rows snap
  let drained ← drain posted
  pure (match postErr with
    | some e => .error e
    | none => drained)

/-- The rows not accepted; a slot that ends before the tail version is a slice out of range. -/
def tornRows (rows : List Nat) : Option (List Nat) :=
  if rows.isEmpty then some []
  else if s.stride < s.link.table.geometry.tailOffset + 8 then none
  else some (AetherGraph.tornRows s.dst (fun p => s.dst (s.regionOffset .second + p)) s.stride
    s.link.table.geometry.featureDim rows)

def maxRetries : Nat := 8

/-- Rounds of both snapshots for the rows still torn. -/
def rounds (remote : List Nat) : Nat → List Nat →
    Logged SrdFeatureClient SrdEvent (Except Failure Unit)
  | 0, rows => pure (invalid s!"{rows.length} rows still torn after {maxRetries} re-reads")
  | more + 1, rows => do
      match ← readSnapshot remote rows .first with
      | .error e => pure (.error e)
      | .ok () =>
          match ← readSnapshot remote rows .second with
          | .error e => pure (.error e)
          | .ok () =>
              let torn ← fun s => (s.tornRows rows).map fun torn => (torn, s, [])
              if torn.isEmpty then pure (.ok ()) else rounds remote more torn

def gather (nodes : List Nat) : Logged SrdFeatureClient SrdEvent (Except Failure Unit) := fun s =>
  if s.failed then some (invalid "SRD QP failed on an earlier gather; reconnect", s, [])
  else match s.remoteAddrs nodes with
    | .error e => some (.error e, s, [])
    | .ok remote => rounds remote (maxRetries + 1) (List.range nodes.length) s

end SrdFeatureClient

/-- The shards of one pool, each of the same depth. -/
structure SrdShards (n : Nat) where
  maxInflightPerShard : Nat
  shard : Fin n → SrdConnection
  some : 0 < n
  depth : ∀ k, (shard k).maxInflight = maxInflightPerShard

/-- The clients of the shards. -/
abbrev SrdShardedFeatureClient (n : Nat) : Type := Fin n → SrdFeatureClient

namespace SrdShardedFeatureClient

variable {n : Nat}

def connected (pool : SrdShards n) : SrdShardedFeatureClient n :=
  fun k => SrdFeatureClient.connected (pool.shard k)

def errorOf : Except Failure Unit → Option Failure
  | .error e => some e
  | .ok () => none

/-- Post everywhere, then drain everywhere, and report the first error. -/
def readSnapshotAll (remote rows : Fin n → List Nat) (snap : RdmaSnapshot) :
    Logged (SrdShardedFeatureClient n) (Fin n × SrdEvent) (Except Failure Unit) := do
  let posted ← Logged.onEach
    (fun k => SrdFeatureClient.postSnapshot (remote k) (rows k) snap)
    (List.finRange n) fun _ => (0, none)
  let drained ← Logged.onEach (fun k => SrdFeatureClient.drain (posted k).1) (List.finRange n)
    fun _ => .ok ()
  let postErr := (List.finRange n).findSome? fun k => (posted k).2
  let drainErr := (List.finRange n).findSome? fun k => errorOf (drained k)
  pure (SrdFeatureClient.drained (postErr.or drainErr))

/-- Every shard's rows still torn. -/
def tornRowsAll (shards : SrdShardedFeatureClient n) (rows : Fin n → List Nat) :
    Option (Fin n → List Nat) :=
  if (List.finRange n).all fun k => ((shards k).tornRows (rows k)).isSome then
    some fun k => ((shards k).tornRows (rows k)).getD []
  else none

def rounds (remote : Fin n → List Nat) : Nat → (Fin n → List Nat) →
    Logged (SrdShardedFeatureClient n) (Fin n × SrdEvent) (Except Failure Unit)
  | 0, rows =>
      let torn := ((List.finRange n).map fun k => (rows k).length).sum
      pure (invalid s!"{torn} rows still torn after {SrdFeatureClient.maxRetries} re-reads")
  | more + 1, rows => do
      match ← readSnapshotAll remote rows .first with
      | .error e => pure (.error e)
      | .ok () =>
          match ← readSnapshotAll remote rows .second with
          | .error e => pure (.error e)
          | .ok () =>
              let torn ← fun s => (tornRowsAll s rows).map fun torn => (torn, s, [])
              if (List.finRange n).all fun k => (torn k).isEmpty then pure (.ok ())
              else rounds remote more torn

/-- The nodes of shard `k`, when each takes `chunk`. -/
def slice (nodes : List Nat) (chunk k : Nat) : List Nat :=
  (nodes.drop (min (k * chunk) nodes.length)).take chunk

def gather (pool : SrdShards n) (nodes : List Nat) :
    Logged (SrdShardedFeatureClient n) (Fin n × SrdEvent) (Except Failure Unit) := fun shards =>
  if nodes.isEmpty then some (.ok (), shards, [])
  else match (List.finRange n).find? fun k => (shards k).failed with
    | some k =>
        some (invalid s!"SRD shard {k.val} failed on an earlier gather; reconnect", shards, [])
    | none =>
        let chunk := (nodes.length + n - 1) / n
        let depth := pool.maxInflightPerShard
        if depth < chunk then
          some (invalid s!"shard slice {chunk} > max_inflight_per_shard {depth}", shards, [])
        else
          match (List.finRange n).mapM fun k => (shards k).remoteAddrs (slice nodes chunk k) with
          | .error e => some (.error e, shards, [])
          | .ok remote =>
              rounds (fun k => remote.getD k []) (SrdFeatureClient.maxRetries + 1)
                (fun k => List.range (slice nodes chunk k).length) shards

end SrdShardedFeatureClient

end AetherGraph
