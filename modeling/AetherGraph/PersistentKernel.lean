import AetherGraph.Foundation.SpscQueue

/-! Persistent loader kernel: a host posts into a mapped ring, and three device workers pass each
item through two shared queues until the host stops and everything posted is done.  Every step
makes at most one access to shared memory. -/

namespace AetherGraph

open Foundation

structure PersistentWork where
  kind : Nat
  payload : Nat
  len : Nat
  deriving DecidableEq, Repr, Inhabited

/-- Entries of each shared queue. -/
def localCap : Nat := 64

inductive WorkerPhase where
  | idle
  | running
  | stopped
  deriving DecidableEq, Repr

/-- Where the host is inside `post` or `stop_and_join`. -/
inductive HostPc where
  | free
  | writing (work : PersistentWork)
  | storing
  | joining
  deriving DecidableEq, Repr

inductive FetchPc where
  | top
  | readHead
  | readTail (fqh : Nat)
  | poll (fqt : Nat)
  | loadKind (fqt : Nat)
  | loadPayload (fqt kind : Nat)
  | loadLen (fqt kind payload : Nat)
  | release (fqt : Nat) (work : PersistentWork)
  | enqueue (fqt : Nat) (work : PersistentWork)
  | bump (fqt : Nat)
  | exited
  deriving DecidableEq, Repr

inductive TransformPc where
  | top
  | readFqh
  | readFqt (fqh : Nat)
  | readCqh (fqh fqt : Nat)
  | readCqt (fqh fqt cqh : Nat)
  | take (fqh cqt : Nat)
  | pop (fqh cqt : Nat) (work : PersistentWork)
  | enqueue (cqt : Nat) (work : PersistentWork)
  | bump (cqt : Nat)
  | exited
  deriving DecidableEq, Repr

inductive ComputePc where
  | readCqh
  | readCqt (cqh : Nat)
  | take (cqh : Nat)
  | pop (cqh : Nat) (work : PersistentWork)
  | account (work : PersistentWork)
  | readStop
  | readTail
  | finish
  | exited
  deriving DecidableEq, Repr

/-- `ring` holds the mapped ring with the control words `tail` and `head`; `tally` and `claimed`
are the workers' registers, and `finished` lists the items accounted for. -/
structure PersistentWorker where
  capacity : Nat
  phase : WorkerPhase
  host : HostPc
  hostTail : Nat
  ring : Spsc PersistentWork
  stop : Bool
  completed : Nat
  done : Bool
  fetch : FetchPc
  claimed : Nat
  fetchQ : Spsc PersistentWork
  transform : TransformPc
  computeQ : Spsc PersistentWork
  compute : ComputePc
  tally : Nat
  finished : List PersistentWork

namespace PersistentWorker

/-- `none` for a capacity that is not a power of two below `2 ^ 31`. -/
def new (capacity : Nat) (mem fetchMem computeMem : Nat → PersistentWork) : Option PersistentWorker :=
  if capacity = 0 ∨ capacity ≠ 2 ^ Nat.log2 capacity ∨ 2 ^ 31 ≤ capacity then none
  else some
    { capacity := capacity
      phase := .idle
      host := .free
      hostTail := 0
      ring := .startAt (2 ^ 32) mem 0
      stop := false
      completed := 0
      done := false
      fetch := .top
      claimed := 0
      fetchQ := .startAt (2 ^ 32) fetchMem 0
      transform := .top
      computeQ := .startAt (2 ^ 32) computeMem 0
      compute := .readCqh
      tally := 0
      finished := [] }

/-- `post` finds the ring full at its load of `head`. -/
def Full (s : PersistentWorker) : Prop := s.capacity ≤ wrapSub (2 ^ 32) s.hostTail s.ring.head

/-- Steps of the host. -/
inductive HostStep (s : PersistentWorker) : PersistentWorker → Prop where
  | start (idle : s.phase = .idle) (at_ : s.host = .free) : HostStep s { s with phase := .running }
  | post (work : PersistentWork) (open_ : s.phase ≠ .stopped) (at_ : s.host = .free)
      (room : ¬ s.Full) : HostStep s { s with host := .writing work }
  | write {work} (at_ : s.host = .writing work) :
      HostStep s { s with
        ring := s.ring.write (s.hostTail &&& (s.capacity - 1)) work
        hostTail := (s.hostTail + 1) % 2 ^ 32
        host := .storing }
  | store (at_ : s.host = .storing) :
      HostStep s { s with ring := s.ring.publish s.hostTail 1, host := .free }
  | stop (running : s.phase = .running) (at_ : s.host = .free) :
      HostStep s { s with stop := true, host := .joining }
  | join (at_ : s.host = .joining) (fetched : s.fetch = .exited) (moved : s.transform = .exited)
      (computed : s.compute = .exited) : HostStep s { s with phase := .stopped, host := .free }
  | close (idle : s.phase = .idle) (at_ : s.host = .free) : HostStep s { s with phase := .stopped }

inductive FetchStep (s : PersistentWorker) : PersistentWorker → Prop where
  | top (at_ : s.fetch = .top) :
      FetchStep s { s with fetch := if s.done then .exited else .readHead }
  | readHead (at_ : s.fetch = .readHead) : FetchStep s { s with fetch := .readTail s.fetchQ.head }
  | readTail {fqh} (at_ : s.fetch = .readTail fqh) :
      FetchStep s { s with
        fetch := if localCap ≤ wrapSub (2 ^ 32) s.fetchQ.tail fqh then .top else .poll s.fetchQ.tail }
  | poll {fqt} (at_ : s.fetch = .poll fqt) :
      FetchStep s { s with fetch := if s.ring.tail = s.claimed then .top else .loadKind fqt }
  | loadKind {fqt} (at_ : s.fetch = .loadKind fqt) :
      FetchStep s { s with
        fetch := .loadPayload fqt (s.ring.mem (s.claimed &&& (s.capacity - 1))).kind }
  | loadPayload {fqt kind} (at_ : s.fetch = .loadPayload fqt kind) :
      FetchStep s { s with
        fetch := .loadLen fqt kind (s.ring.mem (s.claimed &&& (s.capacity - 1))).payload }
  | loadLen {fqt kind payload} (at_ : s.fetch = .loadLen fqt kind payload) :
      FetchStep s { s with
        fetch := .release fqt ⟨kind, payload, (s.ring.mem (s.claimed &&& (s.capacity - 1))).len⟩ }
  | release {fqt work} (at_ : s.fetch = .release fqt work) :
      FetchStep s { s with
        claimed := (s.claimed + 1) % 2 ^ 32
        ring := s.ring.advance ((s.claimed + 1) % 2 ^ 32) 1
        fetch := .enqueue fqt work }
  | enqueue {fqt work} (at_ : s.fetch = .enqueue fqt work) :
      FetchStep s { s with
        fetchQ := s.fetchQ.write (fqt &&& (localCap - 1)) work
        fetch := .bump fqt }
  | bump {fqt} (at_ : s.fetch = .bump fqt) :
      FetchStep s { s with fetchQ := s.fetchQ.publish ((fqt + 1) % 2 ^ 32) 1, fetch := .top }

inductive TransformStep (s : PersistentWorker) : PersistentWorker → Prop where
  | top (at_ : s.transform = .top) :
      TransformStep s { s with transform := if s.done then .exited else .readFqh }
  | readFqh (at_ : s.transform = .readFqh) :
      TransformStep s { s with transform := .readFqt s.fetchQ.head }
  | readFqt {fqh} (at_ : s.transform = .readFqt fqh) :
      TransformStep s { s with transform := .readCqh fqh s.fetchQ.tail }
  | readCqh {fqh fqt} (at_ : s.transform = .readCqh fqh fqt) :
      TransformStep s { s with transform := .readCqt fqh fqt s.computeQ.head }
  | readCqt {fqh fqt cqh} (at_ : s.transform = .readCqt fqh fqt cqh) :
      TransformStep s { s with
        transform :=
          if fqh = fqt ∨ localCap ≤ wrapSub (2 ^ 32) s.computeQ.tail cqh then .top
          else .take fqh s.computeQ.tail }
  | take {fqh cqt} (at_ : s.transform = .take fqh cqt) :
      TransformStep s { s with
        transform := .pop fqh cqt (s.fetchQ.mem (fqh &&& (localCap - 1))) }
  | pop {fqh cqt work} (at_ : s.transform = .pop fqh cqt work) :
      TransformStep s { s with
        fetchQ := s.fetchQ.advance ((fqh + 1) % 2 ^ 32) 1
        transform := .enqueue cqt work }
  | enqueue {cqt work} (at_ : s.transform = .enqueue cqt work) :
      TransformStep s { s with
        computeQ := s.computeQ.write (cqt &&& (localCap - 1)) work
        transform := .bump cqt }
  | bump {cqt} (at_ : s.transform = .bump cqt) :
      TransformStep s { s with
        computeQ := s.computeQ.publish ((cqt + 1) % 2 ^ 32) 1
        transform := .top }

inductive ComputeStep (s : PersistentWorker) : PersistentWorker → Prop where
  | readCqh (at_ : s.compute = .readCqh) : ComputeStep s { s with compute := .readCqt s.computeQ.head }
  | readCqt {cqh} (at_ : s.compute = .readCqt cqh) :
      ComputeStep s { s with compute := if cqh = s.computeQ.tail then .readStop else .take cqh }
  | take {cqh} (at_ : s.compute = .take cqh) :
      ComputeStep s { s with compute := .pop cqh (s.computeQ.mem (cqh &&& (localCap - 1))) }
  | pop {cqh work} (at_ : s.compute = .pop cqh work) :
      ComputeStep s { s with
        computeQ := s.computeQ.advance ((cqh + 1) % 2 ^ 32) 1
        compute := .account work }
  | account {work} (at_ : s.compute = .account work) :
      ComputeStep s { s with
        tally := (s.tally + 1) % 2 ^ 64
        completed := (s.tally + 1) % 2 ^ 64
        finished := s.finished ++ [work]
        compute := .readCqh }
  | readStop (at_ : s.compute = .readStop) :
      ComputeStep s { s with compute := if s.stop then .readTail else .readCqh }
  | readTail (at_ : s.compute = .readTail) :
      ComputeStep s { s with compute := if s.tally % 2 ^ 32 = s.ring.tail then .finish else .readCqh }
  | finish (at_ : s.compute = .finish) : ComputeStep s { s with done := true, compute := .exited }

/-- The kernel's workers step while it runs. -/
inductive DeviceStep (s s' : PersistentWorker) : Prop where
  | fetch (moved : FetchStep s s')
  | transform (moved : TransformStep s s')
  | compute (moved : ComputeStep s s')

inductive Step (s s' : PersistentWorker) : Prop where
  | host (moved : HostStep s s')
  | device (running : s.phase = .running) (moved : DeviceStep s s')

def Run : PersistentWorker → PersistentWorker → Prop := Relation.ReflTransGen Step

end PersistentWorker

end AetherGraph
