import AetherGraph.Foundation.TicketRing

/-! Send queue posted to by any number of producers.  Its three counters wrap at 16 bits; the
adapter completes what the doorbell covers, and only completed entries are retired.  Producers
stop between any two of their steps. -/

namespace AetherGraph

open Foundation

/-- The arguments of a post. -/
structure RdmaRead where
  localAddress : Nat
  lkey : Nat
  byteCount : Nat
  remoteAddress : Nat
  rkey : Nat
  deriving DecidableEq, Repr

/-- The words of a work queue entry, as numbers. -/
structure Mlx5RdmaReadWqe where
  ctrlOpmodIdxOpcode : Nat
  ctrlQpnDs : Nat
  ctrlFmCeSe : Nat
  remoteAddress : Nat
  rkey : Nat
  byteCount : Nat
  lkey : Nat
  localAddress : Nat
  deriving DecidableEq, Repr

def mlx5OpcodeRdmaRead : Nat := 0x10
def mlx5WqeCtrlCqUpdate : Nat := 2 <<< 2
def wqeSegments : Nat := 3

def Mlx5RdmaReadWqe.new (qpn wqeCounter : Nat) (read : RdmaRead) : Mlx5RdmaReadWqe where
  ctrlOpmodIdxOpcode := wqeCounter <<< 8 ||| mlx5OpcodeRdmaRead
  ctrlQpnDs := qpn <<< 8 ||| wqeSegments
  ctrlFmCeSe := mlx5WqeCtrlCqUpdate
  remoteAddress := read.remoteAddress
  rkey := read.rkey
  byteCount := read.byteCount
  lkey := read.lkey
  localAddress := read.localAddress

structure IbgdaQueue where
  qpn : Nat
  depth : Nat
  nextWqe : Nat
  ready : Nat
  cqHead : Nat
  sendDb : Nat
  deriving DecidableEq, Repr

namespace IbgdaQueue

def new (qpn : Nat) (depth : UInt16) : Option IbgdaQueue :=
  if depth.toNat = 0 ∨ depth.toNat ≠ 2 ^ Nat.log2 depth.toNat ∨ 0xffffff < qpn then none
  else some ⟨qpn, depth.toNat, 0, 0, 0, 0⟩

/-- The slot of an index. -/
def slot (q : IbgdaQueue) (idx : Nat) : Nat := idx &&& (q.depth - 1)

end IbgdaQueue

/-- Where a producer is in `post_rdma_read`. -/
inductive IbgdaPc where
  | idle
  | start (read : RdmaRead)
  | loaded (read : RdmaRead) (idx : Nat)
  | checked (read : RdmaRead) (idx : Nat)
  | claimed (read : RdmaRead) (idx : Nat)
  | writing (read : RdmaRead) (idx : Nat)
  | written (read : RdmaRead) (idx : Nat)
  | turn (read : RdmaRead) (idx : Nat)
  | rung (read : RdmaRead) (idx : Nat)
  deriving DecidableEq, Repr

/-- `doorbells` are the values the send word took, `results` the calls that succeeded and
`refused`, for each call that found the queue full, whether it had been full since the call began.
The history counts without wrapping: `posted` in claim order, `rung` and `done` in the order of
publication, and `seen` each producer's last value of the claim counter. -/
structure IbgdaSystem where
  q : IbgdaQueue
  ring : Nat → Option Mlx5RdmaReadWqe
  pc : Nat → IbgdaPc
  doorbells : List Nat
  results : List (Nat × RdmaRead)
  refused : List Bool
  posted : List RdmaRead
  rung : List Nat
  done : List (Nat × RdmaRead)
  completed : Nat
  retired : Nat
  seen : Nat → Nat
  full : Nat → Bool

/-- The request, index and ticket of a producer that has yet to finish writing its entry. -/
def IbgdaPc.unwritten (seen : Nat) : IbgdaPc → Option (RdmaRead × Nat × Nat)
  | .claimed read idx | .writing read idx => some (read, idx, seen)
  | _ => none

/-- Entries are published once each in claim order, what the doorbell covers is fully written, and
no slot is written while another entry is outstanding in it. -/
structure InOrder (qpn : Nat) (slot : Nat → Nat) (ring : Nat → Option Mlx5RdmaReadWqe)
    (sendDb : Nat) (doorbells : List Nat) (results : List (Nat × RdmaRead))
    (posted : List RdmaRead) (completed retired : Nat)
    (unwritten : Nat → Option (RdmaRead × Nat × Nat)) : Prop where
  doorbells_eq : doorbells = (List.range doorbells.length).map fun i => (i + 1) % 2 ^ 16
  results_eq : results =
    (posted.take results.length).zipIdx.map fun (read, i) => (i % 2 ^ 16, read)
  results_le : results.length ≤ doorbells.length
  doorbells_le : doorbells.length ≤ results.length + 1
  posted_ge : doorbells.length ≤ posted.length
  covered : ∀ k < wrapSub (2 ^ 16) sendDb (completed % 2 ^ 16), ∃ read,
    posted[completed + k]? = some read ∧ ring (slot ((completed + k) % 2 ^ 16)) =
      some (.new qpn ((completed + k) % 2 ^ 16) read)
  free : ∀ p read idx i, unwritten p = some (read, idx, i) →
    idx = i % 2 ^ 16 ∧ posted[i]? = some read ∧
      ∀ j < posted.length, j ≠ i → slot (j % 2 ^ 16) = slot idx → j < retired

/-- The entry of a ticket. -/
def ibgdaEntry (qpn i : Nat) (read : RdmaRead) : Mlx5RdmaReadWqe := .new qpn (i % 2 ^ 16) read

theorem inOrder_of_tickets {qpn depth sendDb : Nat} {slot : Nat → Nat} {doorbells : List Nat}
    {results : List (Nat × RdmaRead)} {unwritten : Nat → Option (RdmaRead × Nat × Nat)}
    {t : TicketRing Nat RdmaRead Mlx5RdmaReadWqe} (h : t.Inv (ibgdaEntry qpn) depth)
    (slot_eq : ∀ i, slot (i % 2 ^ 16) = i % depth) (sendDb_eq : sendDb = t.rung.length % 2 ^ 16)
    (doorbells_eq : doorbells = t.rung.map fun i => (i + 1) % 2 ^ 16)
    (results_eq : results = t.done.map fun (i, read) => (i % 2 ^ 16, read))
    (claims : ∀ p read idx i, unwritten p = some (read, idx, i) →
      (t.phase p = .claimed i ∨ t.phase p = .writing i) ∧ idx = i % 2 ^ 16 ∧
        t.posted[i]? = some read) :
    InOrder qpn slot t.slot sendDb doorbells results t.posted t.completed t.retired unwritten := by
  have doorbells_length : doorbells.length = t.rung.length := by rw [doorbells_eq, List.length_map]
  have results_length : results.length = t.done.length := by rw [results_eq, List.length_map]
  refine {
    doorbells_eq := ?_, results_eq := ?_, results_le := ?_, doorbells_le := ?_, posted_ge := ?_
    covered := fun k hk => ?_, free := fun p read idx i mine => ?_ }
  · rw [doorbells_length, ← h.rung_eq]
    exact doorbells_eq
  · rw [results_length, results_eq, h.done_eq, List.map_map]
    rw [← h.done_eq]
    rfl
  · rw [results_length, doorbells_length]
    exact h.done_le
  · rw [results_length, doorbells_length]
    exact h.rung_le_done
  · rw [doorbells_length]
    exact h.rung_le
  · rw [sendDb_eq, wrapSub_eq (by decide) h.completed_le] at hk
    have lt := hk.trans_le (Nat.mod_le _ _)
    have below : t.completed + k < t.posted.length := by
      have := h.rung_le
      omega
    refine ⟨t.posted[t.completed + k], List.getElem?_eq_getElem below, ?_⟩
    rw [slot_eq]
    exact h.published (Nat.le_add_right _ _) (by omega) _ (List.getElem?_eq_getElem below)
  · obtain ⟨phase, rfl, at_⟩ := claims p read idx i mine
    refine ⟨rfl, at_, fun j lt ne same => ?_⟩
    rw [slot_eq, slot_eq] at same
    have ok := h.ok p
    rcases phase with phase | phase
    · rw [phase] at ok
      exact h.slot_free (by rw [phase]; rfl) ok.1 lt ne same
    · rw [phase] at ok
      exact h.slot_free (by rw [phase]; rfl) ok.1 lt ne same

namespace IbgdaSystem

/-- Entries claimed and not retired. -/
def outstanding (s : IbgdaSystem) : Nat := s.posted.length - s.retired

/-- The producers inside a call witness whether the queue is full. -/
def observe (s : IbgdaSystem) : IbgdaSystem :=
  { s with full := fun p => s.full p || decide (s.outstanding = s.q.depth) }

def start (q : IbgdaQueue) (ring : Nat → Option Mlx5RdmaReadWqe) : IbgdaSystem :=
  ⟨q, ring, fun _ => .idle, [], [], [], [], [], [], 0, 0, fun _ => 0, fun _ => false⟩

inductive IbgdaAct where
  | call (p : Nat)
  | loadNext (p : Nat)
  | loadHead (p : Nat)
  | claim (p : Nat)
  | retry (p : Nat)
  | write (p : Nat)
  | wrote (p : Nat)
  | await (p : Nat)
  | ring (p : Nat)
  | finish (p : Nat)
  | complete
  | retire (n : Nat)
  deriving DecidableEq, Repr

inductive Step : IbgdaAct → IbgdaSystem → IbgdaSystem → Prop
  | call (s : IbgdaSystem) (p : Nat) (read : RdmaRead) (idle : s.pc p = .idle) :
      Step (.call p) s (observe { s with
        pc := Function.update s.pc p (.start read)
        full := Function.update s.full p false })
  | loadNext (s : IbgdaSystem) (p : Nat) {read : RdmaRead} (start : s.pc p = .start read) :
      Step (.loadNext p) s { s with
        pc := Function.update s.pc p (.loaded read s.q.nextWqe)
        seen := Function.update s.seen p s.posted.length }
  | full (s : IbgdaSystem) (p : Nat) {read : RdmaRead} {idx : Nat}
      (loaded : s.pc p = .loaded read idx)
      (none : s.q.depth ≤ wrapSub (2 ^ 16) idx s.q.cqHead) :
      Step (.loadHead p) s { s with
        pc := Function.update s.pc p .idle
        refused := s.refused ++ [s.full p] }
  | room (s : IbgdaSystem) (p : Nat) {read : RdmaRead} {idx : Nat}
      (loaded : s.pc p = .loaded read idx)
      (some : wrapSub (2 ^ 16) idx s.q.cqHead < s.q.depth) :
      Step (.loadHead p) s { s with pc := Function.update s.pc p (.checked read idx) }
  | claim (s : IbgdaSystem) (p : Nat) {read : RdmaRead} {idx : Nat}
      (checked : s.pc p = .checked read idx) (same : s.q.nextWqe = idx) :
      Step (.claim p) s (observe { s with
        q := { s.q with nextWqe := (idx + 1) % 2 ^ 16 }
        pc := Function.update s.pc p (.claimed read idx)
        posted := s.posted ++ [read]
        seen := Function.update s.seen p s.posted.length })
  -- a weak exchange may fail whatever the counter holds
  | retry (s : IbgdaSystem) (p : Nat) {read : RdmaRead} {idx : Nat}
      (checked : s.pc p = .checked read idx) :
      Step (.retry p) s { s with pc := Function.update s.pc p (.start read) }
  | write (s : IbgdaSystem) (p : Nat) {read : RdmaRead} {idx : Nat}
      (claimed : s.pc p = .claimed read idx) :
      Step (.write p) s { s with
        pc := Function.update s.pc p (.writing read idx)
        ring := Function.update s.ring (s.q.slot idx) none }
  | wrote (s : IbgdaSystem) (p : Nat) {read : RdmaRead} {idx : Nat}
      (writing : s.pc p = .writing read idx) :
      Step (.wrote p) s { s with
        pc := Function.update s.pc p (.written read idx)
        ring := Function.update s.ring (s.q.slot idx) (some (.new s.q.qpn idx read)) }
  | await (s : IbgdaSystem) (p : Nat) {read : RdmaRead} {idx : Nat}
      (written : s.pc p = .written read idx) (next : s.q.ready = idx) :
      Step (.await p) s { s with pc := Function.update s.pc p (.turn read idx) }
  | ring (s : IbgdaSystem) (p : Nat) {read : RdmaRead} {idx : Nat}
      (turn : s.pc p = .turn read idx) :
      Step (.ring p) s { s with
        q := { s.q with sendDb := (idx + 1) % 2 ^ 16 }
        pc := Function.update s.pc p (.rung read idx)
        doorbells := s.doorbells ++ [(idx + 1) % 2 ^ 16]
        rung := s.rung ++ [s.seen p] }
  | finish (s : IbgdaSystem) (p : Nat) {read : RdmaRead} {idx : Nat}
      (rung : s.pc p = .rung read idx) :
      Step (.finish p) s { s with
        q := { s.q with ready := (idx + 1) % 2 ^ 16 }
        pc := Function.update s.pc p .idle
        results := s.results ++ [(idx, read)]
        done := s.done ++ [(s.seen p, read)] }
  | complete (s : IbgdaSystem)
      (covered : wrapSub (2 ^ 16) s.q.sendDb (s.completed % 2 ^ 16) ≠ 0) :
      Step .complete s { s with completed := s.completed + 1 }
  | retire (s : IbgdaSystem) (n : Nat) (completed : s.retired + n ≤ s.completed) :
      Step (.retire n) s (observe { s with
        q := { s.q with cqHead := (s.q.cqHead + n) % 2 ^ 16 }
        retired := s.retired + n })

/-- The head loaded has not passed the claim counter loaded before it, and the counter has not
come round between its load and the exchange. -/
def Fresh (act : IbgdaAct) (s : IbgdaSystem) : Prop :=
  match act with
  | .loadHead p => s.retired ≤ s.seen p
  | .claim p => s.posted.length < s.seen p + 2 ^ 16
  | _ => True

/-- Runs whose steps all meet a condition on the state before them. -/
def Runs (meets : IbgdaAct → IbgdaSystem → Prop) : IbgdaSystem → IbgdaSystem → Prop :=
  Relation.ReflTransGen fun s s' => ∃ act, Step act s s' ∧ meets act s

/-- No call was refused that did not see the queue full. -/
structure PublishesInOrder (s : IbgdaSystem) : Prop where
  inOrder : InOrder s.q.qpn s.q.slot s.ring s.q.sendDb s.doorbells s.results s.posted s.completed
    s.retired fun p => (s.pc p).unwritten (s.seen p)
  refused : ∀ full ∈ s.refused, full = true

/-- What a producer knows of the counters. -/
def PcOk (depth : Nat) (posted : List RdmaRead) (retired seen : Nat) : IbgdaPc → Prop
  | .idle | .start _ => True
  | .loaded _ idx => idx = seen % 2 ^ 16 ∧ seen ≤ posted.length
  | .checked _ idx => idx = seen % 2 ^ 16 ∧ seen ≤ posted.length ∧
      (seen = posted.length → posted.length < retired + depth)
  | .claimed read idx | .writing read idx | .written read idx | .turn read idx
  | .rung read idx => idx = seen % 2 ^ 16 ∧ posted[seen]? = some read

end IbgdaSystem

def IbgdaPc.phase (seen : Nat) : IbgdaPc → TicketPhase
  | .idle | .start _ | .loaded _ _ | .checked _ _ => .out
  | .claimed _ _ => .claimed seen
  | .writing _ _ => .writing seen
  | .written _ _ => .written seen
  | .turn _ _ => .turn seen
  | .rung _ _ => .rung seen

namespace IbgdaSystem

def phases (s : IbgdaSystem) (p : Nat) : TicketPhase := (s.pc p).phase (s.seen p)

/-- The queue as a ring of tickets. -/
def tickets (s : IbgdaSystem) : TicketRing Nat RdmaRead Mlx5RdmaReadWqe :=
  ⟨s.ring, s.phases, s.posted, s.rung, s.done, s.completed, s.retired⟩

structure Inv (s : IbgdaSystem) : Prop where
  depth_pow : ∃ k ≤ 15, s.q.depth = 2 ^ k
  tickets : TicketRing.Inv (ibgdaEntry s.q.qpn) s.q.depth s.tickets
  nextWqe_eq : s.q.nextWqe = s.posted.length % 2 ^ 16
  ready_eq : s.q.ready = s.done.length % 2 ^ 16
  cqHead_eq : s.q.cqHead = s.retired % 2 ^ 16
  sendDb_eq : s.q.sendDb = s.rung.length % 2 ^ 16
  doorbells_eq : s.doorbells = s.rung.map fun i => (i + 1) % 2 ^ 16
  results_eq : s.results = s.done.map fun (i, read) => (i % 2 ^ 16, read)
  pcs : ∀ p, PcOk s.q.depth s.posted s.retired (s.seen p) (s.pc p)
  witness : s.outstanding = s.q.depth → ∀ p, s.full p = true
  refused : ∀ full ∈ s.refused, full = true

variable {s s' : IbgdaSystem} {p : Nat} {read : RdmaRead} {idx : Nat}

theorem observe_full (s : IbgdaSystem) (full : s.observe.outstanding = s.observe.q.depth)
    (p : Nat) : s.observe.full p = true := by
  have full : s.outstanding = s.q.depth := full
  simp [observe, full]

/-- A producer's move is seen in its own phase only. -/
theorem phases_update (s : IbgdaSystem) (p : Nat) (pc : IbgdaPc) :
    (fun q => (Function.update s.pc p pc q).phase (s.seen q)) =
      Function.update s.phases p (pc.phase (s.seen p)) :=
  funext fun q => Function.apply_update (fun q pc => IbgdaPc.phase (s.seen q) pc) s.pc p pc q

/-- Nor is a move outside the ring's protocol seen at all. -/
theorem phases_same (s : IbgdaSystem) {pc : IbgdaPc} (same : pc.phase (s.seen p) = s.phases p) :
    (fun q => (Function.update s.pc p pc q).phase (s.seen q)) = s.phases := by
  rw [phases_update, same, Function.update_eq_self]

theorem pcs_update {depth retired : Nat} {posted : List RdmaRead} {pc : IbgdaPc}
    (mine : PcOk depth posted retired (s.seen p) pc)
    (others : ∀ q, PcOk depth posted retired (s.seen q) (s.pc q)) :
    ∀ q, PcOk depth posted retired (s.seen q) (Function.update s.pc p pc q) := by
  intro q
  by_cases here : q = p
  · rw [here, Function.update_self]
    exact mine
  · rw [Function.update_of_ne here]
    exact others q

theorem PcOk.posted {depth retired seen : Nat} {posted : List RdmaRead} {pc : IbgdaPc}
    (ok : PcOk depth posted retired seen pc) (more : List RdmaRead) (some : 0 < more.length) :
    PcOk depth (posted ++ more) retired seen pc := by
  have longer : (posted ++ more).length = posted.length + more.length := List.length_append
  have keep : ∀ {read}, posted[seen]? = .some read → (posted ++ more)[seen]? = .some read := by
    intro read at_
    rw [List.getElem?_append_left (List.getElem?_eq_some_iff.mp at_).1, at_]
  cases pc with
  | idle => trivial
  | start => trivial
  | loaded => exact ⟨ok.1, by have := ok.2; omega⟩
  | checked => exact ⟨ok.1, by have := ok.2.1; omega, fun same => by have := ok.2.1; omega⟩
  | claimed => exact ⟨ok.1, keep ok.2⟩
  | writing => exact ⟨ok.1, keep ok.2⟩
  | written => exact ⟨ok.1, keep ok.2⟩
  | turn => exact ⟨ok.1, keep ok.2⟩
  | rung => exact ⟨ok.1, keep ok.2⟩

theorem PcOk.retire {depth retired seen : Nat} {posted : List RdmaRead} {pc : IbgdaPc}
    (ok : PcOk depth posted retired seen pc) (n : Nat) :
    PcOk depth posted (retired + n) seen pc := by
  cases pc with
  | checked => exact ⟨ok.1, ok.2.1, fun same => by have := ok.2.2 same; omega⟩
  | _ => exact ok

theorem start_inv {qpn : Nat} {depth : UInt16} {q : IbgdaQueue}
    (new : IbgdaQueue.new qpn depth = some q) (ring : Nat → Option Mlx5RdmaReadWqe) : Inv (start q ring) := by
  unfold IbgdaQueue.new at new
  split at new
  · cases new
  rename_i good
  obtain rfl := Option.some.inj new
  rw [not_or, not_or, not_not] at good
  have small := depth.toNat_lt
  have pos : 0 < depth.toNat := Nat.pos_of_ne_zero good.1
  have log : Nat.log2 depth.toNat ≤ 15 := by
    have := (Nat.log2_lt good.1).mpr small
    omega
  refine {
    depth_pow := ⟨_, log, good.2.1⟩, tickets := TicketRing.start_inv ring
    nextWqe_eq := rfl, ready_eq := rfl, cqHead_eq := rfl, sendDb_eq := rfl, doorbells_eq := rfl
    results_eq := rfl, pcs := fun _ => trivial, witness := fun none => ?_, refused := nofun }
  exact absurd none pos.ne

namespace Inv

theorem depth_le (h : Inv s) : s.q.depth ≤ 2 ^ 15 := by
  obtain ⟨k, le, eq⟩ := h.depth_pow
  rw [eq]
  exact Nat.pow_le_pow_right (by decide) le

theorem slot_eq (h : Inv s) (i : Nat) : s.q.slot (i % 2 ^ 16) = i % s.q.depth := by
  obtain ⟨k, le, eq⟩ := h.depth_pow
  rw [IbgdaQueue.slot, eq, mask_mod (by omega)]

theorem posted_le (h : Inv s) : s.posted.length ≤ s.retired + s.q.depth := h.tickets.posted_le

theorem completed_le (h : Inv s) : s.completed ≤ s.rung.length := h.tickets.completed_le

theorem retired_le (h : Inv s) : s.retired ≤ s.completed := h.tickets.retired_le

theorem rung_le (h : Inv s) : s.rung.length ≤ s.posted.length := h.tickets.rung_le

/-- What the adapter sees is what was published and not completed. -/
theorem covered_eq (h : Inv s) :
    wrapSub (2 ^ 16) s.q.sendDb (s.completed % 2 ^ 16) = s.rung.length - s.completed := by
  have := h.depth_le
  have := h.posted_le
  have := h.retired_le
  have := h.rung_le
  rw [h.sendDb_eq, wrapSub_mod h.completed_le (by omega)]

/-- A producer moves outside the ring's protocol. -/
theorem stutter (h : Inv s) {pc : IbgdaPc} (same : pc.phase (s.seen p) = s.phases p)
    (mine : PcOk s.q.depth s.posted s.retired (s.seen p) pc) :
    Inv { s with pc := Function.update s.pc p pc } := by
  refine { h with tickets := ?_, pcs := pcs_update mine h.pcs }
  show TicketRing.Inv _ _
    ⟨_, fun q => (Function.update s.pc p pc q).phase (s.seen q), _, _, _, _, _⟩
  rw [phases_same s same]
  exact h.tickets

theorem call (h : Inv s) (idle : s.pc p = .idle) : Inv (observe { s with
    pc := Function.update s.pc p (.start read)
    full := Function.update s.full p false }) := by
  have same : (IbgdaPc.start read).phase (s.seen p) = s.phases p := by rw [phases, idle]; rfl
  exact { h.stutter same trivial with witness := observe_full _ }

theorem loadNext (h : Inv s) (start : s.pc p = .start read) : Inv { s with
    pc := Function.update s.pc p (.loaded read s.q.nextWqe)
    seen := Function.update s.seen p s.posted.length } := by
  have phases : (fun q => (Function.update s.pc p (.loaded read s.q.nextWqe) q).phase
      (Function.update s.seen p s.posted.length q)) = s.phases := by
    funext q
    by_cases here : q = p
    · rw [here, Function.update_self, Function.update_self, IbgdaSystem.phases, start]
      rfl
    · rw [Function.update_of_ne here, Function.update_of_ne here]
      rfl
  refine { h with tickets := ?_, pcs := fun q => ?_ }
  · show TicketRing.Inv _ _ ⟨_, fun q => (Function.update s.pc p (.loaded read s.q.nextWqe) q).phase
      (Function.update s.seen p s.posted.length q), _, _, _, _, _⟩
    rw [phases]
    exact h.tickets
  · by_cases here : q = p
    · subst here
      simp only [Function.update_self]
      exact ⟨h.nextWqe_eq, Nat.le_refl _⟩
    · simp only [Function.update_of_ne here]
      exact h.pcs q

/-- With the head not past the counter, the two differ by what the counters say. -/
theorem difference (h : Inv s) (behind : s.retired ≤ s.seen p) (le : s.seen p ≤ s.posted.length) :
    wrapSub (2 ^ 16) (s.seen p % 2 ^ 16) s.q.cqHead = s.seen p - s.retired := by
  have := h.depth_le
  have := h.posted_le
  rw [h.cqHead_eq, wrapSub_mod behind (by omega)]

theorem full (h : Inv s) (loaded : s.pc p = .loaded read idx) (behind : s.retired ≤ s.seen p)
    (none : s.q.depth ≤ wrapSub (2 ^ 16) idx s.q.cqHead) : Inv { s with
      pc := Function.update s.pc p .idle
      refused := s.refused ++ [s.full p] } := by
  have ok := h.pcs p
  rw [loaded] at ok
  obtain ⟨rfl, le⟩ := ok
  rw [h.difference behind le] at none
  have whole : s.outstanding = s.q.depth := by
    have := h.posted_le
    rw [outstanding]
    omega
  have same : IbgdaPc.idle.phase (s.seen p) = s.phases p := by rw [phases, loaded]; rfl
  refine { h.stutter same trivial with refused := fun full mem => ?_ }
  rcases List.mem_append.mp mem with mem | mem
  · exact h.refused full mem
  · rw [List.mem_singleton.mp mem]
    exact h.witness whole p

theorem room (h : Inv s) (loaded : s.pc p = .loaded read idx) (behind : s.retired ≤ s.seen p)
    (some : wrapSub (2 ^ 16) idx s.q.cqHead < s.q.depth) :
    Inv { s with pc := Function.update s.pc p (.checked read idx) } := by
  have ok := h.pcs p
  rw [loaded] at ok
  obtain ⟨rfl, le⟩ := ok
  rw [h.difference behind le] at some
  have same : (IbgdaPc.checked read (s.seen p % 2 ^ 16)).phase (s.seen p) = s.phases p := by
    rw [phases, loaded]
    rfl
  exact h.stutter same ⟨rfl, le, fun _ => by omega⟩

theorem claim (h : Inv s) (checked : s.pc p = .checked read idx) (same : s.q.nextWqe = idx)
    (near : s.posted.length < s.seen p + 2 ^ 16) : Inv (observe { s with
      q := { s.q with nextWqe := (idx + 1) % 2 ^ 16 }
      pc := Function.update s.pc p (.claimed read idx)
      posted := s.posted ++ [read]
      seen := Function.update s.seen p s.posted.length }) := by
  have ok := h.pcs p
  rw [checked] at ok
  obtain ⟨idx_eq, le, room⟩ := ok
  -- the counter has not come round, so it has not moved
  have still : s.seen p = s.posted.length := by
    refine eq_of_slot_eq (by omega) near ?_
    rw [← idx_eq, ← same, h.nextWqe_eq]
  have phases : (fun q => (Function.update s.pc p (.claimed read idx) q).phase
      (Function.update s.seen p s.posted.length q)) =
        Function.update s.phases p (.claimed s.posted.length) := by
    funext q
    by_cases here : q = p
    · rw [here, Function.update_self, Function.update_self, Function.update_self]
      rfl
    · rw [Function.update_of_ne here, Function.update_of_ne here, Function.update_of_ne here]
      rfl
  refine { h with
    tickets := ?_, nextWqe_eq := ?_, pcs := fun q => ?_, witness := observe_full _ }
  · show TicketRing.Inv _ _ ⟨_, fun q => (Function.update s.pc p (.claimed read idx) q).phase
      (Function.update s.seen p s.posted.length q), _, _, _, _, _⟩
    rw [phases]
    exact h.tickets.claim (room still)
  · show (idx + 1) % 2 ^ 16 = (s.posted ++ [read]).length % 2 ^ 16
    rw [idx_eq, still, succ_mod_mod, List.length_append]
    rfl
  · by_cases here : q = p
    · subst here
      simp only [observe, Function.update_self]
      exact ⟨by rw [idx_eq, still], List.getElem?_concat_length⟩
    · simp only [observe, Function.update_of_ne here]
      exact (h.pcs q).posted [read] Nat.zero_lt_one

theorem write (h : Inv s) (claimed : s.pc p = .claimed read idx) : Inv { s with
    pc := Function.update s.pc p (.writing read idx)
    ring := Function.update s.ring (s.q.slot idx) none } := by
  have ok := h.pcs p
  rw [claimed] at ok
  have phase : s.phases p = .claimed (s.seen p) := by rw [phases, claimed]; rfl
  refine { h with tickets := ?_, pcs := pcs_update ok h.pcs }
  show TicketRing.Inv _ _ ⟨Function.update s.ring (s.q.slot idx) none,
    fun q => (Function.update s.pc p (.writing read idx) q).phase (s.seen q), _, _, _, _, _⟩
  rw [phases_update, ok.1, h.slot_eq]
  exact h.tickets.write phase

theorem wrote (h : Inv s) (writing : s.pc p = .writing read idx) : Inv { s with
    pc := Function.update s.pc p (.written read idx)
    ring := Function.update s.ring (s.q.slot idx) (some (.new s.q.qpn idx read)) } := by
  have ok := h.pcs p
  rw [writing] at ok
  have phase : s.phases p = .writing (s.seen p) := by rw [phases, writing]; rfl
  refine { h with tickets := ?_, pcs := pcs_update ok h.pcs }
  show TicketRing.Inv _ _ ⟨Function.update s.ring (s.q.slot idx) (some (.new s.q.qpn idx read)),
    fun q => (Function.update s.pc p (.written read idx) q).phase (s.seen q), _, _, _, _, _⟩
  rw [phases_update, ok.1, h.slot_eq]
  exact h.tickets.wrote phase ok.2

theorem await (h : Inv s) (written : s.pc p = .written read idx) (next : s.q.ready = idx) :
    Inv { s with pc := Function.update s.pc p (.turn read idx) } := by
  have ok := h.pcs p
  rw [written] at ok
  have phase : s.phases p = .written (s.seen p) := by rw [phases, written]; rfl
  have known := h.tickets.ok p
  rw [show s.tickets.phase p = .written (s.seen p) from phase] at known
  have first : s.seen p = s.done.length := by
    have ge : s.rung.length ≤ s.seen p := known.1
    have lt : s.seen p < s.posted.length := known.2.1
    have near : s.rung.length ≤ s.done.length + 1 := h.tickets.rung_le_done
    have done : s.done.length ≤ s.rung.length := h.tickets.done_le
    have := h.depth_le
    have := h.posted_le
    have := h.retired_le
    have := h.completed_le
    have same : s.seen p % 2 ^ 16 = s.done.length % 2 ^ 16 := by rw [← ok.1, ← next, h.ready_eq]
    exact eq_of_slot_eq (by omega) (by omega) same
  refine { h with tickets := ?_, pcs := pcs_update ok h.pcs }
  show TicketRing.Inv _ _
    ⟨_, fun q => (Function.update s.pc p (.turn read idx) q).phase (s.seen q), _, _, _, _, _⟩
  rw [phases_update]
  exact h.tickets.turn phase first

theorem ring (h : Inv s) (turn : s.pc p = .turn read idx) : Inv { s with
    q := { s.q with sendDb := (idx + 1) % 2 ^ 16 }
    pc := Function.update s.pc p (.rung read idx)
    doorbells := s.doorbells ++ [(idx + 1) % 2 ^ 16]
    rung := s.rung ++ [s.seen p] } := by
  have ok := h.pcs p
  rw [turn] at ok
  have phase : s.phases p = .turn (s.seen p) := by rw [phases, turn]; rfl
  have known := h.tickets.ok p
  rw [show s.tickets.phase p = .turn (s.seen p) from phase] at known
  have value : (idx + 1) % 2 ^ 16 = (s.seen p + 1) % 2 ^ 16 := by rw [ok.1, succ_mod_mod]
  refine { h with
    tickets := ?_, sendDb_eq := ?_, doorbells_eq := ?_, pcs := pcs_update ok h.pcs }
  · show TicketRing.Inv _ _
      ⟨_, fun q => (Function.update s.pc p (.rung read idx) q).phase (s.seen q), _, _, _, _, _⟩
    rw [phases_update]
    exact h.tickets.ring phase
  · show (idx + 1) % 2 ^ 16 = (s.rung ++ [s.seen p]).length % 2 ^ 16
    rw [value, ← show s.rung.length = s.seen p from known.2.1, List.length_append]
    rfl
  · show s.doorbells ++ [(idx + 1) % 2 ^ 16] = _
    rw [value, h.doorbells_eq, List.map_append]
    rfl

theorem finish (h : Inv s) (rung : s.pc p = .rung read idx) : Inv { s with
    q := { s.q with ready := (idx + 1) % 2 ^ 16 }
    pc := Function.update s.pc p .idle
    results := s.results ++ [(idx, read)]
    done := s.done ++ [(s.seen p, read)] } := by
  have ok := h.pcs p
  rw [rung] at ok
  have phase : s.phases p = .rung (s.seen p) := by rw [phases, rung]; rfl
  have known := h.tickets.ok p
  rw [show s.tickets.phase p = .rung (s.seen p) from phase] at known
  refine { h with
    tickets := ?_, ready_eq := ?_, results_eq := ?_, pcs := pcs_update trivial h.pcs }
  · show TicketRing.Inv _ _
      ⟨_, fun q => (Function.update s.pc p .idle q).phase (s.seen q), _, _, _, _, _⟩
    rw [phases_update]
    exact h.tickets.finish phase ok.2
  · show (idx + 1) % 2 ^ 16 = (s.done ++ [(s.seen p, read)]).length % 2 ^ 16
    rw [ok.1, succ_mod_mod, List.length_append, ← show s.seen p = s.done.length from known.1]
    rfl
  · show s.results ++ [(idx, read)] = _
    rw [h.results_eq, List.map_append, ok.1]
    rfl

theorem complete (h : Inv s)
    (covered : wrapSub (2 ^ 16) s.q.sendDb (s.completed % 2 ^ 16) ≠ 0) :
    Inv { s with completed := s.completed + 1 } := by
  rw [h.covered_eq] at covered
  exact { h with tickets := h.tickets.complete (Nat.lt_of_sub_ne_zero covered) }

theorem retire (h : Inv s) {n : Nat} (completed : s.retired + n ≤ s.completed) :
    Inv (observe { s with
      q := { s.q with cqHead := (s.q.cqHead + n) % 2 ^ 16 }
      retired := s.retired + n }) := by
  refine { h with
    tickets := h.tickets.retire completed, cqHead_eq := ?_, witness := observe_full _
    pcs := fun q => (h.pcs q).retire n }
  show (s.q.cqHead + n) % 2 ^ 16 = _
  rw [h.cqHead_eq, Nat.mod_add_mod]
  rfl

theorem step (h : Inv s) {act : IbgdaAct} (stepped : Step act s s') (fresh : Fresh act s) :
    Inv s' := by
  cases stepped with
  | call _ p read idle => exact h.call idle
  | loadNext _ p start => exact h.loadNext start
  | full _ p loaded none => exact h.full loaded fresh none
  | room _ p loaded some => exact h.room loaded fresh some
  | claim _ p checked same => exact h.claim checked same fresh
  | retry _ p checked =>
      exact h.stutter (by rw [phases, checked]; rfl) trivial
  | write _ p claimed => exact h.write claimed
  | wrote _ p writing => exact h.wrote writing
  | await _ p written next => exact h.await written next
  | ring _ p turn => exact h.ring turn
  | finish _ p rung => exact h.finish rung
  | complete _ covered => exact h.complete covered
  | retire _ n completed => exact h.retire completed

theorem run (h : Inv s) (ran : Runs Fresh s s') : Inv s' := by
  induction ran with
  | refl => exact h
  | tail _ last ih =>
      obtain ⟨act, stepped, fresh⟩ := last
      exact ih.step stepped fresh

theorem publishesInOrder (h : Inv s) : PublishesInOrder s := by
  refine ⟨inOrder_of_tickets h.tickets h.slot_eq h.sendDb_eq h.doorbells_eq h.results_eq ?_,
    h.refused⟩
  intro p read idx i mine
  have ok := h.pcs p
  show (s.phases p = _ ∨ s.phases p = _) ∧ _
  rw [phases]
  revert ok mine
  cases s.pc p with
  | claimed read' idx' =>
      intro mine ok
      obtain ⟨rfl, rfl, rfl⟩ := Prod.mk.inj (Option.some.inj mine)
      exact ⟨.inl rfl, ok⟩
  | writing read' idx' =>
      intro mine ok
      obtain ⟨rfl, rfl, rfl⟩ := Prod.mk.inj (Option.some.inj mine)
      exact ⟨.inr rfl, ok⟩
  | _ => nofun

end Inv

end IbgdaSystem

end AetherGraph
