import AetherGraph.IbgdaQueue
import Mathlib.Algebra.BigOperators.Group.Finset.Piecewise

/-! The same queue posted to from the device.  The host launches a thread an entry and keeps the
entries within the free slots; a thread claims with an atomic add and publishes as the host's
producers do, on 32-bit counters. -/

namespace AetherGraph

open Foundation

structure IbgdaPoster where
  qpn : Nat
  depth : Nat
  claimed : Nat
  ready : Nat
  posted : Nat
  retired : Nat
  deriving DecidableEq, Repr

namespace IbgdaPoster

def new (qpn depth : Nat) : Except String IbgdaPoster :=
  if depth = 0 ∨ depth ≠ 2 ^ Nat.log2 depth ∨ 1 <<< 16 < depth then
    .error "IBGDA depth must be a power of two in 1..=65536"
  else if 0xffffff < qpn then .error "mlx5 QPN exceeds 24 bits"
  else .ok ⟨qpn, depth, 0, 0, 0, 0⟩

def inFlight (p : IbgdaPoster) : Nat := p.posted - p.retired

def retire (p : IbgdaPoster) (n : Nat) : Except String IbgdaPoster :=
  let inFlight := p.inFlight
  if inFlight < n then .error s!"retiring {n} WQEs but only {inFlight} in flight"
  else .ok { p with retired := p.retired + n }

/-- What `post` checks before it launches: the buffers in bytes and words, and the free slots. -/
def post (p : IbgdaPoster) (ringBytes dbrWords count : Nat) : Except String IbgdaPoster :=
  let need := p.depth * 64
  let depth := p.depth
  let free := p.depth - p.inFlight
  if count = 0 then .ok p
  else if ringBytes < need then
    .error s!"ring holds {ringBytes} bytes, needs {need} for {depth} WQEs"
  else if dbrWords < 2 then .error "doorbell record needs two words"
  else if free < count then
    .error s!"{count} WQEs exceed the {free} free send-queue slots; retire completions first"
  else if 2 ^ 31 ≤ count then .error "out of range integral type conversion attempted"
  else .ok { p with posted := p.posted + count }

end IbgdaPoster

/-- Where a thread is in `ibgda_post_rdma_read`. -/
inductive PosterPc where
  | out
  | launched (read : RdmaRead)
  | claimed (read : RdmaRead) (idx : Nat)
  | writing (read : RdmaRead) (idx : Nat)
  | written (read : RdmaRead) (idx : Nat)
  | turn (read : RdmaRead) (idx : Nat)
  | rung (read : RdmaRead) (idx : Nat)
  deriving DecidableEq, Repr

/-- Threads are numbered over all launches.  The index a thread holds is the 32-bit one. -/
structure PosterSystem where
  host : IbgdaPoster
  ring : Nat → Option Mlx5RdmaReadWqe
  sendDb : Nat
  pc : Nat → PosterPc
  doorbells : List Nat
  results : List (Nat × RdmaRead)
  posted : List RdmaRead
  rung : List Nat
  done : List (Nat × RdmaRead)
  completed : Nat
  seen : Nat → Nat

namespace PosterSystem

def start (host : IbgdaPoster) (ring : Nat → Option Mlx5RdmaReadWqe) : PosterSystem :=
  ⟨host, ring, 0, fun _ => .out, [], [], [], [], [], 0, fun _ => 0⟩

def slot (s : PosterSystem) (idx : Nat) : Nat := idx &&& 0xffff &&& (s.host.depth - 1)

/-- The threads of a launch, numbered past those before. -/
def launch (s : PosterSystem) (reads : List RdmaRead) (t : Nat) : PosterPc :=
  if s.host.posted ≤ t then
    match reads[t - s.host.posted]? with
    | some read => .launched read
    | none => s.pc t
  else s.pc t

inductive Step : PosterSystem → PosterSystem → Prop
  | post (s : PosterSystem) (ringBytes dbrWords : Nat) (reads : List RdmaRead) {host : IbgdaPoster}
      (ok : s.host.post ringBytes dbrWords reads.length = .ok host) :
      Step s { s with host := host, pc := s.launch reads }
  | claim (s : PosterSystem) (t : Nat) {read : RdmaRead} (launched : s.pc t = .launched read) :
      Step s { s with
        host := { s.host with claimed := (s.host.claimed + 1) % 2 ^ 32 }
        pc := Function.update s.pc t (.claimed read s.host.claimed)
        posted := s.posted ++ [read]
        seen := Function.update s.seen t s.posted.length }
  | write (s : PosterSystem) (t : Nat) {read : RdmaRead} {idx : Nat}
      (claimed : s.pc t = .claimed read idx) :
      Step s { s with
        pc := Function.update s.pc t (.writing read idx)
        ring := Function.update s.ring (s.slot idx) none }
  | wrote (s : PosterSystem) (t : Nat) {read : RdmaRead} {idx : Nat}
      (writing : s.pc t = .writing read idx) :
      Step s { s with
        pc := Function.update s.pc t (.written read idx)
        ring := Function.update s.ring (s.slot idx)
          (some (.new s.host.qpn (idx &&& 0xffff) read)) }
  | await (s : PosterSystem) (t : Nat) {read : RdmaRead} {idx : Nat}
      (written : s.pc t = .written read idx) (next : s.host.ready = idx) :
      Step s { s with pc := Function.update s.pc t (.turn read idx) }
  | ring (s : PosterSystem) (t : Nat) {read : RdmaRead} {idx : Nat}
      (turn : s.pc t = .turn read idx) :
      Step s { s with
        sendDb := (idx + 1) % 2 ^ 32 &&& 0xffff
        pc := Function.update s.pc t (.rung read idx)
        doorbells := s.doorbells ++ [(idx + 1) % 2 ^ 32 &&& 0xffff]
        rung := s.rung ++ [s.seen t] }
  | finish (s : PosterSystem) (t : Nat) {read : RdmaRead} {idx : Nat}
      (rung : s.pc t = .rung read idx) :
      Step s { s with
        host := { s.host with ready := (idx + 1) % 2 ^ 32 }
        pc := Function.update s.pc t .out
        results := s.results ++ [(idx &&& 0xffff, read)]
        done := s.done ++ [(s.seen t, read)] }
  | complete (s : PosterSystem)
      (covered : wrapSub (2 ^ 16) s.sendDb (s.completed % 2 ^ 16) ≠ 0) :
      Step s { s with completed := s.completed + 1 }
  | retire (s : PosterSystem) (n : Nat) {host : IbgdaPoster} (ok : s.host.retire n = .ok host)
      (completed : s.host.retired + n ≤ s.completed) :
      Step s { s with host := host }

end PosterSystem

/-- The request, index and ticket of a thread that has yet to finish writing its entry. -/
def PosterPc.unwritten (seen : Nat) : PosterPc → Option (RdmaRead × Nat × Nat)
  | .claimed read idx | .writing read idx => some (read, idx &&& 0xffff, seen)
  | _ => none

def PosterPc.phase (seen : Nat) : PosterPc → TicketPhase
  | .out | .launched _ => .out
  | .claimed _ _ => .claimed seen
  | .writing _ _ => .writing seen
  | .written _ _ => .written seen
  | .turn _ _ => .turn seen
  | .rung _ _ => .rung seen

def PosterPc.waits : PosterPc → Bool
  | .launched _ => true
  | _ => false

namespace PosterSystem

/-- The kernel keeps the host's publication order. -/
def PublishesInOrder (s : PosterSystem) : Prop :=
  InOrder s.host.qpn s.slot s.ring s.sendDb s.doorbells s.results s.posted s.completed
    s.host.retired fun t => (s.pc t).unwritten (s.seen t)

def phases (s : PosterSystem) (t : Nat) : TicketPhase := (s.pc t).phase (s.seen t)

def tickets (s : PosterSystem) : TicketRing Nat RdmaRead Mlx5RdmaReadWqe :=
  ⟨s.ring, s.phases, s.posted, s.rung, s.done, s.completed, s.host.retired⟩

/-- The threads launched that have claimed nothing. -/
def waiting (s : PosterSystem) : Finset Nat :=
  (Finset.range s.host.posted).filter fun t => (s.pc t).waits

/-- What a thread's index says of its ticket. -/
def PcOk (launches : Nat) (posted : List RdmaRead) (t seen : Nat) : PosterPc → Prop
  | .out => True
  | .launched _ => t < launches
  | .claimed read idx | .writing read idx | .written read idx | .turn read idx
  | .rung read idx => t < launches ∧ idx = seen % 2 ^ 32 ∧ posted[seen]? = some read

structure Inv (s : PosterSystem) : Prop where
  depth_pow : ∃ k ≤ 16, s.host.depth = 2 ^ k
  tickets : TicketRing.Inv (ibgdaEntry s.host.qpn) s.host.depth s.tickets
  claimed_eq : s.host.claimed = s.posted.length % 2 ^ 32
  ready_eq : s.host.ready = s.done.length % 2 ^ 32
  sendDb_eq : s.sendDb = s.rung.length % 2 ^ 16
  doorbells_eq : s.doorbells = s.rung.map fun i => (i + 1) % 2 ^ 16
  results_eq : s.results = s.done.map fun (i, read) => (i % 2 ^ 16, read)
  pcs : ∀ t, PcOk s.host.posted s.posted t (s.seen t) (s.pc t)
  launches : s.waiting.card + s.posted.length = s.host.posted
  room : s.host.posted ≤ s.host.retired + s.host.depth

variable {s s' : PosterSystem} {t : Nat} {read : RdmaRead} {idx : Nat}

theorem low_bits (i : Nat) : i % 2 ^ 32 &&& 0xffff = i % 2 ^ 16 :=
  mask_mod (by decide : 16 ≤ 32) i

/-- A thread's move is seen in its own phase only. -/
theorem phases_update (s : PosterSystem) (t : Nat) (pc : PosterPc) :
    (fun q => (Function.update s.pc t pc q).phase (s.seen q)) =
      Function.update s.phases t (pc.phase (s.seen t)) :=
  funext fun q => Function.apply_update (fun q pc => PosterPc.phase (s.seen q) pc) s.pc t pc q

theorem pcs_update {launches : Nat} {posted : List RdmaRead} {pc : PosterPc}
    (mine : PcOk launches posted t (s.seen t) pc)
    (others : ∀ q, PcOk launches posted q (s.seen q) (s.pc q)) :
    ∀ q, PcOk launches posted q (s.seen q) (Function.update s.pc t pc q) := by
  intro q
  by_cases here : q = t
  · rw [here, Function.update_self]
    exact mine
  · rw [Function.update_of_ne here]
    exact others q

theorem PcOk.posted {launches seen : Nat} {posted : List RdmaRead} {pc : PosterPc}
    (ok : PcOk launches posted t seen pc) (more : List RdmaRead) :
    PcOk launches (posted ++ more) t seen pc := by
  have keep : ∀ {read}, posted[seen]? = .some read → (posted ++ more)[seen]? = .some read := by
    intro read at_
    rw [List.getElem?_append_left (List.getElem?_eq_some_iff.mp at_).1, at_]
  cases pc with
  | out => trivial
  | launched => exact ok
  | claimed => exact ⟨ok.1, ok.2.1, keep ok.2.2⟩
  | writing => exact ⟨ok.1, ok.2.1, keep ok.2.2⟩
  | written => exact ⟨ok.1, ok.2.1, keep ok.2.2⟩
  | turn => exact ⟨ok.1, ok.2.1, keep ok.2.2⟩
  | rung => exact ⟨ok.1, ok.2.1, keep ok.2.2⟩

theorem PcOk.launches {launches more seen : Nat} {posted : List RdmaRead} {pc : PosterPc}
    (ok : PcOk launches posted t seen pc) : PcOk (launches + more) posted t seen pc := by
  cases pc with
  | out => trivial
  | launched => exact Nat.lt_add_right more ok
  | claimed => exact ⟨Nat.lt_add_right more ok.1, ok.2⟩
  | writing => exact ⟨Nat.lt_add_right more ok.1, ok.2⟩
  | written => exact ⟨Nat.lt_add_right more ok.1, ok.2⟩
  | turn => exact ⟨Nat.lt_add_right more ok.1, ok.2⟩
  | rung => exact ⟨Nat.lt_add_right more ok.1, ok.2⟩

theorem start_inv {qpn depth : Nat} {host : IbgdaPoster}
    (new : IbgdaPoster.new qpn depth = .ok host) (ring : Nat → Option Mlx5RdmaReadWqe) : Inv (start host ring) := by
  unfold IbgdaPoster.new at new
  split at new
  · cases new
  rename_i good
  split at new
  · cases new
  obtain rfl := Except.ok.inj new
  rw [not_or, not_or, not_not] at good
  have log : Nat.log2 depth ≤ 16 := by
    have small : depth < 2 ^ 17 := Nat.lt_of_le_of_lt (Nat.le_of_not_lt good.2.2) (by decide)
    exact Nat.le_of_lt_succ ((Nat.log2_lt good.1).mpr small)
  exact {
    depth_pow := ⟨_, log, good.2.1⟩, tickets := TicketRing.start_inv ring
    claimed_eq := rfl, ready_eq := rfl, sendDb_eq := rfl, doorbells_eq := rfl, results_eq := rfl
    pcs := fun _ => trivial, launches := rfl, room := Nat.zero_le _ }

namespace Inv

theorem slot_eq (h : Inv s) (i : Nat) : s.slot (i % 2 ^ 16) = i % s.host.depth := by
  obtain ⟨k, le, eq⟩ := h.depth_pow
  have low : i % 2 ^ 16 &&& 0xffff = i % 2 ^ 16 := mask_mod (by decide : 16 ≤ 16) i
  rw [slot, low, eq, mask_mod le]

theorem slot_index (h : Inv s) (i : Nat) : s.slot (i % 2 ^ 32) = i % s.host.depth := by
  rw [← h.slot_eq i, slot, slot, low_bits]
  rw [show i % 2 ^ 16 &&& 0xffff = i % 2 ^ 16 from mask_mod (by decide : 16 ≤ 16) i]

/-- A thread moves without starting or ending its wait for a ticket. -/
theorem waiting_update (s : PosterSystem) {pc : PosterPc} (same : pc.waits = (s.pc t).waits) :
    ((Finset.range s.host.posted).filter fun q => (Function.update s.pc t pc q).waits) =
      s.waiting := by
  refine Finset.filter_congr fun q _ => ?_
  by_cases here : q = t
  · rw [here, Function.update_self, same]
  · rw [Function.update_of_ne here]

theorem claim (h : Inv s) (launched : s.pc t = .launched read) : Inv { s with
    host := { s.host with claimed := (s.host.claimed + 1) % 2 ^ 32 }
    pc := Function.update s.pc t (.claimed read s.host.claimed)
    posted := s.posted ++ [read]
    seen := Function.update s.seen t s.posted.length } := by
  have ok := h.pcs t
  rw [launched] at ok
  have mem : t ∈ s.waiting :=
    Finset.mem_filter.mpr ⟨Finset.mem_range.mpr ok, by rw [launched]; rfl⟩
  have fewer : ((Finset.range s.host.posted).filter fun q =>
      (Function.update s.pc t (.claimed read s.host.claimed) q).waits) = s.waiting.erase t := by
    ext q
    rw [Finset.mem_erase, waiting, Finset.mem_filter, Finset.mem_filter]
    by_cases here : q = t
    · rw [here, Function.update_self]
      simp [PosterPc.waits]
    · rw [Function.update_of_ne here]
      simp [here]
  have phases : (fun q => (Function.update s.pc t (.claimed read s.host.claimed) q).phase
      (Function.update s.seen t s.posted.length q)) =
        Function.update s.phases t (.claimed s.posted.length) := by
    funext q
    by_cases here : q = t
    · rw [here, Function.update_self, Function.update_self, Function.update_self]
      rfl
    · rw [Function.update_of_ne here, Function.update_of_ne here, Function.update_of_ne here]
      rfl
  have some_ := Finset.card_pos.mpr ⟨t, mem⟩
  have launches := h.launches
  have room := h.room
  refine { h with tickets := ?_, claimed_eq := ?_, pcs := fun q => ?_, launches := ?_ }
  · show TicketRing.Inv _ _ ⟨_, fun q => (Function.update s.pc t (.claimed read s.host.claimed)
      q).phase (Function.update s.seen t s.posted.length q), _, _, _, _, _⟩
    rw [phases]
    exact h.tickets.claim (show s.posted.length < s.host.retired + s.host.depth by omega)
  · show (s.host.claimed + 1) % 2 ^ 32 = (s.posted ++ [read]).length % 2 ^ 32
    rw [h.claimed_eq, succ_mod_mod, List.length_append]
    rfl
  · by_cases here : q = t
    · subst here
      simp only [Function.update_self]
      exact ⟨ok, h.claimed_eq, List.getElem?_concat_length⟩
    · simp only [Function.update_of_ne here]
      exact (h.pcs q).posted [read]
  · show (Finset.filter _ _).card + (s.posted ++ [read]).length = _
    rw [fewer, Finset.card_erase_of_mem mem, List.length_append, List.length_singleton]
    dsimp only
    omega

theorem write (h : Inv s) (claimed : s.pc t = .claimed read idx) : Inv { s with
    pc := Function.update s.pc t (.writing read idx)
    ring := Function.update s.ring (s.slot idx) none } := by
  have ok := h.pcs t
  rw [claimed] at ok
  have phase : s.phases t = .claimed (s.seen t) := by rw [phases, claimed]; rfl
  refine { h with tickets := ?_, pcs := pcs_update ok h.pcs, launches := ?_ }
  · show TicketRing.Inv _ _ ⟨Function.update s.ring (s.slot idx) none,
      fun q => (Function.update s.pc t (.writing read idx) q).phase (s.seen q), _, _, _, _, _⟩
    rw [phases_update, ok.2.1, h.slot_index]
    exact h.tickets.write phase
  · show (Finset.filter _ _).card + _ = _
    rw [waiting_update s (by rw [claimed]; rfl)]
    exact h.launches

theorem wrote (h : Inv s) (writing : s.pc t = .writing read idx) : Inv { s with
    pc := Function.update s.pc t (.written read idx)
    ring := Function.update s.ring (s.slot idx)
      (some (.new s.host.qpn (idx &&& 0xffff) read)) } := by
  have ok := h.pcs t
  rw [writing] at ok
  have phase : s.phases t = .writing (s.seen t) := by rw [phases, writing]; rfl
  refine { h with tickets := ?_, pcs := pcs_update ok h.pcs, launches := ?_ }
  · show TicketRing.Inv _ _ ⟨Function.update s.ring (s.slot idx)
        (some (.new s.host.qpn (idx &&& 0xffff) read)),
      fun q => (Function.update s.pc t (.written read idx) q).phase (s.seen q), _, _, _, _, _⟩
    rw [phases_update, ok.2.1, h.slot_index, low_bits]
    exact h.tickets.wrote phase ok.2.2
  · show (Finset.filter _ _).card + _ = _
    rw [waiting_update s (by rw [writing]; rfl)]
    exact h.launches

theorem await (h : Inv s) (written : s.pc t = .written read idx) (next : s.host.ready = idx) :
    Inv { s with pc := Function.update s.pc t (.turn read idx) } := by
  have ok := h.pcs t
  rw [written] at ok
  have phase : s.phases t = .written (s.seen t) := by rw [phases, written]; rfl
  have known := h.tickets.ok t
  rw [show s.tickets.phase t = .written (s.seen t) from phase] at known
  have first : s.seen t = s.done.length := by
    have ge : s.rung.length ≤ s.seen t := known.1
    have lt : s.seen t < s.posted.length := known.2.1
    have near : s.rung.length ≤ s.done.length + 1 := h.tickets.rung_le_done
    have done : s.done.length ≤ s.rung.length := h.tickets.done_le
    have posted : s.posted.length ≤ s.host.retired + s.host.depth := h.tickets.posted_le
    have retired : s.host.retired ≤ s.completed := h.tickets.retired_le
    have completed : s.completed ≤ s.rung.length := h.tickets.completed_le
    have depth : s.host.depth ≤ 2 ^ 16 := by
      obtain ⟨k, le, eq⟩ := h.depth_pow
      rw [eq]
      exact Nat.pow_le_pow_right (by decide) le
    have same : s.seen t % 2 ^ 32 = s.done.length % 2 ^ 32 := by
      rw [← ok.2.1, ← next, h.ready_eq]
    exact eq_of_slot_eq (by omega) (by omega) same
  refine { h with tickets := ?_, pcs := pcs_update ok h.pcs, launches := ?_ }
  · show TicketRing.Inv _ _
      ⟨_, fun q => (Function.update s.pc t (.turn read idx) q).phase (s.seen q), _, _, _, _, _⟩
    rw [phases_update]
    exact h.tickets.turn phase first
  · show (Finset.filter _ _).card + _ = _
    rw [waiting_update s (by rw [written]; rfl)]
    exact h.launches

theorem ring (h : Inv s) (turn : s.pc t = .turn read idx) : Inv { s with
    sendDb := (idx + 1) % 2 ^ 32 &&& 0xffff
    pc := Function.update s.pc t (.rung read idx)
    doorbells := s.doorbells ++ [(idx + 1) % 2 ^ 32 &&& 0xffff]
    rung := s.rung ++ [s.seen t] } := by
  have ok := h.pcs t
  rw [turn] at ok
  have phase : s.phases t = .turn (s.seen t) := by rw [phases, turn]; rfl
  have known := h.tickets.ok t
  rw [show s.tickets.phase t = .turn (s.seen t) from phase] at known
  have value : (idx + 1) % 2 ^ 32 &&& 0xffff = (s.seen t + 1) % 2 ^ 16 := by
    rw [ok.2.1, succ_mod_mod, low_bits]
  refine { h with
    tickets := ?_, sendDb_eq := ?_, doorbells_eq := ?_, pcs := pcs_update ok h.pcs, launches := ?_ }
  · show TicketRing.Inv _ _
      ⟨_, fun q => (Function.update s.pc t (.rung read idx) q).phase (s.seen q), _, _, _, _, _⟩
    rw [phases_update]
    exact h.tickets.ring phase
  · show (idx + 1) % 2 ^ 32 &&& 0xffff = (s.rung ++ [s.seen t]).length % 2 ^ 16
    rw [value, ← show s.rung.length = s.seen t from known.2.1, List.length_append]
    rfl
  · show s.doorbells ++ [(idx + 1) % 2 ^ 32 &&& 0xffff] = _
    rw [value, h.doorbells_eq, List.map_append]
    rfl
  · show (Finset.filter _ _).card + _ = _
    rw [waiting_update s (by rw [turn]; rfl)]
    exact h.launches

theorem finish (h : Inv s) (rung : s.pc t = .rung read idx) : Inv { s with
    host := { s.host with ready := (idx + 1) % 2 ^ 32 }
    pc := Function.update s.pc t .out
    results := s.results ++ [(idx &&& 0xffff, read)]
    done := s.done ++ [(s.seen t, read)] } := by
  have ok := h.pcs t
  rw [rung] at ok
  have phase : s.phases t = .rung (s.seen t) := by rw [phases, rung]; rfl
  have known := h.tickets.ok t
  rw [show s.tickets.phase t = .rung (s.seen t) from phase] at known
  refine { h with
    tickets := ?_, ready_eq := ?_, results_eq := ?_, pcs := pcs_update trivial h.pcs
    launches := ?_ }
  · show TicketRing.Inv _ _
      ⟨_, fun q => (Function.update s.pc t .out q).phase (s.seen q), _, _, _, _, _⟩
    rw [phases_update]
    exact h.tickets.finish phase ok.2.2
  · show (idx + 1) % 2 ^ 32 = (s.done ++ [(s.seen t, read)]).length % 2 ^ 32
    rw [ok.2.1, succ_mod_mod, List.length_append, ← show s.seen t = s.done.length from known.1]
    rfl
  · show s.results ++ [(idx &&& 0xffff, read)] = _
    rw [h.results_eq, List.map_append, ok.2.1, low_bits]
    rfl
  · show (Finset.filter _ _).card + _ = _
    rw [waiting_update s (by rw [rung]; rfl)]
    exact h.launches

theorem complete (h : Inv s) (covered : wrapSub (2 ^ 16) s.sendDb (s.completed % 2 ^ 16) ≠ 0) :
    Inv { s with completed := s.completed + 1 } := by
  have le : s.completed ≤ s.rung.length := h.tickets.completed_le
  rw [h.sendDb_eq, wrapSub_eq (by decide) le] at covered
  have more : s.completed < s.rung.length := by omega
  exact { h with tickets := h.tickets.complete more }

theorem retire (h : Inv s) {n : Nat} {host : IbgdaPoster} (ok : s.host.retire n = .ok host)
    (completed : s.host.retired + n ≤ s.completed) : Inv { s with host := host } := by
  unfold IbgdaPoster.retire at ok
  dsimp only at ok
  split at ok
  · cases ok
  obtain rfl := Except.ok.inj ok
  exact { h with
    tickets := h.tickets.retire completed
    room := h.room.trans (by dsimp only; omega) }

theorem retired_le (h : Inv s) : s.host.retired ≤ s.host.posted := by
  have retired : s.host.retired ≤ s.completed := h.tickets.retired_le
  have completed : s.completed ≤ s.rung.length := h.tickets.completed_le
  have rung : s.rung.length ≤ s.posted.length := h.tickets.rung_le
  have := h.launches
  omega

theorem launch_old (reads : List RdmaRead) (old : t < s.host.posted) :
    s.launch reads t = s.pc t := if_neg (Nat.not_le_of_lt old)

theorem launch_new {reads : List RdmaRead} (new : t < reads.length) :
    s.launch reads (s.host.posted + t) = .launched reads[t] := by
  rw [launch, if_pos (Nat.le_add_right _ _), Nat.add_sub_cancel_left,
    List.getElem?_eq_getElem new]

theorem launch_cases (s : PosterSystem) (reads : List RdmaRead) (t : Nat) :
    s.launch reads t = s.pc t ∨ s.host.posted ≤ t ∧ t < s.host.posted + reads.length ∧
      ∃ read, s.launch reads t = .launched read := by
  unfold launch
  split
  · rename_i ge
    split
    · rename_i read at_
      have lt := (List.getElem?_eq_some_iff.mp at_).1
      exact .inr ⟨ge, by omega, read, rfl⟩
    · exact .inl rfl
  · exact .inl rfl

theorem phases_launch (h : Inv s) (reads : List RdmaRead) :
    (fun t => (s.launch reads t).phase (s.seen t)) = s.phases := by
  funext t
  rcases launch_cases s reads t with same | ⟨ge, -, read, new⟩
  · rw [same]
    rfl
  · -- no thread so numbered has run
    have ok := h.pcs t
    rw [new, phases]
    cases at_ : s.pc t with
    | out => rfl
    | launched => rfl
    | _ =>
        rw [at_] at ok
        exact absurd ok.1 (Nat.not_lt_of_le ge)

theorem waiting_launch (s : PosterSystem) (reads : List RdmaRead) :
    ((Finset.range (s.host.posted + reads.length)).filter fun t =>
      (s.launch reads t).waits).card = s.waiting.card + reads.length := by
  rw [Finset.card_filter, Finset.sum_range_add, waiting, Finset.card_filter]
  refine congrArg₂ (· + ·) (Finset.sum_congr rfl fun t ht => ?_) ?_
  · rw [launch_old reads (Finset.mem_range.mp ht)]
  · have each : ∀ t ∈ Finset.range reads.length,
        (if (s.launch reads (s.host.posted + t)).waits = true then 1 else 0) = 1 := by
      intro t ht
      rw [launch_new (Finset.mem_range.mp ht)]
      rfl
    rw [Finset.sum_congr rfl each, ← Finset.card_eq_sum_ones, Finset.card_range]

theorem post_ok {p host : IbgdaPoster} {ringBytes dbrWords count : Nat}
    (ok : p.post ringBytes dbrWords count = .ok host) :
    host = { p with posted := p.posted + count } ∧ count ≤ p.depth - p.inFlight := by
  unfold IbgdaPoster.post at ok
  dsimp only at ok
  split at ok
  · rename_i none
    rw [none]
    exact ⟨(Except.ok.inj ok).symm, Nat.zero_le _⟩
  split at ok
  · cases ok
  split at ok
  · cases ok
  split at ok
  · cases ok
  rename_i fits
  split at ok
  · cases ok
  exact ⟨(Except.ok.inj ok).symm, Nat.le_of_not_lt fits⟩

theorem post (h : Inv s) {ringBytes dbrWords : Nat} {reads : List RdmaRead} {host : IbgdaPoster}
    (ok : s.host.post ringBytes dbrWords reads.length = .ok host) :
    Inv { s with host := host, pc := s.launch reads } := by
  obtain ⟨rfl, fits⟩ := post_ok ok
  refine { h with tickets := ?_, pcs := fun t => ?_, launches := ?_, room := ?_ }
  · show TicketRing.Inv _ _ ⟨_, fun t => (s.launch reads t).phase (s.seen t), _, _, _, _, _⟩
    rw [phases_launch h]
    exact h.tickets
  · rcases launch_cases s reads t with same | ⟨-, lt, read, new⟩
    · show PcOk _ _ _ _ (s.launch reads t)
      rw [same]
      exact (h.pcs t).launches
    · show PcOk _ _ _ _ (s.launch reads t)
      rw [new]
      exact lt
  · show (Finset.filter (fun t => (s.launch reads t).waits = true) _).card + _ = _
    rw [waiting_launch]
    have := h.launches
    dsimp only
    omega
  · have room := h.room
    have retired := h.retired_le
    rw [IbgdaPoster.inFlight] at fits
    dsimp only
    omega

theorem step (h : Inv s) (stepped : Step s s') : Inv s' := by
  cases stepped with
  | post ringBytes dbrWords reads ok => exact h.post ok
  | claim t launched => exact h.claim launched
  | write t claimed => exact h.write claimed
  | wrote t writing => exact h.wrote writing
  | await t written next => exact h.await written next
  | ring t turn => exact h.ring turn
  | finish t rung => exact h.finish rung
  | complete covered => exact h.complete covered
  | retire n ok completed => exact h.retire ok completed

theorem run (h : Inv s) (ran : Relation.ReflTransGen Step s s') : Inv s' := by
  induction ran with
  | refl => exact h
  | tail _ last ih => exact ih.step last

theorem publishesInOrder (h : Inv s) : PublishesInOrder s := by
  refine inOrder_of_tickets h.tickets h.slot_eq h.sendDb_eq h.doorbells_eq h.results_eq ?_
  intro t read idx i mine
  have ok := h.pcs t
  show (s.phases t = _ ∨ s.phases t = _) ∧ _
  rw [phases]
  revert ok mine
  cases s.pc t with
  | claimed read' idx' =>
      intro mine ok
      obtain ⟨rfl, rfl, rfl⟩ := Prod.mk.inj (Option.some.inj mine)
      exact ⟨.inl rfl, by rw [ok.2.1, low_bits], ok.2.2⟩
  | writing read' idx' =>
      intro mine ok
      obtain ⟨rfl, rfl, rfl⟩ := Prod.mk.inj (Option.some.inj mine)
      exact ⟨.inr rfl, by rw [ok.2.1, low_bits], ok.2.2⟩
  | _ => nofun

end Inv

end PosterSystem

end AetherGraph
