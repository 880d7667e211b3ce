import AetherGraph.FeatureGather
import Mathlib.Data.List.Range

/-! The batch read of a ring: the program from its checks through the push phase to the drain, and
the kernel that takes entries and posts completions between any two of its steps. -/

namespace AetherGraph

/-- An error with the errno behind it, if there is one. -/
structure RingError where
  errno : Option Nat
  text : String
  deriving DecidableEq, Repr

inductive Opcode where
  | read
  | readFixed
  deriving DecidableEq, Repr

/-- A file by descriptor or by its registered index. -/
inductive Target where
  | fd (fd : Int)
  | fixed (idx : Nat)
  deriving DecidableEq, Repr

/-- A submission queue entry. -/
structure Sqe where
  opcode : Opcode
  target : Target
  dest : Nat
  len : Nat
  offset : Nat
  userData : Nat
  deriving DecidableEq, Repr

/-- A completion queue entry. -/
structure Cqe where
  userData : Nat
  result : Int
  deriving DecidableEq, Repr

/-- What a batch reads of its ring's handle. -/
structure UringHandle where
  entries : Nat
  cqEntries : Nat
  isSqpoll : Bool
  registeredFd : Option Nat
  registeredBuf : Option (Nat × Nat)

namespace UringHandle

variable (handle : UringHandle)

/-- Cadence of the push phase. -/
def pipelineStride : Nat := max (handle.entries / 4) 1

def cqCapacity : Nat := max handle.cqEntries 1

/-- The read lands entirely inside the registered region. -/
def inRegisteredBuf (ptr len : Nat) : Bool :=
  match handle.registeredBuf with
  | some (base, regionLen) =>
      decide (base ≤ ptr) && decide (len ≤ regionLen) && decide (ptr - base ≤ regionLen - len)
  | none => false

def buildEntry (fd : Int) (i : Nat) (r : Read) : Sqe :=
  { opcode := if handle.inRegisteredBuf r.dest r.len then .readFixed else .read
    target := handle.registeredFd.elim (.fd fd) .fixed
    dest := r.dest
    len := r.len
    offset := r.offset
    userData := i }

end UringHandle

/-- An enter that clears on retry: `EINTR`, `EAGAIN`, `EBUSY`. -/
def isTransientEnterError (errno : Nat) : Bool := errno = 4 || errno = 11 || errno = 16

/-- The program's place in the batch; `i` is the read at hand. -/
inductive BatchPc where
  | start
  | next (i : Nat)
  | wait (i waitFailures : Nat)
  | reapWait (i waitFailures : Nat)
  | push (i kickFailures : Nat)
  | stride (i : Nat)
  | reapStride (i : Nat)
  | sync
  | submit
  | drain (waitFailures : Nat)
  | drainWait (waitFailures : Nat)
  | returned (result : Except RingError Unit)
  | aborted

/-- The rings and the program.  The submission queue holds what the kernel has not taken, the first
`published` entries visible to it, and `unseen` is what it took since the program last looked.
`stale` are completions from before the batch.  Two fields record what happened: `seen`, the
completions reaped, and `refused`, that a kick failed for good or the last submit failed. -/
structure BatchState where
  pc : BatchPc
  sq : List Sqe
  published : Nat
  unseen : Nat
  inflight : List Sqe
  cq : List Cqe
  stale : List Cqe
  submitted : Nat
  completed : Nat
  firstErr : Option RingError
  seen : List Cqe
  refused : Bool

namespace BatchState

variable (handle : UringHandle) (fd : Int) (reads : List Read) (s : BatchState)

/-- `sq.sync()`: the tail is published, the head read again. -/
def syncSq : BatchState := { s with published := s.sq.length, unseen := 0 }

/-- Records one completion; the first error stays. -/
def processCqe (firstErr : Option RingError) (cqe : Cqe) : Option RingError :=
  match reads[cqe.userData]? with
  | none =>
      firstErr.or (some ⟨none, s!"io_uring completion with unknown user_data {cqe.userData}"⟩)
  | some r =>
      if cqe.result < 0 then
        firstErr.or (some ⟨some cqe.result.natAbs, s!"io_uring read at offset {r.offset}"⟩)
      else if cqe.result < r.len then
        firstErr.or (some ⟨none, s!"io_uring short read at offset {r.offset}: " ++
          s!"got {cqe.result} bytes, expected {r.len} (file may be truncated or corrupted)"⟩)
      else firstErr

/-- `cq.sync()` and the loop over what is there. -/
def reap : BatchState :=
  { s with
    cq := []
    completed := s.completed + s.cq.length
    firstErr := s.cq.foldl (processCqe reads) s.firstErr
    seen := s.seen ++ s.cq }

/-- The submission queue, as the program last saw it, has room. -/
def hasRoom : Bool := decide (s.sq.length + s.unseen < handle.entries)

/-- `break 'push` with an error. -/
def breakPush (e : RingError) : BatchState := { s with pc := .sync, firstErr := some e }

/-- The checks before the ring is touched, and the discard of stale completions. -/
def begin : BatchState :=
  if reads = [] then { s with pc := .returned (.ok ()) }
  else if handle.registeredFd.isNone ∧ fd < 0 then
    { s with pc := .returned (.error ⟨none, s!"batch_read called with invalid fd {fd}"⟩) }
  else match reads.find? fun r => decide (u32Max < r.len) with
    | some r =>
        { s with
          pc := .returned (.error
            ⟨none, s!"read length {r.len} exceeds io_uring limit of {u32Max} bytes"⟩) }
    | none => { s with pc := .next 0, stale := [] }

/-- The capacity wait before read `i`: an enter while the completion queue could overflow. -/
def capacityWait (i waitFailures : Nat) (answer : Except Nat Unit) : BatchState :=
  if handle.cqCapacity ≤ s.submitted - s.completed then
    match answer with
    | .ok () => { s.syncSq with pc := .reapWait i waitFailures }
    | .error errno =>
        if isTransientEnterError errno ∧ waitFailures < 1000 then
          { s.syncSq with pc := .reapWait i (waitFailures + 1) }
        else s.syncSq.breakPush ⟨some errno, "io_uring wait failed"⟩
  else { s with pc := .push i 0 }

/-- The push of read `i`, or a kick while the queue is full. -/
def pushRead (i kickFailures : Nat) (r : Read) (answer : Except Nat Unit) : BatchState :=
  if s.hasRoom handle then
    { s with
      pc := .stride i
      sq := s.sq ++ [handle.buildEntry fd i r]
      submitted := s.submitted + 1 }
  else match answer with
    | .ok () => { s.syncSq with pc := .push i kickFailures }
    | .error errno =>
        if isTransientEnterError errno ∧ kickFailures < 1000 then
          { s.syncSq with pc := .push i (kickFailures + 1) }
        else s.syncSq.breakPush ⟨some errno, "io_uring submit failed"⟩

/-- The kick of a full stride; a transient failure is left to the next. -/
def kickStride (i : Nat) (answer : Except Nat Unit) : BatchState :=
  if s.submitted % handle.pipelineStride = 0 then
    match answer with
    | .ok () => { s.syncSq with pc := .reapStride i }
    | .error errno =>
        if isTransientEnterError errno then { s.syncSq with pc := .reapStride i }
        else { s.syncSq.breakPush ⟨some errno, "io_uring submit failed"⟩ with refused := true }
  else { s with pc := .next (i + 1) }

/-- The submit after the push phase. -/
def submitRest (answer : Except Nat Unit) : BatchState :=
  let s := if handle.isSqpoll then s.syncSq else s
  match answer with
  | .ok () => { s with pc := .drain 0 }
  | .error errno =>
      { s with
        pc := .drain 0
        firstErr := s.firstErr.or (some ⟨some errno, "io_uring submit failed"⟩)
        refused := true }

/-- One turn of the drain up to its wait. -/
def drainTurn (waitFailures : Nat) : BatchState :=
  if s.completed < s.submitted then { s.reap reads with pc := .drainWait waitFailures }
  else { s with pc := .returned (s.firstErr.elim (.ok ()) .error) }

/-- The drain's wait; a thousand failures in a row abort the process. -/
def drainEnter (waitFailures : Nat) (answer : Except Nat Unit) : BatchState :=
  if s.completed < s.submitted then
    match answer with
    | .ok () => { s with pc := .drain 0 }
    | .error _ =>
        if 1000 ≤ waitFailures + 1 then { s with pc := .aborted }
        else { s with pc := .drain (waitFailures + 1) }
  else { s with pc := .drain waitFailures }

/-- One step of the program; `answer` is the kernel's, where the step enters it. -/
def advance (answer : Except Nat Unit) : BatchState :=
  match s.pc with
  | .start => s.begin handle fd reads
  | .next i => if i < reads.length then { s with pc := .wait i 0 } else { s with pc := .sync }
  | .wait i waitFailures => s.capacityWait handle i waitFailures answer
  | .reapWait i waitFailures => { s.reap reads with pc := .wait i waitFailures }
  | .push i kickFailures =>
      match reads[i]? with
      | some r => s.pushRead handle fd i kickFailures r answer
      | none => { s with pc := .sync }
  | .stride i => s.kickStride handle i answer
  | .reapStride i => { s.reap reads with pc := .next (i + 1) }
  | .sync => { s.syncSq with pc := .submit }
  | .submit => s.submitRest handle answer
  | .drain waitFailures => s.drainTurn reads waitFailures
  | .drainWait waitFailures => s.drainEnter waitFailures answer
  | .returned _ => s
  | .aborted => s

/-- A batch about to begin on a quiescent ring, with completions nobody reaped. -/
def initial (stale : List Cqe) : BatchState :=
  { pc := .start
    sq := []
    published := 0
    unseen := 0
    inflight := []
    cq := []
    stale := stale
    submitted := 0
    completed := 0
    firstErr := none
    seen := []
    refused := false }

/-- A step of the program, whatever the kernel answers, or of the kernel: it takes a published
entry, or posts the completion of one it holds, any of them, with any result. -/
inductive Step : BatchState → BatchState → Prop where
  | program (s : BatchState) (answer : Except Nat Unit) :
      Step s (s.advance handle fd reads answer)
  | take (s : BatchState) (entry : Sqe) (rest : List Sqe) (visible : 0 < s.published)
      (first : s.sq = entry :: rest) :
      Step s { s with
        sq := rest, published := s.published - 1, unseen := s.unseen + 1
        inflight := s.inflight ++ [entry] }
  | post (s : BatchState) (entry : Sqe) (before after : List Sqe) (result : Int)
      (held : s.inflight = before ++ entry :: after) :
      Step s { s with inflight := before ++ after, cq := s.cq ++ [⟨entry.userData, result⟩] }

/-- The states of a batch over every behaviour of the kernel. -/
inductive Reachable : BatchState → Prop where
  | initial (stale : List Cqe) : Reachable (initial stale)
  | step {s s' : BatchState} (reached : Reachable s) (step : Step handle fd reads s s') :
      Reachable s'

section Records

variable {reads}

/-- The completion of a read of the batch, whole. -/
def Full (reads : List Read) (cqe : Cqe) : Prop :=
  ∃ r, reads[cqe.userData]? = some r ∧ (r.len : Int) ≤ cqe.result

theorem processCqe_eq_none {e : Option RingError} {cqe : Cqe} :
    processCqe reads e cqe = none ↔ e = none ∧ Full reads cqe := by
  unfold processCqe Full
  cases found : reads[cqe.userData]? with
  | none => simp
  | some r =>
      dsimp only
      split_ifs with failed short
      · simp
        omega
      · simp
        omega
      · simp
        omega

theorem foldl_processCqe_eq_none {e : Option RingError} {cqes : List Cqe} :
    cqes.foldl (processCqe reads) e = none ↔ e = none ∧ ∀ c ∈ cqes, Full reads c := by
  induction cqes generalizing e with
  | nil => simp
  | cons c cqes ih =>
      rw [List.foldl_cons, ih, processCqe_eq_none, List.forall_mem_cons, and_assoc]

end Records

end BatchState

/-- The push phase is over. -/
def BatchPc.pushed : BatchPc → Bool
  | .sync | .submit | .drain _ | .drainWait _ | .returned _ | .aborted => true
  | _ => false

namespace BatchState

/-- What each place of the program knows of the counters. -/
def Placed (handle : UringHandle) (reads : List Read) (s : BatchState) : BatchPc → Prop
  | .start => s.submitted = 0
  | .next i => s.submitted = i ∧ i ≤ reads.length
  | .wait i _ | .reapWait i _ => s.submitted = i ∧ i < reads.length
  | .push i _ =>
      s.submitted = i ∧ i < reads.length ∧ s.submitted < s.completed + handle.cqCapacity
  | .stride i | .reapStride i => s.submitted = i + 1 ∧ i < reads.length
  | .sync | .submit | .drain _ | .drainWait _ =>
      s.submitted ≤ reads.length ∧ (s.firstErr = none → s.submitted = reads.length)
  | .returned result =>
      s.submitted ≤ s.completed ∧
        (result = .ok () → s.submitted = reads.length ∧ ∀ c ∈ s.seen, Full reads c) ∧
        ∀ e, result = .error e →
          s.refused = true ∨ (∃ c ∈ s.seen, ¬Full reads c) ∨ s.submitted < reads.length
  | .aborted => True

theorem Placed.congr {handle : UringHandle} {reads : List Read} {s s' : BatchState} {pc : BatchPc}
    (h : Placed handle reads s pc) (submitted : s'.submitted = s.submitted)
    (completed : s'.completed = s.completed) (firstErr : s'.firstErr = s.firstErr)
    (seen : s'.seen = s.seen) (refused : s'.refused = s.refused) : Placed handle reads s' pc := by
  unfold Placed at h ⊢
  rw [submitted, completed, firstErr, seen, refused]
  exact h

/-- Every entry pushed is in one of the queues, with the kernel, or reaped; no more are out than
the completion queue holds; and the first error is kept for a reason. -/
structure Sound (handle : UringHandle) (reads : List Read) (s : BatchState) : Prop where
  entries : (s.sq.map Sqe.userData ++ s.inflight.map Sqe.userData ++ s.cq.map Cqe.userData ++
    s.seen.map Cqe.userData).Perm (List.range s.submitted)
  completed : s.completed = s.seen.length
  capacity : s.submitted ≤ s.completed + handle.cqCapacity
  clean : s.firstErr = none → ∀ c ∈ s.seen, Full reads c
  blamed : s.firstErr ≠ none →
    s.refused = true ∨ (∃ c ∈ s.seen, ¬Full reads c) ∨
      s.pc.pushed = true ∧ s.submitted < reads.length
  placed : Placed handle reads s s.pc

variable {handle : UringHandle} {fd : Int} {reads : List Read} {s : BatchState}

/-- The entries out are those pushed and not reaped. -/
theorem Sound.outstanding (h : Sound handle reads s) :
    s.sq.length + s.inflight.length + s.cq.length + s.completed = s.submitted := by
  have count := h.entries.length_eq
  simp only [List.length_append, List.length_map, List.length_range] at count
  rw [h.completed]
  exact count

/-- A step to another place of the same phase. -/
theorem Sound.to (h : Sound handle reads s) {pc : BatchPc} (phase : pc.pushed = s.pc.pushed)
    (placed : Placed handle reads s pc) : Sound handle reads { s with pc := pc } where
  entries := h.entries
  completed := h.completed
  capacity := h.capacity
  clean := h.clean
  blamed := phase.symm ▸ h.blamed
  placed := placed.congr rfl rfl rfl rfl rfl

/-- A step out of the push phase that keeps the first error. -/
theorem Sound.leave (h : Sound handle reads s) {pc : BatchPc} (phase : s.pc.pushed = false)
    (placed : Placed handle reads s pc) : Sound handle reads { s with pc := pc } where
  entries := h.entries
  completed := h.completed
  capacity := h.capacity
  clean := h.clean
  blamed some_ := by
    refine (h.blamed some_).imp_right (Or.imp_right fun ⟨late, _⟩ => ?_)
    rw [phase] at late
    cases late
  placed := placed.congr rfl rfl rfl rfl rfl

theorem Sound.syncSq (h : Sound handle reads s) : Sound handle reads s.syncSq where
  entries := h.entries
  completed := h.completed
  capacity := h.capacity
  clean := h.clean
  blamed := h.blamed
  placed := h.placed.congr rfl rfl rfl rfl rfl

theorem Sound.reap (h : Sound handle reads s) {pc : BatchPc} (phase : pc.pushed = s.pc.pushed)
    (placed : Placed handle reads (s.reap reads) pc) :
    Sound handle reads { s.reap reads with pc := pc } where
  entries := by
    have moved : (s.sq.map Sqe.userData ++ s.inflight.map Sqe.userData ++
        (s.seen ++ s.cq).map Cqe.userData).Perm (s.sq.map Sqe.userData ++
          s.inflight.map Sqe.userData ++ (s.cq ++ s.seen).map Cqe.userData) :=
      (List.perm_append_comm.map _).append_left _
    rw [show (s.cq ++ s.seen).map Cqe.userData = s.cq.map Cqe.userData ++ s.seen.map Cqe.userData
      from List.map_append, ← List.append_assoc] at moved
    show (_ ++ [] ++ _).Perm _
    rw [List.append_nil]
    exact moved.trans h.entries
  completed := by
    show s.completed + s.cq.length = (s.seen ++ s.cq).length
    rw [h.completed, List.length_append]
  capacity := by
    have capacity := h.capacity
    show s.submitted ≤ s.completed + s.cq.length + handle.cqCapacity
    omega
  clean := by
    intro none_ c mem
    obtain ⟨before, full⟩ := foldl_processCqe_eq_none.mp none_
    rcases List.mem_append.mp mem with old | new
    · exact h.clean before c old
    · exact full c new
  blamed := by
    intro some_
    have either : s.firstErr ≠ none ∨ ∃ c ∈ s.cq, ¬Full reads c := by
      by_contra neither
      push Not at neither
      exact some_ (foldl_processCqe_eq_none.mpr neither)
    rw [phase]
    rcases either with before | ⟨c, mem, short⟩
    · refine (h.blamed before).imp_right (Or.imp_left fun ⟨c, mem, short⟩ => ?_)
      exact ⟨c, List.mem_append_left _ mem, short⟩
    · exact .inr (.inl ⟨c, List.mem_append_right _ mem, short⟩)
  placed := placed.congr rfl rfl rfl rfl rfl

/-- The push phase ends on an error: a read was not pushed, or the ring refused. -/
theorem Sound.breakPush (h : Sound handle reads s) (e : RingError) {refused : Bool}
    (inside : s.submitted ≤ reads.length) (why : refused = true ∨ s.submitted < reads.length) :
    Sound handle reads { s.breakPush e with refused := refused } where
  entries := h.entries
  completed := h.completed
  capacity := h.capacity
  clean := nofun
  blamed _ := why.imp_right fun cut => .inr ⟨rfl, cut⟩
  placed := ⟨inside, nofun⟩

theorem Sound.begin (h : Sound handle reads s) (start : s.pc = .start) :
    Sound handle reads (s.begin handle fd reads) := by
  have phase : s.pc.pushed = false := by
    rw [start]
    rfl
  have untouched : s.submitted = 0 := by
    have placed := h.placed
    rwa [start] at placed
  have out := h.outstanding
  have nothing : s.seen = [] := by
    have completed := h.completed
    exact List.eq_nil_of_length_eq_zero (by omega)
  have early : ∀ e, reads ≠ [] →
      Sound handle reads { s with pc := .returned (.error e) } := fun e some_ =>
    h.leave phase ⟨by omega, nofun, fun _ _ => .inr (.inr (by
      have positive := List.length_pos_iff.mpr some_
      omega))⟩
  unfold BatchState.begin
  split_ifs with none_ invalid
  · refine h.leave phase ⟨by omega, fun _ => ⟨?_, ?_⟩, nofun⟩
    · rw [none_, untouched]
      rfl
    · rw [nothing]
      exact fun _ mem => absurd mem List.not_mem_nil
  · exact early _ none_
  · cases reads.find? fun r => decide (u32Max < r.len) with
    | some r => exact early _ none_
    | none =>
        have first := h.to (show (BatchPc.next 0).pushed = s.pc.pushed from phase.symm)
          ⟨untouched, Nat.zero_le _⟩
        exact ⟨first.entries, first.completed, first.capacity, first.clean, first.blamed,
          first.placed.congr rfl rfl rfl rfl rfl⟩

theorem Sound.capacityWait (h : Sound handle reads s) {i waitFailures : Nat}
    (here : s.pc = .wait i waitFailures) (answer : Except Nat Unit) :
    Sound handle reads (s.capacityWait handle i waitFailures answer) := by
  have placed := h.placed
  rw [here] at placed
  obtain ⟨rfl, inside⟩ := placed
  have phase : s.pc.pushed = false := by
    rw [here]
    rfl
  have again : ∀ failures,
      Sound handle reads { s.syncSq with pc := .reapWait s.submitted failures } :=
    fun failures => h.syncSq.to phase.symm ⟨rfl, inside⟩
  unfold BatchState.capacityWait
  split_ifs with full
  · cases answer with
    | ok => exact again waitFailures
    | error errno =>
        dsimp only
        split_ifs with transient
        · exact again (waitFailures + 1)
        · exact h.syncSq.breakPush _ (Nat.le_of_lt inside) (.inr inside)
  · exact h.to phase.symm ⟨rfl, inside, by omega⟩

theorem Sound.pushRead (h : Sound handle reads s) {i kickFailures : Nat}
    (here : s.pc = .push i kickFailures) (r : Read) (answer : Except Nat Unit) :
    Sound handle reads (s.pushRead handle fd i kickFailures r answer) := by
  have placed := h.placed
  rw [here] at placed
  obtain ⟨rfl, inside, room⟩ := placed
  have phase : s.pc.pushed = false := by
    rw [here]
    rfl
  have again : ∀ failures,
      Sound handle reads { s.syncSq with pc := .push s.submitted failures } :=
    fun failures => h.syncSq.to phase.symm ⟨rfl, inside, room⟩
  unfold BatchState.pushRead
  split_ifs with fits
  · refine ⟨?_, h.completed, room, h.clean, fun some_ => ?_, rfl, inside⟩
    · have moved : ([s.submitted] ++ (s.inflight.map Sqe.userData ++ s.cq.map Cqe.userData ++
          s.seen.map Cqe.userData)).Perm (s.inflight.map Sqe.userData ++ s.cq.map Cqe.userData ++
            s.seen.map Cqe.userData ++ [s.submitted]) := List.perm_append_comm
      have entries := h.entries.append_right [s.submitted]
      simp only [List.append_assoc] at moved entries
      rw [List.range_succ]
      simp only [List.map_append, List.map_singleton, List.append_assoc]
      exact (moved.append_left _).trans entries
    · refine (h.blamed some_).imp_right (Or.imp_right fun ⟨over_, _⟩ => ?_)
      rw [phase] at over_
      cases over_
  · cases answer with
    | ok => exact again kickFailures
    | error errno =>
        dsimp only
        split_ifs with transient
        · exact again (kickFailures + 1)
        · exact h.syncSq.breakPush _ (Nat.le_of_lt inside) (.inr inside)

theorem Sound.kickStride (h : Sound handle reads s) {i : Nat} (here : s.pc = .stride i)
    (answer : Except Nat Unit) : Sound handle reads (s.kickStride handle i answer) := by
  have placed := h.placed
  rw [here] at placed
  obtain ⟨count, inside⟩ := placed
  have phase : s.pc.pushed = false := by
    rw [here]
    rfl
  have reaps : Sound handle reads { s.syncSq with pc := .reapStride i } :=
    h.syncSq.to phase.symm ⟨count, inside⟩
  unfold BatchState.kickStride
  split_ifs with full
  · cases answer with
    | ok => exact reaps
    | error errno =>
        dsimp only
        split_ifs with transient
        · exact reaps
        · exact h.syncSq.breakPush _ (count.symm ▸ inside) (.inl rfl)
  · exact h.to phase.symm ⟨count, inside⟩

theorem Sound.submitRest (h : Sound handle reads s) (here : s.pc = .submit)
    (answer : Except Nat Unit) : Sound handle reads (s.submitRest handle answer) := by
  have synced : Sound handle reads (if handle.isSqpoll then s.syncSq else s) := by
    split_ifs
    · exact h.syncSq
    · exact h
  have same : (if handle.isSqpoll then s.syncSq else s).pc = .submit := by
    split_ifs <;> exact here
  unfold BatchState.submitRest
  generalize (if handle.isSqpoll then s.syncSq else s) = s at synced same
  have placed := synced.placed
  rw [same] at placed
  cases answer with
  | ok =>
      refine synced.to ?_ placed
      rw [same]
      rfl
  | error errno =>
      refine ⟨synced.entries, synced.completed, synced.capacity, fun none_ => ?_,
        fun _ => .inl rfl, placed.1, fun none_ => ?_⟩
      · exact absurd none_ (by cases s.firstErr <;> simp)
      · exact absurd none_ (by cases s.firstErr <;> simp)

theorem Sound.drainTurn (h : Sound handle reads s) {waitFailures : Nat}
    (here : s.pc = .drain waitFailures) : Sound handle reads (s.drainTurn reads waitFailures) := by
  have placed := h.placed
  rw [here] at placed
  have phase : s.pc.pushed = true := by
    rw [here]
    rfl
  unfold BatchState.drainTurn
  split_ifs with more
  · refine h.reap phase.symm ⟨placed.1, fun none_ => placed.2 ?_⟩
    exact (foldl_processCqe_eq_none.mp none_).1
  · refine h.to phase.symm ⟨Nat.le_of_not_lt more, fun ok => ?_, fun e error => ?_⟩
    · cases kept : s.firstErr with
      | none => exact ⟨placed.2 kept, h.clean kept⟩
      | some e =>
          rw [kept] at ok
          cases ok
    · have some_ : s.firstErr ≠ none := fun none_ => by
        rw [none_] at error
        cases error
      exact (h.blamed some_).imp_right (Or.imp_right And.right)

theorem Sound.drainEnter (h : Sound handle reads s) {waitFailures : Nat}
    (here : s.pc = .drainWait waitFailures) (answer : Except Nat Unit) :
    Sound handle reads (s.drainEnter waitFailures answer) := by
  have placed := h.placed
  rw [here] at placed
  have phase : s.pc.pushed = true := by
    rw [here]
    rfl
  have turn : ∀ failures, Sound handle reads { s with pc := .drain failures } := fun failures =>
    h.to phase.symm placed
  unfold BatchState.drainEnter
  by_cases more : s.completed < s.submitted
  · rw [if_pos more]
    cases answer with
    | ok => exact turn 0
    | error errno =>
        dsimp only
        split_ifs with last
        · exact h.to phase.symm trivial
        · exact turn (waitFailures + 1)
  · rw [if_neg more]
    exact turn waitFailures

theorem Sound.advance (h : Sound handle reads s) (answer : Except Nat Unit) :
    Sound handle reads (s.advance handle fd reads answer) := by
  have placed := h.placed
  unfold BatchState.advance
  cases here : s.pc with
  | start => exact h.begin here
  | next i =>
      rw [here] at placed
      dsimp only
      split_ifs with more
      · exact h.to (by rw [here]; rfl) ⟨placed.1, more⟩
      · have all : s.submitted = reads.length := by
          have count := placed.1
          have inside := placed.2
          omega
        exact h.leave (by rw [here]; rfl) ⟨Nat.le_of_eq all, fun _ => all⟩
  | wait i waitFailures => exact h.capacityWait here answer
  | reapWait i waitFailures =>
      rw [here] at placed
      exact h.reap (by rw [here]; rfl) placed
  | push i kickFailures =>
      rw [here] at placed
      dsimp only
      rw [List.getElem?_eq_getElem placed.2.1]
      exact h.pushRead here _ answer
  | stride i => exact h.kickStride here answer
  | reapStride i =>
      rw [here] at placed
      exact h.reap (by rw [here]; rfl) placed
  | sync =>
      rw [here] at placed
      exact h.syncSq.to (show _ = s.pc.pushed by rw [here]; rfl) placed
  | submit => exact h.submitRest here answer
  | drain waitFailures => exact h.drainTurn here
  | drainWait waitFailures => exact h.drainEnter here answer
  | returned result => exact h
  | aborted => exact h

theorem Sound.step {s' : BatchState} (h : Sound handle reads s) (step : Step handle fd reads s s') :
    Sound handle reads s' := by
  cases step with
  | program answer => exact h.advance answer
  | take entry rest visible first =>
      refine ⟨?_, h.completed, h.capacity, h.clean, h.blamed, h.placed.congr rfl rfl rfl rfl rfl⟩
      have entries := h.entries
      rw [first] at entries
      have moved : (rest.map Sqe.userData ++ s.inflight.map Sqe.userData ++
          entry.userData :: (s.cq.map Cqe.userData ++ s.seen.map Cqe.userData)).Perm
          (entry.userData :: (rest.map Sqe.userData ++ s.inflight.map Sqe.userData ++
            (s.cq.map Cqe.userData ++ s.seen.map Cqe.userData))) := List.perm_middle
      simp only [List.append_assoc, List.map_cons, List.map_append, List.map_nil,
        List.cons_append, List.nil_append] at entries moved ⊢
      exact moved.trans entries
  | post entry before after result held =>
      refine ⟨?_, h.completed, h.capacity, h.clean, h.blamed, h.placed.congr rfl rfl rfl rfl rfl⟩
      have entries := h.entries
      rw [held] at entries
      have posted : (s.sq.map Sqe.userData ++ before.map Sqe.userData ++ after.map Sqe.userData ++
          s.cq.map Cqe.userData ++ entry.userData :: s.seen.map Cqe.userData).Perm
          (entry.userData :: (s.sq.map Sqe.userData ++ before.map Sqe.userData ++
            after.map Sqe.userData ++ s.cq.map Cqe.userData ++ s.seen.map Cqe.userData)) :=
        List.perm_middle
      have taken : (s.sq.map Sqe.userData ++ before.map Sqe.userData ++ entry.userData ::
          (after.map Sqe.userData ++ s.cq.map Cqe.userData ++ s.seen.map Cqe.userData)).Perm
          (entry.userData :: (s.sq.map Sqe.userData ++ before.map Sqe.userData ++
            (after.map Sqe.userData ++ s.cq.map Cqe.userData ++ s.seen.map Cqe.userData))) :=
        List.perm_middle
      simp only [List.append_assoc, List.map_cons, List.map_append, List.map_nil,
        List.cons_append, List.nil_append] at entries posted taken ⊢
      exact (posted.trans taken.symm).trans entries

theorem Reachable.sound (reached : Reachable handle fd reads s) : Sound handle reads s := by
  induction reached with
  | initial stale =>
      exact ⟨List.Perm.refl [], rfl, Nat.zero_le _, fun _ _ mem => absurd mem List.not_mem_nil,
        fun some_ => absurd rfl some_, rfl⟩
  | step _ step ih => exact ih.step step

/-- Every read was pushed, and each completion was whole. -/
def Complete (reads : List Read) (s : BatchState) : Prop :=
  s.submitted = reads.length ∧ ∀ c ∈ s.seen, Full reads c

/-- Steps of the program alone. -/
theorem Reachable.advances (reached : Reachable handle fd reads s)
    (answers : List (Except Nat Unit)) :
    Reachable handle fd reads (answers.foldl (advance handle fd reads) s) := by
  induction answers generalizing s with
  | nil => exact reached
  | cons answer answers ih => exact ih (reached.step (Step.program s answer))

/-- A ring of eight entries. -/
def smallRing : UringHandle := ⟨8, 16, false, none, none⟩

def oneRead : List Read := [⟨0, 0, 4⟩]

/-- The batch of one read, pushed, before its last submit is answered. -/
def beforeSubmit : BatchState :=
  { initial [] with
    pc := .submit, sq := [smallRing.buildEntry 3 0 ⟨0, 0, 4⟩], published := 1, submitted := 1 }

theorem reachable_beforeSubmit : Reachable smallRing 3 oneRead beforeSubmit :=
  (Reachable.initial []).advances (List.replicate 7 (.ok ()))

/-- The read lands whole after the last submit was answered `refused`. -/
def landedAfter (firstErr : Option RingError) (refused : Bool) : BatchState :=
  { initial [] with
    pc := .returned (firstErr.elim (.ok ()) .error), unseen := 1, submitted := 1, completed := 1
    firstErr := firstErr, seen := [⟨0, 4⟩], refused := refused }

/-- The kernel takes the entry of a draining batch and posts its completion. -/
theorem reachable_landed {firstErr : Option RingError} {refused : Bool}
    (reached : Reachable smallRing 3 oneRead
      { beforeSubmit with pc := .drainWait 0, firstErr := firstErr, refused := refused }) :
    Reachable smallRing 3 oneRead (landedAfter firstErr refused) := by
  have taken := reached.step (Step.take _ (smallRing.buildEntry 3 0 ⟨0, 0, 4⟩) [] Nat.one_pos rfl)
  have posted := taken.step (Step.post _ (smallRing.buildEntry 3 0 ⟨0, 0, 4⟩) [] [] 4 rfl)
  exact posted.advances (List.replicate 5 (.ok ()))

theorem oneRead_complete (firstErr : Option RingError) (refused : Bool) :
    Complete oneRead (landedAfter firstErr refused) :=
  ⟨rfl, List.forall_mem_singleton.mpr ⟨⟨0, 0, 4⟩, rfl, Int.le_refl 4⟩⟩

end BatchState

end AetherGraph
