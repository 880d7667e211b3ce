import AetherGraph.Foundation.RingWindow

/-! Submission queue of the GPU-initiated NVMe path: free-running 32-bit counters on the host,
masked slot indices on the controller.  The host side is one thread; the controller fetches and
completes between any two of its steps. -/

namespace AetherGraph

open Foundation

structure NvmeDoorbellLayout where
  sq0TdblBytes : Nat
  strideBytes : Nat
  deriving DecidableEq, Repr

def NvmeDoorbellLayout.sqTdblOffset (l : NvmeDoorbellLayout) (qid : Nat) : Nat :=
  l.sq0TdblBytes + qid * 2 * l.strideBytes

structure BamQueuePair where
  qid : Nat
  depth : Nat
  sqTail : Nat
  cqHead : Nat
  deriving DecidableEq, Repr

inductive BamError where
  | barNotMapped
  | doorbellOob
  | queueFull
  deriving DecidableEq, Repr

namespace BamQueuePair

def maxDepth : Nat := 2 ^ 16

/-- `depth` must be a power of two no larger than `maxDepth`. -/
def new (qid depth : Nat) : Option BamQueuePair :=
  if depth = 0 ∨ depth ≠ 2 ^ Nat.log2 depth ∨ maxDepth < depth then none
  else some ⟨qid, depth, 0, 0⟩

def inFlight (q : BamQueuePair) : Nat := wrapSub (2 ^ 32) q.sqTail q.cqHead

/-- The claimed tail; `none` when the queue is full. -/
def tryClaimSqSlot (q : BamQueuePair) : Option (Nat × BamQueuePair) :=
  if q.depth ≤ q.inFlight then none
  else some (q.sqTail, { q with sqTail := (q.sqTail + 1) % 2 ^ 32 })

def retire (q : BamQueuePair) (n : Nat) : BamQueuePair := { q with cqHead := (q.cqHead + n) % 2 ^ 32 }

/-- Slot the next submission will use. -/
def doorbellValue (q : BamQueuePair) (tail : Nat) : Nat := (tail &&& (q.depth - 1)) % 2 ^ 16

end BamQueuePair

/-- `bar0` is the length of the mapped BAR, once it is attached. -/
structure BamController where
  doorbells : NvmeDoorbellLayout
  qp : BamQueuePair
  bar0 : Option Nat
  deriving DecidableEq, Repr

namespace BamController

def new (qid depth : Nat) (doorbells : NvmeDoorbellLayout) : Option BamController :=
  (BamQueuePair.new qid depth).map fun qp => ⟨doorbells, qp, none⟩

/-- `submit_sqe` up to its claim. -/
def claim (c : BamController) : Except BamError (Nat × BamController) :=
  match c.bar0 with
  | none => .error .barNotMapped
  | some _ =>
      match c.qp.tryClaimSqSlot with
      | none => .error .queueFull
      | some (prev, qp) => .ok (prev, { c with qp := qp })

/-- The doorbell store, or why it is not made. -/
def ringSqDoorbell (c : BamController) (tail : Nat) : Except BamError Nat :=
  match c.bar0 with
  | none => .error .barNotMapped
  | some len =>
      if len < c.doorbells.sqTdblOffset c.qp.qid + 4 then .error .doorbellOob else .ok tail

end BamController

/-- Where the host is inside `submit_sqe`. -/
inductive SubmitPc (σ : Type) where
  | idle
  | claimed (prev : Nat) (sqe : σ)
  | written (prev : Nat)
  deriving DecidableEq

/-- The host and the controller.  `posted` lists the entries written, `rung` counts the calls
that returned `Ok`, and `retired` the completions handed to `retire_completions`. -/
structure BamSystem (σ : Type) where
  ctl : BamController
  pc : SubmitPc σ
  sqRing : Nat → σ
  doorbell : Nat
  head : Nat
  fetched : List σ
  completed : Nat
  posted : List σ
  rung : Nat
  retired : Nat

inductive BamAct where
  | claim
  | write
  | ring
  | oob
  | retire
  | fetch
  | complete
  deriving DecidableEq

namespace BamSystem

variable {σ : Type}

def start (ctl : BamController) (sqRing : Nat → σ) : BamSystem σ :=
  ⟨ctl, .idle, sqRing, 0, 0, [], 0, [], 0, 0⟩

/-- The controller fetches from its own head up to the doorbell, head equal to tail being the
empty queue; only completed commands are retired. -/
inductive Step : BamAct → BamSystem σ → BamSystem σ → Prop where
  | claim (s : BamSystem σ) (sqe : σ) {prev ctl} (idle : s.pc = .idle)
      (ok : s.ctl.claim = .ok (prev, ctl)) :
      Step .claim s { s with ctl := ctl, pc := .claimed prev sqe }
  | write (s : BamSystem σ) {prev sqe} (at_ : s.pc = .claimed prev sqe) :
      Step .write s { s with
        sqRing := Function.update s.sqRing (prev &&& (s.ctl.qp.depth - 1)) sqe
        posted := s.posted ++ [sqe]
        pc := .written prev }
  | ring (s : BamSystem σ) {prev tail} (at_ : s.pc = .written prev)
      (ok : s.ctl.ringSqDoorbell (s.ctl.qp.doorbellValue ((prev + 1) % 2 ^ 32)) = .ok tail) :
      Step .ring s { s with doorbell := tail, rung := s.rung + 1, pc := .idle }
  | oob (s : BamSystem σ) {prev e} (at_ : s.pc = .written prev)
      (error : s.ctl.ringSqDoorbell (s.ctl.qp.doorbellValue ((prev + 1) % 2 ^ 32)) = .error e) :
      Step .oob s { s with pc := .idle }
  | retire (s : BamSystem σ) (n : Nat) (idle : s.pc = .idle) (done : s.retired + n ≤ s.completed) :
      Step .retire s { s with
        ctl := { s.ctl with qp := s.ctl.qp.retire n }
        retired := s.retired + n }
  | fetch (s : BamSystem σ) (more : s.head ≠ s.doorbell) :
      Step .fetch s { s with
        fetched := s.fetched ++ [s.sqRing s.head]
        head := (s.head + 1) % s.ctl.qp.depth }
  | complete (s : BamSystem σ) (more : s.completed < s.fetched.length) :
      Step .complete s { s with completed := s.completed + 1 }

/-- Runs whose steps all meet a condition on the state before them. -/
def Runs (meets : BamAct → BamSystem σ → Prop) : BamSystem σ → BamSystem σ → Prop :=
  Relation.ReflTransGen fun s s' => ∃ act, Step act s s' ∧ meets act s

/-- Entries are fetched in submission order, each once and only after it is written, and an
entry not fetched yet is still in its slot. -/
structure HandsOver (s : BamSystem σ) : Prop where
  inOrder : s.fetched = s.posted.take s.fetched.length
  written : s.fetched.length ≤ s.posted.length
  kept : ∀ i, s.fetched.length ≤ i → ∀ sqe, s.posted[i]? = some sqe →
    s.sqRing (i % s.ctl.qp.depth) = sqe
  free : ∀ prev sqe, s.pc = .claimed prev sqe → s.posted.length < s.fetched.length + s.ctl.qp.depth

/-- Between calls the controller sees as many entries as were submitted and not yet fetched. -/
def Counts (s : BamSystem σ) : Prop :=
  s.pc = .idle → wrapSub s.ctl.qp.depth s.doorbell s.head = s.rung - s.fetched.length

/-- A doorbell rings only while fewer than `depth` entries, its own included, are unfetched. -/
def RingsRoomy (act : BamAct) (s : BamSystem σ) : Prop :=
  act = .ring → s.rung + 1 < s.fetched.length + s.ctl.qp.depth

/-- Slots claimed so far. -/
def claims (s : BamSystem σ) : Nat :=
  s.posted.length + match s.pc with
    | .claimed _ _ => 1
    | _ => 0

/-- What every run keeps. -/
structure Inv (s : BamSystem σ) : Prop where
  depth_pow : ∃ k ≤ 16, s.ctl.qp.depth = 2 ^ k
  window : RingWindow s.ctl.qp.depth s.sqRing s.posted s.fetched.length
  inOrder : s.fetched = s.posted.take s.fetched.length
  head_eq : s.head = s.fetched.length % s.ctl.qp.depth
  doorbell_eq : s.doorbell = s.rung % s.ctl.qp.depth
  retired_le : s.retired ≤ s.completed
  completed_le : s.completed ≤ s.fetched.length
  fetched_le : s.fetched.length ≤ s.rung
  rung_le : s.rung ≤ s.posted.length
  sqTail_eq : s.ctl.qp.sqTail = s.claims % 2 ^ 32
  cqHead_eq : s.ctl.qp.cqHead = s.retired % 2 ^ 32
  claims_le : s.claims ≤ s.retired + s.ctl.qp.depth
  claimed_eq : ∀ prev sqe, s.pc = .claimed prev sqe → prev = s.posted.length % 2 ^ 32
  written_eq : ∀ prev, s.pc = .written prev → 0 < s.posted.length ∧
    prev = (s.posted.length - 1) % 2 ^ 32
  -- with no doorbell in reach nothing is ever rung
  reached : ∀ tail, (s.ctl.ringSqDoorbell tail).isOk → s.rung + (match s.pc with
    | .written _ => 1
    | _ => 0) = s.posted.length

theorem ringSqDoorbell_ok {c : BamController} {tail tail' : Nat}
    (ok : c.ringSqDoorbell tail = .ok tail') :
    tail' = tail ∧ ∀ other, (c.ringSqDoorbell other).isOk := by
  unfold BamController.ringSqDoorbell at *
  split at ok
  · cases ok
  · split at ok
    · cases ok
    · rename_i reach
      refine ⟨(Except.ok.inj ok).symm, fun other => ?_⟩
      rw [if_neg reach]
      rfl

theorem ringSqDoorbell_qp (c : BamController) (qp : BamQueuePair) (same : qp.qid = c.qp.qid)
    (tail : Nat) : ({ c with qp := qp } : BamController).ringSqDoorbell tail =
      c.ringSqDoorbell tail := by
  unfold BamController.ringSqDoorbell
  dsimp only
  rw [same]

theorem claim_ok {c c' : BamController} {prev : Nat} (ok : c.claim = .ok (prev, c')) :
    c.qp.inFlight < c.qp.depth ∧ prev = c.qp.sqTail ∧
      c' = { c with qp := { c.qp with sqTail := (c.qp.sqTail + 1) % 2 ^ 32 } } := by
  unfold BamController.claim BamQueuePair.tryClaimSqSlot at ok
  split at ok
  · cases ok
  · split at ok
    · cases ok
    · rename_i qp claimed
      split at claimed
      · cases claimed
      · rename_i room
        obtain ⟨rfl, rfl⟩ := Prod.mk.inj (Except.ok.inj ok)
        obtain ⟨rfl, rfl⟩ := Prod.mk.inj (Option.some.inj claimed)
        exact ⟨Nat.lt_of_not_le room, rfl, rfl⟩

theorem start_inv {qid depth : Nat} {doorbells : NvmeDoorbellLayout} {ctl : BamController}
    (new : BamController.new qid depth doorbells = some ctl) (bar0 : Option Nat) (sqRing : Nat → σ) :
    Inv (start { ctl with bar0 := bar0 } sqRing) := by
  obtain ⟨qp, accepted, rfl⟩ := Option.map_eq_some_iff.mp new
  unfold BamQueuePair.new at accepted
  split at accepted
  · cases accepted
  · rename_i valid
    obtain rfl := Option.some.inj accepted
    simp only [not_or, not_not, Nat.not_lt] at valid
    obtain ⟨positive, power, small⟩ := valid
    have exponent : Nat.log2 depth ≤ 16 := by
      by_contra more
      have := Nat.pow_le_pow_right (show 0 < 2 by decide) (show 17 ≤ Nat.log2 depth by omega)
      rw [← power] at this
      simp only [BamQueuePair.maxDepth] at small
      omega
    exact
      { depth_pow := ⟨_, exponent, power⟩
        window := .nil _ _
        inOrder := rfl
        head_eq := (Nat.zero_mod _).symm
        doorbell_eq := (Nat.zero_mod _).symm
        retired_le := Nat.le_refl 0
        completed_le := Nat.le_refl 0
        fetched_le := Nat.le_refl 0
        rung_le := Nat.le_refl 0
        sqTail_eq := rfl
        cqHead_eq := rfl
        claims_le := Nat.zero_le _
        claimed_eq := fun _ _ absent => by cases absent
        written_eq := fun _ absent => by cases absent
        reached := fun _ _ => rfl }

namespace Inv

variable {s s' : BamSystem σ}

theorem depth_pos (h : Inv s) : 0 < s.ctl.qp.depth := by
  obtain ⟨k, -, power⟩ := h.depth_pow
  rw [power]
  exact Nat.two_pow_pos k

theorem depth_le (h : Inv s) : s.ctl.qp.depth ≤ 2 ^ 16 := by
  obtain ⟨k, le, power⟩ := h.depth_pow
  rw [power]
  exact Nat.pow_le_pow_right (by decide) le

theorem inFlight_eq (h : Inv s) : s.ctl.qp.inFlight = s.claims - s.retired := by
  have le : s.retired ≤ s.claims := by
    have := h.retired_le
    have := h.completed_le
    have := h.fetched_le
    have := h.rung_le
    unfold claims
    omega
  have := h.claims_le
  have := h.depth_le
  rw [BamQueuePair.inFlight, h.sqTail_eq, h.cqHead_eq, wrapSub_mod le (by omega)]

/-- A masked counter is the counter modulo the depth. -/
theorem mask_eq (h : Inv s) (n : Nat) : n % 2 ^ 32 &&& (s.ctl.qp.depth - 1) = n % s.ctl.qp.depth := by
  obtain ⟨k, le, power⟩ := h.depth_pow
  rw [power]
  exact mask_mod (le.trans (by decide)) n

theorem doorbellValue_eq (h : Inv s) (n : Nat) :
    s.ctl.qp.doorbellValue (n % 2 ^ 32) = n % s.ctl.qp.depth := by
  have := Nat.mod_lt n h.depth_pos
  have := h.depth_le
  rw [BamQueuePair.doorbellValue, h.mask_eq, Nat.mod_eq_of_lt (by omega)]

theorem claim (h : Inv s) (sqe : σ) {prev : Nat} {ctl : BamController} (idle : s.pc = .idle)
    (ok : s.ctl.claim = .ok (prev, ctl)) : Inv { s with ctl := ctl, pc := .claimed prev sqe } := by
  obtain ⟨room, rfl, rfl⟩ := claim_ok ok
  have count : s.claims = s.posted.length := by rw [claims, idle]; rfl
  have tail := h.sqTail_eq
  rw [h.inFlight_eq, count] at room
  rw [count] at tail
  exact
    { depth_pow := h.depth_pow
      window := h.window
      inOrder := h.inOrder
      head_eq := h.head_eq
      doorbell_eq := h.doorbell_eq
      retired_le := h.retired_le
      completed_le := h.completed_le
      fetched_le := h.fetched_le
      rung_le := h.rung_le
      sqTail_eq := by
        dsimp only [claims]
        rw [tail, succ_mod_mod]
      cqHead_eq := h.cqHead_eq
      claims_le := by
        dsimp only [claims]
        omega
      claimed_eq := fun prev sqe at_ => by
        obtain ⟨rfl, -⟩ := SubmitPc.claimed.inj at_
        exact tail
      written_eq := fun _ absent => by cases absent
      reached := fun tail reach => by
        have := h.reached tail (by rwa [ringSqDoorbell_qp _ _ (by rfl)] at reach)
        rw [idle] at this
        exact this }

theorem write (h : Inv s) {prev : Nat} {sqe : σ} (at_ : s.pc = .claimed prev sqe) :
    Inv { s with
      sqRing := Function.update s.sqRing (prev &&& (s.ctl.qp.depth - 1)) sqe
      posted := s.posted ++ [sqe]
      pc := .written prev } := by
  have room : s.posted.length < s.fetched.length + s.ctl.qp.depth := by
    have claimed := h.claims_le
    have := h.retired_le
    have := h.completed_le
    rw [claims, at_] at claimed
    dsimp only at claimed
    omega
  have slot : prev &&& (s.ctl.qp.depth - 1) = s.posted.length % s.ctl.qp.depth := by
    rw [h.claimed_eq prev sqe at_, h.mask_eq]
  have length : (s.posted ++ [sqe]).length = s.posted.length + 1 := List.length_append
  have count : s.claims = s.posted.length + 1 := by rw [claims, at_]
  exact
    { depth_pow := h.depth_pow
      window := slot ▸ h.window.push room sqe
      inOrder := by
        rw [List.take_append_of_le_length h.window.lo_le]
        exact h.inOrder
      head_eq := h.head_eq
      doorbell_eq := h.doorbell_eq
      retired_le := h.retired_le
      completed_le := h.completed_le
      fetched_le := h.fetched_le
      rung_le := by
        have := h.rung_le
        dsimp only
        omega
      sqTail_eq := by
        dsimp only [claims]
        rw [length, Nat.add_zero, ← count]
        exact h.sqTail_eq
      cqHead_eq := h.cqHead_eq
      claims_le := by
        dsimp only [claims]
        rw [length, Nat.add_zero, ← count]
        exact h.claims_le
      claimed_eq := fun _ _ absent => by cases absent
      written_eq := fun prev' same => by
        obtain rfl := SubmitPc.written.inj same
        dsimp only
        rw [length]
        exact ⟨Nat.succ_pos _, h.claimed_eq prev sqe at_⟩
      reached := fun tail reach => by
        have := h.reached tail reach
        rw [at_] at this
        dsimp only at this ⊢
        omega }

theorem ring (h : Inv s) {prev tail : Nat} (at_ : s.pc = .written prev)
    (ok : s.ctl.ringSqDoorbell (s.ctl.qp.doorbellValue ((prev + 1) % 2 ^ 32)) = .ok tail) :
    Inv { s with doorbell := tail, rung := s.rung + 1, pc := .idle } := by
  obtain ⟨rfl, reach⟩ := ringSqDoorbell_ok ok
  obtain ⟨some, rfl⟩ := h.written_eq prev at_
  have rung : s.rung + 1 = s.posted.length := by
    have := h.reached 0 (reach 0)
    rwa [at_] at this
  have count : s.claims = s.posted.length := by rw [claims, at_]; rfl
  have sqTail : s.ctl.qp.sqTail = s.posted.length % 2 ^ 32 := count ▸ h.sqTail_eq
  have room : s.posted.length ≤ s.retired + s.ctl.qp.depth := count ▸ h.claims_le
  have after : (s.posted.length - 1 + 1) = s.rung + 1 := by omega
  exact
    { depth_pow := h.depth_pow
      window := h.window
      inOrder := h.inOrder
      head_eq := h.head_eq
      doorbell_eq := by
        dsimp only
        rw [succ_mod_mod, h.doorbellValue_eq, after]
      retired_le := h.retired_le
      completed_le := h.completed_le
      fetched_le := Nat.le_succ_of_le h.fetched_le
      rung_le := rung.le
      sqTail_eq := sqTail
      cqHead_eq := h.cqHead_eq
      claims_le := room
      claimed_eq := fun _ _ absent => by cases absent
      written_eq := fun _ absent => by cases absent
      reached := fun _ _ => rung }

theorem oob (h : Inv s) {prev : Nat} {e : BamError} (at_ : s.pc = .written prev)
    (error : s.ctl.ringSqDoorbell (s.ctl.qp.doorbellValue ((prev + 1) % 2 ^ 32)) = .error e) :
    Inv { s with pc := .idle } := by
  have count : s.claims = s.posted.length := by rw [claims, at_]; rfl
  have sqTail : s.ctl.qp.sqTail = s.posted.length % 2 ^ 32 := count ▸ h.sqTail_eq
  have room : s.posted.length ≤ s.retired + s.ctl.qp.depth := count ▸ h.claims_le
  exact
    { depth_pow := h.depth_pow
      window := h.window
      inOrder := h.inOrder
      head_eq := h.head_eq
      doorbell_eq := h.doorbell_eq
      retired_le := h.retired_le
      completed_le := h.completed_le
      fetched_le := h.fetched_le
      rung_le := h.rung_le
      sqTail_eq := sqTail
      cqHead_eq := h.cqHead_eq
      claims_le := room
      claimed_eq := fun _ _ absent => by cases absent
      written_eq := fun _ absent => by cases absent
      reached := fun tail reach => by
        obtain ⟨tail', done⟩ : ∃ tail', s.ctl.ringSqDoorbell tail = .ok tail' := by
          cases result : s.ctl.ringSqDoorbell tail with
          | ok tail' => exact ⟨tail', rfl⟩
          | error e =>
              dsimp only at reach
              rw [result] at reach
              cases reach
        have := (ringSqDoorbell_ok done).2 (s.ctl.qp.doorbellValue ((prev + 1) % 2 ^ 32))
        rw [error] at this
        cases this }

theorem retire (h : Inv s) (n : Nat) (done : s.retired + n ≤ s.completed) :
    Inv { s with
      ctl := { s.ctl with qp := s.ctl.qp.retire n }
      retired := s.retired + n } := by
  exact
    { depth_pow := h.depth_pow
      window := h.window
      inOrder := h.inOrder
      head_eq := h.head_eq
      doorbell_eq := h.doorbell_eq
      retired_le := done
      completed_le := h.completed_le
      fetched_le := h.fetched_le
      rung_le := h.rung_le
      sqTail_eq := h.sqTail_eq
      cqHead_eq := by
        dsimp only [BamQueuePair.retire]
        rw [h.cqHead_eq, Nat.mod_add_mod]
      claims_le := h.claims_le.trans (Nat.add_le_add_right (Nat.le_add_right _ n) _)
      claimed_eq := h.claimed_eq
      written_eq := h.written_eq
      reached := fun tail reach =>
        h.reached tail (by rwa [ringSqDoorbell_qp s.ctl (s.ctl.qp.retire n) (by rfl)] at reach) }

theorem fetch (h : Inv s) (more : s.head ≠ s.doorbell) :
    Inv { s with
      fetched := s.fetched ++ [s.sqRing s.head]
      head := (s.head + 1) % s.ctl.qp.depth } := by
  have unfetched : s.fetched.length < s.rung := by
    refine Nat.lt_of_le_of_ne h.fetched_le fun same => more ?_
    rw [h.head_eq, h.doorbell_eq, same]
  have present : s.fetched.length < s.posted.length := unfetched.trans_le h.rung_le
  have length : (s.fetched ++ [s.sqRing s.head]).length = s.fetched.length + 1 := List.length_append
  exact
    { depth_pow := h.depth_pow
      window := length ▸ h.window.pop present
      inOrder := by
        dsimp only
        rw [length, h.head_eq, ← take_concat (h.window.front present), ← h.inOrder]
      head_eq := by
        dsimp only
        rw [length, h.head_eq, succ_mod_mod]
      doorbell_eq := h.doorbell_eq
      retired_le := h.retired_le
      completed_le := length ▸ Nat.le_succ_of_le h.completed_le
      fetched_le := length ▸ unfetched
      rung_le := h.rung_le
      sqTail_eq := h.sqTail_eq
      cqHead_eq := h.cqHead_eq
      claims_le := h.claims_le
      claimed_eq := h.claimed_eq
      written_eq := h.written_eq
      reached := h.reached }

theorem step (h : Inv s) {act : BamAct} (moved : Step act s s') : Inv s' := by
  cases moved with
  | claim _ sqe idle ok => exact h.claim sqe idle ok
  | write _ at_ => exact h.write at_
  | ring _ at_ ok => exact h.ring at_ ok
  | oob _ at_ error => exact h.oob at_ error
  | retire _ n _ done => exact h.retire n done
  | fetch _ more => exact h.fetch more
  | complete _ more => exact { h with retired_le := Nat.le_succ_of_le h.retired_le, completed_le := more }

theorem run (h : Inv s) {meets : BamAct → BamSystem σ → Prop} (ran : Runs meets s s') : Inv s' := by
  induction ran with
  | refl => exact h
  | tail _ last ih =>
      obtain ⟨_, moved, -⟩ := last
      exact ih.step moved

theorem handsOver (h : Inv s) : HandsOver s where
  inOrder := h.inOrder
  written := h.fetched_le.trans h.rung_le
  kept := h.window.holds
  free prev sqe at_ := by
    have claimed := h.claims_le
    have := h.retired_le
    have := h.completed_le
    rw [claims, at_] at claimed
    dsimp only at claimed
    omega

/-- The count the controller sees is the number of unfetched entries modulo the depth. -/
theorem seen_eq (h : Inv s) :
    wrapSub s.ctl.qp.depth s.doorbell s.head = (s.rung - s.fetched.length) % s.ctl.qp.depth := by
  have near : s.rung ≤ s.fetched.length + s.ctl.qp.depth := h.rung_le.trans h.window.fits
  have le := h.fetched_le
  rw [h.doorbell_eq, h.head_eq]
  rcases Nat.lt_or_eq_of_le near with less | full
  · rw [wrapSub_mod le less, Nat.mod_eq_of_lt (by omega)]
  · rw [full, Nat.add_mod_right, wrapSub_mod (Nat.le_refl _) (by have := h.depth_pos; omega),
      Nat.sub_self, Nat.add_sub_cancel_left, Nat.mod_self]

theorem counts_iff (h : Inv s) (idle : s.pc = .idle) :
    Counts s ↔ s.rung < s.fetched.length + s.ctl.qp.depth := by
  have le := h.fetched_le
  have pos := h.depth_pos
  unfold Counts
  rw [h.seen_eq]
  constructor
  · intro same
    have := Nat.mod_lt (s.rung - s.fetched.length) pos
    rw [same idle] at this
    omega
  · intro less _
    exact Nat.mod_eq_of_lt (by omega)

end Inv

/-- While every doorbell rings with a slot to spare, so does the queue between calls. -/
theorem roomy_run {s s' : BamSystem σ}
    (room : s.rung < s.fetched.length + s.ctl.qp.depth) (ran : Runs RingsRoomy s s') :
    s'.rung < s'.fetched.length + s'.ctl.qp.depth := by
  induction ran with
  | refl => exact room
  | tail before last ih =>
      obtain ⟨act, moved, roomy⟩ := last
      cases moved with
      | claim _ sqe idle ok =>
          obtain ⟨-, -, rfl⟩ := claim_ok ok
          exact ih
      | write => exact ih
      | ring => exact roomy rfl
      | oob => exact ih
      | retire => exact ih
      | fetch =>
          dsimp only
          rw [List.length_append]
          omega
      | complete => exact ih

/-- A whole `submit_sqe` call, with the controller idle meanwhile. -/
theorem submit_runs {s : BamSystem σ} (sqe : σ) {prev tail : Nat} {ctl : BamController}
    (idle : s.pc = .idle) (claimed : s.ctl.claim = .ok (prev, ctl))
    (ok : ctl.ringSqDoorbell (ctl.qp.doorbellValue ((prev + 1) % 2 ^ 32)) = .ok tail) :
    Runs (fun _ _ => True) s
      { s with
        ctl := ctl
        sqRing := Function.update s.sqRing (prev &&& (ctl.qp.depth - 1)) sqe
        posted := s.posted ++ [sqe]
        doorbell := tail
        rung := s.rung + 1
        pc := .idle } :=
  ((Relation.ReflTransGen.single ⟨.claim, .claim s sqe idle claimed, trivial⟩).tail
    ⟨.write, .write _ rfl, trivial⟩).tail ⟨.ring, .ring _ rfl ok, trivial⟩

end BamSystem

end AetherGraph
