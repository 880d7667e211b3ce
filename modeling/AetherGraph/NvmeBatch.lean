import AetherGraph.FeatureGather
import Mathlib.Data.List.Range

/-! The passthrough batch: requests checked into commands, the commands pushed a ring's depth at a
time and drained before the next, and the drive that moves bytes and completes them in any order. -/

namespace AetherGraph

open Foundation

/-- What `from_sysfs` has pinned down of the namespace behind a file. -/
structure NamespaceTarget where
  nsid : Nat
  lbaBytes : Nat
  maxTransfer : Nat
  partitionStart : Nat
  partitionLen : Nat
  lba_pos : 512 ≤ lbaBytes
  max_lt : maxTransfer < 2 ^ 32
  aligned : partitionStart % lbaBytes = 0
  no_wrap : partitionStart + partitionLen < 2 ^ 64

/-- The words of a command that are not zero.  A buffer's address is its place in the lane's
region. -/
structure NvmePassthruCmd where
  opcode : Nat
  nsid : Nat
  addr : Nat
  dataLen : Nat
  cdw10 : Nat
  cdw11 : Nat
  cdw12 : Nat
  deriving DecidableEq, Repr

namespace NvmePassthruCmd

def read (nsid slba nlb buf dataLen : Nat) : NvmePassthruCmd where
  opcode := 0x02
  nsid := nsid
  addr := buf
  dataLen := dataLen
  cdw10 := slba % 2 ^ 32
  cdw11 := slba / 2 ^ 32 % 2 ^ 32
  cdw12 := nlb

/-- The bytes a controller moves for a read: its blocks from its first one on. -/
def data (ns : Nat → U8) (lba : Nat) (cmd : NvmePassthruCmd) : List U8 :=
  (List.range ((cmd.cdw12 % 2 ^ 16 + 1) * lba)).map fun k =>
    ns ((cmd.cdw10 + 2 ^ 32 * cmd.cdw11) * lba + k)

end NvmePassthruCmd

/-- One request of a batch. -/
structure NvmeReq where
  deviceOff : Nat
  buf : Nat
  len : Nat
  deriving DecidableEq, Repr

/-- A request checked against the geometry and the transfer limit. -/
def commandFor (nsid lbaBytes maxTransfer : Nat) (r : NvmeReq) :
    Except Failure NvmePassthruCmd := do
  ensure (r.len ≠ 0 ∧ r.deviceOff % lbaBytes = 0 ∧ r.len % lbaBytes = 0)
    s!"NVMe passthrough read must be a nonzero LBA-aligned span ({lbaBytes} bytes)"
  ensure (r.len ≤ maxTransfer)
    (s!"NVMe passthrough read of {r.len} bytes exceeds the controller's " ++
      s!"{maxTransfer} byte maximum transfer")
  let nblocks := r.len / lbaBytes
  let nlb ← okOr "read exceeds one NVMe command's block count"
    (if nblocks - 1 < 2 ^ 16 then some (nblocks - 1) else none)
  pure (.read nsid (r.deviceOff / lbaBytes) nlb r.buf r.len)

/-- A command that passed the checks moves the request's bytes. -/
theorem commandFor_ok {nsid lbaBytes maxTransfer : Nat} {r : NvmeReq} {cmd : NvmePassthruCmd}
    (checked : commandFor nsid lbaBytes maxTransfer r = .ok cmd) (narrow : r.deviceOff < 2 ^ 64) :
    cmd.addr = r.buf ∧ cmd.dataLen = r.len ∧ 0 < r.len ∧
      ∀ ns : Nat → U8, cmd.data ns lbaBytes =
        (List.range r.len).map fun k => ns (r.deviceOff + k) := by
  obtain ⟨⟨nonempty, aligned, whole⟩, checked⟩ := ByteReader.ensure_bind_ok checked
  obtain ⟨-, checked⟩ := ByteReader.ensure_bind_ok checked
  obtain ⟨nlb, counted, checked⟩ := okOr_bind_ok checked
  obtain rfl := Except.ok.inj checked
  split_ifs at counted with fits
  obtain rfl := Option.some.inj counted
  have blocks : 1 ≤ r.len / lbaBytes := by
    rcases Nat.eq_zero_or_pos (r.len / lbaBytes) with none_ | some_
    · have := Nat.div_add_mod r.len lbaBytes
      rw [none_, whole] at this
      omega
    · exact some_
  have length : ((r.len / lbaBytes - 1) % 2 ^ 16 + 1) * lbaBytes = r.len := by
    rw [Nat.mod_eq_of_lt fits, Nat.sub_add_cancel blocks]
    exact Nat.div_mul_cancel (Nat.dvd_of_mod_eq_zero whole)
  have slba : r.deviceOff / lbaBytes < 2 ^ 64 :=
    Nat.lt_of_le_of_lt (Nat.div_le_self _ _) narrow
  have first : (r.deviceOff / lbaBytes % 2 ^ 32 +
      2 ^ 32 * (r.deviceOff / lbaBytes / 2 ^ 32 % 2 ^ 32)) * lbaBytes = r.deviceOff := by
    have words : ∀ n : Nat, n < 2 ^ 64 → n % 2 ^ 32 + 2 ^ 32 * (n / 2 ^ 32 % 2 ^ 32) = n :=
      fun n _ => by omega
    rw [words _ slba]
    exact Nat.div_mul_cancel (Nat.dvd_of_mod_eq_zero aligned)
  refine ⟨rfl, rfl, Nat.pos_of_ne_zero nonempty, fun ns => ?_⟩
  unfold NvmePassthruCmd.data NvmePassthruCmd.read
  dsimp only
  rw [length, first]

/-- Why a command did not deliver its data: a negated errno, or the controller's status without its
phase bit. -/
inductive PassthruFailure where
  | errno (e : Nat)
  | status (field : Nat)
  deriving DecidableEq, Repr

def PassthruFailure.fromCqeResult (res : Int) : Option PassthruFailure :=
  if res = 0 then none
  else if res < 0 then some (.errno res.natAbs)
  else some (.status (res.toNat % 2 ^ 15))

theorem PassthruFailure.fromCqeResult_none {res : Int} : fromCqeResult res = none ↔ res = 0 := by
  unfold fromCqeResult
  split_ifs with zero negative
  · exact iff_of_true rfl zero
  · exact iff_of_false nofun zero
  · exact iff_of_false nofun zero

/-- How a batch fails: a request that was refused, or the first command that did. -/
inductive NvmeError where
  | refused (e : Failure)
  | passthru (deviceOff : Nat) (failure : PassthruFailure)
  | panic
  deriving DecidableEq, Repr

/-- A submission queue entry; `index` is its command's place in the batch. -/
structure NvmeSqe where
  cmd : NvmePassthruCmd
  userData : Nat
  index : Nat
  deriving DecidableEq, Repr

structure NvmeCqe where
  userData : Nat
  result : Int
  index : Nat
  deriving DecidableEq, Repr

def ringEntries : Nat := 64

/-- The program's place in the batch, by chunk. -/
inductive ReadPc where
  | start
  | push (chunk i : Nat)
  | drain (chunk waitFailures : Nat)
  | reap (chunk : Nat)
  | returned (result : Except NvmeError Unit)
  | aborted
  deriving DecidableEq

/-- The program, the ring and the landing region.  `issued` counts all pushes of the batch and
`seen` keeps every completion reaped. -/
structure ReadState where
  pc : ReadPc
  commands : List NvmePassthruCmd
  sq : List NvmeSqe
  inflight : List NvmeSqe
  cq : List NvmeCqe
  stale : List NvmeCqe
  submitted : Nat
  completed : Nat
  firstErr : Option NvmeError
  region : List U8
  issued : Nat
  seen : List NvmeCqe

namespace ReadState

variable (target : NamespaceTarget) (ns : Nat → U8) (reqs : List NvmeReq) (s : ReadState)

/-- The checks of every request, and the discard of stale completions. -/
def begin : ReadState :=
  if reqs = [] then { s with pc := .returned (.ok ()) }
  else
    match reqs.mapM (commandFor target.nsid target.lbaBytes target.maxTransfer) with
    | .error e => { s with pc := .returned (.error (.refused e)) }
    | .ok commands => { s with pc := .push 0 0, commands := commands, stale := [] }

/-- The push of a chunk's next command, or what comes when there is none. -/
def pushNext (chunk i : Nat) : ReadState :=
  match s.commands[chunk * ringEntries + i]? with
  | some cmd =>
      if i < ringEntries then
        if s.sq.length < ringEntries then
          { s with
            pc := .push chunk (i + 1)
            sq := s.sq ++ [⟨cmd, i, chunk * ringEntries + i⟩]
            submitted := i + 1
            issued := s.issued + 1 }
        else { s with pc := .returned (.error .panic) }
      else { s with pc := .drain chunk 0, completed := 0 }
  | none =>
      if i = 0 then { s with pc := .returned (s.firstErr.elim (.ok ()) .error) }
      else { s with pc := .drain chunk 0, completed := 0 }

/-- The turn of a drain: an enter until every command of the chunk has completed. -/
def drainTurn (chunk waitFailures : Nat) (answer : Except Nat Unit) : ReadState :=
  if s.completed < s.submitted then
    match answer with
    | .ok () => { s with pc := .reap chunk }
    | .error _ =>
        if 1000 ≤ waitFailures + 1 then { s with pc := .aborted }
        else { s with pc := .drain chunk (waitFailures + 1) }
  else { s with pc := .push (chunk + 1) 0, submitted := 0 }

/-- Records one completion; the first error stays. -/
def processCqe (reqs : List NvmeReq) (chunk : Nat) (firstErr : Option NvmeError)
    (cqe : NvmeCqe) : Option NvmeError :=
  match PassthruFailure.fromCqeResult cqe.result with
  | some failure =>
      firstErr.or (some (.passthru ((((reqs.drop (chunk * ringEntries)).take
        ringEntries)[cqe.userData]?).elim 0 NvmeReq.deviceOff) failure))
  | none => firstErr

/-- The loop over the completions that are there. -/
def reapAll (chunk : Nat) : ReadState :=
  { s with
    pc := .drain chunk 0
    cq := []
    completed := s.completed + s.cq.length
    firstErr := s.cq.foldl (processCqe reqs chunk) s.firstErr
    seen := s.seen ++ s.cq }

/-- One step of the program; `answer` is the kernel's, where the step enters it. -/
def advance (answer : Except Nat Unit) : ReadState :=
  match s.pc with
  | .start => s.begin target reqs
  | .push chunk i => s.pushNext chunk i
  | .drain chunk waitFailures => s.drainTurn chunk waitFailures answer
  | .reap chunk => s.reapAll reqs chunk
  | .returned _ => s
  | .aborted => s

/-- A batch about to begin on a quiescent ring. -/
def initial (region : List U8) (stale : List NvmeCqe) : ReadState where
  pc := .start
  commands := []
  sq := []
  inflight := []
  cq := []
  stale := stale
  submitted := 0
  completed := 0
  firstErr := none
  region := region
  issued := 0
  seen := []

/-- A step of the program or of the kernel and the drive behind it.  A command in flight may leave
any bytes inside its buffer; one that completes with zero has left the drive's own. -/
inductive Step (s : ReadState) : ReadState → Prop where
  | program (answer : Except Nat Unit) : Step s (s.advance target reqs answer)
  | take (e : NvmeSqe) (rest : List NvmeSqe) (first : s.sq = e :: rest) :
      Step s { s with sq := rest, inflight := s.inflight ++ [e] }
  | scribble (e : NvmeSqe) (at_ : Nat) (bytes : List U8) (held : e ∈ s.inflight)
      (inside : e.cmd.addr ≤ at_ ∧ at_ + bytes.length ≤ e.cmd.addr + e.cmd.dataLen) :
      Step s { s with region := writeAt s.region at_ bytes }
  | complete (e : NvmeSqe) (before after : List NvmeSqe)
      (held : s.inflight = before ++ e :: after) :
      Step s { s with
        inflight := before ++ after
        cq := s.cq ++ [⟨e.userData, 0, e.index⟩]
        region := writeAt s.region e.cmd.addr (e.cmd.data ns target.lbaBytes) }
  | fail (e : NvmeSqe) (before after : List NvmeSqe) (result : Int) (nonzero : result ≠ 0)
      (held : s.inflight = before ++ e :: after) :
      Step s { s with
        inflight := before ++ after
        cq := s.cq ++ [⟨e.userData, result, e.index⟩] }

/-- The states of a batch over every behaviour of the kernel and the drive. -/
inductive Reachable (region : List U8) : ReadState → Prop where
  | initial (stale : List NvmeCqe) : Reachable region (initial region stale)
  | step {s s' : ReadState} (reached : Reachable region s) (step : Step target ns reqs s s') :
      Reachable region s'

/-- What each place of the program knows of the counters. -/
def Placed (s : ReadState) : ReadPc → Prop
  | .start => s.issued = 0 ∧ s.submitted = 0
  | .push chunk i =>
      s.commands.length = reqs.length ∧ s.submitted = i ∧
        (s.issued = chunk * ringEntries + i ∧ s.seen.length = chunk * ringEntries ∧
            i ≤ ringEntries ∧ chunk * ringEntries + i ≤ s.commands.length ∨
          i = 0 ∧ s.commands.length ≤ chunk * ringEntries ∧ s.issued = s.commands.length ∧
            s.seen.length = s.commands.length)
  | .drain chunk _ | .reap chunk =>
      s.commands.length = reqs.length ∧ s.issued = chunk * ringEntries + s.submitted ∧
        s.seen.length = chunk * ringEntries + s.completed ∧
        (s.submitted = ringEntries ∧ s.issued ≤ s.commands.length ∨
          s.submitted ≤ ringEntries ∧ s.issued = s.commands.length)
  | .returned result =>
      s.issued = s.seen.length ∧ result ≠ .error .panic ∧
        (result = .ok () → s.issued = reqs.length ∧ ∀ c ∈ s.seen, c.result = 0)
  | .aborted => True

/-- Every command pushed is in one of the queues, with the drive, or reaped, under its own
number. -/
structure Sound (s : ReadState) : Prop where
  entries : (s.sq.map NvmeSqe.index ++ s.inflight.map NvmeSqe.index ++ s.cq.map NvmeCqe.index ++
    s.seen.map NvmeCqe.index).Perm (List.range s.issued)
  held : ∀ e ∈ s.sq ++ s.inflight, s.commands[e.index]? = some e.cmd
  checked : ∀ (j : Nat) (cmd : NvmePassthruCmd), s.commands[j]? = some cmd →
    ∃ r, reqs[j]? = some r ∧
      commandFor target.nsid target.lbaBytes target.maxTransfer r = .ok cmd
  clean : s.firstErr = none → ∀ c ∈ s.seen, c.result = 0
  unpanicked : s.firstErr ≠ some .panic
  placed : Placed reqs s s.pc

variable {target ns reqs} {s s' : ReadState} {region : List U8}

theorem Sound.outstanding (h : Sound target reqs s) :
    s.sq.length + s.inflight.length + s.cq.length + s.seen.length = s.issued := by
  have count := h.entries.length_eq
  simp only [List.length_append, List.length_map, List.length_range] at count
  exact count

theorem processCqe_eq_none {chunk : Nat} {e : Option NvmeError} {cqe : NvmeCqe} :
    processCqe reqs chunk e cqe = none ↔ e = none ∧ cqe.result = 0 := by
  unfold processCqe
  cases failed : PassthruFailure.fromCqeResult cqe.result with
  | none => simp [PassthruFailure.fromCqeResult_none.mp failed]
  | some failure =>
      have nonzero : cqe.result ≠ 0 := fun zero => by
        rw [PassthruFailure.fromCqeResult_none.mpr zero] at failed
        cases failed
      simp [nonzero]

theorem foldl_processCqe_eq_none {chunk : Nat} {e : Option NvmeError} {cqes : List NvmeCqe} :
    cqes.foldl (processCqe reqs chunk) e = none ↔ e = none ∧ ∀ c ∈ cqes, c.result = 0 := by
  induction cqes generalizing e with
  | nil => simp
  | cons c cqes ih =>
      rw [List.foldl_cons, ih, processCqe_eq_none, List.forall_mem_cons, and_assoc]

theorem processCqe_ne_panic {chunk : Nat} {e : Option NvmeError} {cqe : NvmeCqe}
    (h : e ≠ some .panic) : processCqe reqs chunk e cqe ≠ some .panic := by
  unfold processCqe
  cases PassthruFailure.fromCqeResult cqe.result with
  | none => exact h
  | some failure =>
      cases e with
      | none => exact nofun
      | some e => exact h

theorem foldl_processCqe_ne_panic {chunk : Nat} {e : Option NvmeError} {cqes : List NvmeCqe}
    (h : e ≠ some .panic) : cqes.foldl (processCqe reqs chunk) e ≠ some .panic := by
  induction cqes generalizing e with
  | nil => exact h
  | cons c cqes ih => exact ih (processCqe_ne_panic h)

theorem sound_initial (region : List U8) (stale : List NvmeCqe) :
    Sound target reqs (initial region stale) where
  entries := .nil
  held _ mem := by cases mem
  checked _ _ none_ := by cases none_
  clean _ _ mem := by cases mem
  unpanicked := nofun
  placed := ⟨rfl, rfl⟩

theorem Sound.begin (h : Sound target reqs s) (start : s.pc = .start) :
    Sound target reqs (s.begin target reqs) := by
  have placed := h.placed
  rw [start] at placed
  have out := h.outstanding
  obtain ⟨none_, idle⟩ : s.issued = 0 ∧ s.submitted = 0 := placed
  have unseen : s.seen.length = 0 := by omega
  unfold ReadState.begin
  split_ifs with empty
  · refine ⟨h.entries, h.held, h.checked, h.clean, h.unpanicked, ?_, nofun, fun _ => ⟨?_, ?_⟩⟩
    · exact none_.trans unseen.symm
    · rw [empty]
      exact none_
    · intro c mem
      rw [List.eq_nil_of_length_eq_zero unseen] at mem
      cases mem
  · cases parsed : reqs.mapM (commandFor target.nsid target.lbaBytes target.maxTransfer) with
    | error e =>
        exact ⟨h.entries, h.held, h.checked, h.clean, h.unpanicked, none_.trans unseen.symm, nofun,
          nofun⟩
    | ok commands =>
        have each := mapM_each parsed
        have empty_ : s.sq ++ s.inflight = [] := List.eq_nil_of_length_eq_zero (by
          rw [List.length_append]
          omega)
        refine ⟨h.entries, fun e mem => ?_, fun j cmd at_ => ?_, h.clean, h.unpanicked,
          each.length_eq.symm, idle, .inl ⟨?_, ?_, Nat.zero_le _, ?_⟩⟩
        · change e ∈ s.sq ++ s.inflight at mem
          rw [empty_] at mem
          cases mem
        · obtain ⟨inside, value⟩ := List.getElem?_eq_some_iff.mp at_
          have within : j < reqs.length := each.length_eq ▸ inside
          refine ⟨reqs[j], List.getElem?_eq_getElem within, ?_⟩
          have here := (List.forall₂_iff_get.mp each).2 j within inside
          rw [List.get_eq_getElem, List.get_eq_getElem] at here
          exact value ▸ here
        · rw [Nat.zero_mul]
          exact none_
        · rw [Nat.zero_mul]
          exact unseen
        · rw [Nat.zero_mul]
          exact Nat.zero_le _

/-- A step that only moves the program and its counters. -/
theorem Sound.moved (h : Sound target reqs s) {pc : ReadPc} {submitted completed : Nat}
    (placed : Placed reqs { s with pc := pc, submitted := submitted, completed := completed } pc) :
    Sound target reqs { s with pc := pc, submitted := submitted, completed := completed } :=
  ⟨h.entries, h.held, h.checked, h.clean, h.unpanicked, placed⟩

theorem Sound.push (h : Sound target reqs s) {chunk i : Nat} {cmd : NvmePassthruCmd}
    (at_ : s.commands[s.issued]? = some cmd)
    (placed : Placed reqs { s with
      pc := .push chunk (i + 1), submitted := i + 1, issued := s.issued + 1 }
      (.push chunk (i + 1))) :
    Sound target reqs { s with
      pc := .push chunk (i + 1)
      sq := s.sq ++ [⟨cmd, i, s.issued⟩]
      submitted := i + 1
      issued := s.issued + 1 } where
  entries := by
    have last : ([s.issued] ++ (s.inflight.map NvmeSqe.index ++ s.cq.map NvmeCqe.index ++
        s.seen.map NvmeCqe.index)).Perm ((s.inflight.map NvmeSqe.index ++
          s.cq.map NvmeCqe.index ++ s.seen.map NvmeCqe.index) ++ [s.issued]) :=
      List.perm_append_comm
    have moved := last.append_left (s.sq.map NvmeSqe.index)
    have grown := h.entries.append_right [s.issued]
    simp only [List.append_assoc] at moved grown
    rw [← List.range_succ] at grown
    simp only [List.map_append, List.append_assoc]
    exact moved.trans grown
  held e mem := by
    rw [List.append_assoc, List.mem_append, List.singleton_append, List.mem_cons] at mem
    rcases mem with old | rfl | old
    · exact h.held e (List.mem_append_left _ old)
    · exact at_
    · exact h.held e (List.mem_append_right _ old)
  checked := h.checked
  clean := h.clean
  unpanicked := h.unpanicked
  placed := placed

theorem Sound.pushNext (h : Sound target reqs s) {chunk i : Nat} (here : s.pc = .push chunk i) :
    Sound target reqs (s.pushNext chunk i) := by
  have placed := h.placed
  rw [here] at placed
  obtain ⟨count, submitted, placed⟩ := placed
  have out := h.outstanding
  unfold ReadState.pushNext
  cases at_ : s.commands[chunk * ringEntries + i]? with
  | some cmd =>
      obtain ⟨inside, -⟩ := List.getElem?_eq_some_iff.mp at_
      obtain ⟨issued, seen, small, fits⟩ | ⟨rfl, past, -⟩ := placed
      · dsimp only
        by_cases more : i < ringEntries
        · rw [if_pos more, if_pos (by omega), ← issued]
          refine h.push (issued ▸ at_) ⟨count, rfl, .inl ⟨?_, seen, more, ?_⟩⟩
          · show s.issued + 1 = _
            omega
          · show chunk * ringEntries + (i + 1) ≤ s.commands.length
            omega
        · rw [if_neg more]
          refine h.moved ⟨count, submitted ▸ issued, seen, .inl ⟨?_, ?_⟩⟩
          · show s.submitted = ringEntries
            omega
          · show s.issued ≤ s.commands.length
            omega
      · omega
  | none =>
      have past := List.getElem?_eq_none_iff.mp at_
      dsimp only
      by_cases first : i = 0
      · rw [if_pos first]
        have whole : s.issued = s.commands.length ∧ s.seen.length = s.issued := by
          rcases placed with ⟨issued, seen, -, fits⟩ | ⟨-, -, issued, seen⟩ <;> omega
        refine h.moved ⟨whole.2.symm, ?_, ?_⟩
        · intro panicked
          cases failed : s.firstErr with
          | none =>
              rw [failed] at panicked
              cases panicked
          | some e =>
              rw [failed] at panicked
              exact h.unpanicked (failed.trans (congrArg some (Except.error.inj panicked)))
        · intro ok
          refine ⟨whole.1.trans count, h.clean ?_⟩
          cases failed : s.firstErr with
          | none => rfl
          | some e =>
              rw [failed] at ok
              cases ok
      · rw [if_neg first]
        obtain ⟨issued, seen, small, fits⟩ | ⟨zero, -⟩ := placed
        · refine h.moved ⟨count, submitted ▸ issued, seen, .inr ⟨?_, ?_⟩⟩
          · show s.submitted ≤ ringEntries
            omega
          · show s.issued = s.commands.length
            omega
        · exact absurd zero first

theorem Sound.drainTurn (h : Sound target reqs s) {chunk waitFailures : Nat}
    (here : s.pc = .drain chunk waitFailures) (answer : Except Nat Unit) :
    Sound target reqs (s.drainTurn chunk waitFailures answer) := by
  have placed := h.placed
  rw [here] at placed
  have out := h.outstanding
  unfold ReadState.drainTurn
  by_cases waits : s.completed < s.submitted
  · rw [if_pos waits]
    cases answer with
    | ok => exact h.moved placed
    | error errno =>
        dsimp only
        by_cases persistent : 1000 ≤ waitFailures + 1
        · rw [if_pos persistent]
          exact h.moved trivial
        · rw [if_neg persistent]
          exact h.moved placed
  · rw [if_neg waits]
    obtain ⟨count, issued, seen, full⟩ := placed
    refine h.moved ⟨count, rfl, ?_⟩
    dsimp only
    rw [Nat.succ_mul]
    omega

theorem Sound.reapAll (h : Sound target reqs s) {chunk : Nat} (here : s.pc = .reap chunk) :
    Sound target reqs (s.reapAll reqs chunk) := by
  have placed := h.placed
  rw [here] at placed
  obtain ⟨count, issued, seen, full⟩ := placed
  refine ⟨?_, h.held, h.checked, fun none_ c mem => ?_, foldl_processCqe_ne_panic h.unpanicked,
    count, issued, ?_, full⟩
  · have moved : (s.sq.map NvmeSqe.index ++ s.inflight.map NvmeSqe.index ++
        (s.seen ++ s.cq).map NvmeCqe.index).Perm (s.sq.map NvmeSqe.index ++
          s.inflight.map NvmeSqe.index ++ (s.cq ++ s.seen).map NvmeCqe.index) :=
      (List.perm_append_comm.map _).append_left _
    rw [show (s.cq ++ s.seen).map NvmeCqe.index =
      s.cq.map NvmeCqe.index ++ s.seen.map NvmeCqe.index from List.map_append,
      ← List.append_assoc] at moved
    show (_ ++ [] ++ _).Perm _
    rw [List.append_nil]
    exact moved.trans h.entries
  · obtain ⟨before, zero⟩ := foldl_processCqe_eq_none.mp none_
    rcases List.mem_append.mp mem with old | new
    · exact h.clean before c old
    · exact zero c new
  · show (s.seen ++ s.cq).length = chunk * ringEntries + (s.completed + s.cq.length)
    rw [List.length_append]
    omega

/-- A command moves from the drive to the completion queue, whatever its result. -/
theorem Sound.post (h : Sound target reqs s) {e : NvmeSqe} {before after : List NvmeSqe}
    (held : s.inflight = before ++ e :: after) (result : Int) (region : List U8) :
    Sound target reqs { s with
      inflight := before ++ after
      cq := s.cq ++ [⟨e.userData, result, e.index⟩]
      region := region } where
  entries := by
    have last : ([e.index] ++ (after.map NvmeSqe.index ++ s.cq.map NvmeCqe.index)).Perm
        ((after.map NvmeSqe.index ++ s.cq.map NvmeCqe.index) ++ [e.index]) :=
      List.perm_append_comm
    have moved := (last.symm.append_right (s.seen.map NvmeCqe.index)).append_left
      (s.sq.map NvmeSqe.index ++ before.map NvmeSqe.index)
    have entries := h.entries
    rw [held] at entries
    simp only [List.map_append, List.map_cons, List.map_nil, List.append_assoc, List.cons_append,
      List.nil_append] at moved entries ⊢
    exact moved.trans entries
  held e' mem := by
    refine h.held e' ?_
    rw [held]
    rcases List.mem_append.mp mem with waits | flies
    · exact List.mem_append_left _ waits
    · refine List.mem_append_right _ ?_
      rcases List.mem_append.mp flies with old | old
      · exact List.mem_append_left _ old
      · exact List.mem_append_right _ (List.mem_cons_of_mem e old)
  checked := h.checked
  clean := h.clean
  unpanicked := h.unpanicked
  placed := h.placed

theorem Sound.take (h : Sound target reqs s) {e : NvmeSqe} {rest : List NvmeSqe}
    (first : s.sq = e :: rest) :
    Sound target reqs { s with sq := rest, inflight := s.inflight ++ [e] } where
  entries := by
    have last : ([e.index] ++ (rest.map NvmeSqe.index ++ s.inflight.map NvmeSqe.index)).Perm
        ((rest.map NvmeSqe.index ++ s.inflight.map NvmeSqe.index) ++ [e.index]) :=
      List.perm_append_comm
    have moved := last.symm.append_right (s.cq.map NvmeCqe.index ++ s.seen.map NvmeCqe.index)
    have entries := h.entries
    rw [first] at entries
    simp only [List.map_append, List.map_cons, List.map_nil, List.append_assoc, List.cons_append,
      List.nil_append] at moved entries ⊢
    exact moved.trans entries
  held e' mem := by
    refine h.held e' ?_
    rw [first]
    rcases List.mem_append.mp mem with waits | flies
    · exact List.mem_append_left _ (List.mem_cons_of_mem e waits)
    · rcases List.mem_append.mp flies with old | new
      · exact List.mem_append_right _ old
      · rw [List.mem_singleton.mp new]
        exact List.mem_append_left _ List.mem_cons_self
  checked := h.checked
  clean := h.clean
  unpanicked := h.unpanicked
  placed := h.placed

theorem Sound.step (h : Sound target reqs s) (step : Step target ns reqs s s') :
    Sound target reqs s' := by
  cases step with
  | program answer =>
      unfold ReadState.advance
      cases here : s.pc with
      | start => exact h.begin here
      | push chunk i => exact h.pushNext here
      | drain chunk waitFailures => exact h.drainTurn here answer
      | reap chunk => exact h.reapAll here
      | returned result => exact h
      | aborted => exact h
  | take e rest first => exact h.take first
  | scribble e at_ bytes held inside =>
      exact ⟨h.entries, h.held, h.checked, h.clean, h.unpanicked, h.placed⟩
  | complete e before after held => exact h.post held 0 _
  | fail e before after result nonzero held => exact h.post held result s.region

theorem Reachable.sound (h : Reachable target ns reqs region s) : Sound target reqs s := by
  induction h with
  | initial stale => exact sound_initial region stale
  | step _ step ih => exact ih.step step

/-- A batch that has returned has nothing queued, in flight or unreaped; where it succeeded every
request has its completion, and none failed. -/
theorem Reachable.returned (h : Reachable target ns reqs region s)
    {result : Except NvmeError Unit} (done : s.pc = .returned result) :
    s.sq = [] ∧ s.inflight = [] ∧ s.cq = [] ∧
      (s.seen.map NvmeCqe.index).Perm (List.range s.issued) ∧ result ≠ .error .panic ∧
      (result = .ok () → s.issued = reqs.length ∧ ∀ c ∈ s.seen, c.result = 0) := by
  have sound := h.sound
  have out := sound.outstanding
  have placed := sound.placed
  rw [done] at placed
  obtain ⟨all, clean, ok⟩ := placed
  have sq := List.eq_nil_of_length_eq_zero (show s.sq.length = 0 by omega)
  have inflight := List.eq_nil_of_length_eq_zero (show s.inflight.length = 0 by omega)
  have cq := List.eq_nil_of_length_eq_zero (show s.cq.length = 0 by omega)
  have entries := sound.entries
  rw [sq, inflight, cq] at entries
  exact ⟨sq, inflight, cq, entries, clean, ok⟩

/-- Buffers inside the region, no two of them sharing a byte. -/
structure BuffersApart (reqs : List NvmeReq) (size : Nat) : Prop where
  inside : ∀ r ∈ reqs, r.buf + r.len ≤ size ∧ r.deviceOff < 2 ^ 64
  apart : ∀ (i j : Nat) (a b : NvmeReq), i ≠ j → reqs[i]? = some a → reqs[j]? = some b →
    a.buf + a.len ≤ b.buf ∨ b.buf + b.len ≤ a.buf

/-- The buffer of every request that completed with zero holds the namespace's bytes. -/
structure Landed (ns : Nat → U8) (reqs : List NvmeReq) (size : Nat) (s : ReadState) : Prop where
  length : s.region.length = size
  bytes : ∀ c ∈ s.cq ++ s.seen, c.result = 0 → ∀ r, reqs[c.index]? = some r → ∀ k < r.len,
    s.region[r.buf + k]? = some (ns (r.deviceOff + k))

variable {size : Nat}

/-- A command in flight is its request's. -/
theorem Sound.request (h : Sound target reqs s) (apart : BuffersApart reqs size) {e : NvmeSqe}
    (flies : e ∈ s.inflight) (ns : Nat → U8) :
    ∃ r, reqs[e.index]? = some r ∧ e.cmd.addr = r.buf ∧ e.cmd.dataLen = r.len ∧
      e.cmd.data ns target.lbaBytes = (List.range r.len).map fun k => ns (r.deviceOff + k) := by
  obtain ⟨r, at_, checked⟩ := h.checked e.index e.cmd (h.held e (List.mem_append_right _ flies))
  obtain ⟨addr, len, -, data⟩ :=
    commandFor_ok checked (apart.inside r (List.mem_of_getElem? at_)).2
  exact ⟨r, at_, addr, len, data ns⟩

/-- A command in flight has not completed. -/
theorem Sound.index_ne (h : Sound target reqs s) {e : NvmeSqe} (flies : e ∈ s.inflight)
    {c : NvmeCqe} (done : c ∈ s.cq ++ s.seen) : c.index ≠ e.index := by
  intro same
  have nodup := (List.Perm.nodup_iff h.entries).mpr List.nodup_range
  rw [List.append_assoc] at nodup
  have listed : c.index ∈ s.cq.map NvmeCqe.index ++ s.seen.map NvmeCqe.index := by
    rw [← List.map_append]
    exact List.mem_map_of_mem done
  refine (List.nodup_append.mp nodup).2.2 e.index ?_ c.index listed same.symm
  exact List.mem_append_right _ (List.mem_map_of_mem flies)

/-- What a command in flight writes is outside every other request's buffer. -/
theorem Landed.write (landed : Landed ns reqs size s) (h : Sound target reqs s)
    (apart : BuffersApart reqs size) {e : NvmeSqe} (flies : e ∈ s.inflight) {at_ : Nat}
    {bytes : List U8}
    (inside : e.cmd.addr ≤ at_ ∧ at_ + bytes.length ≤ e.cmd.addr + e.cmd.dataLen) :
    (writeAt s.region at_ bytes).length = size ∧
      ∀ c ∈ s.cq ++ s.seen, c.result = 0 → ∀ r, reqs[c.index]? = some r → ∀ k < r.len,
        (writeAt s.region at_ bytes)[r.buf + k]? = some (ns (r.deviceOff + k)) := by
  obtain ⟨own, ownAt, addr, len, -⟩ := h.request apart flies ns
  have room : at_ + bytes.length ≤ s.region.length := by
    have := (apart.inside own (List.mem_of_getElem? ownAt)).1
    rw [landed.length]
    omega
  refine ⟨(writeAt_length room).trans landed.length, fun c done zero r at_ k within => ?_⟩
  rw [writeAt_outside room]
  · exact landed.bytes c done zero r at_ k within
  · have := apart.apart _ _ _ _ (h.index_ne flies done) at_ ownAt
    omega

/-- The same bytes, and the same completions posted. -/
structure Kept (s s' : ReadState) : Prop where
  region : s'.region = s.region
  posted : (s'.cq ++ s'.seen).Perm (s.cq ++ s.seen)

theorem kept_begin : Kept s (s.begin target reqs) := by
  unfold ReadState.begin
  split
  · exact ⟨rfl, .refl _⟩
  · split <;> exact ⟨rfl, .refl _⟩

theorem kept_pushNext (chunk i : Nat) : Kept s (s.pushNext chunk i) := by
  unfold ReadState.pushNext
  split
  · split
    · split <;> exact ⟨rfl, .refl _⟩
    · exact ⟨rfl, .refl _⟩
  · split <;> exact ⟨rfl, .refl _⟩

theorem kept_drainTurn (chunk waitFailures : Nat) (answer : Except Nat Unit) :
    Kept s (s.drainTurn chunk waitFailures answer) := by
  unfold ReadState.drainTurn
  split
  · split
    · exact ⟨rfl, .refl _⟩
    · split <;> exact ⟨rfl, .refl _⟩
  · exact ⟨rfl, .refl _⟩

/-- The program itself writes nothing. -/
theorem kept_advance (answer : Except Nat Unit) : Kept s (s.advance target reqs answer) := by
  unfold ReadState.advance
  cases s.pc with
  | start => exact kept_begin
  | push chunk i => exact kept_pushNext chunk i
  | drain chunk waitFailures => exact kept_drainTurn chunk waitFailures answer
  | reap chunk =>
      exact ⟨rfl, (List.perm_append_comm : (s.seen ++ s.cq).Perm (s.cq ++ s.seen))⟩
  | returned result => exact ⟨rfl, .refl _⟩
  | aborted => exact ⟨rfl, .refl _⟩

theorem Landed.step (landed : Landed ns reqs size s) (h : Sound target reqs s)
    (apart : BuffersApart reqs size) (step : Step target ns reqs s s') :
    Landed ns reqs size s' := by
  cases step with
  | program answer =>
      have kept : Kept s (s.advance target reqs answer) := kept_advance answer
      refine ⟨kept.region ▸ landed.length, fun c mem => ?_⟩
      rw [kept.region]
      exact landed.bytes c (kept.posted.mem_iff.mp mem)
  | take e rest first => exact ⟨landed.length, landed.bytes⟩
  | scribble e at_ bytes held inside =>
      obtain ⟨length, others⟩ := landed.write h apart held inside
      exact ⟨length, others⟩
  | complete e before after held =>
      have flies : e ∈ s.inflight := held ▸ List.mem_append_right _ List.mem_cons_self
      obtain ⟨own, ownAt, addr, len, data⟩ := h.request apart flies ns
      have long : (e.cmd.data ns target.lbaBytes).length = own.len := by
        rw [data, List.length_map, List.length_range]
      have room : e.cmd.addr + (e.cmd.data ns target.lbaBytes).length ≤ s.region.length := by
        have := (apart.inside own (List.mem_of_getElem? ownAt)).1
        rw [landed.length]
        omega
      have within : e.cmd.addr ≤ e.cmd.addr ∧
          e.cmd.addr + (e.cmd.data ns target.lbaBytes).length ≤ e.cmd.addr + e.cmd.dataLen :=
        ⟨Nat.le_refl _, by omega⟩
      obtain ⟨length, others⟩ := landed.write h apart flies within
      refine ⟨length, fun c mem zero r at_ k within => ?_⟩
      rw [List.append_assoc, List.mem_append, List.singleton_append, List.mem_cons] at mem
      rcases mem with old | rfl | old
      · exact others c (List.mem_append_left _ old) zero r at_ k within
      · obtain rfl := Option.some.inj (at_.symm.trans ownAt)
        dsimp only
        rw [← addr, writeAt_inside room (long ▸ within), data, List.getElem?_map,
          List.getElem?_range within]
        rfl
      · exact others c (List.mem_append_right _ old) zero r at_ k within
  | fail e before after result nonzero held =>
      refine ⟨landed.length, fun c mem zero => ?_⟩
      rw [List.append_assoc, List.mem_append, List.singleton_append, List.mem_cons] at mem
      rcases mem with old | rfl | old
      · exact landed.bytes c (List.mem_append_left _ old) zero
      · exact absurd zero nonzero
      · exact landed.bytes c (List.mem_append_right _ old) zero

theorem Reachable.landed (h : Reachable target ns reqs region s)
    (apart : BuffersApart reqs region.length) : Landed ns reqs region.length s := by
  induction h with
  | initial stale => exact ⟨rfl, fun _ mem => by cases mem⟩
  | step reached step ih => exact ih.step reached.sound apart step

/-- A batch that succeeds has every request's bytes in its buffer. -/
theorem Reachable.read (h : Reachable target ns reqs region s)
    (apart : BuffersApart reqs region.length) (ended : s.pc = .returned (.ok ())) {j : Nat}
    {r : NvmeReq} (at_ : reqs[j]? = some r) :
    (s.region.drop r.buf).take r.len = (List.range r.len).map fun k => ns (r.deviceOff + k) := by
  obtain ⟨-, -, -, every, -, ok⟩ := h.returned ended
  obtain ⟨all, zero⟩ := ok rfl
  obtain ⟨inside, -⟩ := List.getElem?_eq_some_iff.mp at_
  have mem : j ∈ s.seen.map NvmeCqe.index := every.mem_iff.mpr (List.mem_range.mpr (all ▸ inside))
  obtain ⟨c, done, rfl⟩ := List.mem_map.mp mem
  have bytes := (h.landed apart).bytes c (List.mem_append_right _ done) (zero c done) r at_
  refine List.ext_getElem? fun k => ?_
  rcases Nat.lt_or_ge k r.len with within | past
  · rw [List.getElem?_take_of_lt within, List.getElem?_drop, bytes k within, List.getElem?_map,
      List.getElem?_range within]
    rfl
  · rw [List.getElem?_eq_none, List.getElem?_eq_none]
    · rwa [List.length_map, List.length_range]
    · exact Nat.le_trans (List.length_take_le _ _) past

end ReadState

end AetherGraph
