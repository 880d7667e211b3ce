import AetherGraph.Prefetch

/-! How a loader's threads end: a worker's body comes to an end, drops its channel ends, and only
then is what it came to recorded as the pipeline's fault. -/

namespace AetherGraph

/-- What a worker's body came to. -/
inductive BodyEnd where
  | finished
  | error (text : String)
  | panic (payload : Option String)
  deriving DecidableEq, Repr

def BodyEnd.isFault : BodyEnd → Bool
  | .finished => false
  | .error _ | .panic _ => true

def panicMessage : Option String → String
  | some text => "panic: " ++ text
  | none => "panic with non-string payload"

def BodyEnd.message : BodyEnd → String
  | .finished => "worker finished before the loader stopped"
  | .error text => text
  | .panic payload => panicMessage payload

/-- What `run_worker` records. -/
def runWorker (stopped : Bool) : BodyEnd → Option String
  | .finished => if stopped then none else some BodyEnd.finished.message
  | e => some e.message

/-- A feature stage has one thread, which only panics. -/
inductive PoolWorker where
  | sampler (t : Nat)
  | featureLoader
  deriving DecidableEq, Repr

inductive ThreadPhase where
  | idle
  | busy
  | delivering
  | ending (e : BodyEnd) (recvHeld sendHeld : Bool)
  | failing (message : String)
  | stopping
  | tripping
  | over
  deriving DecidableEq, Repr

namespace ThreadPhase

/-- The thread is in its worker's loop. -/
def running : ThreadPhase → Bool
  | .idle | .busy | .delivering => true
  | _ => false

def holdsRecv : ThreadPhase → Bool
  | .ending _ recvHeld _ => recvHeld
  | p => p.running

def holdsSend : ThreadPhase → Bool
  | .ending _ _ sendHeld => sendHeld
  | p => p.running

end ThreadPhase

/-- `recordedBy` is the worker whose message was recorded. -/
structure StopSignal where
  stopped : Bool
  shutdown : Bool
  fault : Option String
  tripped : Bool
  recordedBy : Option PoolWorker
  deriving DecidableEq, Repr

namespace StopSignal

def new : StopSignal := ⟨false, false, none, false, none⟩

/-- The fault is set once. -/
def setFault (s : StopSignal) (w : PoolWorker) (message : String) : StopSignal :=
  { s with fault := s.fault.or (some message), recordedBy := s.recordedBy.or (some w) }

/-- The end of the stream, or the fault. -/
def outcome (s : StopSignal) : Except (Option String) Unit :=
  if s.shutdown then .ok () else .error s.fault

end StopSignal

inductive WorkerAct where
  | recv
  | fetchNext
  | quit
  | fault (e : BodyEnd)
  | finish
  | send
  | sendFails
  | dropRecv
  | dropSend
  | return
  | setFault
  | stop
  | trip
  deriving DecidableEq, Repr

inductive LoaderAct where
  | submit
  | consume
  | requestShutdown
  | stop
  | trip
  | worker (w : PoolWorker) (act : WorkerAct)
  deriving DecidableEq, Repr

/-- The threads of a loader, with how many batches each channel holds.  `pending` is the feature
loader's next batch, taken early. -/
structure LoaderThreads where
  samplers : List ThreadPhase
  featureLoader : Option ThreadPhase
  pending : Bool
  workQueue : Nat
  sampleQueue : Nat
  resultQueue : Nat
  stop : StopSignal
  deriving DecidableEq, Repr

namespace LoaderThreads

def new (features : Bool) (samplerThreads : Nat) : LoaderThreads where
  samplers := List.replicate (max samplerThreads 1) .idle
  featureLoader := if features then some .idle else none
  pending := false
  workQueue := 0
  sampleQueue := 0
  resultQueue := 0
  stop := .new

def phase (s : LoaderThreads) : PoolWorker → Option ThreadPhase
  | .sampler t => s.samplers[t]?
  | .featureLoader => s.featureLoader

def setPhase (s : LoaderThreads) (w : PoolWorker) (p : ThreadPhase) : LoaderThreads :=
  match w with
  | .sampler t => { s with samplers := s.samplers.set t p }
  | .featureLoader => { s with featureLoader := some p }

/-- The samplers own the only senders of the sample channel. -/
def samplesOpen (s : LoaderThreads) : Bool := s.samplers.any ThreadPhase.holdsSend

/-- A worker's input is empty and closed.  The pipeline holds the work channel open. -/
def inputClosed (s : LoaderThreads) : PoolWorker → Bool
  | .sampler _ => false
  | .featureLoader => decide (s.sampleQueue = 0) && !s.samplesOpen

/-- The receiving side of a worker's output is gone.  The pipeline holds the result channel. -/
def outputGone (s : LoaderThreads) : PoolWorker → Bool
  | .sampler _ => s.featureLoader.any fun p => !p.holdsRecv
  | .featureLoader => false

/-- The next batch of a worker's input. -/
def takeInput (s : LoaderThreads) : PoolWorker → Option LoaderThreads
  | .sampler _ =>
      if 0 < s.workQueue then some { s with workQueue := s.workQueue - 1 } else none
  | .featureLoader =>
      if s.pending then some { s with pending := false }
      else if 0 < s.sampleQueue then some { s with sampleQueue := s.sampleQueue - 1 }
      else none

/-- A batch for a worker's output, where there is room. -/
def putOutput (cap : Capacities) (s : LoaderThreads) (w : PoolWorker) : Option LoaderThreads :=
  if w ≠ .featureLoader ∧ s.featureLoader.isSome then
    if s.sampleQueue < cap.samples ∧ ¬ s.outputGone w then
      some { s with sampleQueue := s.sampleQueue + 1 }
    else none
  else if s.resultQueue < cap.results then some { s with resultQueue := s.resultQueue + 1 }
  else none

/-- Whether a worker's loop ends instead of taking a batch. -/
def quits (s : LoaderThreads) (w : PoolWorker) : Bool :=
  !(decide (w = .featureLoader) && s.pending) && (s.stop.stopped || s.inputClosed w)

def workerStep (cap : Capacities) (s : LoaderThreads) (w : PoolWorker) :
    ThreadPhase → WorkerAct → Option LoaderThreads
  | .idle, .recv => (s.takeInput w).map fun s => s.setPhase w .busy
  | .idle, .quit => if s.quits w then some (s.setPhase w (.ending .finished true true)) else none
  | .idle, .fault e | .busy, .fault e =>
      if e.isFault then some (s.setPhase w (.ending e true true)) else none
  | .busy, .fetchNext =>
      if w = .featureLoader ∧ s.pending = false ∧ 0 < s.sampleQueue then
        some { s with pending := true, sampleQueue := s.sampleQueue - 1 }
      else none
  | .busy, .finish => some (s.setPhase w .delivering)
  | .delivering, .send => (s.putOutput cap w).map fun s => s.setPhase w .idle
  | .delivering, .sendFails =>
      if s.stop.tripped || s.outputGone w then some (s.setPhase w (.ending .finished true true))
      else none
  | .ending e _ sendHeld, .dropRecv => some (s.setPhase w (.ending e false sendHeld))
  | .ending e recvHeld _, .dropSend => some (s.setPhase w (.ending e recvHeld false))
  | .ending e false false, .return =>
      match runWorker s.stop.stopped e with
      | some message => some (s.setPhase w (.failing message))
      | none => some (s.setPhase w .over)
  | .failing message, .setFault =>
      some ({ s with stop := s.stop.setFault w message }.setPhase w .stopping)
  | .stopping, .stop =>
      some ({ s with stop := { s.stop with stopped := true } }.setPhase w .tripping)
  | .tripping, .trip => some ({ s with stop := { s.stop with tripped := true } }.setPhase w .over)
  | _, _ => none

/-- `request_shutdown` is three stores of the thread that calls it. -/
def step (cap : Capacities) (s : LoaderThreads) : LoaderAct → Option LoaderThreads
  | .submit =>
      if s.workQueue < cap.work then some { s with workQueue := s.workQueue + 1 } else none
  | .consume =>
      if 0 < s.resultQueue then some { s with resultQueue := s.resultQueue - 1 } else none
  | .requestShutdown => some { s with stop := { s.stop with shutdown := true } }
  | .stop =>
      if s.stop.shutdown then some { s with stop := { s.stop with stopped := true } } else none
  | .trip =>
      if s.stop.shutdown ∧ s.stop.stopped then
        some { s with stop := { s.stop with tripped := true } }
      else none
  | .worker w act => do
      let p ← s.phase w
      s.workerStep cap w p act

def run (cap : Capacities) (s : LoaderThreads) (acts : List LoaderAct) : Option LoaderThreads :=
  acts.foldlM (step cap) s

/-- The worker is one of the loader's, and its body can come to `e`. -/
def CanFail (s : LoaderThreads) (w : PoolWorker) (e : BodyEnd) : Prop :=
  (s.phase w).isSome = true ∧ e.isFault = true ∧
    (w = .featureLoader → ∃ payload, e = .panic payload)

/-- Only worker `w` fails, and with `e`. -/
def FailsOnly (w : PoolWorker) (e : BodyEnd) (acts : List LoaderAct) : Prop :=
  ∀ v e', .worker v (.fault e') ∈ acts → v = w ∧ e' = e

/-- What is recorded, and what a stopped loader reports, is the failure of `w`. -/
structure Attributed (w : PoolWorker) (e : BodyEnd) (s : LoaderThreads) : Prop where
  recorded : ∀ message, s.stop.fault = some message →
    message = e.message ∧ s.stop.recordedBy = some w
  reported : s.stop.stopped = true → s.stop.shutdown = false →
    s.stop.outcome = .error (some e.message)

end LoaderThreads

namespace ThreadPhase

/-- A body that ended because the loader had stopped. -/
def Quiet : ThreadPhase → Prop
  | .ending e _ _ => e = .finished
  | .over => True
  | _ => False

/-- A body that came to `e`, on its way to be recorded. -/
def Fails (e : BodyEnd) (stop : StopSignal) : ThreadPhase → Prop
  | .ending e' _ _ => e' = e
  | .failing message => message = e.message
  | .stopping => stop.fault.isSome = true
  | .tripping => stop.fault.isSome = true ∧ stop.stopped = true
  | .over => True
  | _ => False

/-- Where a worker may be while `w` alone fails. -/
def Fine (w : PoolWorker) (e : BodyEnd) (stop : StopSignal) (v : PoolWorker) (p : ThreadPhase) :
    Prop :=
  p.running = true ∨ (stop.stopped = true ∧ p.Quiet) ∨ (v = w ∧ p.Fails e stop)

theorem holds_of_running {p : ThreadPhase} (running : p.running = true) :
    p.holdsRecv = true ∧ p.holdsSend = true := by
  cases p <;> first | exact ⟨rfl, rfl⟩ | cases running

end ThreadPhase

open ThreadPhase

/-- The workers other than `w` end only after the loader stopped, which the failure of `w` or a
shutdown does.  A worker of another stage than `w` is no witness of its end. -/
structure Guarded (w : PoolWorker) (e : BodyEnd) (phase : PoolWorker → Option ThreadPhase)
    (stop : StopSignal) : Prop where
  fine : ∀ v p, phase v = some p → p.Fine w e stop v
  recorded : (stop.fault = none ∧ stop.recordedBy = none) ∨
    (stop.fault = some e.message ∧ stop.recordedBy = some w)
  known : stop.stopped = true → stop.shutdown = true ∨ stop.fault.isSome = true
  tripped : stop.tripped = true → stop.stopped = true
  apart : phase .featureLoader = none ∨
    (w ≠ .featureLoader ∧ ∃ t, .sampler t ≠ w ∧ (phase (.sampler t)).isSome = true)

namespace Guarded

variable {w v : PoolWorker} {e : BodyEnd} {phase : PoolWorker → Option ThreadPhase}
  {stop stop' : StopSignal} {p p' : ThreadPhase}

/-- One worker goes on. -/
theorem update (h : Guarded w e phase stop) (found : phase v = some p)
    (fine : p'.Fine w e stop v) : Guarded w e (Function.update phase v (some p')) stop := by
  refine { h with fine := fun u q at_u => ?_, apart := ?_ }
  · rcases eq_or_ne u v with rfl | ne
    · rw [Function.update_self] at at_u
      obtain rfl := Option.some.inj at_u
      exact fine
    · rw [Function.update_of_ne ne] at at_u
      exact h.fine u q at_u
  · have same : ∀ u, (Function.update phase v (some p') u).isSome = (phase u).isSome := by
      intro u
      rcases eq_or_ne u v with rfl | ne
      · rw [Function.update_self, found]
        rfl
      · rw [Function.update_of_ne ne]
    rcases h.apart with plain | ⟨ne, t, other, here⟩
    · refine .inl (Option.not_isSome_iff_eq_none.mp ?_)
      rw [same, plain]
      exact Bool.false_ne_true
    · exact .inr ⟨ne, t, other, (same _).trans here⟩

/-- The signal goes on. -/
theorem raise (h : Guarded w e phase stop) (stopped : stop.stopped = true → stop'.stopped = true)
    (fault : stop.fault.isSome = true → stop'.fault.isSome = true)
    (recorded : (stop'.fault = none ∧ stop'.recordedBy = none) ∨
      (stop'.fault = some e.message ∧ stop'.recordedBy = some w))
    (known : stop'.stopped = true → stop'.shutdown = true ∨ stop'.fault.isSome = true)
    (tripped : stop'.tripped = true → stop'.stopped = true) : Guarded w e phase stop' := by
  refine { h with fine := fun v p found => ?_, recorded, known, tripped }
  rcases h.fine v p found with running | ⟨ended, quiet⟩ | ⟨own, fails⟩
  · exact .inl running
  · exact .inr (.inl ⟨stopped ended, quiet⟩)
  · refine .inr (.inr ⟨own, ?_⟩)
    cases p with
    | stopping => exact fault fails
    | tripping => exact fails.imp fault stopped
    | _ => exact fails

theorem setFault (h : Guarded w e phase stop) :
    Guarded w e phase (stop.setFault w e.message) := by
  have set : (stop.setFault w e.message).fault = some e.message ∧
      (stop.setFault w e.message).recordedBy = some w := by
    unfold StopSignal.setFault
    rcases h.recorded with ⟨fault, by_⟩ | ⟨fault, by_⟩ <;> rw [fault, by_] <;> exact ⟨rfl, rfl⟩
  have isSome := congrArg Option.isSome set.1
  exact h.raise id (fun _ => isSome) (.inr set) (fun _ => .inr isSome) h.tripped

end Guarded

namespace LoaderThreads

variable {cap : Capacities} {s s' : LoaderThreads} {w v : PoolWorker} {e : BodyEnd}
  {p p' : ThreadPhase}

theorem phase_setPhase (found : s.phase v = some p) :
    (s.setPhase v p').phase = Function.update s.phase v (some p') := by
  funext u
  rcases eq_or_ne u v with rfl | ne
  · rw [Function.update_self]
    cases u with
    | sampler t =>
        obtain ⟨inside, -⟩ := List.getElem?_eq_some_iff.mp found
        exact List.getElem?_set_self inside
    | featureLoader => rfl
  · rw [Function.update_of_ne ne]
    cases v with
    | sampler t =>
        cases u with
        | sampler t' => exact List.getElem?_set_ne fun same => ne (congrArg _ same.symm)
        | featureLoader => rfl
    | featureLoader =>
        cases u with
        | sampler t' => rfl
        | featureLoader => exact absurd rfl ne

/-- The channels' counts are no part of the threads or the signal. -/
def SameThreads (s s' : LoaderThreads) : Prop := s'.phase = s.phase ∧ s'.stop = s.stop

theorem takeInput_same (taken : s.takeInput v = some s') : SameThreads s s' := by
  unfold takeInput at taken
  split at taken
  · split at taken
    · cases taken
      exact ⟨funext fun u => by cases u <;> rfl, rfl⟩
    · cases taken
  · split at taken
    · cases taken
      exact ⟨funext fun u => by cases u <;> rfl, rfl⟩
    · split at taken
      · cases taken
        exact ⟨funext fun u => by cases u <;> rfl, rfl⟩
      · cases taken

theorem putOutput_same (put : s.putOutput cap v = some s') : SameThreads s s' := by
  unfold putOutput at put
  split at put
  · split at put
    · cases put
      exact ⟨funext fun u => by cases u <;> rfl, rfl⟩
    · cases put
  · split at put
    · cases put
      exact ⟨funext fun u => by cases u <;> rfl, rfl⟩
    · cases put

/-- The sample channel closes only on a stopped loader, as a sampler other than `w` keeps it. -/
theorem stopped_of_inputClosed (h : Guarded w e s.phase s.stop) (found : s.phase v = some p)
    (closed : s.inputClosed v = true) : s.stop.stopped = true := by
  cases v with
  | sampler t => cases closed
  | featureLoader =>
      rcases h.apart with plain | ⟨-, t, other, here⟩
      · exact absurd (plain.symm.trans found) nofun
      · obtain ⟨q, at_t⟩ := Option.isSome_iff_exists.mp here
        have dropped : q.holdsSend = false := by
          obtain ⟨-, shut⟩ := (Bool.and_eq_true _ _).mp closed
          have shut : s.samplesOpen = false := by simpa using shut
          simpa using List.any_eq_false.mp shut q (List.mem_of_getElem? at_t)
        rcases h.fine _ q at_t with running | ⟨stopped, -⟩ | ⟨own, -⟩
        · exact absurd ((holds_of_running running).2.symm.trans dropped) nofun
        · exact stopped
        · exact absurd own other

/-- The feature loader, which is not `w`, leaves its channel only on a stopped loader. -/
theorem stopped_of_outputGone (h : Guarded w e s.phase s.stop) (gone : s.outputGone v = true) :
    s.stop.stopped = true := by
  cases v with
  | sampler t =>
      obtain ⟨q, at_q, dropped⟩ := (Option.any_eq_true _ _).mp gone
      rcases h.apart with plain | ⟨ne, -⟩
      · exact absurd (plain.symm.trans at_q) nofun
      · rcases h.fine .featureLoader q at_q with running | ⟨stopped, -⟩ | ⟨own, -⟩
        · rw [(holds_of_running running).1] at dropped
          cases dropped
        · exact stopped
        · exact absurd own.symm ne
  | featureLoader => cases gone

theorem runWorker_fault (fault : e.isFault = true) (stopped : Bool) :
    runWorker stopped e = some e.message := by
  cases e with
  | finished => cases fault
  | error text => rfl
  | panic payload => rfl

/-- A worker of a loader goes from one phase to another. -/
theorem guarded_setPhase {stop : StopSignal} (h : Guarded w e s.phase stop)
    (phase : s'.phase = s.phase) (same : s'.stop = stop) (found : s.phase v = some p)
    (fine : p'.Fine w e stop v) : Guarded w e (s'.setPhase v p').phase (s'.setPhase v p').stop := by
  rw [phase_setPhase ((congrFun phase v).trans found), phase]
  have kept : (s'.setPhase v p').stop = stop := by
    cases v <;> exact same
  rw [kept]
  exact h.update found fine

theorem phase_withStop (s : LoaderThreads) (stop : StopSignal) :
    phase { s with stop := stop } = s.phase := funext fun u => by cases u <;> rfl

/-- A worker's step, where only `w` fails. -/
theorem guarded_workerStep (fault : e.isFault = true) (h : Guarded w e s.phase s.stop)
    (found : s.phase v = some p) {act : WorkerAct} (only : ∀ e', act = .fault e' → v = w ∧ e' = e)
    (ran : s.workerStep cap v p act = some s') : Guarded w e s'.phase s'.stop := by
  unfold workerStep at ran
  split at ran
  -- recv
  · obtain ⟨s₁, taken, rfl⟩ := Option.map_eq_some_iff.mp ran
    exact guarded_setPhase h (takeInput_same taken).1 (takeInput_same taken).2 found (.inl rfl)
  -- quit
  · split at ran
    · next quits =>
      obtain rfl := Option.some.inj ran
      obtain ⟨-, closed⟩ := (Bool.and_eq_true _ _).mp quits
      have stopped : s.stop.stopped = true := by
        rcases (Bool.or_eq_true _ _).mp closed with stopped | closed
        · exact stopped
        · exact stopped_of_inputClosed h found closed
      exact guarded_setPhase h rfl rfl found (.inr (.inl ⟨stopped, rfl⟩))
    · cases ran
  -- fault
  · split at ran
    · obtain rfl := Option.some.inj ran
      exact guarded_setPhase h rfl rfl found (.inr (.inr (only _ rfl)))
    · cases ran
  · split at ran
    · obtain rfl := Option.some.inj ran
      exact guarded_setPhase h rfl rfl found (.inr (.inr (only _ rfl)))
    · cases ran
  -- fetchNext
  · split at ran
    · obtain rfl := Option.some.inj ran
      have same : phase { s with pending := true, sampleQueue := s.sampleQueue - 1 } = s.phase :=
        funext fun u => by cases u <;> rfl
      rw [same]
      exact h
    · cases ran
  -- finish
  · obtain rfl := Option.some.inj ran
    exact guarded_setPhase h rfl rfl found (.inl rfl)
  -- send
  · obtain ⟨s₁, put, rfl⟩ := Option.map_eq_some_iff.mp ran
    exact guarded_setPhase h (putOutput_same put).1 (putOutput_same put).2 found (.inl rfl)
  -- sendFails
  · split at ran
    · next fails =>
      obtain rfl := Option.some.inj ran
      have stopped : s.stop.stopped = true := by
        rcases (Bool.or_eq_true _ _).mp fails with tripped | gone
        · exact h.tripped tripped
        · exact stopped_of_outputGone h gone
      exact guarded_setPhase h rfl rfl found (.inr (.inl ⟨stopped, rfl⟩))
    · cases ran
  -- dropRecv and dropSend: what the body came to stays
  · obtain rfl := Option.some.inj ran
    exact guarded_setPhase h rfl rfl found ((h.fine v _ found).imp_left nofun)
  · obtain rfl := Option.some.inj ran
    exact guarded_setPhase h rfl rfl found ((h.fine v _ found).imp_left nofun)
  -- return
  · next e' =>
    rcases h.fine v _ found with running | ⟨stopped, quiet⟩ | ⟨own, fails⟩
    · cases running
    · obtain rfl : e' = .finished := quiet
      rw [runWorker, stopped, if_pos rfl] at ran
      obtain rfl := Option.some.inj ran
      exact guarded_setPhase h rfl rfl found (.inr (.inl ⟨stopped, trivial⟩))
    · obtain rfl : e' = e := fails
      rw [runWorker_fault fault] at ran
      obtain rfl := Option.some.inj ran
      exact guarded_setPhase h rfl rfl found (.inr (.inr ⟨own, rfl⟩))
  -- setFault
  · next message =>
    obtain rfl := Option.some.inj ran
    rcases h.fine v _ found with running | ⟨-, quiet⟩ | ⟨rfl, same⟩
    · cases running
    · exact quiet.elim
    · obtain rfl : message = e.message := same
      have known : (s.stop.setFault v e.message).fault.isSome = true := by
        rw [StopSignal.setFault, Option.isSome_or, Option.isSome_some, Bool.or_true]
      exact guarded_setPhase h.setFault (phase_withStop s _) rfl found (.inr (.inr ⟨rfl, known⟩))
  -- stop
  · obtain rfl := Option.some.inj ran
    rcases h.fine v _ found with running | ⟨-, quiet⟩ | ⟨own, known⟩
    · cases running
    · exact quiet.elim
    · have raised : Guarded w e s.phase { s.stop with stopped := true } :=
        h.raise (fun _ => rfl) id h.recorded (fun _ => .inr known) fun _ => rfl
      exact guarded_setPhase raised (phase_withStop s _) rfl found (.inr (.inr ⟨own, known, rfl⟩))
  -- trip
  · obtain rfl := Option.some.inj ran
    rcases h.fine v _ found with running | ⟨-, quiet⟩ | ⟨own, -, stopped⟩
    · cases running
    · exact quiet.elim
    · have raised : Guarded w e s.phase { s.stop with tripped := true } :=
        h.raise id id h.recorded h.known fun _ => stopped
      exact guarded_setPhase raised (phase_withStop s _) rfl found (.inr (.inr ⟨own, trivial⟩))
  · cases ran

theorem guarded_step (fault : e.isFault = true) (h : Guarded w e s.phase s.stop) {act : LoaderAct}
    (only : ∀ v e', act = .worker v (.fault e') → v = w ∧ e' = e)
    (ran : s.step cap act = some s') : Guarded w e s'.phase s'.stop := by
  cases act with
  | submit =>
      rw [step] at ran
      split at ran
      · obtain rfl := Option.some.inj ran
        have same : phase { s with workQueue := s.workQueue + 1 } = s.phase :=
          funext fun u => by cases u <;> rfl
        rw [same]
        exact h
      · cases ran
  | consume =>
      rw [step] at ran
      split at ran
      · obtain rfl := Option.some.inj ran
        have same : phase { s with resultQueue := s.resultQueue - 1 } = s.phase :=
          funext fun u => by cases u <;> rfl
        rw [same]
        exact h
      · cases ran
  | requestShutdown =>
      obtain rfl := Option.some.inj ran
      rw [phase_withStop]
      exact h.raise id id h.recorded (fun _ => .inl rfl) h.tripped
  | stop =>
      rw [step] at ran
      split at ran
      · next shutdown =>
        obtain rfl := Option.some.inj ran
        rw [phase_withStop]
        exact h.raise (fun _ => rfl) id h.recorded (fun _ => .inl shutdown) fun _ => rfl
      · cases ran
  | trip =>
      rw [step] at ran
      split at ran
      · next stopped =>
        obtain rfl := Option.some.inj ran
        rw [phase_withStop]
        exact h.raise id id h.recorded h.known fun _ => stopped.2
      · cases ran
  | worker v act =>
      obtain ⟨p, found, ran⟩ := Option.bind_eq_some_iff.mp ran
      exact guarded_workerStep fault h found (fun e' same => only v e' (same ▸ rfl)) ran

theorem guarded_run (fault : e.isFault = true) (h : Guarded w e s.phase s.stop)
    {acts : List LoaderAct} (only : FailsOnly w e acts) (ran : s.run cap acts = some s') :
    Guarded w e s'.phase s'.stop := by
  induction acts generalizing s with
  | nil =>
      obtain rfl := Option.some.inj ran
      exact h
  | cons act acts ih =>
      rw [run, List.foldlM_cons] at ran
      obtain ⟨s₁, stepped, ran⟩ := Option.bind_eq_some_iff.mp ran
      refine ih (guarded_step fault h (fun v e' same => ?_) stepped) (fun v e' mem => ?_) ran
      · exact only v e' (same ▸ List.mem_cons_self)
      · exact only v e' (List.mem_cons_of_mem act mem)

theorem attributed_of_guarded (h : Guarded w e s.phase s.stop) : Attributed w e s := by
  refine ⟨fun message found => ?_, fun stopped open_ => ?_⟩
  · rcases h.recorded with ⟨none, -⟩ | ⟨fault, by_⟩
    · exact absurd (none.symm.trans found) nofun
    · exact ⟨Option.some.inj (found.symm.trans fault), by_⟩
  · rw [StopSignal.outcome, open_, if_neg Bool.false_ne_true]
    rcases h.known stopped with shut | known
    · exact absurd (open_.symm.trans shut) nofun
    · rcases h.recorded with ⟨none, -⟩ | ⟨fault, -⟩
      · rw [none] at known
        cases known
      · rw [fault]

theorem guarded_new {features : Bool} {samplerThreads : Nat}
    (apart : features = false ∨ (w ≠ .featureLoader ∧ 2 ≤ samplerThreads)) :
    Guarded w e (new features samplerThreads).phase (new features samplerThreads).stop where
  fine := fun v p found => by
    refine .inl ?_
    cases v with
    | sampler t =>
        obtain rfl := (List.mem_replicate.mp (List.mem_of_getElem? found)).2
        rfl
    | featureLoader =>
        change (if features then some ThreadPhase.idle else none) = some p at found
        split at found
        · obtain rfl := Option.some.inj found
          rfl
        · cases found
  recorded := .inl ⟨rfl, rfl⟩
  known := nofun
  tripped := nofun
  apart := by
    rcases apart with rfl | ⟨ne, two⟩
    · exact .inl rfl
    · have here : ∀ t < 2, ((new features samplerThreads).phase (.sampler t)).isSome = true := by
        intro t below
        have inside : t < max samplerThreads 1 := by omega
        simp [phase, new, inside]
      refine .inr ⟨ne, ?_⟩
      by_cases first : PoolWorker.sampler 0 = w
      · exact ⟨1, fun same => by simp [← same] at first, here 1 (by decide)⟩
      · exact ⟨0, first, here 0 (by decide)⟩

/-- The one sampler fails on its first batch, and the feature loader finds its channel closed
before the failure is recorded. -/
def samplerThenLoader (e : BodyEnd) : List LoaderAct :=
  [.submit, .worker (.sampler 0) .recv, .worker (.sampler 0) (.fault e),
    .worker (.sampler 0) .dropSend, .worker .featureLoader .quit,
    .worker .featureLoader .dropRecv, .worker .featureLoader .dropSend,
    .worker .featureLoader .return, .worker .featureLoader .setFault]

/-- The feature loader panics on its first batch, and a sampler finds nobody to take its second. -/
def loaderThenSampler (payload : Option String) : List LoaderAct :=
  [.submit, .worker (.sampler 0) .recv, .worker (.sampler 0) .finish, .worker (.sampler 0) .send,
    .worker .featureLoader .recv, .submit, .worker (.sampler 0) .recv,
    .worker (.sampler 0) .finish, .worker .featureLoader (.fault (.panic payload)),
    .worker .featureLoader .dropRecv, .worker (.sampler 0) .sendFails,
    .worker (.sampler 0) .dropRecv, .worker (.sampler 0) .dropSend, .worker (.sampler 0) .return,
    .worker (.sampler 0) .setFault]

theorem run_samplerThenLoader (cap : Capacities) (fault : e.isFault = true) :
    run cap ⟨[.idle], some .idle, false, 0, 0, 0, .new⟩ (samplerThenLoader e) =
      some ⟨[.ending e true false], some .stopping, false, 0, 0, 0,
        StopSignal.new.setFault .featureLoader BodyEnd.finished.message⟩ := by
  obtain ⟨work, samples, results, work_pos, samples_pos, results_pos⟩ := cap
  obtain ⟨work, rfl⟩ := Nat.exists_eq_succ_of_ne_zero work_pos.ne'
  cases e with
  | finished => cases fault
  | error text => rfl
  | panic payload => rfl

theorem run_loaderThenSampler (cap : Capacities) (rest : List ThreadPhase)
    (payload : Option String) :
    run cap ⟨.idle :: rest, some .idle, false, 0, 0, 0, .new⟩ (loaderThenSampler payload) =
      some ⟨.stopping :: rest, some (.ending (.panic payload) false true), false, 0, 0, 0,
        StopSignal.new.setFault (.sampler 0) BodyEnd.finished.message⟩ := by
  obtain ⟨work, samples, results, work_pos, samples_pos, results_pos⟩ := cap
  obtain ⟨work, rfl⟩ := Nat.exists_eq_succ_of_ne_zero work_pos.ne'
  obtain ⟨samples, rfl⟩ := Nat.exists_eq_succ_of_ne_zero samples_pos.ne'
  rfl

end LoaderThreads

open LoaderThreads in
/-- Every run in which one worker alone fails attributes the fault to it exactly where no other
worker can end because of it: without a feature stage, or where it is one of several samplers. -/
theorem faults_attributed (cap : Capacities) (features : Bool) (samplerThreads : Nat)
    (w : PoolWorker) (e : BodyEnd) (fails : (new features samplerThreads).CanFail w e) :
    (∀ acts s, FailsOnly w e acts → (new features samplerThreads).run cap acts = some s →
      Attributed w e s) ↔ features = false ∨ (w ≠ .featureLoader ∧ 2 ≤ samplerThreads) := by
  obtain ⟨here, fault, panics⟩ := fails
  constructor
  · intro always
    by_contra exposed
    push Not at exposed
    obtain ⟨stage, alone⟩ := exposed
    have stage : features = true := by simpa using stage
    subst stage
    cases w with
    | featureLoader =>
        obtain ⟨payload, rfl⟩ := panics rfl
        obtain ⟨n, size⟩ : ∃ n, max samplerThreads 1 = n + 1 :=
          Nat.exists_eq_succ_of_ne_zero (by omega)
        have start : new true samplerThreads =
            ⟨.idle :: List.replicate n .idle, some .idle, false, 0, 0, 0, .new⟩ := by
          rw [new, size, List.replicate_succ]
          rfl
        have attributed := always (loaderThenSampler payload) _ (fun v e' mem => by
          simp [loaderThenSampler] at mem
          exact mem) (start ▸ run_loaderThenSampler cap (List.replicate n .idle) payload)
        exact absurd (attributed.recorded _ rfl).2 (by simp [StopSignal.setFault, StopSignal.new])
    | sampler t =>
        have few : samplerThreads < 2 := alone nofun
        have size : max samplerThreads 1 = 1 := by omega
        have start : new true samplerThreads =
            ⟨[.idle], some .idle, false, 0, 0, 0, .new⟩ := by
          rw [new, size]
          rfl
        have first : t = 0 := by
          rw [start] at here
          cases t with
          | zero => rfl
          | succ t => cases here
        subst first
        have attributed := always (samplerThenLoader e) _ (fun v e' mem => by
          simp [samplerThenLoader] at mem
          exact mem) (start ▸ run_samplerThenLoader cap fault)
        exact absurd (attributed.recorded _ rfl).2 (by simp [StopSignal.setFault, StopSignal.new])
  · intro apart acts s only ran
    exact attributed_of_guarded (guarded_run fault (guarded_new apart) only ran)

def smallCapacities : Capacities := ⟨8, 2, 1, Nat.succ_pos 7, Nat.two_pos, Nat.one_pos⟩

/-- One of two samplers panics on its first batch. -/
def samplerPanics : List LoaderAct :=
  [.submit, .worker (.sampler 0) .recv, .worker (.sampler 0) (.fault (.panic (some "overflow"))),
    .worker (.sampler 0) .dropSend, .worker (.sampler 0) .dropRecv, .worker (.sampler 0) .return,
    .worker (.sampler 0) .setFault, .worker (.sampler 0) .stop]

open LoaderThreads in
theorem faults_attributed_two : ∃ s, (new true 2).run smallCapacities samplerPanics = some s ∧
    s.stop.outcome = .error (some "panic: overflow") ∧
    Attributed (.sampler 0) (.panic (some "overflow")) s :=
  ⟨_, rfl, rfl, (faults_attributed smallCapacities true 2 (.sampler 0) (.panic (some "overflow"))
    ⟨rfl, rfl, nofun⟩).mpr (.inr ⟨nofun, Nat.le_refl 2⟩) samplerPanics _ (fun v e' mem => by
      simp [samplerPanics] at mem
      exact mem) rfl⟩

open LoaderThreads in
/-- One sampler returns an error, and the feature loader's end is what is recorded. -/
theorem secondary_exit_recorded : ∃ acts s,
    FailsOnly (.sampler 0) (.error "sampling failed") acts ∧
      (new true 1).run smallCapacities acts = some s ∧
      s.stop.fault = some "worker finished before the loader stopped" ∧
      s.stop.recordedBy = some .featureLoader ∧
      ¬ Attributed (.sampler 0) (.error "sampling failed") s := by
  refine ⟨samplerThenLoader (.error "sampling failed"), _, fun v e' mem => ?_,
    run_samplerThenLoader smallCapacities rfl, rfl, rfl, fun attributed => ?_⟩
  · simp [samplerThenLoader] at mem
    exact mem
  · exact absurd (attributed.recorded _ rfl).2 (by decide)

end AetherGraph
