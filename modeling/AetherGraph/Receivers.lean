import AetherGraph.Prefetch

/-! Threads that receive from one pipeline at a time: each takes results off the channel, parks
the ones that come early in the shared reorder buffer, and waits for more. -/

namespace AetherGraph

/-- The two receive operations. -/
inductive Receive where
  | next
  | tryNext
  deriving DecidableEq, Repr

/-- Where a receiving thread is.  `away` is between two calls, and a thread that is `gone` makes no
more of them. -/
inductive Receiver (α : Type) where
  | away
  | looking (call : Receive)
  | trying (call : Receive)
  | waiting
  | holding (call : Receive) (r : Sequenced α)
  | gone

inductive ReceiverAct where
  | call (op : Receive)
  | popReady
  | tryRecv
  | recv
  | timeout
  | tripped
  | insert
  | leave
  deriving DecidableEq, Repr

/-- The pool's threads hand their batches over in any order, and one that fails loses its batch and
stops the pipeline. -/
inductive PipelineAct (α : Type) where
  | submit (item : α)
  | deliver (k : Nat)
  | fail (k : Nat)
  | shutdown
  | receiver (i : Nat) (act : ReceiverAct)

/-- `pool` holds the batches submitted and not yet handed over, `delivered` what calls returned. -/
structure Pipeline (α : Type) where
  ordered : Bool
  capacity : Nat
  nextSeq : Nat
  pool : List (Sequenced α)
  resultQueue : List (Sequenced α)
  reorder : BatchReorder α
  receivers : List (Receiver α)
  stopped : Bool
  delivered : List α

namespace Pipeline

variable {α : Type}

def new (ordered : Bool) (resultCapacity receivers : Nat) : Pipeline α where
  ordered := ordered
  capacity := max resultCapacity 1
  nextSeq := 0
  pool := []
  resultQueue := []
  reorder := ⟨0, []⟩
  receivers := List.replicate receivers .away
  stopped := false
  delivered := []

def setReceiver (s : Pipeline α) (i : Nat) (c : Receiver α) : Pipeline α :=
  { s with receivers := s.receivers.set i c }

/-- A result off the channel: an ordered pipeline parks it first. -/
def received (s : Pipeline α) (i : Nat) (call : Receive) (r : Sequenced α)
    (rest : List (Sequenced α)) : Pipeline α :=
  if s.ordered then { s with resultQueue := rest }.setReceiver i (.holding call r)
  else { s with resultQueue := rest, delivered := s.delivered ++ [r.item] }.setReceiver i .away

/-- The next step of one call of `next_timeout` or `try_next`. -/
def receive (s : Pipeline α) (i : Nat) : Receiver α → ReceiverAct → Option (Pipeline α)
  | .away, .call op => some (if s.stopped then s else s.setReceiver i (.looking op))
  | .away, .leave => some (s.setReceiver i .gone)
  | .looking op, .popReady =>
      match if s.ordered then s.reorder.popReady else none with
      | some (item, reorder) =>
          let s := { s with reorder := reorder, delivered := s.delivered ++ [item] }
          some (s.setReceiver i .away)
      | none => some (s.setReceiver i (.trying op))
  | .trying op, .tryRecv =>
      match s.resultQueue, op with
      | r :: rest, op => some (s.received i op r rest)
      | [], .next => some (s.setReceiver i .waiting)
      | [], .tryNext => some (s.setReceiver i .away)
  | .waiting, .recv =>
      match s.resultQueue with
      | r :: rest => some (s.received i .next r rest)
      | [] => none
  | .waiting, .timeout => some (s.setReceiver i .away)
  | .waiting, .tripped => if s.stopped then some (s.setReceiver i .away) else none
  | .holding op r, .insert =>
      some ({ s with reorder := s.reorder.insert r }.setReceiver i (.looking op))
  | _, _ => none

def step (s : Pipeline α) : PipelineAct α → Option (Pipeline α)
  | .submit item => some { s with nextSeq := s.nextSeq + 1, pool := s.pool ++ [⟨s.nextSeq, item⟩] }
  | .deliver k => do
      let r ← s.pool[k]?
      if s.resultQueue.length < s.capacity then
        some { s with pool := s.pool.eraseIdx k, resultQueue := s.resultQueue ++ [r] }
      else none
  | .fail k => some { s with pool := s.pool.eraseIdx k, stopped := true }
  | .shutdown => some { s with stopped := true }
  | .receiver i act => do
      let c ← s.receivers[i]?
      s.receive i c act

def run (s : Pipeline α) (acts : List (PipelineAct α)) : Option (Pipeline α) := acts.foldlM step s

/-- The batch whose turn it is sits in the buffer of an ordered pipeline. -/
def Ready (s : Pipeline α) : Prop := s.ordered = true ∧ s.reorder.popReady.isSome = true

/-- A batch is ready, none is on the channel, and the threads that still receive all wait for one
there. -/
def Stranded (s : Pipeline α) : Prop :=
  s.Ready ∧ s.resultQueue = [] ∧ Receiver.waiting ∈ s.receivers ∧
    ∀ c ∈ s.receivers, c = .waiting ∨ c = .gone

end Pipeline

/-- The thread looks into the buffer before it waits. -/
def Receiver.Looks {α : Type} : Receiver α → Prop
  | .away | .looking _ | .trying .tryNext | .holding .. => True
  | .trying .next | .waiting | .gone => False

namespace Pipeline

variable {α : Type}

/-- Thread `i` may make no more calls: a batch that is ready leaves it a result on the channel,
another thread that looks, or no thread that receives. -/
def Relieved (s : Pipeline α) (i : Nat) : Prop :=
  s.Ready → s.resultQueue ≠ [] ∨
    (∃ c ∈ s.receivers.eraseIdx i, c.Looks) ∨ ∀ c ∈ s.receivers.eraseIdx i, c = .gone

/-- Threads of the run stop receiving only where they are relieved. -/
def Careful (s : Pipeline α) : List (PipelineAct α) → Prop
  | [] => True
  | act :: acts =>
      (∀ i, act = .receiver i .leave → s.Relieved i) ∧ ∀ s', s.step act = some s' → s'.Careful acts

/-- A batch that is ready has a thread to look for it, or a result that wakes one. -/
def Watched (s : Pipeline α) : Prop :=
  s.Ready → s.resultQueue ≠ [] ∨ (∃ c ∈ s.receivers, c.Looks) ∨ ∀ c ∈ s.receivers, c = .gone

theorem watched_new (ordered : Bool) (resultCapacity receivers : Nat) :
    (new ordered resultCapacity receivers : Pipeline α).Watched := nofun

variable {s s' : Pipeline α} {i : Nat} {c c' : Receiver α}

theorem Watched.not_stranded (h : s.Watched) : ¬ s.Stranded := by
  rintro ⟨ready, empty, waits, all⟩
  rcases h ready with more | ⟨c, mem, looks⟩ | gone
  · exact more empty
  · rcases all c mem with rfl | rfl <;> exact looks
  · exact absurd (gone _ waits) nofun

/-- One thread and the others. -/
theorem parted {receivers : List (Receiver α)} (found : receivers[i]? = some c) :
    receivers.Perm (c :: receivers.eraseIdx i) ∧
      ∀ c', (receivers.set i c').Perm (c' :: receivers.eraseIdx i) := by
  obtain ⟨inside, rfl⟩ := List.getElem?_eq_some_iff.mp found
  exact ⟨(List.getElem_cons_eraseIdx_perm inside).symm,
    fun c' => List.set_perm_cons_eraseIdx inside c'⟩

/-- A thread that is to look watches whatever else is done. -/
theorem watched_looks (c' : Receiver α) (found : s.receivers[i]? = some c) (looks : c'.Looks)
    (receivers : s'.receivers = s.receivers.set i c') : s'.Watched := by
  refine fun _ => .inr (.inl ⟨c', ?_, looks⟩)
  rw [receivers, ((parted found).2 c').mem_iff]
  exact List.mem_cons_self

theorem watched_received (found : s.receivers[i]? = some c) (op : Receive) (r : Sequenced α)
    (rest : List (Sequenced α)) : (s.received i op r rest).Watched := by
  unfold received
  split
  · exact watched_looks (.holding op r) found trivial rfl
  · exact watched_looks .away found trivial rfl

/-- A thread that only now begins to wait is not the one that watches. -/
theorem Watched.waits (h : s.Watched) (found : s.receivers[i]? = some (.trying .next)) :
    (s.setReceiver i .waiting).Watched := by
  obtain ⟨before, after⟩ := parted found
  intro ready
  rcases h ready with more | ⟨c, mem, looks⟩ | gone
  · exact .inl more
  · rcases List.mem_cons.mp (before.mem_iff.mp mem) with rfl | other
    · exact looks.elim
    · exact .inr (.inl ⟨c, (after _).mem_iff.mpr (List.mem_cons_of_mem _ other), looks⟩)
  · exact absurd (gone _ (before.mem_iff.mpr List.mem_cons_self)) nofun

theorem Watched.leave (found : s.receivers[i]? = some c) (relieved : s.Relieved i) :
    (s.setReceiver i .gone).Watched := by
  have after := (parted found).2 .gone
  intro ready
  rcases relieved ready with more | ⟨c, other, looks⟩ | gone
  · exact .inl more
  · exact .inr (.inl ⟨c, after.mem_iff.mpr (List.mem_cons_of_mem _ other), looks⟩)
  · refine .inr (.inr fun c mem => ?_)
    rcases List.mem_cons.mp (after.mem_iff.mp mem) with same | other
    · exact same
    · exact gone c other

/-- A receiving thread's own step, unless it leaves unrelieved. -/
theorem Watched.receive (h : s.Watched) (found : s.receivers[i]? = some c) {act : ReceiverAct}
    (relieved : act = .leave → s.Relieved i) (ran : s.receive i c act = some s') :
    s'.Watched := by
  unfold Pipeline.receive at ran
  split at ran
  -- call
  · obtain rfl := Option.some.inj ran
    split
    · exact h
    · exact watched_looks (.looking _) found trivial rfl
  -- leave
  · obtain rfl := Option.some.inj ran
    exact Watched.leave found (relieved rfl)
  -- popReady: a thread that finds nothing leaves nothing that is ready
  · split at ran
    · obtain rfl := Option.some.inj ran
      exact watched_looks .away found trivial rfl
    · next nothing =>
      obtain rfl := Option.some.inj ran
      rintro ⟨ordered, ready⟩
      change s.ordered = true at ordered
      change s.reorder.popReady.isSome = true at ready
      rw [if_pos ordered] at nothing
      rw [nothing] at ready
      cases ready
  -- tryRecv
  · split at ran
    · obtain rfl := Option.some.inj ran
      exact watched_received found _ _ _
    · obtain rfl := Option.some.inj ran
      exact h.waits found
    · obtain rfl := Option.some.inj ran
      exact watched_looks .away found trivial rfl
  -- recv
  · split at ran
    · obtain rfl := Option.some.inj ran
      exact watched_received found _ _ _
    · cases ran
  -- timeout
  · obtain rfl := Option.some.inj ran
    exact watched_looks .away found trivial rfl
  -- tripped
  · split at ran
    · obtain rfl := Option.some.inj ran
      exact watched_looks .away found trivial rfl
    · cases ran
  -- insert
  · obtain rfl := Option.some.inj ran
    exact watched_looks (.looking _) found trivial rfl
  · cases ran

theorem Watched.step (h : s.Watched) {act : PipelineAct α}
    (relieved : ∀ i, act = .receiver i .leave → s.Relieved i) (ran : s.step act = some s') :
    s'.Watched := by
  cases act with
  | submit item =>
      obtain rfl := Option.some.inj ran
      exact h
  | deliver k =>
      obtain ⟨r, -, ran⟩ := Option.bind_eq_some_iff.mp ran
      split at ran
      · obtain rfl := Option.some.inj ran
        exact fun _ => .inl (List.append_ne_nil_of_right_ne_nil _ (List.cons_ne_nil r []))
      · cases ran
  | fail k =>
      obtain rfl := Option.some.inj ran
      exact h
  | shutdown =>
      obtain rfl := Option.some.inj ran
      exact h
  | receiver i act =>
      obtain ⟨c, found, ran⟩ := Option.bind_eq_some_iff.mp ran
      exact h.receive found (fun leaves => relieved i (leaves ▸ rfl)) ran

theorem Watched.run (h : s.Watched) {acts : List (PipelineAct α)} (careful : s.Careful acts)
    (ran : s.run acts = some s') : s'.Watched := by
  induction acts generalizing s with
  | nil =>
      obtain rfl := Option.some.inj ran
      exact h
  | cons act acts ih =>
      obtain ⟨relieved, later⟩ := careful
      rw [Pipeline.run, List.foldlM_cons] at ran
      obtain ⟨s₁, stepped, ran⟩ := Option.bind_eq_some_iff.mp ran
      exact ih (h.step relieved stepped) (later s₁ stepped) ran

/-- Threads that never stop receiving need no relief. -/
theorem careful_of_stays {acts : List (PipelineAct α)} (stays : ∀ i, .receiver i .leave ∉ acts) :
    s.Careful acts := by
  induction acts generalizing s with
  | nil => trivial
  | cons act acts ih =>
      refine ⟨fun i leaves => absurd (leaves ▸ List.mem_cons_self) (stays i), fun s' _ => ?_⟩
      exact ih fun i mem => stays i (List.mem_cons_of_mem act mem)

/-- What becomes of a thread that tries an empty channel. -/
def settled : Receiver α → Receiver α
  | .trying .next => .waiting
  | c => c

theorem step_receiver (found : s.receivers[i]? = some c) (act : ReceiverAct) :
    s.step (.receiver i act) = s.receive i c act := by
  show Option.bind s.receivers[i]? _ = _
  rw [found]
  rfl

theorem run_cons {act : PipelineAct α} (stepped : s.step act = some s')
    (acts : List (PipelineAct α)) : s.run (act :: acts) = s'.run acts := by
  rw [run, List.foldlM_cons, stepped]
  rfl

/-- With the channel empty the threads that try it come to wait. -/
theorem run_settled (empty : s.resultQueue = []) (before after : List (Receiver α))
    (receivers : s.receivers = before ++ after) :
    ∃ acts : List (PipelineAct α), (∀ act ∈ acts, ∃ j, act = .receiver j .tryRecv) ∧
      s.run acts = some { s with receivers := before ++ after.map settled } := by
  induction after generalizing s before with
  | nil =>
      refine ⟨[], fun _ mem => absurd mem List.not_mem_nil, ?_⟩
      rw [List.map_nil, ← receivers]
      rfl
  | cons c after ih =>
      have appended : before ++ (c :: after).map settled =
          before ++ [settled c] ++ after.map settled := by
        rw [List.map_cons, List.append_assoc, List.singleton_append]
      by_cases tries : c = .trying .next
      · subst tries
        have found : s.receivers[before.length]? = some (.trying .next) := by
          rw [receivers, List.getElem?_append_right (Nat.le_refl _), Nat.sub_self]
          rfl
        have waits : s.receivers.set before.length .waiting = before ++ [.waiting] ++ after := by
          rw [receivers, List.set_append_right _ _ (Nat.le_refl _), Nat.sub_self,
            List.append_assoc]
          rfl
        have stepped : s.step (.receiver before.length .tryRecv) =
            some (s.setReceiver before.length .waiting) := by
          rw [step_receiver found]
          unfold receive
          rw [empty]
        obtain ⟨acts, own, ran⟩ := @ih (s.setReceiver before.length .waiting) empty _ waits
        refine ⟨.receiver before.length .tryRecv :: acts, ?_, ?_⟩
        · rintro act (_ | ⟨_, mem⟩)
          · exact ⟨_, rfl⟩
          · exact own act mem
        · rw [appended, run_cons stepped]
          exact ran
      · have same : settled c = c := by
          unfold settled
          split
          · exact absurd rfl tries
          · rfl
        obtain ⟨acts, own, ran⟩ := @ih s empty (before ++ [c]) (by rw [receivers]; simp)
        refine ⟨acts, own, ?_⟩
        rw [appended, same]
        exact ran

/-- A thread that leaves unrelieved leaves the others stranded, with no step of the pool. -/
theorem stranded_of_not_relieved (away : s.receivers[i]? = some .away) (not : ¬ s.Relieved i) :
    ∃ acts s', (∀ act ∈ acts, ∃ j, act = .receiver j .tryRecv) ∧
      s.run (.receiver i .leave :: acts) = some s' ∧ s'.Stranded := by
  unfold Relieved at not
  push Not at not
  obtain ⟨ready, empty, unseen, c, mem, receives⟩ := not
  have after := (parted away).2 .gone
  obtain ⟨acts, own, ran⟩ := run_settled (s := s.setReceiver i .gone) empty []
    (s.receivers.set i .gone) rfl
  have settles : ∀ c ∈ s.receivers.eraseIdx i, settled c = .waiting ∨ c = .gone := by
    intro c mem
    have blind := unseen c mem
    unfold settled
    split
    · exact .inl rfl
    · cases c with
      | trying op => cases op <;> simp_all [Receiver.Looks]
      | waiting => exact .inl rfl
      | gone => exact .inr rfl
      | _ => exact absurd trivial blind
  refine ⟨acts, { s with receivers := (s.receivers.set i .gone).map settled }, own, ?_, ready,
    empty, ?_, ?_⟩
  · rw [run_cons (step_receiver away .leave)]
    exact ran
  · rcases settles c mem with waits | gone
    · exact waits ▸ List.mem_map_of_mem (after.mem_iff.mpr (List.mem_cons_of_mem _ mem))
    · exact absurd gone receives
  · intro c' mem'
    obtain ⟨c, mem, rfl⟩ := List.mem_map.mp mem'
    rcases List.mem_cons.mp (after.mem_iff.mp mem) with rfl | other
    · exact .inr rfl
    · rcases settles c other with waits | rfl
      · exact .inl waits
      · exact .inr rfl

end Pipeline

open Pipeline in
/-- Where every thread that stops receiving is relieved, no run strands a batch; where one is not,
the other threads' own steps strand one. -/
theorem receivers_never_stranded {α : Type} (ordered : Bool) (resultCapacity receivers : Nat) :
    (∀ (acts : List (PipelineAct α)) (s : Pipeline α),
      (new ordered resultCapacity receivers).run acts = some s →
      (new ordered resultCapacity receivers : Pipeline α).Careful acts → ¬ s.Stranded) ∧
    ∀ (acts : List (PipelineAct α)) (s : Pipeline α) (i : Nat),
      (new ordered resultCapacity receivers).run acts = some s →
      s.receivers[i]? = some .away → ¬ s.Relieved i →
      ∃ more s', (∀ act ∈ more, ∃ j, act = .receiver j .tryRecv) ∧
        s.run (.receiver i .leave :: more) = some s' ∧ s'.Stranded :=
  ⟨fun _ _ ran careful =>
      ((watched_new ordered resultCapacity receivers).run careful ran).not_stranded,
    fun _ _ _ _ away not => stranded_of_not_relieved away not⟩

/-- The first thread takes the second batch, finds the first one missing and waits; the second
thread takes the first batch and makes no other call. -/
def overtaken : List (PipelineAct Nat) :=
  [.submit 10, .submit 11, .deliver 1,
    .receiver 0 (.call .next), .receiver 0 .popReady, .receiver 0 .tryRecv,
    .receiver 0 .insert, .receiver 0 .popReady, .receiver 0 .tryRecv,
    .receiver 1 (.call .next), .receiver 1 .popReady, .deliver 0, .receiver 1 .tryRecv,
    .receiver 1 .insert, .receiver 1 .popReady, .receiver 1 .leave]

open Pipeline in
theorem overtaken_stranded : ∃ s : Pipeline Nat,
    (new true 2 2).run overtaken = some s ∧ s.Stranded ∧ s.delivered = [10] := by
  refine ⟨_, rfl, ⟨⟨rfl, by decide⟩, rfl, List.mem_cons_self, ?_⟩, rfl⟩
  rintro c (_ | ⟨_, _ | ⟨_, absurd⟩⟩)
  · exact .inl rfl
  · exact .inr rfl
  · cases absurd

open Pipeline in
/-- Up to the second thread's leaving the first batch's receiver is still to look. -/
theorem overtaken_attended : ∃ s : Pipeline Nat,
    (new true 2 2).run overtaken.dropLast = some s ∧ ¬ s.Stranded :=
  ⟨_, rfl, (receivers_never_stranded true 2 2).1 overtaken.dropLast _ rfl
    (careful_of_stays fun i leaves => by simp [overtaken] at leaves)⟩

end AetherGraph
