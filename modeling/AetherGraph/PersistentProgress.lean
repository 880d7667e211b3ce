import AetherGraph.PersistentDrain

/-! A stopped kernel can always finish: while an item is left some worker's next steps move it on,
and once none is left the exit test succeeds and the workers leave. -/

namespace AetherGraph

open Foundation

/-! Steps each worker needs before it moves an item, or before it leaves. -/

def FetchPc.rank (tail : Nat) : FetchPc → Nat
  | .top => 7
  | .readHead => 6
  | .readTail fqh => if localCap ≤ wrapSub (2 ^ 32) tail fqh then 8 else 5
  | .poll _ => 4
  | .loadKind _ => 3
  | .loadPayload _ _ => 2
  | .loadLen _ _ _ => 1
  | _ => 0

def TransformPc.rank (tail : Nat) : TransformPc → Nat
  | .top => 6
  | .readFqh => 5
  | .readFqt _ => 4
  | .readCqh fqh fqt => if fqh = fqt then 8 else 3
  | .readCqt fqh fqt cqh =>
      if fqh = fqt ∨ localCap ≤ wrapSub (2 ^ 32) tail cqh then 7 else 2
  | .take _ _ => 1
  | _ => 0

def ComputePc.rank : ComputePc → Nat
  | .readStop => 5
  | .readTail => 4
  | .readCqh => 3
  | .readCqt _ => 2
  | .take _ => 1
  | _ => 0

def ComputePc.exitRank : ComputePc → Nat
  | .readCqh => 4
  | .readCqt _ => 3
  | .readStop => 2
  | .readTail => 1
  | _ => 0

def FetchPc.exitRank : FetchPc → Nat
  | .readHead => 4
  | .readTail _ => 3
  | .poll _ => 2
  | .top => 1
  | _ => 0

def TransformPc.exitRank : TransformPc → Nat
  | .readFqh => 5
  | .readFqt _ => 4
  | .readCqh _ _ => 3
  | .readCqt _ _ _ => 2
  | .top => 1
  | _ => 0

namespace PersistentWorker

variable {s s' : PersistentWorker}

theorem DeviceStep.keeps (moved : DeviceStep s s') :
    s'.phase = s.phase ∧ s'.stop = s.stop ∧ s'.host = s.host ∧
      s'.ring.pushed = s.ring.pushed := by
  cases moved with
  | fetch moved => cases moved <;> exact ⟨rfl, rfl, rfl, rfl⟩
  | transform moved => cases moved <;> exact ⟨rfl, rfl, rfl, rfl⟩
  | compute moved => cases moved <;> exact ⟨rfl, rfl, rfl, rfl⟩

/-- The fetch and transform workers leave only once `done` is set. -/
def Leaves (s : PersistentWorker) : Prop :=
  (s.fetch = .exited → s.done = true) ∧ (s.transform = .exited → s.done = true)

theorem Leaves.step (h : Leaves s) (moved : Step s s') : Leaves s' := by
  cases moved with
  | host moved => cases moved <;> exact h
  | device _ moved =>
      cases moved with
      | fetch moved =>
          refine ⟨fun left => ?_, by cases moved <;> exact h.2⟩
          cases moved with
          | top at_ =>
              cases at' : s.done with
              | true => rfl
              | false =>
                  dsimp only at left
                  rw [if_neg (by rw [at']; decide)] at left
                  cases left
          | readTail at_ | poll at_ =>
              dsimp only at left
              split at left <;> cases left
          | readHead | loadKind | loadPayload | loadLen | release | enqueue | bump => cases left
      | transform moved =>
          refine ⟨by cases moved <;> exact h.1, fun left => ?_⟩
          cases moved with
          | top at_ =>
              cases at' : s.done with
              | true => rfl
              | false =>
                  dsimp only at left
                  rw [if_neg (by rw [at']; decide)] at left
                  cases left
          | readCqt at_ =>
              dsimp only at left
              split at left <;> cases left
          | readFqh | readFqt | readCqh | take | pop | enqueue | bump => cases left
      | compute moved =>
          cases moved with
          | finish => exact ⟨fun _ => rfl, fun _ => rfl⟩
          | _ => exact h

theorem Leaves.run (h : Leaves s) (ran : Run s s') : Leaves s' := by
  induction ran with
  | refl => exact h
  | tail _ moved ih => exact ih.step moved

/-- The workers can all leave. -/
def CanExit (s : PersistentWorker) : Prop :=
  ∃ s', Relation.ReflTransGen DeviceStep s s' ∧ s'.fetch = .exited ∧ s'.transform = .exited ∧
    s'.compute = .exited

theorem CanExit.of_step (moved : DeviceStep s s') (h : CanExit s') : CanExit s := by
  obtain ⟨last, ran, exits⟩ := h
  exact ⟨last, .head moved ran, exits⟩

/-- The host waits for the running kernel. -/
structure Joined (s : PersistentWorker) : Prop where
  inv : s.Inv
  running : s.phase = .running
  stopped : s.stop = true
  leaves : s.Leaves

theorem Joined.step (h : Joined s) (moved : DeviceStep s s') : Joined s' where
  inv := h.inv.step (.device h.running moved)
  running := moved.keeps.1.trans h.running
  stopped := moved.keeps.2.1.trans h.stopped
  leaves := h.leaves.step (.device h.running moved)

/-- Reads, writes and publications of items so far. -/
def moves (s : PersistentWorker) : Nat :=
  s.ring.popped + s.fetchQ.pushed.length + s.fetchQ.published + s.fetchQ.popped +
    s.computeQ.pushed.length + s.computeQ.published + s.computeQ.popped + s.finished.length

theorem Inv.moves_le (h : s.Inv) : s.moves ≤ 8 * s.ring.pushed.length := by
  obtain ⟨fetched, moved, computed⟩ := h.counts
  have := h.ringOk.popped_le
  have := h.ringOk.published_le
  have := h.fetchQOk.popped_le
  have := h.fetchQOk.published_le
  have := h.computeQOk.popped_le
  have := h.computeQOk.published_le
  rw [moves]
  omega

/-- Nothing left in the pipeline after `n` items hides a move. -/
def ExitsAfter (s : PersistentWorker) : Prop :=
  ∀ s', Joined s' → s'.done = false → s'.ring.pushed = s.ring.pushed → s.moves < s'.moves →
    CanExit s'

theorem ExitsAfter.of_move (h : Joined s) (going : s.done = false) (next : ExitsAfter s)
    (moved : DeviceStep s s') (more : s.moves < s'.moves) (going' : s'.done = s.done) :
    CanExit s :=
  .of_step moved (next _ (h.step moved) (going'.trans going) moved.keeps.2.2.2 more)

/-- The compute worker accounts for an item that waits for it. -/
theorem compute_moves (h : Joined s) (going : s.done = false)
    (more : s.finished.length < s.computeQ.published) (next : ExitsAfter s) : CanExit s := by
  induction hn : s.compute.rank using Nat.strong_induction_on generalizing s with
  | _ n ih =>
  have ok := h.inv.computeOk
  have counts := h.inv.counts.2.2
  have le := h.inv.finished_prefix_posted.length_le
  cases at_ : s.compute with
  | readCqh =>
      have moved := DeviceStep.compute (ComputeStep.readCqh at_)
      obtain rfl : n = 3 := by rw [← hn, at_]; rfl
      exact .of_step moved (ih 2 (by decide) (h.step moved) going more next rfl)
  | readCqt cqh =>
      rw [at_] at ok counts
      have differ : cqh ≠ s.computeQ.tail := fun same => by
        have empty := h.inv.computeQOk.empty_of_tail (same.symm.trans ok.2)
        dsimp only [ComputePc.hand, List.length_nil] at counts
        omega
      have moved := ComputeStep.readCqt at_
      rw [if_neg differ] at moved
      obtain rfl : n = 2 := by rw [← hn, at_]; rfl
      exact .of_step (.compute moved)
        (ih 1 (by decide) (h.step (.compute moved)) going more next rfl)
  | take cqh =>
      have moved := DeviceStep.compute (ComputeStep.take at_)
      obtain rfl : n = 1 := by rw [← hn, at_]; rfl
      exact .of_step moved (ih 0 (by decide) (h.step moved) going more next rfl)
  | pop cqh work =>
      refine next.of_move h going (.compute (.pop at_)) ?_ rfl
      dsimp only [moves, Spsc.advance]
      omega
  | account work =>
      refine next.of_move h going (.compute (.account at_)) ?_ rfl
      dsimp only [moves]
      rw [List.length_append, List.length_singleton]
      omega
  | readStop =>
      have moved := ComputeStep.readStop at_
      rw [if_pos h.stopped] at moved
      obtain rfl : n = 5 := by rw [← hn, at_]; rfl
      exact .of_step (.compute moved)
        (ih 4 (by decide) (h.step (.compute moved)) going more next rfl)
  | readTail =>
      have differ : s.tally % 2 ^ 32 ≠ s.ring.tail := fun same => by
        have all := congrArg List.length (h.inv.all_finished h.stopped same)
        have := h.inv.published_le
        omega
      have moved := ComputeStep.readTail at_
      rw [if_neg differ] at moved
      obtain rfl : n = 4 := by rw [← hn, at_]; rfl
      exact .of_step (.compute moved)
        (ih 3 (by decide) (h.step (.compute moved)) going more next rfl)
  | finish =>
      rw [at_] at ok
      have all := congrArg List.length ok.2.2
      have := h.inv.published_le
      omega
  | exited =>
      rw [at_] at ok
      rw [going] at ok
      cases ok.1

/-- The transform worker hands on an item when the compute worker has nothing to do. -/
theorem transform_moves (h : Joined s) (going : s.done = false)
    (idle : s.computeQ.published ≤ s.finished.length)
    (more : s.computeQ.published < s.fetchQ.published) (next : ExitsAfter s) : CanExit s := by
  induction hn : s.transform.rank s.computeQ.tail using Nat.strong_induction_on generalizing s with
  | _ n ih =>
  have ok := h.inv.transformOk
  obtain ⟨-, counts, done⟩ := h.inv.counts
  have empty : s.computeQ.popped = s.computeQ.published := by
    have := h.inv.computeQOk.popped_le
    omega
  cases at_ : s.transform with
  | top =>
      have moved := TransformStep.top at_
      rw [if_neg (by rw [going]; decide)] at moved
      obtain rfl : n = 6 := by rw [← hn, at_]; rfl
      exact .of_step (.transform moved)
        (ih 5 (by decide) (h.step (.transform moved)) going idle more next rfl)
  | readFqh =>
      have moved := DeviceStep.transform (TransformStep.readFqh at_)
      obtain rfl : n = 5 := by rw [← hn, at_]; rfl
      exact .of_step moved (ih 4 (by decide) (h.step moved) going idle more next rfl)
  | readFqt fqh =>
      have moved := DeviceStep.transform (TransformStep.readFqt at_)
      obtain rfl : n = 4 := by rw [← hn, at_]; rfl
      rw [at_] at ok counts
      have differ : fqh ≠ s.fetchQ.tail := fun same => by
        have := h.inv.fetchQOk.empty_of_tail (same.symm.trans ok.2)
        have := ok.1
        rw [Spsc.Settled] at this
        dsimp only [TransformPc.hand, List.length_nil] at counts
        omega
      exact .of_step moved (ih 3 (by decide) (h.step moved) going idle more next (if_neg differ))
  | readCqh fqh fqt =>
      have moved := DeviceStep.transform (TransformStep.readCqh at_)
      have room : ¬ localCap ≤ wrapSub (2 ^ 32) s.computeQ.tail s.computeQ.head := by
        rw [h.inv.computeQOk.tail_eq, h.inv.computeQOk.head_eq, empty,
          wrapSub_mod (Nat.le_refl _) (Nat.lt_add_of_pos_right (by decide)), Nat.sub_self]
        decide
      by_cases same : fqh = fqt
      · obtain rfl : n = 8 := by rw [← hn, at_]; exact if_pos same
        exact .of_step moved
          (ih 7 (by decide) (h.step moved) going idle more next (if_pos (.inl same)))
      · obtain rfl : n = 3 := by rw [← hn, at_]; exact if_neg same
        exact .of_step moved (ih 2 (by decide) (h.step moved) going idle more next
          (if_neg (not_or.mpr ⟨same, room⟩)))
  | readCqt fqh fqt cqh =>
      have moved := TransformStep.readCqt at_
      by_cases stale : fqh = fqt ∨ localCap ≤ wrapSub (2 ^ 32) s.computeQ.tail cqh
      · rw [if_pos stale] at moved
        obtain rfl : n = 7 := by rw [← hn, at_]; exact if_pos stale
        exact .of_step (.transform moved)
          (ih 6 (by decide) (h.step (.transform moved)) going idle more next rfl)
      · rw [if_neg stale] at moved
        obtain rfl : n = 2 := by rw [← hn, at_]; exact if_neg stale
        exact .of_step (.transform moved)
          (ih 1 (by decide) (h.step (.transform moved)) going idle more next rfl)
  | take fqh cqt =>
      have moved := DeviceStep.transform (TransformStep.take at_)
      obtain rfl : n = 1 := by rw [← hn, at_]; rfl
      exact .of_step moved (ih 0 (by decide) (h.step moved) going idle more next rfl)
  | pop fqh cqt work =>
      refine next.of_move h going (.transform (.pop at_)) ?_ rfl
      dsimp only [moves, Spsc.advance]
      omega
  | enqueue cqt work =>
      refine next.of_move h going (.transform (.enqueue at_)) ?_ rfl
      dsimp only [moves, Spsc.write]
      rw [List.length_append, List.length_singleton]
      omega
  | bump cqt =>
      refine next.of_move h going (.transform (.bump at_)) ?_ rfl
      dsimp only [moves, Spsc.publish]
      omega
  | exited =>
      rw [h.leaves.2 at_] at going
      cases going

/-- The fetch worker copies out an item when the two queues are drained. -/
theorem fetch_moves (h : Joined s) (going : s.done = false)
    (idle : s.fetchQ.published ≤ s.finished.length)
    (more : s.fetchQ.published < s.ring.published) (next : ExitsAfter s) : CanExit s := by
  induction hn : s.fetch.rank s.fetchQ.tail using Nat.strong_induction_on generalizing s with
  | _ n ih =>
  have ok := h.inv.fetchOk
  obtain ⟨counts, given, done⟩ := h.inv.counts
  have empty : s.fetchQ.popped = s.fetchQ.published := by
    have := h.inv.fetchQOk.popped_le
    have := h.inv.computeQOk.popped_le
    have := h.inv.computeQOk.published_le
    omega
  cases at_ : s.fetch with
  | top =>
      have moved := FetchStep.top at_
      rw [if_neg (by rw [going]; decide)] at moved
      obtain rfl : n = 7 := by rw [← hn, at_]; rfl
      exact .of_step (.fetch moved)
        (ih 6 (by decide) (h.step (.fetch moved)) going idle more next rfl)
  | readHead =>
      have moved := DeviceStep.fetch (FetchStep.readHead at_)
      have room : ¬ localCap ≤ wrapSub (2 ^ 32) s.fetchQ.tail s.fetchQ.head := by
        rw [h.inv.fetchQOk.tail_eq, h.inv.fetchQOk.head_eq, empty,
          wrapSub_mod (Nat.le_refl _) (Nat.lt_add_of_pos_right (by decide)), Nat.sub_self]
        decide
      obtain rfl : n = 6 := by rw [← hn, at_]; rfl
      exact .of_step moved (ih 5 (by decide) (h.step moved) going idle more next (if_neg room))
  | readTail fqh =>
      have moved := FetchStep.readTail at_
      by_cases stale : localCap ≤ wrapSub (2 ^ 32) s.fetchQ.tail fqh
      · rw [if_pos stale] at moved
        obtain rfl : n = 8 := by rw [← hn, at_]; exact if_pos stale
        exact .of_step (.fetch moved)
          (ih 7 (by decide) (h.step (.fetch moved)) going idle more next rfl)
      · rw [if_neg stale] at moved
        obtain rfl : n = 5 := by rw [← hn, at_]; exact if_neg stale
        exact .of_step (.fetch moved)
          (ih 4 (by decide) (h.step (.fetch moved)) going idle more next rfl)
  | poll fqt =>
      rw [at_] at ok counts
      have differ : s.ring.tail ≠ s.claimed := fun same => by
        have := h.inv.ringOk.empty_of_tail (same.trans h.inv.claimed_eq)
        have := ok.1
        rw [Spsc.Settled] at this
        dsimp only [FetchPc.hand, List.length_nil] at counts
        omega
      have moved := FetchStep.poll at_
      rw [if_neg differ] at moved
      obtain rfl : n = 4 := by rw [← hn, at_]; rfl
      exact .of_step (.fetch moved)
        (ih 3 (by decide) (h.step (.fetch moved)) going idle more next rfl)
  | loadKind fqt =>
      have moved := DeviceStep.fetch (FetchStep.loadKind at_)
      obtain rfl : n = 3 := by rw [← hn, at_]; rfl
      exact .of_step moved (ih 2 (by decide) (h.step moved) going idle more next rfl)
  | loadPayload fqt kind =>
      have moved := DeviceStep.fetch (FetchStep.loadPayload at_)
      obtain rfl : n = 2 := by rw [← hn, at_]; rfl
      exact .of_step moved (ih 1 (by decide) (h.step moved) going idle more next rfl)
  | loadLen fqt kind payload =>
      have moved := DeviceStep.fetch (FetchStep.loadLen at_)
      obtain rfl : n = 1 := by rw [← hn, at_]; rfl
      exact .of_step moved (ih 0 (by decide) (h.step moved) going idle more next rfl)
  | release fqt work =>
      refine next.of_move h going (.fetch (.release at_)) ?_ rfl
      dsimp only [moves, Spsc.advance]
      omega
  | enqueue fqt work =>
      refine next.of_move h going (.fetch (.enqueue at_)) ?_ rfl
      dsimp only [moves, Spsc.write]
      rw [List.length_append, List.length_singleton]
      omega
  | bump fqt =>
      refine next.of_move h going (.fetch (.bump at_)) ?_ rfl
      dsimp only [moves, Spsc.publish]
      omega
  | exited =>
      rw [h.leaves.1 at_] at going
      cases going

/-! Once everything is accounted for, the workers leave one after another. -/

theorem Joined.computed (h : Joined s) (done : s.done = true) : s.compute = .exited := by
  have ok := h.inv.computeOk
  rw [done] at ok
  cases at_ : s.compute with
  | exited => rfl
  | readCqh | account work | readStop =>
      rw [at_] at ok
      cases ok
  | readCqt cqh | take cqh | pop cqh work | readTail | finish =>
      rw [at_] at ok
      cases ok.1

theorem Joined.drained (h : Joined s) (done : s.done = true) :
    s.finished.length = s.ring.pushed.length := by
  have ok := h.inv.computeOk
  rw [h.computed done] at ok
  exact congrArg List.length ok.2.2

theorem transform_exits (h : Joined s) (done : s.done = true) (fetched : s.fetch = .exited) :
    CanExit s := by
  induction hn : s.transform.exitRank using Nat.strong_induction_on generalizing s with
  | _ n ih =>
  have ok := h.inv.transformOk
  have all := h.drained done
  obtain ⟨-, counts, computed⟩ := h.inv.counts
  have le := h.inv.published_le
  have popped := h.inv.fetchQOk.popped_le
  have computeLe := h.inv.computeQOk.popped_le
  have computePushed := h.inv.computeQOk.published_le
  cases at_ : s.transform with
  | top =>
      have moved := TransformStep.top at_
      rw [if_pos done] at moved
      exact ⟨_, .single (.transform moved), fetched, rfl, h.computed done⟩
  | readFqh =>
      have moved := DeviceStep.transform (TransformStep.readFqh at_)
      obtain rfl : n = 5 := by rw [← hn, at_]; rfl
      exact .of_step moved (ih 4 (by decide) (h.step moved) done fetched rfl)
  | readFqt fqh =>
      have moved := DeviceStep.transform (TransformStep.readFqt at_)
      obtain rfl : n = 4 := by rw [← hn, at_]; rfl
      exact .of_step moved (ih 3 (by decide) (h.step moved) done fetched rfl)
  | readCqh fqh fqt =>
      have moved := DeviceStep.transform (TransformStep.readCqh at_)
      obtain rfl : n = 3 := by rw [← hn, at_]; rfl
      exact .of_step moved (ih 2 (by decide) (h.step moved) done fetched rfl)
  | readCqt fqh fqt cqh =>
      rw [at_] at ok
      have same : fqh = fqt := by
        by_contra differ
        have := ok.2.2.1.more (ok.2.1 ▸ Ne.symm differ)
        omega
      have moved := TransformStep.readCqt at_
      rw [if_pos (.inl same)] at moved
      obtain rfl : n = 2 := by rw [← hn, at_]; rfl
      exact .of_step (.transform moved)
        (ih 1 (by decide) (h.step (.transform moved)) done fetched rfl)
  | take fqh cqt =>
      rw [at_] at ok
      have := ok.2.2
      omega
  | pop fqh cqt work =>
      rw [at_] at ok
      have := ok.2.2.1
      omega
  | enqueue cqt work =>
      rw [at_] at counts
      dsimp only [TransformPc.hand, List.length_singleton] at counts
      omega
  | bump cqt =>
      rw [at_] at ok counts
      have := ok.1
      dsimp only [TransformPc.hand, List.length_nil] at counts
      omega
  | exited => exact ⟨s, .refl, fetched, at_, h.computed done⟩

theorem fetch_exits (h : Joined s) (done : s.done = true) : CanExit s := by
  induction hn : s.fetch.exitRank using Nat.strong_induction_on generalizing s with
  | _ n ih =>
  have ok := h.inv.fetchOk
  have all := h.drained done
  obtain ⟨counts, given, computed⟩ := h.inv.counts
  have le := h.inv.published_le
  have popped := h.inv.ringOk.popped_le
  have fetchLe := h.inv.fetchQOk.popped_le
  have fetchPushed := h.inv.fetchQOk.published_le
  have computeLe := h.inv.computeQOk.popped_le
  cases at_ : s.fetch with
  | top =>
      have moved := FetchStep.top at_
      rw [if_pos done] at moved
      exact .of_step (.fetch moved) (transform_exits (h.step (.fetch moved)) done rfl)
  | readHead =>
      have moved := DeviceStep.fetch (FetchStep.readHead at_)
      obtain rfl : n = 4 := by rw [← hn, at_]; rfl
      exact .of_step moved (ih 3 (by decide) (h.step moved) done rfl)
  | readTail fqh =>
      have moved := FetchStep.readTail at_
      obtain rfl : n = 3 := by rw [← hn, at_]; rfl
      by_cases stale : localCap ≤ wrapSub (2 ^ 32) s.fetchQ.tail fqh
      · rw [if_pos stale] at moved
        exact .of_step (.fetch moved) (ih 1 (by decide) (h.step (.fetch moved)) done rfl)
      · rw [if_neg stale] at moved
        exact .of_step (.fetch moved) (ih 2 (by decide) (h.step (.fetch moved)) done rfl)
  | poll fqt =>
      have same : s.ring.tail = s.claimed := by
        by_contra differ
        have := h.inv.ring_more differ
        omega
      have moved := FetchStep.poll at_
      rw [if_pos same] at moved
      obtain rfl : n = 2 := by rw [← hn, at_]; rfl
      exact .of_step (.fetch moved) (ih 1 (by decide) (h.step (.fetch moved)) done rfl)
  | loadKind fqt =>
      rw [at_] at ok
      have := ok.2
      omega
  | loadPayload fqt kind | loadLen fqt kind payload =>
      rw [at_] at ok
      obtain ⟨-, work, took, -⟩ := ok
      have := took.1
      omega
  | release fqt work =>
      rw [at_] at ok
      have := ok.2.1
      omega
  | enqueue fqt work =>
      rw [at_] at counts
      dsimp only [FetchPc.hand, List.length_singleton] at counts
      omega
  | bump fqt =>
      rw [at_] at ok counts
      have := ok.1
      dsimp only [FetchPc.hand, List.length_nil] at counts
      omega
  | exited => exact transform_exits h done at_

theorem compute_exits (h : Joined s) (going : s.done = false)
    (idle : s.ring.published ≤ s.finished.length) : CanExit s := by
  induction hn : s.compute.exitRank using Nat.strong_induction_on generalizing s with
  | _ n ih =>
  have ok := h.inv.computeOk
  have counts := h.inv.counts.2.2
  have le := h.inv.published_le
  have popped := h.inv.computeQOk.popped_le
  cases at_ : s.compute with
  | readCqh =>
      have moved := DeviceStep.compute (ComputeStep.readCqh at_)
      obtain rfl : n = 4 := by rw [← hn, at_]; rfl
      exact .of_step moved (ih 3 (by decide) (h.step moved) going idle rfl)
  | readCqt cqh =>
      rw [at_] at ok
      have same : cqh = s.computeQ.tail := by
        by_contra differ
        have := h.inv.computeQOk.seen_tail.more (ok.2 ▸ Ne.symm differ)
        omega
      have moved := ComputeStep.readCqt at_
      rw [if_pos same] at moved
      obtain rfl : n = 3 := by rw [← hn, at_]; rfl
      exact .of_step (.compute moved) (ih 2 (by decide) (h.step (.compute moved)) going idle rfl)
  | take cqh =>
      rw [at_] at ok
      have := ok.2.2
      omega
  | pop cqh work =>
      rw [at_] at ok
      have := ok.2.2.1
      omega
  | account work =>
      rw [at_] at counts
      dsimp only [ComputePc.hand, List.length_singleton] at counts
      omega
  | readStop =>
      have moved := ComputeStep.readStop at_
      rw [if_pos h.stopped] at moved
      obtain rfl : n = 2 := by rw [← hn, at_]; rfl
      exact .of_step (.compute moved) (ih 1 (by decide) (h.step (.compute moved)) going idle rfl)
  | readTail =>
      have grown := h.inv.finished_prefix_posted.length_le
      have settled := h.inv.stopped_settled h.stopped
      have same : s.tally % 2 ^ 32 = s.ring.tail := by
        rw [Spsc.Settled] at settled
        rw [h.inv.tally_eq, Nat.mod_mod_of_dvd _ (Nat.pow_dvd_pow 2 (by decide)),
          h.inv.ringOk.tail_eq]
        exact congrArg (· % 2 ^ 32) (by omega)
      have moved := ComputeStep.readTail at_
      rw [if_pos same] at moved
      obtain rfl : n = 1 := by rw [← hn, at_]; rfl
      exact .of_step (.compute moved) (ih 0 (by decide) (h.step (.compute moved)) going idle rfl)
  | finish =>
      have moved := DeviceStep.compute (ComputeStep.finish at_)
      exact .of_step moved (fetch_exits (h.step moved) rfl)
  | exited =>
      rw [at_, going] at ok
      cases ok.1

/-- From every state the stopped kernel is in, its workers can finish. -/
theorem can_exit (h : Joined s) : CanExit s := by
  induction hn : 8 * s.ring.pushed.length - s.moves using Nat.strong_induction_on
    generalizing s with
  | _ n ih =>
  cases at_ : s.done with
  | true => exact fetch_exits h at_
  | false =>
      have next : ExitsAfter s := fun s' joined going pushed more =>
        ih _ (by
          have := joined.inv.moves_le
          rw [← hn, pushed]
          rw [pushed] at this
          omega) joined rfl
      by_cases computing : s.finished.length < s.computeQ.published
      · exact compute_moves h at_ computing next
      by_cases moving : s.computeQ.published < s.fetchQ.published
      · exact transform_moves h at_ (by omega) moving next
      by_cases fetching : s.fetchQ.published < s.ring.published
      · exact fetch_moves h at_ (by omega) fetching next
      exact compute_exits h at_ (by omega)

theorem device_run (h : Joined s) (ran : Relation.ReflTransGen DeviceStep s s') :
    Run s s' ∧ Joined s' ∧ s'.host = s.host ∧ s'.ring.pushed = s.ring.pushed := by
  induction ran with
  | refl => exact ⟨.refl, h, rfl, rfl⟩
  | tail _ moved ih =>
      obtain ⟨before, joined, host, pushed⟩ := ih
      exact ⟨before.tail (.device joined.running moved), joined.step moved,
        moved.keeps.2.2.1.trans host, moved.keeps.2.2.2.trans pushed⟩

theorem run_capacity (ran : Run s s') : s'.capacity = s.capacity := by
  induction ran with
  | refl => rfl
  | tail _ moved ih =>
      rw [← ih]
      cases moved with
      | host moved => cases moved <;> rfl
      | device _ moved =>
          cases moved with
          | fetch moved => cases moved <;> rfl
          | transform moved => cases moved <;> rfl
          | compute moved => cases moved <;> rfl

section New

variable {capacity : Nat} {mem fetchMem computeMem : Nat → PersistentWork}

theorem new_capacity (made : new capacity mem fetchMem computeMem = some s) :
    s.capacity = capacity := by
  rw [new] at made
  split at made <;> cases made
  rfl

theorem new_leaves (made : new capacity mem fetchMem computeMem = some s) : s.Leaves := by
  rw [new] at made
  split at made <;> cases made
  exact ⟨fun left => (by cases left), fun left => (by cases left)⟩

end New

end PersistentWorker

end AetherGraph
