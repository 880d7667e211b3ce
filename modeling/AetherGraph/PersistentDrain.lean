import AetherGraph.PersistentKernel

/-! The persistent kernel drains exactly what was posted: each queue passes its entries on in
order, and the exit test compares counts too close together to be confused by the wrap. -/

namespace AetherGraph

open Foundation

/-- What a worker has taken from one queue and not yet put in the next. -/
def FetchPc.hand : FetchPc → List PersistentWork
  | .enqueue _ work => [work]
  | _ => []

def TransformPc.hand : TransformPc → List PersistentWork
  | .enqueue _ work => [work]
  | _ => []

def ComputePc.hand : ComputePc → List PersistentWork
  | .account work => [work]
  | _ => []

/-- The producer of `q` holds its next index and knows of a free slot. -/
def CanPush (q : Spsc PersistentWork) (tail : Nat) : Prop :=
  q.Settled ∧ tail = q.pushed.length % 2 ^ 32 ∧ q.pushed.length < q.popped + localCap

/-- The producer of `q` has written one entry it has not published. -/
def Wrote (q : Spsc PersistentWork) (tail : Nat) : Prop :=
  q.pushed.length = q.published + 1 ∧ tail = q.published % 2 ^ 32

/-- The consumer of `q` holds its next entry. -/
def Took (q : Spsc PersistentWork) (work : PersistentWork) : Prop :=
  q.popped < q.published ∧ q.pushed[q.popped]? = some work

def FetchPc.Ok (ring q : Spsc PersistentWork) : FetchPc → Prop
  | .top | .readHead | .exited => q.Settled
  | .readTail fqh => q.Settled ∧ q.Room (2 ^ 32) localCap fqh
  | .poll fqt => CanPush q fqt
  | .loadKind fqt => CanPush q fqt ∧ ring.popped < ring.published
  | .loadPayload fqt kind => CanPush q fqt ∧ ∃ work, Took ring work ∧ work.kind = kind
  | .loadLen fqt kind payload =>
      CanPush q fqt ∧ ∃ work, Took ring work ∧ work.kind = kind ∧ work.payload = payload
  | .release fqt work => CanPush q fqt ∧ Took ring work
  | .enqueue fqt _ => CanPush q fqt
  | .bump fqt => Wrote q fqt

def TransformPc.Ok (q c : Spsc PersistentWork) : TransformPc → Prop
  | .top | .readFqh | .exited => c.Settled
  | .readFqt fqh => c.Settled ∧ fqh = q.popped % 2 ^ 32
  | .readCqh fqh fqt => c.Settled ∧ fqh = q.popped % 2 ^ 32 ∧ q.Seen (2 ^ 32) fqt
  | .readCqt fqh fqt cqh => c.Settled ∧ fqh = q.popped % 2 ^ 32 ∧ q.Seen (2 ^ 32) fqt ∧
      c.Room (2 ^ 32) localCap cqh
  | .take fqh cqt => CanPush c cqt ∧ fqh = q.popped % 2 ^ 32 ∧ q.popped < q.published
  | .pop fqh cqt work => CanPush c cqt ∧ fqh = q.popped % 2 ^ 32 ∧ Took q work
  | .enqueue cqt _ => CanPush c cqt
  | .bump cqt => Wrote c cqt

/-- `posted` is everything the host has written. -/
def ComputePc.Ok (c : Spsc PersistentWork) (stop done : Bool) (finished posted : List PersistentWork) :
    ComputePc → Prop
  | .readCqh | .account _ | .readStop => done = false
  | .readCqt cqh => done = false ∧ cqh = c.popped % 2 ^ 32
  | .take cqh => done = false ∧ cqh = c.popped % 2 ^ 32 ∧ c.popped < c.published
  | .pop cqh work => done = false ∧ cqh = c.popped % 2 ^ 32 ∧ Took c work
  | .readTail => done = false ∧ stop = true
  | .finish => done = false ∧ stop = true ∧ finished = posted
  | .exited => done = true ∧ stop = true ∧ finished = posted

def HostPc.Ok (s : PersistentWorker) : HostPc → Prop
  | .free => s.ring.Settled ∧ (s.stop = true → s.phase = .stopped)
  | .writing _ => s.ring.Settled ∧ s.stop = false ∧ s.ring.pushed.length < s.ring.popped + s.capacity
  | .storing => s.ring.pushed.length = s.ring.published + 1 ∧ s.stop = false
  | .joining => s.ring.Settled ∧ s.stop = true ∧ s.phase = .running

theorem local_slot (n : Nat) : n % 2 ^ 32 &&& (localCap - 1) = n % localCap :=
  mask_mod (show 6 ≤ 32 by decide) n

/-- The consumer of a local queue finds its next entry in the slot of its head. -/
theorem Took.local {q : Spsc PersistentWork} (ok : q.Ok (2 ^ 32) localCap)
    (more : q.popped < q.published) {head : Nat} (eq : head = q.popped % 2 ^ 32) :
    Took q (q.mem (head &&& (localCap - 1))) := by
  refine ⟨more, ?_⟩
  rw [eq, local_slot]
  exact ok.read (i := 0) more

theorem CanPush.write {q : Spsc PersistentWork} {tail : Nat} (room : CanPush q tail)
    (ok : q.Ok (2 ^ 32) localCap) (work : PersistentWork) :
    (q.write (tail &&& (localCap - 1)) work).Ok (2 ^ 32) localCap ∧
      Wrote (q.write (tail &&& (localCap - 1)) work) tail := by
  obtain ⟨settled, eq, free⟩ := room
  refine ⟨ok.write free (by rw [eq, local_slot]) work, ?_, ?_⟩
  · dsimp only [Spsc.write]
    rw [List.length_append, List.length_singleton, ← settled]
  · dsimp only [Spsc.write]
    rw [eq, ← settled]

theorem CanPush.of_room {q : Spsc PersistentWork} {head : Nat} (ok : q.Ok (2 ^ 32) localCap)
    (settled : q.Settled) (room : q.Room (2 ^ 32) localCap head)
    (fits : ¬ localCap ≤ wrapSub (2 ^ 32) q.tail head) : CanPush q q.tail := by
  have used := (ok.free_of_room room).1
  rw [← settled, ← ok.tail_eq] at used
  refine ⟨settled, by rw [ok.tail_eq, settled], ?_⟩
  rw [← settled]
  omega

theorem Wrote.publish {q : Spsc PersistentWork} {tail depth : Nat} (wrote : Wrote q tail)
    (ok : q.Ok (2 ^ 32) depth) :
    (q.publish ((tail + 1) % 2 ^ 32) 1).Ok (2 ^ 32) depth ∧
      (q.publish ((tail + 1) % 2 ^ 32) 1).Settled := by
  obtain ⟨length, eq⟩ := wrote
  refine ⟨ok.publish length.ge ?_, length.symm⟩
  rw [eq, succ_mod_mod]

theorem Took.advance {q : Spsc PersistentWork} {work : PersistentWork} {depth head : Nat}
    (took : Took q work) (ok : q.Ok (2 ^ 32) depth) (eq : head = q.popped % 2 ^ 32) :
    (q.advance ((head + 1) % 2 ^ 32) 1).Ok (2 ^ 32) depth ∧
      q.pushed.take (q.popped + 1) = q.pushed.take q.popped ++ [work] := by
  refine ⟨ok.advance took.1 ?_, (take_concat took.2).symm⟩
  rw [eq, succ_mod_mod]

section Stability

variable {q q' c c' ring ring' : Spsc PersistentWork} {tail : Nat} {work : PersistentWork}

theorem CanPush.freed (h : CanPush q tail) (freed : q.Freed q') : CanPush q' tail := by
  obtain ⟨settled, eq, room⟩ := h
  refine ⟨settled.freed freed, by rw [freed.pushed_eq, eq], ?_⟩
  rw [freed.pushed_eq]
  exact room.trans_le (Nat.add_le_add_right freed.popped_le _)

theorem Wrote.freed (h : Wrote q tail) (freed : q.Freed q') : Wrote q' tail := by
  rw [Wrote, freed.pushed_eq, freed.published_eq]
  exact h

theorem Took.grew (h : Took q work) (grew : q.Grew q') : Took q' work := by
  obtain ⟨more, at_⟩ := h
  rw [Took, grew.popped_eq]
  obtain ⟨rest, eq⟩ := grew.pushed_le
  rw [← eq, List.getElem?_append_left (List.getElem?_eq_some_iff.mp at_).1]
  exact ⟨more.trans_le grew.published_le, at_⟩

theorem Took.unique {work' : PersistentWork} (h : Took q work) (h' : Took q work') : work = work' :=
  Option.some.inj (h.2.symm.trans h'.2)

theorem FetchPc.Ok.stable {pc : FetchPc} (h : pc.Ok ring q) (grew : ring.Grew ring')
    (freed : q.Freed q') : pc.Ok ring' q' := by
  cases pc with
  | top | readHead | exited => exact Spsc.Settled.freed h freed
  | readTail fqh => exact ⟨h.1.freed freed, h.2.freed freed⟩
  | poll fqt | enqueue fqt work => exact CanPush.freed h freed
  | loadKind fqt => exact ⟨h.1.freed freed, grew.popped_eq ▸ h.2.trans_le grew.published_le⟩
  | loadPayload fqt kind | loadLen fqt kind payload =>
      obtain ⟨room, work, took, rest⟩ := h
      exact ⟨room.freed freed, work, took.grew grew, rest⟩
  | release fqt work => exact ⟨h.1.freed freed, h.2.grew grew⟩
  | bump fqt => exact Wrote.freed h freed

theorem TransformPc.Ok.stable {pc : TransformPc} (h : pc.Ok q c) (grew : q.Grew q')
    (freed : c.Freed c') : pc.Ok q' c' := by
  cases pc with
  | top | readFqh | exited => exact Spsc.Settled.freed h freed
  | readFqt fqh => exact ⟨h.1.freed freed, grew.popped_eq ▸ h.2⟩
  | readCqh fqh fqt => exact ⟨h.1.freed freed, grew.popped_eq ▸ h.2.1, h.2.2.grew grew⟩
  | readCqt fqh fqt cqh =>
      obtain ⟨settled, head, seen, room⟩ := h
      exact ⟨settled.freed freed, grew.popped_eq ▸ head, seen.grew grew, room.freed freed⟩
  | take fqh cqt =>
      obtain ⟨room, head, more⟩ := h
      exact ⟨room.freed freed, grew.popped_eq ▸ head,
        grew.popped_eq ▸ more.trans_le grew.published_le⟩
  | pop fqh cqt work =>
      obtain ⟨room, head, took⟩ := h
      exact ⟨room.freed freed, grew.popped_eq ▸ head, took.grew grew⟩
  | enqueue cqt work => exact CanPush.freed h freed
  | bump cqt => exact Wrote.freed h freed

theorem ComputePc.Ok.stable {pc : ComputePc} {stop done : Bool}
    {finished posted : List PersistentWork} (h : pc.Ok c stop done finished posted)
    (grew : c.Grew c') : pc.Ok c' stop done finished posted := by
  cases pc with
  | readCqh | account work | readStop | readTail | finish | exited => exact h
  | readCqt cqh => exact ⟨h.1, grew.popped_eq ▸ h.2⟩
  | take cqh =>
      obtain ⟨going, head, more⟩ := h
      exact ⟨going, grew.popped_eq ▸ head, grew.popped_eq ▸ more.trans_le grew.published_le⟩
  | pop cqh work =>
      obtain ⟨going, head, took⟩ := h
      exact ⟨going, grew.popped_eq ▸ head, took.grew grew⟩

/-- A host that has not stopped may post more. -/
theorem ComputePc.Ok.posted {pc : ComputePc} {done : Bool} {finished posted : List PersistentWork}
    (h : pc.Ok c false done finished posted) (posted' : List PersistentWork) :
    pc.Ok c false done finished posted' := by
  cases pc with
  | readCqh | account work | readStop | readCqt cqh | take cqh | pop cqh work => exact h
  | readTail => cases h.2
  | finish | exited => cases h.2.1

theorem ComputePc.Ok.stopped {pc : ComputePc} {stop done : Bool}
    {finished posted : List PersistentWork} (h : pc.Ok c stop done finished posted) :
    pc.Ok c true done finished posted := by
  cases pc with
  | readCqh | account work | readStop | readCqt cqh | take cqh | pop cqh work => exact h
  | readTail => exact ⟨h.1, rfl⟩
  | finish | exited => exact ⟨h.1, rfl, h.2.2⟩

theorem HostPc.Ok.stable {pc : HostPc} {s s' : PersistentWorker} (h : pc.Ok s)
    (freed : s.ring.Freed s'.ring) (phase : s'.phase = s.phase) (stop : s'.stop = s.stop)
    (capacity : s'.capacity = s.capacity) : pc.Ok s' := by
  cases pc with
  | free => exact ⟨Spsc.Settled.freed h.1 freed, by rw [stop, phase]; exact h.2⟩
  | writing work =>
      refine ⟨Spsc.Settled.freed h.1 freed, stop.trans h.2.1, ?_⟩
      rw [freed.pushed_eq, capacity]
      exact h.2.2.trans_le (Nat.add_le_add_right freed.popped_le _)
  | storing =>
      rw [HostPc.Ok, freed.pushed_eq, freed.published_eq, stop]
      exact h
  | joining => exact ⟨Spsc.Settled.freed h.1 freed, stop.trans h.2.1, phase.trans h.2.2⟩

end Stability

namespace PersistentWorker

/-- What every run keeps. -/
structure Inv (s : PersistentWorker) : Prop where
  capacity_pow : ∃ k < 31, s.capacity = 2 ^ k
  ringOk : s.ring.Ok (2 ^ 32) s.capacity
  fetchQOk : s.fetchQ.Ok (2 ^ 32) localCap
  computeQOk : s.computeQ.Ok (2 ^ 32) localCap
  fetched : s.fetchQ.pushed ++ s.fetch.hand = s.ring.pushed.take s.ring.popped
  moved : s.computeQ.pushed ++ s.transform.hand = s.fetchQ.pushed.take s.fetchQ.popped
  computed : s.finished ++ s.compute.hand = s.computeQ.pushed.take s.computeQ.popped
  hostTail_eq : s.hostTail = s.ring.pushed.length % 2 ^ 32
  claimed_eq : s.claimed = s.ring.popped % 2 ^ 32
  tally_eq : s.tally = s.finished.length % 2 ^ 64
  completed_eq : s.completed = s.tally
  hostOk : s.host.Ok s
  fetchOk : s.fetch.Ok s.ring s.fetchQ
  transformOk : s.transform.Ok s.fetchQ s.computeQ
  computeOk : s.compute.Ok s.computeQ s.stop s.done s.finished s.ring.pushed

theorem new_inv {capacity : Nat} {mem fetchMem computeMem : Nat → PersistentWork}
    {s : PersistentWorker} (made : new capacity mem fetchMem computeMem = some s) : s.Inv := by
  rw [new] at made
  split at made
  · cases made
  · rename_i accepted
    rw [not_or, not_or, not_not, not_le] at accepted
    obtain ⟨pos, pow, lt⟩ := accepted
    cases made
    exact {
      capacity_pow := by
        refine ⟨Nat.log2 capacity, ?_, pow⟩
        rw [pow] at lt
        exact (Nat.pow_lt_pow_iff_right (by decide)).mp lt
      ringOk := Spsc.startAt_ok (lt.trans (by decide)) mem 0
      fetchQOk := Spsc.startAt_ok (by decide) fetchMem 0
      computeQOk := Spsc.startAt_ok (by decide) computeMem 0
      fetched := rfl
      moved := rfl
      computed := rfl
      hostTail_eq := rfl
      claimed_eq := rfl
      tally_eq := rfl
      completed_eq := rfl
      hostOk := ⟨rfl, fun stopped => by cases stopped⟩
      fetchOk := rfl
      transformOk := rfl
      computeOk := rfl }

namespace Inv

variable {s s' : PersistentWorker}

theorem stopped_settled (h : s.Inv) (stopped : s.stop = true) : s.ring.Settled := by
  have ok := h.hostOk
  cases at_ : s.host with
  | free | joining =>
      rw [at_] at ok
      exact ok.1
  | writing work =>
      rw [at_] at ok
      rw [ok.2.1] at stopped
      cases stopped
  | storing =>
      rw [at_] at ok
      rw [ok.2] at stopped
      cases stopped

/-! Moves between steps that touch no queue. -/

theorem hostTo (h : s.Inv) {pc : HostPc} (ok : pc.Ok s) : Inv { s with host := pc } := by
  cases pc <;> exact { h with hostOk := ok }

theorem fetchTo (h : s.Inv) {pc₀ pc : FetchPc} (at_ : s.fetch = pc₀) (hand : pc.hand = pc₀.hand)
    (ok : pc.Ok s.ring s.fetchQ) : Inv { s with fetch := pc } :=
  { h with
    fetched := by
      rw [hand, ← at_]
      exact h.fetched
    fetchOk := ok }

theorem transformTo (h : s.Inv) {pc₀ pc : TransformPc} (at_ : s.transform = pc₀) (hand : pc.hand = pc₀.hand)
    (ok : pc.Ok s.fetchQ s.computeQ) : Inv { s with transform := pc } :=
  { h with
    moved := by
      rw [hand, ← at_]
      exact h.moved
    transformOk := ok }

theorem computeTo (h : s.Inv) {pc₀ pc : ComputePc} (at_ : s.compute = pc₀) (hand : pc.hand = pc₀.hand)
    (ok : pc.Ok s.computeQ s.stop s.done s.finished s.ring.pushed) :
    Inv { s with compute := pc } :=
  { h with
    computed := by
      rw [hand, ← at_]
      exact h.computed
    computeOk := ok }

/-- The fetch worker's next item is in the slot it reads. -/
theorem ring_entry (h : s.Inv) (more : s.ring.popped < s.ring.published) :
    Took s.ring (s.ring.mem (s.claimed &&& (s.capacity - 1))) := by
  refine ⟨more, ?_⟩
  obtain ⟨k, lt, pow⟩ := h.capacity_pow
  rw [h.claimed_eq, pow, mask_mod (by omega), ← pow]
  exact h.ringOk.read (i := 0) more

theorem ring_more (h : s.Inv) (differ : s.ring.tail ≠ s.claimed) :
    s.ring.popped < s.ring.published :=
  h.ringOk.seen_tail.more (h.claimed_eq ▸ differ)

theorem fetch (h : s.Inv) (moved : FetchStep s s') : s'.Inv := by
  have ok := h.fetchOk
  have fetched := h.fetched
  cases moved with
  | top at_ =>
      rw [at_] at ok
      split
      · exact h.fetchTo at_ rfl ok
      · exact h.fetchTo at_ rfl ok
  | readHead at_ =>
      rw [at_] at ok
      exact h.fetchTo at_ rfl ⟨ok, h.fetchQOk.room_head⟩
  | readTail at_ =>
      rw [at_] at ok
      obtain ⟨settled, room⟩ := ok
      split
      · exact h.fetchTo at_ rfl settled
      · rename_i fits
        exact h.fetchTo at_ rfl (CanPush.of_room h.fetchQOk settled room fits)
  | poll at_ =>
      rw [at_] at ok
      split
      · exact h.fetchTo at_ rfl ok.1
      · rename_i differ
        exact h.fetchTo at_ rfl ⟨ok, h.ring_more differ⟩
  | loadKind at_ =>
      rw [at_] at ok
      exact h.fetchTo at_ rfl
        ⟨ok.1, _, h.ring_entry ok.2, rfl⟩
  | loadPayload at_ =>
      rw [at_] at ok
      obtain ⟨room, work, took, kind⟩ := ok
      refine h.fetchTo at_ rfl ⟨room, work, took, kind, ?_⟩
      rw [Took.unique took (h.ring_entry took.1)]
  | loadLen at_ =>
      rw [at_] at ok
      obtain ⟨room, work, took, kind, payload⟩ := ok
      refine h.fetchTo at_ rfl ⟨room, ?_⟩
      rw [← Took.unique took (h.ring_entry took.1), ← kind, ← payload]
      exact took
  | release at_ =>
      rw [at_] at ok fetched
      obtain ⟨room, took⟩ := ok
      obtain ⟨ringOk, next⟩ := took.advance h.ringOk h.claimed_eq
      exact { h with
        ringOk := ringOk
        fetched := by
          dsimp only [Spsc.advance, FetchPc.hand] at fetched ⊢
          rw [next, ← fetched, List.append_nil]
        claimed_eq := ringOk.head_eq
        hostOk := h.hostOk.stable (Spsc.freed_advance _ _ _) rfl rfl rfl
        fetchOk := room }
  | enqueue at_ =>
      rw [at_] at ok fetched
      obtain ⟨fetchQOk, wrote⟩ := CanPush.write ok h.fetchQOk _
      exact { h with
        fetchQOk := fetchQOk
        fetched := by
          dsimp only [Spsc.write, FetchPc.hand] at fetched ⊢
          rw [List.append_nil]
          exact fetched
        moved := by
          dsimp only [Spsc.write]
          rw [List.take_append_of_le_length (h.fetchQOk.popped_le.trans h.fetchQOk.published_le)]
          exact h.moved
        fetchOk := wrote
        transformOk := h.transformOk.stable (Spsc.grew_write _ _ _) (Spsc.Freed.refl _) }
  | bump at_ =>
      rw [at_] at ok fetched
      obtain ⟨fetchQOk, settled⟩ := Wrote.publish ok h.fetchQOk
      exact { h with
        fetchQOk := fetchQOk
        fetched := fetched
        fetchOk := settled
        transformOk := h.transformOk.stable (Spsc.grew_publish _ _ _) (Spsc.Freed.refl _) }

theorem transform (h : s.Inv) (moved : TransformStep s s') : s'.Inv := by
  have ok := h.transformOk
  have given := h.moved
  cases moved with
  | top at_ =>
      rw [at_] at ok
      split
      · exact h.transformTo at_ rfl ok
      · exact h.transformTo at_ rfl ok
  | readFqh at_ =>
      rw [at_] at ok
      exact h.transformTo at_ rfl ⟨ok, h.fetchQOk.head_eq⟩
  | readFqt at_ =>
      rw [at_] at ok
      exact h.transformTo at_ rfl ⟨ok.1, ok.2, h.fetchQOk.seen_tail⟩
  | readCqh at_ =>
      rw [at_] at ok
      exact h.transformTo at_ rfl ⟨ok.1, ok.2.1, ok.2.2, h.computeQOk.room_head⟩
  | readCqt at_ =>
      rw [at_] at ok
      obtain ⟨settled, head, seen, room⟩ := ok
      split
      · exact h.transformTo at_ rfl settled
      · rename_i passes
        rw [not_or] at passes
        obtain ⟨differ, fits⟩ := passes
        refine h.transformTo at_ rfl ⟨?_, head, seen.more (head ▸ Ne.symm differ)⟩
        exact CanPush.of_room h.computeQOk settled room fits
  | take at_ =>
      rw [at_] at ok
      obtain ⟨room, head, more⟩ := ok
      exact h.transformTo at_ rfl ⟨room, head, Took.local h.fetchQOk more head⟩
  | pop at_ =>
      rw [at_] at ok given
      obtain ⟨room, head, took⟩ := ok
      obtain ⟨fetchQOk, next⟩ := took.advance h.fetchQOk head
      exact { h with
        fetchQOk := fetchQOk
        moved := by
          dsimp only [Spsc.advance, TransformPc.hand] at given ⊢
          rw [next, ← given, List.append_nil]
        fetchOk := h.fetchOk.stable (Spsc.Grew.refl _) (Spsc.freed_advance _ _ _)
        transformOk := room }
  | enqueue at_ =>
      rw [at_] at ok given
      obtain ⟨computeQOk, wrote⟩ := CanPush.write ok h.computeQOk _
      exact { h with
        computeQOk := computeQOk
        moved := by
          dsimp only [Spsc.write, TransformPc.hand] at given ⊢
          rw [List.append_nil]
          exact given
        computed := by
          dsimp only [Spsc.write]
          rw [List.take_append_of_le_length
            (h.computeQOk.popped_le.trans h.computeQOk.published_le)]
          exact h.computed
        transformOk := wrote
        computeOk := h.computeOk.stable (Spsc.grew_write _ _ _) }
  | bump at_ =>
      rw [at_] at ok given
      obtain ⟨computeQOk, settled⟩ := Wrote.publish ok h.computeQOk
      exact { h with
        computeQOk := computeQOk
        moved := given
        transformOk := settled
        computeOk := h.computeOk.stable (Spsc.grew_publish _ _ _) }

/-- What is accounted for was posted first. -/
theorem finished_prefix_posted (h : s.Inv) : s.finished <+: s.ring.pushed := by
  have first : s.finished <+: s.computeQ.pushed :=
    (List.prefix_append _ _).trans (h.computed ▸ List.take_prefix _ _)
  have second : s.computeQ.pushed <+: s.fetchQ.pushed :=
    (List.prefix_append _ _).trans (h.moved ▸ List.take_prefix _ _)
  have third : s.fetchQ.pushed <+: s.ring.pushed :=
    (List.prefix_append _ _).trans (h.fetched ▸ List.take_prefix _ _)
  exact first.trans (second.trans third)

theorem capacity_lt (h : s.Inv) : s.capacity < 2 ^ 31 := by
  obtain ⟨k, lt, eq⟩ := h.capacity_pow
  rw [eq]
  exact Nat.pow_lt_pow_right (by decide) lt

/-- What a queue's consumer has taken it has put into the next queue or still holds. -/
theorem counts (h : s.Inv) :
    s.fetchQ.pushed.length + s.fetch.hand.length = s.ring.popped ∧
      s.computeQ.pushed.length + s.transform.hand.length = s.fetchQ.popped ∧
      s.finished.length + s.compute.hand.length = s.computeQ.popped := by
  have fetched := congrArg List.length h.fetched
  have moved := congrArg List.length h.moved
  have computed := congrArg List.length h.computed
  rw [List.length_append, List.length_take_of_le
    (h.ringOk.popped_le.trans h.ringOk.published_le)] at fetched
  rw [List.length_append, List.length_take_of_le
    (h.fetchQOk.popped_le.trans h.fetchQOk.published_le)] at moved
  rw [List.length_append, List.length_take_of_le
    (h.computeQOk.popped_le.trans h.computeQOk.published_le)] at computed
  exact ⟨fetched, moved, computed⟩

theorem published_le (h : s.Inv) :
    s.computeQ.published ≤ s.fetchQ.published ∧ s.fetchQ.published ≤ s.ring.published ∧
      s.ring.published ≤ s.ring.pushed.length := by
  obtain ⟨fetched, moved, computed⟩ := h.counts
  have := h.computeQOk.published_le
  have := h.fetchQOk.popped_le
  have := h.fetchQOk.published_le
  have := h.ringOk.popped_le
  exact ⟨by omega, by omega, h.ringOk.published_le⟩

/-- Each queue holds at most its depth and each worker at most one item. -/
theorem backlog_le (h : s.Inv) :
    s.ring.pushed.length ≤ s.finished.length + s.capacity + 2 * localCap + 3 := by
  have hand : s.fetch.hand.length ≤ 1 := by cases s.fetch <;> simp [FetchPc.hand]
  have hand' : s.transform.hand.length ≤ 1 := by cases s.transform <;> simp [TransformPc.hand]
  have hand'' : s.compute.hand.length ≤ 1 := by cases s.compute <;> simp [ComputePc.hand]
  obtain ⟨fetched, moved, computed⟩ := h.counts
  have := h.ringOk.window.fits
  have := h.fetchQOk.window.fits
  have := h.computeQOk.window.fits
  omega

/-- With the host stopped, equal counts modulo the word size mean that nothing is left. -/
theorem all_finished (h : s.Inv) (stopped : s.stop = true)
    (same : s.tally % 2 ^ 32 = s.ring.tail) : s.finished = s.ring.pushed := by
  have grown := h.finished_prefix_posted
  refine grown.eq_of_length ?_
  have le := grown.length_le
  have near := h.backlog_le
  have capacity := h.capacity_lt
  rw [h.tally_eq, Nat.mod_mod_of_dvd _ (Nat.pow_dvd_pow 2 (by decide)), h.ringOk.tail_eq,
    h.stopped_settled stopped] at same
  have small : 2 * localCap = 128 := rfl
  exact eq_of_slot_eq (by omega) (by omega) same

theorem compute (h : s.Inv) (moved : ComputeStep s s') : s'.Inv := by
  have ok := h.computeOk
  have computed := h.computed
  cases moved with
  | readCqh at_ =>
      rw [at_] at ok
      exact h.computeTo at_ rfl ⟨ok, h.computeQOk.head_eq⟩
  | readCqt at_ =>
      rw [at_] at ok
      obtain ⟨going, head⟩ := ok
      split
      · exact h.computeTo at_ rfl going
      · rename_i differ
        exact h.computeTo at_ rfl
          ⟨going, head, h.computeQOk.seen_tail.more (head ▸ Ne.symm differ)⟩
  | take at_ =>
      rw [at_] at ok
      obtain ⟨going, head, more⟩ := ok
      exact h.computeTo at_ rfl ⟨going, head, Took.local h.computeQOk more head⟩
  | pop at_ =>
      rw [at_] at ok computed
      obtain ⟨going, head, took⟩ := ok
      obtain ⟨computeQOk, next⟩ := took.advance h.computeQOk head
      exact { h with
        computeQOk := computeQOk
        computed := by
          dsimp only [Spsc.advance, ComputePc.hand] at computed ⊢
          rw [next, ← computed, List.append_nil]
        transformOk := h.transformOk.stable (Spsc.Grew.refl _) (Spsc.freed_advance _ _ _)
        computeOk := going }
  | account at_ =>
      rw [at_] at ok computed
      exact { h with
        computed := by
          dsimp only [ComputePc.hand] at computed ⊢
          rw [List.append_nil]
          exact computed
        tally_eq := by
          dsimp only
          rw [h.tally_eq, succ_mod_mod, List.length_append, List.length_singleton]
        completed_eq := rfl
        computeOk := ok }
  | readStop at_ =>
      rw [at_] at ok
      split
      · rename_i stopped
        exact h.computeTo at_ rfl ⟨ok, stopped⟩
      · exact h.computeTo at_ rfl ok
  | readTail at_ =>
      rw [at_] at ok
      obtain ⟨going, stopped⟩ := ok
      split
      · rename_i same
        exact h.computeTo at_ rfl ⟨going, stopped, h.all_finished stopped same⟩
      · exact h.computeTo at_ rfl going
  | finish at_ =>
      rw [at_] at ok computed
      exact { h with
        computed := computed
        computeOk := ⟨rfl, ok.2⟩ }

theorem host (h : s.Inv) (moved : HostStep s s') : s'.Inv := by
  have ok := h.hostOk
  cases moved with
  | start idle at_ =>
      rw [at_] at ok
      have going : s.stop ≠ true := fun stopped => by
        rw [ok.2 stopped] at idle
        cases idle
      exact { h with
        hostOk := by
          rw [at_]
          exact ⟨ok.1, fun stopped => absurd stopped going⟩ }
  | post work open_ at_ room =>
      rw [at_] at ok
      refine h.hostTo ⟨ok.1, ?_, ?_⟩
      · cases at' : s.stop with
        | true => exact absurd (ok.2 at') open_
        | false => rfl
      · have used := h.ringOk.used_eq
        rw [Full, h.hostTail_eq, used] at room
        omega
  | write at_ =>
      rw [at_] at ok
      obtain ⟨settled, going, room⟩ := ok
      obtain ⟨k, lt, pow⟩ := h.capacity_pow
      have slot : s.hostTail &&& (s.capacity - 1) = s.ring.pushed.length % s.capacity := by
        rw [h.hostTail_eq, pow, mask_mod (by omega)]
      have grew := Spsc.grew_write s.ring (s.hostTail &&& (s.capacity - 1))
      exact { h with
        ringOk := h.ringOk.write room slot _
        fetched := by
          dsimp only [Spsc.write]
          rw [List.take_append_of_le_length (h.ringOk.popped_le.trans h.ringOk.published_le)]
          exact h.fetched
        hostTail_eq := by
          dsimp only [Spsc.write]
          rw [h.hostTail_eq, succ_mod_mod, List.length_append, List.length_singleton]
        hostOk := by
          refine ⟨?_, going⟩
          dsimp only [Spsc.write]
          rw [List.length_append, List.length_singleton, ← settled]
        fetchOk := h.fetchOk.stable (grew _) (Spsc.Freed.refl _)
        computeOk := by
          dsimp only
          rw [going]
          exact ComputePc.Ok.posted (going ▸ h.computeOk) _ }
  | store at_ =>
      rw [at_] at ok
      obtain ⟨length, going⟩ := ok
      exact { h with
        ringOk := h.ringOk.publish length.ge (by rw [h.hostTail_eq, length])
        hostOk := ⟨length.symm, fun stopped => by
          dsimp only at stopped
          rw [going] at stopped
          cases stopped⟩
        fetchOk := h.fetchOk.stable (Spsc.grew_publish _ _ _) (Spsc.Freed.refl _) }
  | stop running at_ =>
      rw [at_] at ok
      exact { h with
        hostOk := ⟨ok.1, rfl, running⟩
        computeOk := h.computeOk.stopped }
  | join at_ _ _ _ =>
      rw [at_] at ok
      exact { h with hostOk := ⟨ok.1, fun _ => rfl⟩ }
  | close idle at_ =>
      rw [at_] at ok
      exact { h with
        hostOk := by
          rw [at_]
          exact ⟨ok.1, fun _ => rfl⟩ }

theorem step (h : s.Inv) (moved : Step s s') : s'.Inv := by
  cases moved with
  | host moved => exact h.host moved
  | device _ moved =>
      cases moved with
      | fetch moved => exact h.fetch moved
      | transform moved => exact h.transform moved
      | compute moved => exact h.compute moved

theorem run (h : s.Inv) (ran : Run s s') : s'.Inv := by
  induction ran with
  | refl => exact h
  | tail _ moved ih => exact ih.step moved

end Inv

end PersistentWorker

end AetherGraph
