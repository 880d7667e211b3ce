import AetherGraph.Foundation.EventLog
import AetherGraph.Foundation.FoldM
import AetherGraph.SrdGather
import Mathlib.Data.List.Forall2
import Mathlib.Data.List.Induction
import Mathlib.Data.List.Perm.Basic

/-! What a gather over unordered datagrams leaves behind, whatever the provider does: no READ in
flight unless its client is poisoned, no post after a failure, and every row its own node's. -/

namespace AetherGraph

open Foundation

namespace SrdFeatureClient

section Reap

/-- What a completion does to the buffer of `dstAddr`. -/
def landing (dstAddr : Nat) (dst : SlotBytes) : SrdEvent → SlotBytes
  | .complete read _ bytes => fun p =>
      let start := read.localAddr - dstAddr
      if start ≤ p ∧ p < start + read.length then bytes (p - start) else dst p
  | _ => dst

/-- The READs the posts got accepted. -/
def postedReads (es : List SrdEvent) : List AetherSrdRead :=
  es.flatMap fun
    | .post reads => reads
    | _ => []

/-- The READs that completed. -/
def completedReads (es : List SrdEvent) : List AetherSrdRead :=
  es.filterMap fun
    | .complete read _ _ => some read
    | _ => none

theorem postedReads_append (es es' : List SrdEvent) :
    postedReads (es ++ es') = postedReads es ++ postedReads es' := List.flatMap_append

theorem completedReads_append (es es' : List SrdEvent) :
    completedReads (es ++ es') = completedReads es ++ completedReads es' := List.filterMap_append

theorem mem_completedReads {es : List SrdEvent} {read : AetherSrdRead} :
    read ∈ completedReads es ↔ ∃ status bytes, .complete read status bytes ∈ es := by
  unfold completedReads
  rw [List.mem_filterMap]
  constructor
  · rintro ⟨e, mem, eq⟩
    cases e with
    | complete read' status bytes =>
        obtain rfl := Option.some.inj eq
        exact ⟨status, bytes, mem⟩
    | post | failed => cases eq
  · rintro ⟨status, bytes, mem⟩
    exact ⟨_, mem, rfl⟩

theorem postedReads_eq_nil {es : List SrdEvent} (quiet : ∀ reads, .post reads ∉ es) :
    postedReads es = [] := by
  refine List.flatMap_eq_nil_iff.mpr fun e mem => ?_
  cases e with
  | post reads => exact absurd mem (quiet reads)
  | complete | failed => rfl

/-- From `s` to `s'` the events `es` completed READs in flight, each one once, and landed them. -/
structure Reaped (s s' : SrdFeatureClient) (es : List SrdEvent) : Prop where
  link : s'.link = s.link
  generation : s'.generation = s.generation
  left : s'.inflight.Sublist s.inflight
  custody : (s'.inflight.map SrdWr.read ++ completedReads es).Perm (s.inflight.map SrdWr.read)
  dst : s'.dst = es.foldl (landing s.link.dstAddr) s.dst
  quiet : ∀ reads, .post reads ∉ es

variable {s s' s'' : SrdFeatureClient} {es es' : List SrdEvent}

theorem Reaped.refl (s : SrdFeatureClient) : Reaped s s [] where
  link := rfl
  generation := rfl
  left := List.Sublist.refl _
  custody := .of_eq (List.append_nil _)
  dst := rfl
  quiet := nofun

theorem Reaped.trans (h : Reaped s s' es) (h' : Reaped s' s'' es') :
    Reaped s s'' (es ++ es') where
  link := h'.link.trans h.link
  generation := h'.generation.trans h.generation
  left := h'.left.trans h.left
  custody := by
    rw [completedReads_append]
    have later := h'.custody.append_right (completedReads es)
    rw [List.append_assoc] at later
    exact ((List.perm_append_comm.append_left _).trans later).trans h.custody
  dst := by rw [h'.dst, h.dst, h.link, List.foldl_append]
  quiet := fun reads mem => (List.mem_append.mp mem).elim (h.quiet reads) (h'.quiet reads)

theorem Reaped.own (h : Reaped s s' es) {read : AetherSrdRead} {status : Nat} {bytes : SlotBytes}
    (mem : .complete read status bytes ∈ es) : read ∈ s.inflight.map SrdWr.read :=
  h.custody.subset (List.mem_append_right _ (mem_completedReads.mpr ⟨status, bytes, mem⟩))

theorem Reaped.covered (h : Reaped s s' es) (none_ : s'.inflight = []) {read : AetherSrdRead}
    (given : read ∈ s.inflight.map SrdWr.read) :
    ∃ status bytes, .complete read status bytes ∈ es := by
  have mem := h.custody.mem_iff.mpr given
  rw [none_] at mem
  exact mem_completedReads.mp mem

/-- All in flight is of the post with the tag. -/
def Tagged (tag : Nat) (s : SrdFeatureClient) : Prop :=
  s.generation = tag ∧ ∀ wr ∈ s.inflight, wr.wrId / 2 ^ 32 = tag

theorem Tagged.reaped {tag : Nat} (tagged : Tagged tag s) (h : Reaped s s' es) : Tagged tag s' :=
  ⟨h.generation.trans tagged.1, fun wr mem => tagged.2 wr (h.left.subset mem)⟩

/-- One poll: the entries of the post are as many as the READs that completed, and a failed one
among them is found. -/
structure Polled (tag : Nat) (s s' : SrdFeatureClient) (cqes : List AetherCqeSnapshot)
    (es : List SrdEvent) : Prop where
  reaped : Reaped s s' es
  failed : s'.failed = s.failed
  poisoned : s'.poisoned = s.poisoned
  calm : .failed ∉ es
  count : (ownOf tag cqes).length + s'.inflight.length = s.inflight.length
  good : (ownOf tag cqes).findSome? wcFailed = none →
    ∀ read status bytes, .complete read status bytes ∈ es → status = ibvWcSuccess

theorem deliver_polled {tag : Nat} (tagged : Tagged tag s) {d : Delivery}
    {cqe : Option AetherCqeSnapshot} (ran : deliver d s = some (cqe, s', es)) :
    Polled tag s s' cqe.toList es := by
  cases d with
  | stray wrId status vendorErr =>
      unfold deliver at ran
      dsimp only at ran
      split_ifs at ran with latest
      · cases ran
        exact ⟨Reaped.refl s, rfl, rfl, nofun, Nat.zero_add _, fun _ => nofun⟩
      · cases ran
        have none_ : ownOf tag [⟨status, wrId, vendorErr⟩] = [] := by
          refine List.filter_cons_of_neg fun same => ?_
          exact latest ((of_decide_eq_true same).trans tagged.1.symm)
        refine ⟨Reaped.refl s, rfl, rfl, nofun, ?_, fun _ => nofun⟩
        rw [Option.toList_some, none_]
        exact Nat.zero_add _
  | own k status vendorErr bytes =>
      unfold deliver at ran
      dsimp only at ran
      cases found : s.inflight[k]? with
      | none =>
          rw [found] at ran
          cases ran
          exact ⟨Reaped.refl s, rfl, rfl, nofun, Nat.zero_add _, fun _ => nofun⟩
      | some wr =>
          rw [found] at ran
          cases ran
          obtain ⟨bound, at_⟩ := List.getElem?_eq_some_iff.mp found
          have mem : wr ∈ s.inflight := at_ ▸ List.getElem_mem bound
          have mine : ownOf tag [⟨status, wr.wrId, vendorErr⟩] = [⟨status, wr.wrId, vendorErr⟩] :=
            List.filter_cons_of_pos (decide_eq_true (tagged.2 wr mem))
          refine ⟨⟨rfl, rfl, List.eraseIdx_sublist _ _, ?_, rfl, nofun⟩, rfl, rfl, nofun, ?_, ?_⟩
          · have back := (List.getElem_cons_eraseIdx_perm bound).map SrdWr.read
            rw [at_] at back
            exact List.perm_append_comm.trans back
          · rw [Option.toList_some, mine, List.length_eraseIdx_of_lt bound]
            show 1 + (s.inflight.length - 1) = s.inflight.length
            omega
          · intro found_ read status' bytes' complete
            cases List.mem_singleton.mp complete
            rw [Option.toList_some, mine] at found_
            by_contra bad
            simp [wcFailed, bad] at found_

theorem deliverAll_polled {tag : Nat} (tagged : Tagged tag s) {ds : List Delivery}
    {cqes : List AetherCqeSnapshot} (ran : deliverAll ds s = some (cqes, s', es)) :
    Polled tag s s' cqes es := by
  induction ds generalizing s cqes es with
  | nil =>
      obtain ⟨rfl, rfl, rfl⟩ := Logged.pure_ran.mp ran
      exact ⟨Reaped.refl s, rfl, rfl, nofun, Nat.zero_add _, fun _ => nofun⟩
  | cons d ds ih =>
      obtain ⟨cqe, mid, es₁, _, first, rest, rfl⟩ := Logged.bind_ran ran
      obtain ⟨cqes', mid', es₂, _, others, last, rfl⟩ := Logged.bind_ran rest
      obtain ⟨rfl, rfl, rfl⟩ := Logged.pure_ran.mp last
      have one := deliver_polled tagged first
      have more := ih (tagged.reaped one.reaped) others
      rw [List.append_nil]
      have split : ownOf tag (cqe.toList ++ cqes') = ownOf tag cqe.toList ++ ownOf tag cqes' :=
        List.filter_append _ _
      refine ⟨one.reaped.trans more.reaped, more.failed.trans one.failed,
        more.poisoned.trans one.poisoned, ?_, ?_, fun none_ read status bytes mem => ?_⟩
      · exact fun mem => (List.mem_append.mp mem).elim one.calm more.calm
      · rw [split, List.length_append, ← one.count, ← more.count, Nat.add_assoc]
      · rw [split, List.findSome?_append, Option.or_eq_none_iff] at none_
        rcases List.mem_append.mp mem with mem | mem
        · exact one.good none_.1 read status bytes mem
        · exact more.good none_.2 read status bytes mem

/-- How a drain ends: with nothing in flight unless the client is poisoned, and well only when
every completion was good. -/
structure Drained (s s' : SrdFeatureClient) (es : List SrdEvent) (ok : Prop) : Prop where
  reaped : Reaped s s' es
  empty : s'.poisoned = false → s'.inflight = []
  poisoned : s'.poisoned = true → s'.failed = true
  failed : s'.failed = true ↔ s.failed = true ∨ .failed ∈ es
  good : ok → s'.failed = s.failed ∧ s'.poisoned = s.poisoned ∧
    ∀ read status bytes, .complete read status bytes ∈ es → status = ibvWcSuccess

theorem Polled.drained {tag : Nat} {cqes : List AetherCqeSnapshot} {ok : Prop}
    (h : Polled tag s s' cqes es) (h' : Drained s' s'' es' ok)
    (good : ok → (ownOf tag cqes).findSome? wcFailed = none) : Drained s s'' (es ++ es') ok where
  reaped := h.reaped.trans h'.reaped
  empty := h'.empty
  poisoned := h'.poisoned
  failed := by
    rw [h'.failed, h.failed, List.mem_append]
    exact or_congr_right ⟨.inr, fun mem => mem.resolve_left h.calm⟩
  good := fun well => by
    obtain ⟨failed, poisoned, all⟩ := h'.good well
    refine ⟨failed.trans h.failed, poisoned.trans h.poisoned, fun read status bytes mem => ?_⟩
    rcases List.mem_append.mp mem with mem | mem
    · exact h.good (good well) read status bytes mem
    · exact all read status bytes mem

theorem reaped_giveUp (s : SrdFeatureClient) (poisoned : Bool) :
    Reaped s { s with failed := true, poisoned := poisoned } [.failed] where
  link := rfl
  generation := rfl
  left := List.Sublist.refl _
  custody := .of_eq (List.append_nil _)
  dst := rfl
  quiet := fun _ mem => nomatch List.mem_singleton.mp mem

/-- A drain that goes on once the client is given up. -/
theorem Drained.gaveUp {ok : Prop} {poisoned : Bool}
    (h : Drained { s with failed := true, poisoned := poisoned } s' es ok) (bad : ¬ok) :
    Drained s s' (.failed :: es) ok where
  reaped := (reaped_giveUp s poisoned).trans h.reaped
  empty := h.empty
  poisoned := h.poisoned
  failed := iff_of_true (h.failed.mpr (.inl rfl)) (.inr List.mem_cons_self)
  good := fun well => absurd well bad

theorem drained_eq_ok {firstErr : Option Failure} (ok : drained firstErr = .ok ()) :
    firstErr = none := by
  cases firstErr with
  | none => rfl
  | some e => cases ok

theorem drained_done (firstErr : Option Failure) (none_ : s.inflight = [])
    (healthy : s.poisoned = false) : Drained s s [] (drained firstErr = .ok ()) where
  reaped := Reaped.refl s
  empty := fun _ => none_
  poisoned := fun bad => nomatch healthy.symm.trans bad
  failed := ⟨.inl, fun h => h.resolve_right nofun⟩
  good := fun _ => ⟨rfl, rfl, nofun⟩

/-- The post's READs not yet reaped are those in flight; once forced, the client has failed. -/
theorem drainLoop_drained {posted tag : Nat} {turns : List PollTurn} {reaped : Nat}
    {firstErr : Option Failure} {forced : Bool} {result : Except Failure Unit}
    (tagged : Tagged tag s) (count : reaped + s.inflight.length = posted)
    (healthy : s.poisoned = false) (flushed : forced = true → s.failed = true)
    (ran : drainLoop posted tag turns reaped firstErr forced s = some (result, s', es)) :
    Drained s s' es (result = .ok ()) ∧ (result = .ok () → firstErr = none) := by
  induction turns generalizing s reaped firstErr forced es with
  | nil =>
      unfold drainLoop at ran
      split_ifs at ran with all
      cases ran
      exact ⟨drained_done _ (List.eq_nil_of_length_eq_zero (by omega)) healthy, drained_eq_ok⟩
  | cons turn turns ih =>
      unfold drainLoop at ran
      by_cases all : posted ≤ reaped
      · rw [if_pos all] at ran
        obtain ⟨rfl, rfl, rfl⟩ := Logged.pure_ran.mp ran
        exact ⟨drained_done _ (List.eq_nil_of_length_eq_zero (by omega)) healthy, drained_eq_ok⟩
      rw [if_neg all] at ran
      cases answer : turn.answer with
      | error e =>
          rw [answer] at ran
          obtain ⟨_, mid, es₁, _, gave, last, rfl⟩ := Logged.bind_ran ran
          obtain ⟨rfl, rfl, rfl⟩ := Logged.pure_ran.mp last
          cases gave
          refine ⟨⟨reaped_giveUp s _, ?_, fun _ => rfl, ?_, nofun⟩, nofun⟩
          · exact fun clean => absurd clean (by simp)
          · exact iff_of_true rfl (.inr List.mem_cons_self)
      | ok deliveries =>
          rw [answer] at ran
          obtain ⟨cqes, mid, es₁, es₂, polled, rest, rfl⟩ := Logged.bind_ran ran
          have poll := deliverAll_polled tagged polled
          have tagged' := tagged.reaped poll.reaped
          have count' : reaped + (ownOf tag cqes).length + mid.inflight.length = posted := by
            rw [← count, ← poll.count, Nat.add_assoc]
          have healthy' : mid.poisoned = false := poll.poisoned.trans healthy
          have both : firstErr.or ((ownOf tag cqes).findSome? wcFailed) = none →
              firstErr = none ∧ (ownOf tag cqes).findSome? wcFailed = none :=
            Option.or_eq_none_iff.mp
          by_cases stalled : (cqes.isEmpty && turn.late) = true
          · simp only [if_pos stalled] at rest
            cases forced with
            | true =>
                obtain ⟨_, end_, es₃, _, gave, last, rfl⟩ := Logged.bind_ran rest
                obtain ⟨rfl, rfl, rfl⟩ := Logged.pure_ran.mp last
                cases gave
                have still : Reaped mid { mid with poisoned := true } [] :=
                  ⟨rfl, rfl, List.Sublist.refl _, .of_eq (List.append_nil _), rfl, nofun⟩
                refine ⟨poll.drained ⟨still, nofun, fun _ => poll.failed.trans (flushed rfl), ?_,
                  nofun⟩ nofun, nofun⟩
                exact ⟨.inl, fun h => h.resolve_right nofun⟩
            | false =>
                obtain ⟨_, end_, es₃, es₄, gave, last, rfl⟩ := Logged.bind_ran rest
                cases gave
                obtain ⟨later, good⟩ := ih (s := { mid with
                    failed := true
                    poisoned := mid.poisoned || false })
                  tagged' count' ((Bool.or_false _).trans healthy') (fun _ => rfl) last
                have bad : ¬result = .ok () := fun ok => by
                  have none_ := Option.or_eq_none_iff.mp (good ok)
                  exact nomatch none_.2
                exact ⟨poll.drained (later.gaveUp bad) fun ok => absurd ok bad,
                  fun ok => absurd ok bad⟩
          · simp only [if_neg stalled] at rest
            obtain ⟨later, good⟩ := ih tagged' count' healthy'
              (fun was => poll.failed.trans (flushed was)) rest
            exact ⟨poll.drained later fun ok => (both (good ok)).2, fun ok => (both (good ok)).1⟩

theorem drain_drained {result : Except Failure Unit} (tagged : Tagged s.generation s)
    (healthy : s.poisoned = false) (ran : drain s.inflight.length s = some (result, s', es)) :
    Drained s s' es (result = .ok ()) := by
  unfold drain at ran
  split_ifs at ran with none_
  · cases ran
    exact drained_done none (List.eq_nil_of_length_eq_zero none_) healthy
  · obtain ⟨⟨⟨link, generation, left, custody, dst, quiet⟩, empty, poisoned, failed, good⟩, _⟩ :=
      drainLoop_drained (s := { s with drains := s.drains + 1 }) tagged (Nat.zero_add _) healthy
        (by nofun) ran
    exact ⟨⟨link, generation, left, custody, dst, quiet⟩, empty, poisoned, failed, good⟩

end Reap

section Post

variable {s s' : SrdFeatureClient} {es : List SrdEvent} {remote rows : List Nat} {snap : RdmaSnapshot}

/-- A post on a client with nothing in flight puts a prefix of the rows' READs there. -/
structure Posted (remote rows : List Nat) (snap : RdmaSnapshot) (s s' : SrdFeatureClient)
    (es : List SrdEvent) (posted : Nat) (err : Option Failure) : Prop where
  link : s'.link = s.link
  dst : s'.dst = s.dst
  failed : s'.failed = s.failed
  poisoned : s'.poisoned = s.poisoned
  reads : s'.inflight.map SrdWr.read = (rows.take posted).map (s.readOf remote snap)
  tagged : Tagged s'.generation s'
  count : posted = s'.inflight.length
  posts : ∀ e ∈ es, ∃ reads, e = .post reads
  custody : s'.inflight.map SrdWr.read = postedReads es
  whole : err = none → rows.take posted = rows

theorem acceptedOf_le (refusal : Option (Nat × Int)) (count : Nat) :
    (acceptedOf refusal count).1 ≤ count ∧
      ((acceptedOf refusal count).2 = none → (acceptedOf refusal count).1 = count) := by
  unfold acceptedOf
  split
  · split_ifs with short
    · exact ⟨Nat.le_of_lt short, nofun⟩
    · exact ⟨Nat.le_refl _, fun _ => rfl⟩
  · exact ⟨Nat.le_refl _, fun _ => rfl⟩

theorem requests_read (base : Nat) (reads : List AetherSrdRead) :
    (requests base reads).map SrdWr.read = reads := by
  refine List.ext_getElem (by simp [requests]) fun i _ _ => ?_
  simp [requests]

theorem requests_tag {generation : Nat} {reads : List AetherSrdRead} (few : reads.length < 2 ^ 32)
    {wr : SrdWr} (mem : wr ∈ requests (generation * 2 ^ 32) reads) :
    wr.wrId / 2 ^ 32 = generation := by
  obtain ⟨i, bound, rfl⟩ := List.mem_mapIdx.mp mem
  show (generation * 2 ^ 32 + i) / 2 ^ 32 = generation
  omega

theorem postSnapshot_posted {posted : Nat} {err : Option Failure} (none_ : s.inflight = [])
    (few : rows.length < 2 ^ 32)
    (ran : postSnapshot remote rows snap s = some ((posted, err), s', es)) :
    Posted remote rows snap s s' es posted err := by
  unfold postSnapshot at ran
  split_ifs at ran with empty
  · obtain rfl := List.isEmpty_iff.mp empty
    cases ran
    exact ⟨rfl, rfl, rfl, rfl, by rw [none_]; rfl, ⟨rfl, by rw [none_]; nofun⟩, by rw [none_]; rfl,
      nofun, by rw [none_]; rfl, fun _ => rfl⟩
  · have length : (rows.map (s.readOf remote snap)).length = rows.length := List.length_map _
    obtain ⟨bound, whole⟩ := acceptedOf_le (s.link.refusals s.posts) rows.length
    simp only [length] at ran
    generalize acceptedOf (s.link.refusals s.posts) rows.length = accepted at ran bound whole
    cases ran
    dsimp only at bound whole
    have read := requests_read (nextWrGeneration s.generation * 2 ^ 32)
      (rows.map (s.readOf remote snap))
    have wide := congrArg List.length read
    rw [List.length_map, length] at wide
    refine ⟨rfl, rfl, rfl, rfl, ?_, ⟨rfl, fun wr mem => ?_⟩, ?_, fun e mem =>
      ⟨_, List.mem_singleton.mp mem⟩, ?_, fun ok => ?_⟩
    · show (s.inflight ++ _).map _ = _
      rw [none_, List.nil_append, List.map_take, read, List.map_take]
    · have mem : wr ∈ s.inflight ++ _ := mem
      rw [none_, List.nil_append] at mem
      exact requests_tag (by rw [length]; exact few) (List.mem_of_mem_take mem)
    · show _ = (s.inflight ++ _).length
      rw [none_, List.nil_append, List.length_take, wide]
      exact (Nat.min_eq_left bound).symm
    · show (s.inflight ++ _).map _ = _ ++ []
      rw [none_, List.nil_append, List.map_take, read, List.append_nil]
    · rw [whole ok, List.take_length]

end Post

section Slots

variable {s s' : SrdFeatureClient} {es : List SrdEvent} {remote rows : List Nat} {snap : RdmaSnapshot}

theorem liveLen_le (s : SrdFeatureClient) : s.link.table.geometry.liveLen ≤ s.stride := by
  obtain ⟨_, _, _, _, short, _, _, _, _, eq⟩ := RemoteTable.parse_ok s.link.parsed
  unfold stride
  rw [eq]
  exact (Nat.mod_le _ _).trans short

/-- Different slots of the two regions do not overlap. -/
theorem slots_apart (s : SrdFeatureClient) {snap snap' : RdmaSnapshot} {i j : Nat}
    (hi : i < s.link.maxInflight) (hj : j < s.link.maxInflight) (apart : ¬(snap' = snap ∧ j = i))
    {o : Nat} (inside : o < s.stride) :
    s.regionOffset snap' + i * s.stride + o < s.regionOffset snap + j * s.stride ∨
      s.regionOffset snap + j * s.stride + s.link.table.geometry.liveLen ≤
        s.regionOffset snap' + i * s.stride + o := by
  have live := s.liveLen_le
  have ordered : ∀ a b : Nat, a < b → a * s.stride + s.stride ≤ b * s.stride := fun a b lt => by
    rw [← Nat.succ_mul]
    exact Nat.mul_le_mul_right _ lt
  have place : ∀ (snap : RdmaSnapshot) (i : Nat),
    ∃ k, s.regionOffset snap + i * s.stride = k * s.stride ∧
      k = (if snap = .first then 0 else s.link.maxInflight) + i := by
    intro snap i
    cases snap with
    | first => exact ⟨_, by rw [if_pos rfl, regionOffset, Nat.add_mul, Nat.zero_mul], rfl⟩
    | second => exact ⟨_, by rw [if_neg (by simp), regionOffset, Nat.add_mul], rfl⟩
  obtain ⟨k, atK, eqK⟩ := place snap' i
  obtain ⟨l, atL, eqL⟩ := place snap j
  rw [atK, atL]
  have other : k ≠ l := by
    intro same
    cases snap <;> cases snap' <;> simp only [reduceCtorEq, false_and, not_false_eq_true,
      true_and, if_true, if_false] at apart eqK eqL <;> omega
  rcases Nat.lt_or_gt_of_ne other with before | after
  · have := ordered k l before
    omega
  · have := ordered l k after
    omega

theorem readOf_localAddr (s : SrdFeatureClient) (remote : List Nat) (snap : RdmaSnapshot) (i : Nat) :
    (s.readOf remote snap i).localAddr - s.link.dstAddr = s.regionOffset snap + i * s.stride := by
  unfold readOf regionPtr
  dsimp only
  omega

theorem readOf_inj (positive : 0 < s.stride) {i j : Nat}
    (same : s.readOf remote snap i = s.readOf remote snap j) : i = j := by
  have addrs := congrArg AetherSrdRead.localAddr same
  unfold readOf at addrs
  exact Nat.eq_of_mul_eq_mul_right positive (Nat.add_left_cancel addrs)

/-- A slot of the buffer `dst` that READs of `rows` have landed in: as it was in `s` when its own
READ did not complete, else what that READ brought. -/
def SlotAfter (s : SrdFeatureClient) (remote rows : List Nat) (snap snap' : RdmaSnapshot) (i : Nat)
    (dst : SlotBytes) (es : List SrdEvent) : Prop :=
  ((∀ o < s.stride, dst (s.regionOffset snap' + i * s.stride + o) = s.slot snap' i o) ∧
      (0 < s.stride → snap' = snap →
        ∀ status bytes, .complete (s.readOf remote snap i) status bytes ∉ es)) ∨
    snap' = snap ∧ i ∈ rows ∧ ∃ status bytes,
      .complete (s.readOf remote snap i) status bytes ∈ es ∧
      ∀ o < s.link.table.geometry.liveLen,
        dst (s.regionOffset snap' + i * s.stride + o) = bytes o

/-- An event that leaves the slot alone. -/
theorem SlotAfter.keep {snap' : RdmaSnapshot} {i : Nat} {dst dst' : SlotBytes} {e : SrdEvent}
    (h : SlotAfter s remote rows snap snap' i dst es)
    (same : ∀ o < s.stride, dst' (s.regionOffset snap' + i * s.stride + o) =
      dst (s.regionOffset snap' + i * s.stride + o))
    (other : 0 < s.stride → snap' = snap →
      ∀ status bytes, e ≠ .complete (s.readOf remote snap i) status bytes) :
    SlotAfter s remote rows snap snap' i dst' (es ++ [e]) := by
  rcases h with ⟨unchanged, none_⟩ | ⟨region, row, status, bytes, mem, landed⟩
  · refine .inl ⟨fun o lt => (same o lt).trans (unchanged o lt),
      fun positive region status bytes mem => ?_⟩
    rcases List.mem_append.mp mem with mem | last
    · exact none_ positive region status bytes mem
    · exact other positive region status bytes (List.mem_singleton.mp last).symm
  · exact .inr ⟨region, row, status, bytes, List.mem_append_left _ mem,
      fun o lt => (same o (Nat.lt_of_lt_of_le lt s.liveLen_le)).trans (landed o lt)⟩

theorem slot_landed (own : ∀ read status bytes, .complete read status bytes ∈ es →
      ∃ j ∈ rows, s.readOf remote snap j = read)
    (inside : ∀ j ∈ rows, j < s.link.maxInflight) (snap' : RdmaSnapshot) {i : Nat}
    (hi : i < s.link.maxInflight) :
    SlotAfter s remote rows snap snap' i (es.foldl (landing s.link.dstAddr) s.dst) es := by
  induction es using List.reverseRecOn with
  | nil => exact .inl ⟨fun _ _ => rfl, fun _ _ _ _ => nofun⟩
  | append_singleton es e ih =>
      have before := ih fun read status bytes mem =>
        own read status bytes (List.mem_append_left _ mem)
      rw [List.foldl_append]
      generalize es.foldl (landing s.link.dstAddr) s.dst = dst at before ⊢
      cases e with
      | post reads => exact before.keep (fun _ _ => rfl) fun _ _ _ _ => nofun
      | failed => exact before.keep (fun _ _ => rfl) fun _ _ _ _ => nofun
      | complete read status bytes =>
          obtain ⟨j, row, rfl⟩ := own read status bytes
            (List.mem_append_right _ List.mem_cons_self)
          have start := s.readOf_localAddr remote snap j
          by_cases mine : snap' = snap ∧ j = i
          · obtain ⟨rfl, rfl⟩ := mine
            refine .inr ⟨rfl, row, status, bytes, List.mem_append_right _ List.mem_cons_self,
              fun o lt => ?_⟩
            show (if _ then _ else _) = _
            rw [start, if_pos ⟨Nat.le_add_right _ _, Nat.add_lt_add_left lt _⟩,
              Nat.add_sub_cancel_left]
          · refine before.keep (fun o lt => ?_)
              fun positive region status' bytes' eq => mine ⟨region, ?_⟩
            · show (if _ then _ else _) = _
              rw [start, if_neg]
              have apart := s.slots_apart hi (inside j row) mine lt
              show ¬(_ ∧ _ < _ + s.link.table.geometry.liveLen)
              omega
            · exact s.readOf_inj positive (SrdEvent.complete.inj eq).1

end Slots

section Phase

variable {s s' posted : SrdFeatureClient} {es es' : List SrdEvent} {remote rows : List Nat}
  {snap : RdmaSnapshot}

/-- A client that may post. -/
structure Clean (s : SrdFeatureClient) : Prop where
  failed : s.failed = false
  poisoned : s.poisoned = false
  empty : s.inflight = []

/-- Rows of a batch that fits the staging regions. -/
structure Fits (s : SrdFeatureClient) (rows : List Nat) : Prop where
  few : rows.length ≤ s.link.maxInflight
  inside : ∀ i ∈ rows, i < s.link.maxInflight

/-- A snapshot of `rows` that went well: each row's slot holds what its READ brought, the other
slots are as they were. -/
structure Fetched (remote rows : List Nat) (snap : RdmaSnapshot) (s s' : SrdFeatureClient)
    (es : List SrdEvent) : Prop where
  link : s'.link = s.link
  clean : Clean s'
  got : 0 < s.stride → ∀ i ∈ rows, ∃ bytes,
    .complete (s.readOf remote snap i) ibvWcSuccess bytes ∈ es ∧
      ∀ o < s.link.table.geometry.liveLen, s'.slot snap i o = bytes o
  kept : ∀ snap' i, i < s.link.maxInflight → snap' ≠ snap ∨ i ∉ rows →
    ∀ o < s.stride, s'.slot snap' i o = s.slot snap' i o

theorem Fetched.mono (h : Fetched remote rows snap s s' es) (sub : es ⊆ es') :
    Fetched remote rows snap s s' es' where
  link := h.link
  clean := h.clean
  got := fun positive i row => by
    obtain ⟨bytes, mem, landed⟩ := h.got positive i row
    exact ⟨bytes, sub mem, landed⟩
  kept := h.kept

theorem Fits.small (fits : Fits s rows) : rows.length < 2 ^ 32 :=
  Nat.lt_of_le_of_lt fits.few s.link.narrow

theorem Posted.fetched {count : Nat} (h : Posted remote rows snap s posted es count none)
    {ok : Prop} (h' : Drained posted s' es' ok) (well : ok) (clean : Clean s) (fits : Fits s rows) :
    Fetched remote rows snap s s' es' := by
  obtain ⟨failed, poisoned, good⟩ := h'.good well
  have healthy : s'.poisoned = false := poisoned.trans (h.poisoned.trans clean.poisoned)
  have link : s'.link = s.link := h'.reaped.link.trans h.link
  have none_ := h'.empty healthy
  have reads := h.reads
  rw [h.whole rfl] at reads
  have own : ∀ read status bytes, .complete read status bytes ∈ es' →
      ∃ j ∈ rows, s.readOf remote snap j = read := fun read status bytes mem => by
    have among := h'.reaped.own mem
    rw [reads] at among
    exact List.mem_map.mp among
  have dst := h'.reaped.dst
  rw [h.link, h.dst] at dst
  have slot : ∀ snap' i o, s'.slot snap' i o =
      s'.dst (s.regionOffset snap' + i * s.stride + o) := fun snap' i o => by
    unfold SrdFeatureClient.slot regionOffset stride
    rw [link]
  have after : ∀ snap' i, i < s.link.maxInflight →
      SlotAfter s remote rows snap snap' i s'.dst es' := fun snap' i hi => by
    rw [dst]
    exact slot_landed own fits.inside snap' hi
  refine ⟨link, ⟨failed.trans (h.failed.trans clean.failed), healthy, none_⟩, ?_, ?_⟩
  · intro positive i row
    have among : s.readOf remote snap i ∈ posted.inflight.map SrdWr.read := by
      rw [reads]
      exact List.mem_map_of_mem row
    obtain ⟨status, bytes, mem⟩ := h'.reaped.covered none_ among
    rcases after snap i (fits.inside i row) with ⟨_, absent⟩ | ⟨_, _, status', bytes', mem', landed⟩
    · exact absurd mem (absent positive rfl status bytes)
    · obtain rfl := good _ _ _ mem'
      exact ⟨bytes', mem', fun o lt => (slot snap i o).trans (landed o lt)⟩
  · intro snap' i hi other o lt
    rw [slot]
    rcases after snap' i hi with ⟨unchanged, _⟩ | ⟨region, row, _⟩
    · exact unchanged o lt
    · exact absurd row (other.resolve_left fun ne => ne region)

/-- Between gathers: nothing is in flight unless the client is poisoned, and then it has failed. -/
structure Settled (s : SrdFeatureClient) : Prop where
  empty : s.poisoned = false → s.inflight = []
  poisoned : s.poisoned = true → s.failed = true

theorem Settled.clean (h : Settled s) (healthy : s.failed = false) : Clean s where
  failed := healthy
  poisoned := by
    by_contra bad
    have failed := h.poisoned ((Bool.not_eq_false _).mp bad)
    exact nomatch healthy.symm.trans failed
  empty := h.empty (by
    by_contra bad
    have failed := h.poisoned ((Bool.not_eq_false _).mp bad)
    exact nomatch healthy.symm.trans failed)

theorem Settled.empty_of_healthy (h : Settled s) (healthy : s.failed ≠ true) : s.inflight = [] :=
  (h.clean (Bool.eq_false_iff.mpr healthy)).empty

theorem Clean.settled (h : Clean s) : Settled s :=
  ⟨fun _ => h.empty, fun bad => nomatch h.poisoned.symm.trans bad⟩

/-- After the events the READs in flight are those accepted and not completed. -/
def Custody (s : SrdFeatureClient) (es : List SrdEvent) : Prop :=
  (s.inflight.map SrdWr.read ++ completedReads es).Perm (postedReads es)

theorem Custody.completed (h : Custody s es) (none_ : s.inflight = []) :
    (completedReads es).Perm (postedReads es) := by
  have all := h
  unfold Custody at all
  rwa [none_] at all

theorem Custody.append (h : Custody s es) (none_ : s.inflight = []) (h' : Custody s' es') :
    Custody s' (es ++ es') := by
  unfold Custody
  rw [completedReads_append, postedReads_append]
  have front : (s'.inflight.map SrdWr.read ++ (completedReads es ++ completedReads es')).Perm
      (completedReads es ++ (s'.inflight.map SrdWr.read ++ completedReads es')) := by
    rw [← List.append_assoc, ← List.append_assoc]
    exact List.perm_append_comm.append_right _
  exact front.trans ((h.completed none_).append h')

theorem Posted.custody_drained {count : Nat} {err : Option Failure} {ok : Prop}
    (h : Posted remote rows snap s posted es count err) (h' : Drained posted s' es' ok) :
    Custody s' (es ++ es') := by
  have none_ : completedReads es = [] := List.filterMap_eq_nil_iff.mpr fun e mem => by
    obtain ⟨reads, rfl⟩ := h.posts e mem
    rfl
  unfold Custody
  rw [completedReads_append, postedReads_append, none_, postedReads_eq_nil h'.reaped.quiet,
    List.append_nil, List.nil_append, ← h.custody]
  exact h'.reaped.custody

theorem Clean.custody (h : Clean s) : Custody s [] := by
  unfold Custody
  rw [h.empty]
  exact .nil

/-- One snapshot: the events of the post, then those of the drain. -/
structure Phase (remote rows : List Nat) (snap : RdmaSnapshot) (s s' : SrdFeatureClient)
    (es es' : List SrdEvent) (ok : Prop) : Prop where
  link : s'.link = s.link
  settled : Settled s'
  failed : s'.failed = true ↔ .failed ∈ es'
  posts : ∀ e ∈ es, ∃ reads, e = .post reads
  quiet : ∀ reads, .post reads ∉ es'
  custody : Custody s' (es ++ es')
  fetched : ok → Fetched remote rows snap s s' es'

theorem phase_ran {count : Nat} {err : Option Failure} {result : Except Failure Unit}
    (clean : Clean s) (fits : Fits s rows)
    (post : postSnapshot remote rows snap s = some ((count, err), posted, es))
    (drained : drain count posted = some (result, s', es')) :
    Phase remote rows snap s s' es es' (err = none ∧ result = .ok ()) := by
  have given := postSnapshot_posted clean.empty fits.small post
  rw [given.count] at drained
  have left := drain_drained given.tagged (given.poisoned.trans clean.poisoned) drained
  refine ⟨left.reaped.link.trans given.link, ⟨left.empty, left.poisoned⟩, ?_, given.posts,
    left.reaped.quiet, given.custody_drained left, ?_⟩
  · rw [left.failed, given.failed, clean.failed]
    exact or_iff_right nofun
  · rintro ⟨rfl, well⟩
    exact given.fetched left well clean fits

end Phase

section Accept

variable {s s' : SrdFeatureClient} {es : List SrdEvent} {remote rows : List Nat}

/-- The rule reads a slot up to the end of its tail version. -/
theorem acceptSlots_congr {a a' b b' : SlotBytes} {dim : Nat}
    (first : ∀ o < featureSlotTailOffset dim + 8, a o = a' o)
    (second : ∀ o < featureSlotTailOffset dim + 8, b o = b' o) :
    acceptSlots a b dim = acceptSlots a' b' dim := by
  have tail : featureSlotHeadBytes + dim * 4 ≤ featureSlotTailOffset dim := by
    unfold featureSlotTailOffset
    dsimp only
    split_ifs <;> omega
  have payload : ∀ {c c' : SlotBytes}, (∀ o < featureSlotTailOffset dim + 8, c o = c' o) →
      payloadBytes c dim = payloadBytes c' dim := fun same =>
    List.map_congr_left fun i mem => same _ (by have := List.mem_range.mp mem; omega)
  have word : ∀ {c c' : SlotBytes} {at_ : Nat}, at_ + 8 ≤ featureSlotTailOffset dim + 8 →
      (∀ o < featureSlotTailOffset dim + 8, c o = c' o) → readLe c at_ 8 = readLe c' at_ 8 :=
    fun inside same => readLe_inj.mpr fun i lt => same _ (by omega)
  unfold acceptSlots
  rw [payload first, payload second, word (by omega) first, word (by omega) first,
    word (by omega) second, word (by omega) second]

/-- A row that `torn_rows` leaves out: its slots are accepted, and a READ covers all that the rule
reads of them. -/
theorem tornRows_accepts {torn : List Nat} (ran : s.tornRows rows = some torn) {i : Nat}
    (row : i ∈ rows) (whole : i ∉ torn) :
    0 < s.stride ∧ s.link.table.geometry.liveLen =
        featureSlotTailOffset s.link.table.geometry.featureDim + 8 ∧
      acceptSlots (s.slot .first i) (s.slot .second i) s.link.table.geometry.featureDim = true := by
  unfold tornRows at ran
  split_ifs at ran with none_ short
  · rw [List.isEmpty_iff.mp none_] at row
    cases row
  · obtain rfl := Option.some.inj ran
    obtain ⟨_, _, _, _, _, _, indexed, tail, _, table⟩ := RemoteTable.parse_ok s.link.parsed
    have geometry := congrArg RemoteTable.geometry table
    have tail' : s.link.table.geometry.tailOffset =
        featureSlotTailOffset s.link.table.geometry.featureDim := by
      rw [← featureTailOffset_eq, geometry, featureTailOffset, featureSlotHeadBytes, tail]
      dsimp only
      omega
    have wide : s.stride = s.link.schema.slotSize := by rw [stride, geometry]
    unfold i32Max at indexed
    refine ⟨by omega, ?_, ?_⟩
    · rw [SlotGeometry.liveLen, tail']
      omega
    · have accepted : acceptSlots (fun o => s.dst (i * s.stride + o))
          (fun o => s.dst (s.regionOffset .second + (i * s.stride + o)))
          s.link.table.geometry.featureDim = true := by
        by_contra refused
        refine whole (List.mem_filter.mpr ⟨row, ?_⟩)
        rw [tornRow_eq, Bool.not_eq_true']
        exact Bool.not_eq_true _ ▸ refused
      have place : s.slot .first i = fun o => s.dst (i * s.stride + o) := funext fun o => by
        unfold slot regionOffset
        rw [Nat.zero_add]
      have place' : s.slot .second i =
          fun o => s.dst (s.regionOffset .second + (i * s.stride + o)) := funext fun o => by
        unfold slot
        rw [Nat.add_assoc]
      rw [place, place']
      exact accepted

end Accept

section Rounds

/-- The row is the first of two accepted snapshots, both read at the address of a slot that is not
empty. -/
def PairAt (link : SrdConnection) (es : List SrdEvent) (addr : Nat) (row : SlotBytes) : Prop :=
  0 < link.table.geometry.stride ∧ ∃ read read' first second,
    read.remoteAddr = addr ∧ read'.remoteAddr = addr ∧
    .complete read ibvWcSuccess first ∈ es ∧ .complete read' ibvWcSuccess second ∈ es ∧
    acceptSlots first second link.table.geometry.featureDim = true ∧
    ∀ o < link.table.geometry.liveLen, row o = first o

theorem PairAt.keep {link : SrdConnection} {es es' : List SrdEvent} {addr : Nat}
    {row row' : SlotBytes} (h : PairAt link es addr row) (sub : es ⊆ es')
    (same : ∀ o < link.table.geometry.liveLen, row' o = row o) : PairAt link es' addr row' := by
  obtain ⟨positive, read, read', first, second, at_, at', mem, mem', accepted, landed⟩ := h
  exact ⟨positive, read, read', first, second, at_, at', sub mem, sub mem', accepted,
    fun o lt => (same o lt).trans (landed o lt)⟩

variable {s mid s' : SrdFeatureClient} {es es' : List SrdEvent} {remote rows torn : List Nat}

theorem Fits.left (fits : Fits s rows) (ran : s.tornRows rows = some torn) : Fits s torn := by
  unfold tornRows at ran
  split_ifs at ran
  · obtain rfl := Option.some.inj ran
    exact ⟨Nat.zero_le _, nofun⟩
  · obtain rfl := Option.some.inj ran
    exact ⟨(List.length_filter_le _ _).trans fits.few,
      fun i mem => fits.inside i (List.mem_filter.mp mem).1⟩

/-- After both snapshots, a row that is not torn is a pair, and the others' are as they were. -/
theorem Fetched.pairs (first : Fetched remote rows .first s mid es)
    (second : Fetched remote rows .second mid s' es')
    (ran : s'.tornRows rows = some torn) {seen : List SrdEvent} {total : Nat}
    (bound : total ≤ s.link.maxInflight)
    (before : ∀ i < total, i ∉ rows → PairAt s.link seen (remote.getD i 0) (s.slot .first i)) :
    ∀ i < total, i ∉ torn →
      PairAt s.link (seen ++ (es ++ es')) (remote.getD i 0) (s'.slot .first i) := by
  intro i lt whole
  have hi : i < s.link.maxInflight := Nat.lt_of_lt_of_le lt bound
  have stride' : mid.stride = s.stride := by rw [stride, stride, first.link]
  have link : s'.link = s.link := second.link.trans first.link
  by_cases row : i ∈ rows
  · obtain ⟨positive, live, accepted⟩ := tornRows_accepts ran row whole
    rw [stride, link] at positive
    rw [link] at live accepted
    obtain ⟨bytes, mem, landed⟩ := first.got positive i row
    obtain ⟨bytes', mem', landed'⟩ := second.got (stride' ▸ positive) i row
    rw [first.link] at landed'
    have kept := second.kept .first i (first.link ▸ hi) (.inl nofun)
    have still : ∀ o < s.link.table.geometry.liveLen, s'.slot .first i o = bytes o := fun o lt =>
      (kept o (Nat.lt_of_lt_of_le lt (stride' ▸ s.liveLen_le))).trans (landed o lt)
    refine ⟨positive, _, _, bytes, bytes', rfl, rfl, List.mem_append_right _ (List.mem_append_left _ mem),
      List.mem_append_right _ (List.mem_append_right _ mem'), ?_, still⟩
    rw [← accepted]
    exact acceptSlots_congr (fun o lt => (still o (live ▸ lt)).symm)
      fun o lt => (landed' o (live ▸ lt)).symm
  · refine (before i lt row).keep (List.subset_append_left _ _) fun o lt => ?_
    have inside := Nat.lt_of_lt_of_le lt s.liveLen_le
    rw [second.kept .first i (first.link ▸ hi) (.inr row) o (stride' ▸ inside)]
    exact first.kept .first i hi (.inr row) o inside

/-- A post has no failure before it. -/
def NoPostAfterFailure {ε : Type} (event : ε → SrdEvent) (before : List ε) (e : ε) : Prop :=
  (∃ reads, event e = .post reads) → ∀ e' ∈ before, event e' ≠ .failed

/-- Posts before any failure, then no post. -/
theorem postsFirst {ε : Type} {event : ε → SrdEvent} {log es es' : List ε}
    (calm : ∀ e ∈ log, event e ≠ .failed) (posts : ∀ e ∈ es, event e ≠ .failed)
    (quiet : ∀ e ∈ es', ∀ reads, event e ≠ .post reads) :
    Throughout (fun before e => NoPostAfterFailure event (log ++ before) e) (es ++ es') := by
  rintro before e after eq ⟨reads, post⟩ e' mem
  rcases List.mem_append.mp mem with mem | mem
  · exact calm e' mem
  · rcases List.append_eq_append_iff.mp eq with ⟨between, front, back⟩ | ⟨between, front, back⟩
    · exact absurd post (quiet e (back ▸ List.mem_append_right _ List.mem_cons_self) reads)
    · exact posts e' (front ▸ List.mem_append_left _ mem)

/-- How a client is after a gather's events. -/
structure Ended (s s' : SrdFeatureClient) (log es : List SrdEvent) : Prop where
  link : s'.link = s.link
  settled : Settled s'
  failed : s'.failed = true ↔ .failed ∈ es
  custody : Custody s' es
  order : Throughout (fun before e => NoPostAfterFailure id (log ++ before) e) es

theorem readSnapshot_ran {snap : RdmaSnapshot} {result : Except Failure Unit} {log : List SrdEvent}
    (clean : Clean s) (fits : Fits s rows) (calm : .failed ∉ log)
    (ran : readSnapshot remote rows snap s = some (result, s', es)) :
    Ended s s' log es ∧ (result = .ok () → Fetched remote rows snap s s' es ∧ .failed ∉ es) := by
  obtain ⟨⟨count, err⟩, posted, es₁, _, post, rest, rfl⟩ := Logged.bind_ran ran
  obtain ⟨drained, end_, es₂, _, drain, last, rfl⟩ := Logged.bind_ran rest
  obtain ⟨rfl, rfl, rfl⟩ := Logged.pure_ran.mp last
  rw [List.append_nil]
  have phase := phase_ran clean fits post drain
  have posts : .failed ∉ es₁ := fun mem => by
    obtain ⟨_, eq⟩ := phase.posts _ mem
    cases eq
  have failed : end_.failed = true ↔ .failed ∈ es₁ ++ es₂ := by
    rw [phase.failed, List.mem_append]
    exact ⟨.inr, fun mem => mem.resolve_left posts⟩
  refine ⟨⟨phase.link, phase.settled, failed, phase.custody, ?_⟩, fun ok => ?_⟩
  · exact postsFirst (fun e mem eq => calm (eq ▸ mem)) (fun e mem eq => posts (eq ▸ mem))
      fun e mem reads eq => phase.quiet reads (eq ▸ mem)
  · cases err with
    | some e => cases ok
    | none =>
        have fetched := phase.fetched ⟨rfl, ok⟩
        exact ⟨fetched.mono (List.subset_append_right _ _),
          fun mem => nomatch fetched.clean.failed.symm.trans (failed.mpr mem)⟩

theorem Ended.trans {log : List SrdEvent} (h : Ended s mid log es) (calm : .failed ∉ es)
    (h' : Ended mid s' (log ++ es) es') : Ended s s' log (es ++ es') where
  link := h'.link.trans h.link
  settled := h'.settled
  failed := by
    rw [h'.failed, List.mem_append]
    exact ⟨.inr, fun mem => mem.resolve_left calm⟩
  custody := by
    have empty := h.settled.empty_of_healthy fun bad => calm (h.failed.mp bad)
    exact h.custody.append empty h'.custody
  order := h.order.append (h'.order.imp fun before e first => by rwa [List.append_assoc] at first)

theorem Clean.ended (h : Clean s) (log : List SrdEvent) : Ended s s log [] where
  link := rfl
  settled := h.settled
  failed := by
    rw [h.failed]
    exact ⟨nofun, nofun⟩
  custody := h.custody
  order := throughout_nil

theorem rounds_ran {more total : Nat} {result : Except Failure Unit} {log : List SrdEvent}
    (seen : List SrdEvent) (clean : Clean s) (fits : Fits s rows) (calm : .failed ∉ log)
    (bound : total ≤ s.link.maxInflight)
    (pairs : ∀ i < total, i ∉ rows → PairAt s.link seen (remote.getD i 0) (s.slot .first i))
    (ran : rounds remote more rows s = some (result, s', es)) :
    Ended s s' log es ∧ (result = .ok () →
      ∀ i < total, PairAt s.link (seen ++ es) (remote.getD i 0) (s'.slot .first i)) := by
  induction more generalizing s rows log es seen with
  | zero =>
      obtain ⟨rfl, rfl, rfl⟩ := Logged.pure_ran.mp ran
      exact ⟨clean.ended log, nofun⟩
  | succ more ih =>
      obtain ⟨result₁, mid, es₁, es₂, first, rest, rfl⟩ := Logged.bind_ran ran
      obtain ⟨ended, fetched⟩ := readSnapshot_ran clean fits calm first
      cases result₁ with
      | error e =>
          obtain ⟨rfl, rfl, rfl⟩ := Logged.pure_ran.mp rest
          rw [List.append_nil]
          exact ⟨ended, nofun⟩
      | ok =>
          obtain ⟨fetched, calm₁⟩ := fetched rfl
          have fits₁ : Fits mid rows := ⟨fetched.link ▸ fits.few, fetched.link ▸ fits.inside⟩
          have calm' : .failed ∉ log ++ es₁ := fun mem => (List.mem_append.mp mem).elim calm calm₁
          obtain ⟨result₂, mid', es₃, es₄, second, rest, rfl⟩ := Logged.bind_ran rest
          obtain ⟨ended', fetched'⟩ := readSnapshot_ran fetched.clean fits₁ calm' second
          have ended := ended.trans calm₁ ended'
          cases result₂ with
          | error e =>
              obtain ⟨rfl, rfl, rfl⟩ := Logged.pure_ran.mp rest
              rw [List.append_nil]
              exact ⟨ended, nofun⟩
          | ok =>
              obtain ⟨fetched', calm₂⟩ := fetched' rfl
              obtain ⟨torn, mid'', es₅, es₆, checked, decided, rfl⟩ := Logged.bind_ran rest
              obtain ⟨torn', found, eq⟩ := Option.map_eq_some_iff.mp checked
              cases eq
              have pairs' := fetched.pairs fetched' found bound pairs
              have link := fetched'.link.trans fetched.link
              have fits₂ : Fits mid' rows := ⟨link ▸ fits.few, link ▸ fits.inside⟩
              have calm₃ : .failed ∉ es₁ ++ es₃ := fun mem =>
                (List.mem_append.mp mem).elim calm₁ calm₂
              rw [List.nil_append, ← List.append_assoc]
              by_cases none_ : torn.isEmpty = true
              · rw [if_pos none_] at decided
                obtain ⟨rfl, rfl, rfl⟩ := Logged.pure_ran.mp decided
                rw [List.append_nil]
                refine ⟨ended, fun _ i lt => pairs' i lt ?_⟩
                rw [List.isEmpty_iff.mp none_]
                exact List.not_mem_nil
              · rw [if_neg none_] at decided
                rw [← link] at pairs' bound
                obtain ⟨later, all⟩ := ih (seen ++ (es₁ ++ es₃)) fetched'.clean (fits₂.left found)
                  (fun mem => (List.mem_append.mp mem).elim calm calm₃) bound pairs' decided
                refine ⟨ended.trans calm₃ later, fun ok i lt => ?_⟩
                rw [← link, ← List.append_assoc]
                exact all ok i lt

/-- Different nodes have their slots at different addresses. -/
theorem slotAddr_inj (link : SrdConnection) (positive : 0 < link.table.geometry.stride)
    {node node' addr : Nat} (at_ : link.table.slotAddr node = .ok addr)
    (at' : link.table.slotAddr node' = .ok addr) : node' = node := by
  obtain ⟨_, _, _, _, _, _, _, _, span, table⟩ := RemoteTable.parse_ok link.parsed
  rw [table] at at_ at' positive
  unfold RemoteTable.slotAddr invalid at at_ at'
  dsimp only at at_ at' positive
  split_ifs at at_ with out
  split_ifs at at' with out'
  have inside : ∀ node < link.schema.nodeCount,
      link.baseAddr + node * link.schema.slotSize < 2 ^ 64 := fun node lt =>
    Nat.lt_of_le_of_lt (Nat.add_le_add_left (Nat.mul_le_mul_right _ (Nat.le_of_lt lt)) _) span
  have first := inside node (Nat.lt_of_not_le out)
  have second := inside node' (Nat.lt_of_not_le out')
  have same := (Except.ok.inj at').trans (Except.ok.inj at_).symm
  rw [Nat.mod_eq_of_lt (by omega : node * link.schema.slotSize < 2 ^ 64), Nat.mod_eq_of_lt first,
    Nat.mod_eq_of_lt (by omega : node' * link.schema.slotSize < 2 ^ 64),
    Nat.mod_eq_of_lt second] at same
  exact Nat.eq_of_mul_eq_mul_right positive (Nat.add_left_cancel same)

/-- The row is the accepted snapshot pair of the node, and of no other. -/
def PairOf (link : SrdConnection) (es : List SrdEvent) (node : Nat) (row : SlotBytes) : Prop :=
  ∃ addr, link.table.slotAddr node = .ok addr ∧ PairAt link es addr row ∧
    ∀ node', link.table.slotAddr node' = .ok addr → node' = node

end Rounds

section Gather

variable {s s' : SrdFeatureClient} {es log : List SrdEvent} {nodes remote : List Nat}

theorem remoteAddrs_ok (ran : s.remoteAddrs nodes = .ok remote) :
    nodes.length ≤ s.link.maxInflight ∧ remote.length = nodes.length ∧
      ∀ i node, nodes[i]? = some node → s.link.table.slotAddr node = .ok (remote.getD i 0) := by
  unfold remoteAddrs invalid at ran
  dsimp only at ran
  split_ifs at ran with many
  obtain ⟨length, each⟩ := List.forall₂_iff_get.mp (mapM_each ran)
  refine ⟨Nat.le_of_not_lt many, length.symm, fun i node at_ => ?_⟩
  obtain ⟨bound, rfl⟩ := List.getElem?_eq_some_iff.mp at_
  have bound' : i < remote.length := length ▸ bound
  rw [List.getD_eq_getElem?_getD, List.getElem?_eq_getElem bound', Option.getD_some]
  exact each i bound bound'

/-- The first rows of the first region, when each is the pair at its node's address. -/
theorem pairs_of (ran : s.remoteAddrs nodes = .ok remote)
    (pairs : ∀ i < nodes.length, PairAt s.link es (remote.getD i 0) (s'.slot .first i)) :
    List.Forall₂ (PairOf s.link es) nodes ((List.range nodes.length).map (s'.slot .first)) := by
  obtain ⟨_, _, addrs⟩ := remoteAddrs_ok ran
  refine List.forall₂_iff_get.mpr ⟨by simp, fun i bound bound' => ?_⟩
  have at_ := addrs i _ (List.getElem?_eq_getElem bound)
  have pair := pairs i bound
  have row : ((List.range nodes.length).map (s'.slot .first)).get ⟨i, bound'⟩ = s'.slot .first i := by
    simp
  rw [row]
  exact ⟨_, at_, pair, fun node' at' => slotAddr_inj s.link pair.1 at_ at'⟩

theorem fits_range {count : Nat} (bound : count ≤ s.link.maxInflight) : Fits s (List.range count) :=
  ⟨by rw [List.length_range]; exact bound,
    fun _ mem => Nat.lt_of_lt_of_le (List.mem_range.mp mem) bound⟩

/-- What is known of a client between gathers, after the events `log`. -/
structure Known (link : SrdConnection) (s : SrdFeatureClient) (log : List SrdEvent) : Prop where
  link : s.link = link
  settled : Settled s
  failed : s.failed = true ↔ .failed ∈ log
  order : Throughout (NoPostAfterFailure id) log

theorem known_connected (link : SrdConnection) : Known link (connected link) [] where
  link := rfl
  settled := ⟨fun _ => rfl, nofun⟩
  failed := ⟨nofun, nofun⟩
  order := throughout_nil

/-- What a gather leaves: no READ of it in flight unless the client is poisoned, and on success
each row its own node's. -/
structure Gathered (link : SrdConnection) (nodes : List Nat) (s : SrdFeatureClient)
    (es : List SrdEvent) (result : Except Failure Unit) : Prop where
  drained : s.poisoned = false → s.inflight = [] ∧ (completedReads es).Perm (postedReads es)
  rows : result = .ok () →
    List.Forall₂ (PairOf link es) nodes ((List.range nodes.length).map (s.slot .first))

theorem Known.refused {link : SrdConnection} (h : Known link s log) (e : Failure) :
    Gathered link nodes s [] (.error e) :=
  ⟨fun healthy => ⟨h.settled.empty healthy, .nil⟩, nofun⟩

theorem Known.gather {link : SrdConnection} {result : Except Failure Unit} (h : Known link s log)
    (ran : gather nodes s = some (result, s', es)) :
    Known link s' (log ++ es) ∧ Gathered link nodes s' es result := by
  unfold SrdFeatureClient.gather at ran
  split_ifs at ran with failed
  · cases ran
    rw [List.append_nil]
    exact ⟨h, h.refused _⟩
  · cases addrs : s.remoteAddrs nodes with
    | error e =>
        rw [addrs] at ran
        cases ran
        rw [List.append_nil]
        exact ⟨h, h.refused e⟩
    | ok remote =>
        rw [addrs] at ran
        obtain ⟨bound, _, _⟩ := remoteAddrs_ok addrs
        have clean := h.settled.clean (Bool.eq_false_iff.mpr failed)
        have calm : .failed ∉ log := fun mem => failed (h.failed.mpr mem)
        obtain ⟨ended, pairs⟩ := rounds_ran [] clean (fits_range bound) calm bound
          (fun i lt out => absurd (List.mem_range.mpr lt) out) ran
        refine ⟨⟨ended.link.trans h.link, ended.settled, ?_, h.order.append ended.order⟩,
          fun healthy => ?_, fun ok => ?_⟩
        · rw [ended.failed, List.mem_append]
          exact ⟨.inr, fun mem => mem.resolve_left calm⟩
        · have none_ := ended.settled.empty healthy
          exact ⟨none_, ended.custody.completed none_⟩
        · exact h.link ▸ pairs_of addrs (pairs ok)

theorem known_gathers {link : SrdConnection} {batches : List (List Nat)}
    {results : List (Except Failure Unit)}
    (ran : Logged.each SrdFeatureClient.gather batches (connected link) = some (results, s, log)) :
    Known link s log :=
  Logged.each_keeps (I := Known link)
    (fun _ _ _ _ _ _ known gathered => (known.gather gathered).1) (known_connected link) ran

end Gather

end SrdFeatureClient

end AetherGraph
