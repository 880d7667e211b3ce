import AetherGraph.SrdDrained

/-! The shards of a pool, post everywhere and drain everywhere: what a gather leaves behind on each,
and the rows of its result in shard order. -/

namespace AetherGraph

open Foundation SrdFeatureClient

namespace SrdShardedFeatureClient

variable {n : Nat} {s mid s' : SrdShardedFeatureClient n} {log es es' : List (Fin n × SrdEvent)}
  {remote rows : Fin n → List Nat}

section Rounds

/-- How the shards are after a gather's events. -/
structure EndedAll (s s' : SrdShardedFeatureClient n) (log es : List (Fin n × SrdEvent)) : Prop where
  link : ∀ k, (s' k).link = (s k).link
  settled : ∀ k, Settled (s' k)
  failed : ∀ k, (s' k).failed = true ↔ (k, .failed) ∈ es
  custody : ∀ k, Custody (s' k) (Logged.eventsOf k es)
  order : Throughout (fun before e => NoPostAfterFailure Prod.snd (log ++ before) e) es

theorem endedAll_refl (clean : ∀ k, Clean (s k)) (log : List (Fin n × SrdEvent)) :
    EndedAll s s log [] where
  link := fun _ => rfl
  settled := fun k => (clean k).settled
  failed := fun k => by
    rw [(clean k).failed]
    exact ⟨nofun, nofun⟩
  custody := fun k => (clean k).custody
  order := throughout_nil

theorem EndedAll.trans (h : EndedAll s mid log es) (calm : ∀ k, (k, .failed) ∉ es)
    (h' : EndedAll mid s' (log ++ es) es') : EndedAll s s' log (es ++ es') where
  link := fun k => (h'.link k).trans (h.link k)
  settled := h'.settled
  failed := fun k => by
    rw [h'.failed, List.mem_append]
    exact ⟨.inr, fun mem => mem.resolve_left (calm k)⟩
  custody := fun k => by
    rw [Logged.eventsOf_append]
    have empty := (h.settled k).empty_of_healthy fun bad => calm k ((h.failed k).mp bad)
    exact (h.custody k).append empty (h'.custody k)
  order := h.order.append (h'.order.imp fun before e first => by rwa [List.append_assoc] at first)

theorem errorOf_eq_none {result : Except Failure Unit} (none_ : errorOf result = none) :
    result = .ok () := by
  cases result with
  | error e => cases none_
  | ok => rfl

/-- Each shard has its own phase; the posts of all come before the drains of all. -/
theorem readSnapshotAll_ran {snap : RdmaSnapshot} {result : Except Failure Unit}
    (clean : ∀ k, Clean (s k)) (fits : ∀ k, Fits (s k) (rows k)) (calm : ∀ k, (k, .failed) ∉ log)
    (ran : readSnapshotAll remote rows snap s = some (result, s', es)) :
    EndedAll s s' log es ∧ (result = .ok () → ∀ k,
      Fetched (remote k) (rows k) snap (s k) (s' k) (Logged.eventsOf k es) ∧ (k, .failed) ∉ es) := by
  obtain ⟨posted, mid, es₁, _, post, rest, rfl⟩ := Logged.bind_ran ran
  obtain ⟨drained, end_, es₂, _, drain, last, rfl⟩ := Logged.bind_ran rest
  obtain ⟨rfl, rfl, rfl⟩ := Logged.pure_ran.mp last
  rw [List.append_nil]
  have posts := (Logged.onEach_ran (List.nodup_finRange n) post).1
  have drains := (Logged.onEach_ran (List.nodup_finRange n) drain).1
  have phase : ∀ k, Phase (remote k) (rows k) snap (s k) (end_ k) (Logged.eventsOf k es₁)
      (Logged.eventsOf k es₂) ((posted k).2 = none ∧ drained k = .ok ()) := fun k =>
    phase_ran (clean k) (fits k) (posts k (List.mem_finRange k)) (drains k (List.mem_finRange k))
  have quiet : ∀ e ∈ es₁, e.2 ≠ .failed := fun e mem eq => by
    obtain ⟨_, post⟩ := (phase e.1).posts e.2 (Logged.mem_eventsOf.mpr mem)
    rw [post] at eq
    cases eq
  have failed : ∀ k, (end_ k).failed = true ↔ (k, .failed) ∈ es₁ ++ es₂ := fun k => by
    rw [(phase k).failed, Logged.mem_eventsOf, List.mem_append]
    exact ⟨.inr, fun mem => mem.resolve_left fun first => quiet _ first rfl⟩
  refine ⟨⟨fun k => (phase k).link, fun k => (phase k).settled, failed, fun k => ?_, ?_⟩,
    fun ok k => ?_⟩
  · rw [Logged.eventsOf_append]
    exact (phase k).custody
  · exact postsFirst (fun e mem eq => calm e.1 (eq ▸ mem)) quiet fun e mem reads eq =>
      (phase e.1).quiet reads (Logged.mem_eventsOf.mpr (eq ▸ mem))
  · obtain ⟨noPost, noDrain⟩ := Option.or_eq_none_iff.mp (drained_eq_ok ok)
    have fetched := (phase k).fetched ⟨List.findSome?_eq_none_iff.mp noPost k (List.mem_finRange k),
      errorOf_eq_none (List.findSome?_eq_none_iff.mp noDrain k (List.mem_finRange k))⟩
    rw [Logged.eventsOf_append]
    exact ⟨fetched.mono (List.subset_append_right _ _),
      fun mem => nomatch fetched.clean.failed.symm.trans ((failed k).mpr mem)⟩

theorem tornRowsAll_some {torn : Fin n → List Nat} (ran : tornRowsAll s rows = some torn)
    (k : Fin n) : (s k).tornRows (rows k) = some (torn k) := by
  unfold tornRowsAll at ran
  split_ifs at ran with all
  obtain rfl := Option.some.inj ran
  have found := List.all_eq_true.mp all k (List.mem_finRange k)
  obtain ⟨torn, here⟩ := Option.isSome_iff_exists.mp found
  show _ = some (((s k).tornRows (rows k)).getD [])
  rw [here, Option.getD_some]

theorem rounds_ran {more : Nat} {total : Fin n → Nat} {result : Except Failure Unit}
    (seen : List (Fin n × SrdEvent)) (clean : ∀ k, Clean (s k)) (fits : ∀ k, Fits (s k) (rows k))
    (calm : ∀ k, (k, .failed) ∉ log) (bound : ∀ k, total k ≤ (s k).link.maxInflight)
    (pairs : ∀ k, ∀ i < total k, i ∉ rows k → PairAt (s k).link (Logged.eventsOf k seen)
      ((remote k).getD i 0) ((s k).slot .first i))
    (ran : rounds remote more rows s = some (result, s', es)) :
    EndedAll s s' log es ∧ (result = .ok () → ∀ k, ∀ i < total k,
      PairAt (s k).link (Logged.eventsOf k (seen ++ es)) ((remote k).getD i 0)
        ((s' k).slot .first i)) := by
  induction more generalizing s rows log es seen with
  | zero =>
      obtain ⟨rfl, rfl, rfl⟩ := Logged.pure_ran.mp ran
      exact ⟨endedAll_refl clean log, nofun⟩
  | succ more ih =>
      obtain ⟨result₁, mid, es₁, es₂, first, rest, rfl⟩ := Logged.bind_ran ran
      obtain ⟨ended, fetched⟩ := readSnapshotAll_ran clean fits calm first
      cases result₁ with
      | error e =>
          obtain ⟨rfl, rfl, rfl⟩ := Logged.pure_ran.mp rest
          rw [List.append_nil]
          exact ⟨ended, nofun⟩
      | ok =>
          have fetched := fetched rfl
          have fits₁ : ∀ k, Fits (mid k) (rows k) := fun k =>
            ⟨(fetched k).1.link ▸ (fits k).few, (fetched k).1.link ▸ (fits k).inside⟩
          have calm' : ∀ k, (k, .failed) ∉ log ++ es₁ := fun k mem =>
            (List.mem_append.mp mem).elim (calm k) (fetched k).2
          obtain ⟨result₂, mid', es₃, es₄, second, rest, rfl⟩ := Logged.bind_ran rest
          obtain ⟨ended', fetched'⟩ :=
            readSnapshotAll_ran (fun k => (fetched k).1.clean) fits₁ calm' second
          have ended := ended.trans (fun k => (fetched k).2) ended'
          cases result₂ with
          | error e =>
              obtain ⟨rfl, rfl, rfl⟩ := Logged.pure_ran.mp rest
              rw [List.append_nil]
              exact ⟨ended, nofun⟩
          | ok =>
              have fetched' := fetched' rfl
              obtain ⟨torn, mid'', es₅, es₆, checked, decided, rfl⟩ := Logged.bind_ran rest
              obtain ⟨torn', found, eq⟩ := Option.map_eq_some_iff.mp checked
              cases eq
              have found := tornRowsAll_some found
              have pairs' : ∀ k, ∀ i < total k, i ∉ torn k → PairAt (s k).link
                  (Logged.eventsOf k (seen ++ (es₁ ++ es₃))) ((remote k).getD i 0)
                  ((mid' k).slot .first i) := fun k => by
                rw [Logged.eventsOf_append, Logged.eventsOf_append]
                exact (fetched k).1.pairs (fetched' k).1 (found k) (bound k) (pairs k)
              have link : ∀ k, (mid' k).link = (s k).link := fun k =>
                (fetched' k).1.link.trans (fetched k).1.link
              have fits₂ : ∀ k, Fits (mid' k) (rows k) := fun k =>
                ⟨link k ▸ (fits k).few, link k ▸ (fits k).inside⟩
              have calm₃ : ∀ k, (k, .failed) ∉ es₁ ++ es₃ := fun k mem =>
                (List.mem_append.mp mem).elim (fetched k).2 (fetched' k).2
              rw [List.nil_append, ← List.append_assoc]
              by_cases none_ : ((List.finRange n).all fun k => (torn k).isEmpty) = true
              · rw [if_pos none_] at decided
                obtain ⟨rfl, rfl, rfl⟩ := Logged.pure_ran.mp decided
                rw [List.append_nil]
                refine ⟨ended, fun _ k i lt => pairs' k i lt ?_⟩
                rw [List.isEmpty_iff.mp (List.all_eq_true.mp none_ k (List.mem_finRange k))]
                exact List.not_mem_nil
              · rw [if_neg none_] at decided
                obtain ⟨later, all⟩ := ih (seen ++ (es₁ ++ es₃)) (fun k => (fetched' k).1.clean)
                  (fun k => (fits₂ k).left (found k))
                  (fun k mem => (List.mem_append.mp mem).elim (calm k) (calm₃ k))
                  (fun k => (link k).symm ▸ bound k)
                  (fun k => by rw [link k]; exact pairs' k) decided
                refine ⟨ended.trans calm₃ later, fun ok k i lt => ?_⟩
                rw [← link k, ← List.append_assoc]
                exact all ok k i lt

end Rounds

section Gather

variable {nodes : List Nat} {pool : SrdShards n}

/-- The slices of all shards, in shard order, are the batch. -/
theorem flatMap_slice {chunk : Nat} (enough : nodes.length ≤ n * chunk) :
    (List.finRange n).flatMap (fun k : Fin n => slice nodes chunk k.val) = nodes := by
  have upTo : ∀ m, (List.range m).flatMap (slice nodes chunk) = nodes.take (m * chunk) := by
    intro m
    induction m with
    | zero => rw [Nat.zero_mul, List.take_zero]; rfl
    | succ m ih =>
        rw [List.range_succ, List.flatMap_append, ih, List.flatMap_singleton, Nat.succ_mul,
          List.take_add]
        congr 1
        unfold slice
        rcases Nat.le_total (m * chunk) nodes.length with inside | past
        · rw [Nat.min_eq_left inside]
        · rw [Nat.min_eq_right past, List.drop_length, List.drop_eq_nil_of_le past]
  calc (List.finRange n).flatMap (fun k : Fin n => slice nodes chunk k.val)
      = ((List.finRange n).map Fin.val).flatMap (slice nodes chunk) := (List.flatMap_map ..).symm
    _ = (List.range n).flatMap (slice nodes chunk) := by rw [List.map_coe_finRange_eq_range]
    _ = nodes := by rw [upTo, List.take_of_length_le enough]

/-- The result of a gather: each shard's rows of its slice, in shard order. -/
def resultRows (s : SrdShardedFeatureClient n) (nodes : List Nat) : List SlotBytes :=
  (List.finRange n).flatMap fun k : Fin n =>
    (List.range (slice nodes ((nodes.length + n - 1) / n) k.val).length).map ((s k).slot .first)

/-- The row is the accepted snapshot pair of the node on some shard. -/
def PairOn (pool : SrdShards n) (es : List (Fin n × SrdEvent)) (node : Nat) (row : SlotBytes) :
    Prop := ∃ k, PairOf (pool.shard k) (Logged.eventsOf k es) node row

/-- What is known of the shards between gathers, after the events `log`. -/
structure KnownAll (pool : SrdShards n) (s : SrdShardedFeatureClient n)
    (log : List (Fin n × SrdEvent)) : Prop where
  link : ∀ k, (s k).link = pool.shard k
  settled : ∀ k, Settled (s k)
  failed : ∀ k, (s k).failed = true ↔ (k, .failed) ∈ log
  order : Throughout (NoPostAfterFailure Prod.snd) log

theorem knownAll_connected (pool : SrdShards n) : KnownAll pool (connected pool) [] where
  link := fun _ => rfl
  settled := fun _ => ⟨fun _ => rfl, nofun⟩
  failed := fun _ => ⟨nofun, nofun⟩
  order := throughout_nil

/-- What a gather leaves: no READ of it in flight on a shard not poisoned, and on success each row
its own node's. -/
structure GatheredAll (pool : SrdShards n) (nodes : List Nat) (s : SrdShardedFeatureClient n)
    (es : List (Fin n × SrdEvent)) (result : Except Failure Unit) : Prop where
  drained : ∀ k, (s k).poisoned = false → (s k).inflight = [] ∧
    (completedReads (Logged.eventsOf k es)).Perm (postedReads (Logged.eventsOf k es))
  rows : result = .ok () → List.Forall₂ (PairOn pool es) nodes (resultRows s nodes)

theorem KnownAll.idle (h : KnownAll pool s log)
    (rows : result = .ok () → List.Forall₂ (PairOn pool []) nodes (resultRows s nodes)) :
    GatheredAll pool nodes s [] result :=
  ⟨fun k healthy => ⟨(h.settled k).empty healthy, .nil⟩, rows⟩

theorem remoteAddrs_each {f : Fin n → Except Failure (List Nat)} {remote : List (List Nat)}
    (ran : (List.finRange n).mapM f = .ok remote) (k : Fin n) : f k = .ok (remote.getD k []) := by
  obtain ⟨length, each⟩ := List.forall₂_iff_get.mp (mapM_each ran)
  rw [List.length_finRange] at length
  have bound : k.val < remote.length := length ▸ k.isLt
  rw [List.getD_eq_getElem?_getD, List.getElem?_eq_getElem bound, Option.getD_some]
  have at_ := each k.val (by rw [List.length_finRange]; exact k.isLt) bound
  simpa using at_

theorem KnownAll.gather {result : Except Failure Unit} (h : KnownAll pool s log)
    (ran : gather pool nodes s = some (result, s', es)) :
    KnownAll pool s' (log ++ es) ∧ GatheredAll pool nodes s' es result := by
  unfold SrdShardedFeatureClient.gather at ran
  split_ifs at ran with none_
  · cases ran
    rw [List.append_nil, List.isEmpty_iff.mp none_]
    have empty : resultRows s [] = [] := List.flatMap_eq_nil_iff.mpr fun k _ => by simp [slice]
    exact ⟨h, h.idle fun _ => empty.symm ▸ .nil⟩
  cases found : (List.finRange n).find? fun k => (s k).failed with
  | some k =>
      rw [found] at ran
      cases ran
      rw [List.append_nil]
      exact ⟨h, h.idle nofun⟩
  | none =>
      rw [found] at ran
      dsimp only at ran
      split_ifs at ran with deep
      · cases ran
        rw [List.append_nil]
        exact ⟨h, h.idle nofun⟩
      cases addrs : (List.finRange n).mapM fun k : Fin n =>
          (s k).remoteAddrs (slice nodes ((nodes.length + n - 1) / n) k.val) with
      | error e =>
          rw [addrs] at ran
          cases ran
          rw [List.append_nil]
          exact ⟨h, h.idle nofun⟩
      | ok remote =>
          rw [addrs] at ran
          have each := remoteAddrs_each addrs
          have bound := fun k => (remoteAddrs_ok (each k)).1
          have healthy : ∀ k, ¬(s k).failed = true := fun k =>
            List.find?_eq_none.mp found k (List.mem_finRange k)
          have calm : ∀ k, (k, .failed) ∉ log := fun k mem => healthy k ((h.failed k).mpr mem)
          obtain ⟨ended, pairs⟩ := rounds_ran []
            (fun k => (h.settled k).clean (Bool.eq_false_iff.mpr (healthy k)))
            (fun k => fits_range (bound k)) calm bound
            (fun k i lt out => absurd (List.mem_range.mpr lt) out) ran
          refine ⟨⟨fun k => (ended.link k).trans (h.link k), ended.settled, fun k => ?_,
            h.order.append ended.order⟩, fun k clean => ?_, fun ok => ?_⟩
          · rw [ended.failed, List.mem_append]
            exact ⟨.inr, fun mem => mem.resolve_left (calm k)⟩
          · have none_ := (ended.settled k).empty clean
            exact ⟨none_, (ended.custody k).completed none_⟩
          · have enough : nodes.length ≤ n * ((nodes.length + n - 1) / n) := by
              have := Nat.lt_mul_div_succ (nodes.length + n - 1) pool.some
              rw [Nat.mul_add_one] at this
              omega
            have all : List.Forall₂ (PairOn pool es)
                ((List.finRange n).flatMap fun k : Fin n =>
                  slice nodes ((nodes.length + n - 1) / n) k.val) (resultRows s' nodes) := by
              refine List.rel_flatMap (R := Eq) (List.forall₂_refl _) ?_
              rintro k _ rfl
              exact (pairs_of (each k) (pairs ok k)).imp fun node row pair =>
                ⟨k, h.link k ▸ pair⟩
            rwa [flatMap_slice enough] at all

theorem knownAll_gathers {batches : List (List Nat)} {results : List (Except Failure Unit)}
    (ran : Logged.each (SrdShardedFeatureClient.gather pool) batches (connected pool) =
      some (results, s, log)) : KnownAll pool s log :=
  Logged.each_keeps (I := KnownAll pool)
    (fun _ _ _ _ _ _ known gathered => (known.gather gathered).1) (knownAll_connected pool) ran

/-- A table of two slots of one feature, whose READs each bring version 2. -/
def twoSlots : SrdConnection :=
  let stable : SlotBytes := fun o => if o = 0 ∨ o = 24 then 2 else 0
  { baseAddr := 4096
    rkey := 7
    schema := ⟨2, 1, 32, 16, 24⟩
    table := ⟨4096, 7, 2, ⟨1, 32, 24⟩⟩
    parsed := rfl
    maxInflight := 2
    some := by decide
    narrow := by decide
    dstAddr := 65536
    refusals := fun _ => none
    polls := fun _ => [⟨.ok [.stray 5 12 0], false⟩,
      ⟨.ok [.own 0 0 0 stable, .own 0 0 0 stable], false⟩] }

/-- Two shards of that table. -/
def twoShards : SrdShards 2 where
  maxInflightPerShard := 2
  shard := fun _ => twoSlots
  some := by decide
  depth := fun _ => rfl

theorem twoSlots_gathers : ((Logged.each SrdFeatureClient.gather [[1]]
    (SrdFeatureClient.connected twoSlots)).bind fun r =>
      (SrdFeatureClient.gather [0, 1] r.2.1).map fun r' => r'.1.isOk) = some true := by
  decide +kernel

theorem twoShards_gathers : ((Logged.each (gather twoShards) [[1]] (connected twoShards)).bind
    fun r => (gather twoShards [0, 1] r.2.1).map fun r' => r'.1.isOk) = some true := by
  decide +kernel

end Gather

end SrdShardedFeatureClient

end AetherGraph
