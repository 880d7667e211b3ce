import AetherGraph.EmbeddingCache
import AetherGraph.Foundation.ByteFormat

/-! The historical sampler over the embedding cache: prepared batches, commits that may come any
number of epochs later, and the epochs' dirty lists. A log of what happened says which commit a
served row comes from, and whether its batch was prepared since the node last turned dirty. -/

namespace AetherGraph

open Foundation EmbeddingCache

/-- A batch prepared for incremental training. -/
structure HistoricalBatch (α : Type) where
  recomputeNodes : List UInt32
  cachedNodes : List UInt32
  cachedEmbeddings : List α
deriving DecidableEq, Repr

namespace HistoricalSampler

variable {α : Type}

def prepareStep (c : EmbeddingCache α) (batch : HistoricalBatch α) (node : UInt32) :
    HistoricalBatch α :=
  match c.getIfComputed node with
  | some row => { batch with
      cachedNodes := batch.cachedNodes ++ [node]
      cachedEmbeddings := batch.cachedEmbeddings ++ row }
  | none => { batch with recomputeNodes := batch.recomputeNodes ++ [node] }

def prepareBatch (c : EmbeddingCache α) (nodes : List UInt32) : HistoricalBatch α :=
  nodes.foldl (prepareStep c) ⟨[], [], []⟩

/-- The loop of `commit_batch` from position `i` on; the flag says that it panicked there, which
leaves the rows before it written. -/
def commitFrom (c : EmbeddingCache α) (embeddings : List α) (i : Nat) :
    List UInt32 → EmbeddingCache α × Bool
  | [] => (c, false)
  | node :: nodes =>
      let start := i * c.dim
      if start + c.dim ≤ embeddings.length then
        match c.update node ((embeddings.drop start).take c.dim) with
        | some c => commitFrom c embeddings (i + 1) nodes
        | none => (c, true)
      else (c, true)

def commitBatch (c : EmbeddingCache α) (batch : HistoricalBatch α) (embeddings : List α) :
    EmbeddingCache α × Bool :=
  commitFrom c embeddings 0 batch.recomputeNodes

def advanceEpochWith (c : EmbeddingCache α) (dirty : List UInt32) : EmbeddingCache α :=
  (dirty.foldl invalidate c).advanceEpoch

section Prepare

variable (c : EmbeddingCache α)

def isCached (node : UInt32) : Bool := (c.getIfComputed node).isSome

def rowOf (node : UInt32) : List α := (c.getIfComputed node).getD []

theorem foldl_prepareStep (nodes : List UInt32) (batch : HistoricalBatch α) :
    nodes.foldl (prepareStep c) batch =
      ⟨batch.recomputeNodes ++ nodes.filter fun node => !isCached c node,
        batch.cachedNodes ++ nodes.filter (isCached c),
        batch.cachedEmbeddings ++ (nodes.filter (isCached c)).flatMap (rowOf c)⟩ := by
  induction nodes generalizing batch with
  | nil => simp
  | cons node nodes ih =>
      rw [List.foldl_cons, ih, prepareStep]
      cases found : c.getIfComputed node with
      | none =>
          have skipped : isCached c node = false := by rw [isCached, found]; rfl
          simp [skipped]
      | some row =>
          have taken : isCached c node = true := by rw [isCached, found]; rfl
          have value : rowOf c node = row := by rw [rowOf, found]; rfl
          simp [taken, value]

/-- The request splits in order into the nodes with a row in service and the others. -/
theorem prepareBatch_eq (nodes : List UInt32) :
    prepareBatch c nodes =
      ⟨nodes.filter fun node => !isCached c node, nodes.filter (isCached c),
        (nodes.filter (isCached c)).flatMap (rowOf c)⟩ := by
  rw [prepareBatch, foldl_prepareStep]
  simp only [List.nil_append]

end Prepare

section Commit

/-- The rows a commit writes before it ends or panics. -/
def reached (dim numNodes : Nat) (embeddings : List α) (i : Nat) :
    List UInt32 → List (UInt32 × List α)
  | [] => []
  | node :: nodes =>
      if i * dim + dim ≤ embeddings.length ∧ node.toNat < numNodes then
        (node, (embeddings.drop (i * dim)).take dim) ::
          reached dim numNodes embeddings (i + 1) nodes
      else []

/-- The last row written for a node. -/
def lastOf (written : List (UInt32 × List α)) (node : UInt32) : Option (List α) :=
  (written.reverse.find? fun w => w.1 == node).map Prod.snd

theorem lastOf_cons (w : UInt32 × List α) (written : List (UInt32 × List α)) (node : UInt32) :
    lastOf (w :: written) node =
      (lastOf written node).or (if node = w.1 then some w.2 else none) := by
  rw [lastOf, lastOf, List.reverse_cons, List.find?_append]
  cases found : written.reverse.find? fun w => w.1 == node with
  | some v => rfl
  | none =>
      rw [Option.none_or, List.find?_singleton, Option.map_none, Option.none_or]
      by_cases same : node = w.1
      · rw [if_pos same, if_pos (beq_iff_eq.2 same.symm)]
        rfl
      · rw [if_neg same, if_neg fun eq => same (beq_iff_eq.1 eq).symm]
        rfl

theorem commitFrom_spec {c : EmbeddingCache α} (h : Housed c) (embeddings : List α) (i : Nat)
    (nodes : List UInt32) :
    let c' := (commitFrom c embeddings i nodes).1
    Housed c' ∧ c'.dim = c.dim ∧ c'.numNodes = c.numNodes ∧ ∀ node, c'.getIfComputed node =
      (lastOf (reached c.dim c.numNodes embeddings i nodes) node).or (c.getIfComputed node) := by
  induction nodes generalizing c i with
  | nil => exact ⟨h, rfl, rfl, fun node => rfl⟩
  | cons node nodes ih =>
      simp only [commitFrom, reached]
      by_cases fits : i * c.dim + c.dim ≤ embeddings.length
      · rw [if_pos fits]
        have width : ((embeddings.drop (i * c.dim)).take c.dim).length = c.dim := by
          rw [List.length_take, List.length_drop]
          omega
        by_cases below : node.toNat < c.numNodes
        · obtain ⟨c₁, updated, after⟩ := update_spec h width below
          simp only [updated, if_pos (And.intro fits below)]
          obtain ⟨housed, dim, numNodes, served⟩ := ih after.housed (i + 1)
          rw [after.dim, after.numNodes] at served
          refine ⟨housed, dim.trans after.dim, numNodes.trans after.numNodes, fun other => ?_⟩
          rw [served, lastOf_cons, after.served]
          cases lastOf (reached c.dim c.numNodes embeddings (i + 1) nodes) other with
          | some row => rfl
          | none =>
              rw [Option.none_or, Option.none_or]
              split <;> rfl
        · have refused : c.update node ((embeddings.drop (i * c.dim)).take c.dim) = none := by
            rw [update, if_pos (Or.inr (Nat.le_of_not_lt below))]
          simp only [refused, if_neg fun both => below (And.right both)]
          exact ⟨h, trivial, trivial, fun node => rfl⟩
      · rw [if_neg fits, if_neg fun both => fits both.1]
        exact ⟨h, rfl, rfl, fun node => rfl⟩

end Commit

theorem foldl_invalidate {c : EmbeddingCache α} (h : Housed c) (dirty : List UInt32) :
    let c' := dirty.foldl invalidate c
    Housed c' ∧ c'.dim = c.dim ∧ c'.numNodes = c.numNodes ∧ ∀ node, c'.getIfComputed node =
      if node ∈ dirty then none else c.getIfComputed node := by
  induction dirty generalizing c with
  | nil => exact ⟨h, rfl, rfl, fun node => rfl⟩
  | cons first dirty ih =>
      obtain ⟨housed, dim, numNodes, served⟩ := ih (h.invalidate first)
      rw [invalidate_dim] at dim
      rw [invalidate_numNodes] at numNodes
      refine ⟨housed, dim, numNodes, fun node => (served node).trans ?_⟩
      rw [invalidate_served]
      by_cases same : node = first
      · simp [same]
      · simp [same]

/-- What happened to the sampler, as far as a served row can depend on it. -/
inductive Entry (α : Type) where
  | prepared (batch : Nat)
  | written (batch : Nat) (node : UInt32) (row : List α)
  | advanced (dirty : List UInt32)
deriving DecidableEq

def Entry.writes (node : UInt32) : Entry α → Option (Nat × List α)
  | .written batch target row => if target = node then some (batch, row) else none
  | _ => none

def Entry.dirties (node : UInt32) : Entry α → Bool
  | .advanced dirty => decide (node ∈ dirty)
  | _ => false

/-- The sampler with every batch it has prepared, and the log with its newest entry first. -/
structure State (α : Type) where
  cache : EmbeddingCache α
  batches : List (HistoricalBatch α)
  log : List (Entry α)

inductive Call (α : Type) where
  | prepareBatch (nodes : List UInt32)
  | commitBatch (batch : Nat) (embeddings : List α)
  | advanceEpochWith (dirty : List UInt32)

/-- The rows a commit of a prepared batch writes. -/
def State.reached (s : State α) (batch : HistoricalBatch α) (embeddings : List α) :
    List (UInt32 × List α) :=
  HistoricalSampler.reached s.cache.dim s.cache.numNodes embeddings 0 batch.recomputeNodes

/-- A commit names one of the batches prepared so far; there is no other to call it with. -/
def step (s : State α) : Call α → State α
  | .prepareBatch nodes =>
      { s with
        batches := s.batches ++ [prepareBatch s.cache nodes]
        log := .prepared s.batches.length :: s.log }
  | .commitBatch k embeddings =>
      match s.batches[k]? with
      | none => s
      | some batch =>
          { s with
            cache := (commitBatch s.cache batch embeddings).1
            log := (s.reached batch embeddings).reverse.map (fun w => .written k w.1 w.2) ++ s.log }
  | .advanceEpochWith dirty =>
      { s with cache := advanceEpochWith s.cache dirty, log := .advanced dirty :: s.log }

def run (c : EmbeddingCache α) (calls : List (Call α)) : State α := calls.foldl step ⟨c, [], []⟩

/-- The batch and the row of the newest commit of a node. -/
def lastWritten (log : List (Entry α)) (node : UInt32) : Option (Nat × List α) :=
  log.findSome? (Entry.writes node)

/-- The batch was prepared after the last advance whose dirty list names the node. -/
def PreparedSince (log : List (Entry α)) (node : UInt32) (batch : Nat) : Prop :=
  .prepared batch ∈ log.takeWhile fun e => !e.dirties node

/-- What `prepare_batch` promises of a request in a state. -/
structure Current (s : State α) (nodes : List UInt32) : Prop where
  split : ∃ cached : UInt32 → Bool,
    (prepareBatch s.cache nodes).cachedNodes = nodes.filter cached ∧
    (prepareBatch s.cache nodes).recomputeNodes = nodes.filter fun node => !cached node
  rows : (prepareBatch s.cache nodes).cachedEmbeddings.length =
    (prepareBatch s.cache nodes).cachedNodes.length * s.cache.dim
  fresh : ∀ i node, (prepareBatch s.cache nodes).cachedNodes[i]? = some node →
    ∃ batch, lastWritten s.log node = some (batch,
      ((prepareBatch s.cache nodes).cachedEmbeddings.drop (i * s.cache.dim)).take s.cache.dim) ∧
      PreparedSince s.log node batch

/-- Every row a commit writes comes from a batch prepared since its node last turned dirty. -/
def CommitsCurrent (s : State α) (k : Nat) (embeddings : List α) : Prop :=
  ∀ batch, s.batches[k]? = some batch → ∀ w ∈ s.reached batch embeddings,
    PreparedSince s.log w.1 k

/-- A row in service is the newest one committed for its node. -/
structure Served (s : State α) : Prop where
  housed : Housed s.cache
  newest : ∀ node row, s.cache.getIfComputed node = some row →
    row.length = s.cache.dim ∧ ∃ batch, lastWritten s.log node = some (batch, row)

/-- The batch of each row in service was prepared since its node last turned dirty. -/
def Fresh (s : State α) : Prop :=
  ∀ node row batch row', s.cache.getIfComputed node = some row →
    lastWritten s.log node = some (batch, row') → PreparedSince s.log node batch

theorem Served.rowOf_length {s : State α} (h : Served s) {node : UInt32}
    (cached : isCached s.cache node = true) : (rowOf s.cache node).length = s.cache.dim := by
  obtain ⟨row, found⟩ := Option.isSome_iff_exists.1 cached
  rw [rowOf, found]
  exact (h.newest node row found).1

theorem Served.current {s : State α} (h : Served s) (fresh : Fresh s) (nodes : List UInt32) :
    Current s nodes where
  split := ⟨isCached s.cache, by rw [prepareBatch_eq], by rw [prepareBatch_eq]⟩
  rows := by
    rw [prepareBatch_eq]
    exact flatMap_length fun node mem => h.rowOf_length (List.mem_filter.1 mem).2
  fresh := by
    intro i node at_i
    rw [prepareBatch_eq] at at_i ⊢
    have cached := (List.mem_filter.1 (List.mem_of_getElem? at_i)).2
    obtain ⟨row, found⟩ := Option.isSome_iff_exists.1 cached
    obtain ⟨-, batch, newest⟩ := h.newest node row found
    refine ⟨batch, ?_, fresh node row batch row found newest⟩
    rw [take_drop_flatMap (fun node mem => h.rowOf_length (List.mem_filter.1 mem).2) at_i, newest,
      rowOf, found, Option.getD_some]

/-- A node served on its own shows whether its row is fresh. -/
theorem Current.fresh_of_served {s : State α} {node : UInt32} (h : Current s [node])
    (row : List α) (found : s.cache.getIfComputed node = some row) :
    ∃ batch row', lastWritten s.log node = some (batch, row') ∧
      PreparedSince s.log node batch := by
  have cached : isCached s.cache node = true := by rw [isCached, found]; rfl
  have first : (prepareBatch s.cache [node]).cachedNodes[0]? = some node := by
    rw [prepareBatch_eq]
    simp [cached]
  obtain ⟨batch, newest, since⟩ := h.fresh 0 node first
  exact ⟨batch, _, newest, since⟩

section Log

variable {log : List (Entry α)} {node : UInt32}

theorem lastWritten_cons {e : Entry α} (other : e.writes node = none) :
    lastWritten (e :: log) node = lastWritten log node := by
  rw [lastWritten, List.findSome?_cons, other]
  rfl

theorem PreparedSince.cons {batch : Nat} (h : PreparedSince log node batch) {e : Entry α}
    (clean : e.dirties node = false) : PreparedSince (e :: log) node batch := by
  rw [PreparedSince, List.takeWhile_cons_of_pos (by rw [clean]; rfl)]
  exact List.mem_cons_of_mem _ h

/-- Rows written leave the batches' standing as it was. -/
theorem preparedSince_written (batch k : Nat) (written : List (UInt32 × List α)) :
    PreparedSince (written.map (fun w => .written k w.1 w.2) ++ log) node batch ↔
      PreparedSince log node batch := by
  induction written with
  | nil => rfl
  | cons w written ih =>
      rw [← ih, PreparedSince, List.map_cons, List.cons_append, List.takeWhile_cons_of_pos (by rfl),
        List.mem_cons]
      exact ⟨fun h => h.resolve_left nofun, Or.inr⟩

/-- The newest row is the last one the commit wrote, if it wrote the node at all. -/
theorem lastWritten_written (log : List (Entry α)) (node : UInt32) (k : Nat)
    (written : List (UInt32 × List α)) :
    lastWritten (written.reverse.map (fun w => .written k w.1 w.2) ++ log) node =
      ((lastOf written node).map (Prod.mk k)).or (lastWritten log node) := by
  rw [lastWritten, List.findSome?_append, lastOf]
  congr 1
  generalize written.reverse = newest
  induction newest with
  | nil => rfl
  | cons w newest ih =>
      rw [List.map_cons, List.findSome?_cons, Entry.writes]
      by_cases same : w.1 = node
      · simp [same]
      · simp [same, ih]

end Log

theorem mem_of_lastOf {written : List (UInt32 × List α)} {node : UInt32} {row : List α}
    (last : lastOf written node = some row) : (node, row) ∈ written := by
  obtain ⟨w, found, rfl⟩ := Option.map_eq_some_iff.1 last
  have picked := List.find?_some found
  have same := beq_iff_eq.1 picked
  have mem := List.mem_reverse.1 (List.mem_of_find?_eq_some found)
  rwa [← same]

theorem lastOf_of_mem {written : List (UInt32 × List α)} {w : UInt32 × List α}
    (mem : w ∈ written) : ∃ row, lastOf written w.1 = some row := by
  rw [← Option.isSome_iff_exists, lastOf, Option.isSome_map, List.find?_isSome]
  exact ⟨w, List.mem_reverse.2 mem, beq_self_eq_true _⟩

theorem reached_width {dim numNodes : Nat} {embeddings : List α} {i : Nat} {nodes : List UInt32}
    {w : UInt32 × List α} (mem : w ∈ reached dim numNodes embeddings i nodes) :
    w.2.length = dim := by
  induction nodes generalizing i with
  | nil => exact absurd mem List.not_mem_nil
  | cons node nodes ih =>
      rw [reached] at mem
      split at mem
      · rename_i fits
        rcases List.mem_cons.1 mem with rfl | mem
        · show ((embeddings.drop (i * dim)).take dim).length = dim
          rw [List.length_take, List.length_drop]
          omega
        · exact ih mem
      · exact absurd mem List.not_mem_nil

theorem Served.init {zero : α} {numNodes dim : Nat} {c : EmbeddingCache α}
    (made : EmbeddingCache.new zero numNodes dim = some c) : Served (run c []) where
  housed := Housed.new made
  newest := by
    intro node row found
    have found := (new_served made node).symm.trans found
    contradiction

theorem Served.step {s : State α} (h : Served s) (call : Call α) :
    Served (step s call) := by
  cases call with
  | prepareBatch nodes =>
      refine ⟨h.housed, fun node row found => ?_⟩
      obtain ⟨width, batch, newest⟩ := h.newest node row found
      exact ⟨width, batch, (lastWritten_cons rfl).trans newest⟩
  | advanceEpochWith dirty =>
      obtain ⟨housed, dim, -, served⟩ := foldl_invalidate h.housed dirty
      refine ⟨housed.advanceEpoch, fun node row found => ?_⟩
      have found := (served node).symm.trans found
      split at found
      · contradiction
      · obtain ⟨width, batch, newest⟩ := h.newest node row found
        exact ⟨width.trans dim.symm, batch, (lastWritten_cons rfl).trans newest⟩
  | commitBatch k embeddings =>
      rw [HistoricalSampler.step]
      cases named : s.batches[k]? with
      | none => exact h
      | some batch =>
          obtain ⟨housed, dim, -, served⟩ :=
            commitFrom_spec h.housed embeddings 0 batch.recomputeNodes
          refine ⟨housed, fun node row found => ?_⟩
          have found := (served node).symm.trans found
          have logged := lastWritten_written s.log node k (s.reached batch embeddings)
          rw [State.reached] at logged
          cases last : lastOf (HistoricalSampler.reached s.cache.dim s.cache.numNodes embeddings 0
              batch.recomputeNodes) node with
          | some row' =>
              rw [last] at found logged
              obtain rfl := Option.some.inj found
              exact ⟨(reached_width (mem_of_lastOf last)).trans dim.symm, k, logged⟩
          | none =>
              rw [last] at found logged
              obtain ⟨width, b, newest⟩ := h.newest node row found
              exact ⟨width.trans dim.symm, b, logged.trans newest⟩

/-- A step keeps the rows fresh if its commit, should it be one, is current. -/
theorem Fresh.step {s : State α} (served : Served s) (h : Fresh s) (call : Call α)
    (commits : ∀ k embeddings, call = .commitBatch k embeddings → CommitsCurrent s k embeddings) :
    Fresh (step s call) := by
  intro node row batch row' found newest
  cases call with
  | prepareBatch nodes =>
      exact (h node row batch row' found ((lastWritten_cons rfl).symm.trans newest)).cons rfl
  | advanceEpochWith dirty =>
      have found := ((foldl_invalidate served.housed dirty).2.2.2 node).symm.trans found
      split at found
      · contradiction
      · rename_i clean
        refine (h node row batch row' found ((lastWritten_cons rfl).symm.trans newest)).cons ?_
        exact decide_eq_false clean
  | commitBatch k embeddings =>
      have current := commits k embeddings rfl
      rw [HistoricalSampler.step] at found newest ⊢
      cases named : s.batches[k]? with
      | none =>
          rw [named] at found newest
          exact h node row batch row' found newest
      | some prepared =>
          rw [named] at found newest
          have found := ((commitFrom_spec served.housed embeddings 0
            prepared.recomputeNodes).2.2.2 node).symm.trans found
          have newest :=
            (lastWritten_written _ node k (s.reached prepared embeddings)).symm.trans newest
          refine (preparedSince_written batch k _).2 ?_
          rw [State.reached] at newest
          cases last : lastOf (HistoricalSampler.reached s.cache.dim s.cache.numNodes embeddings 0
              prepared.recomputeNodes) node with
          | some row'' =>
              rw [last] at newest
              obtain ⟨rfl, rfl⟩ := Prod.mk.inj (Option.some.inj newest)
              exact current prepared named _ (mem_of_lastOf last)
          | none =>
              rw [last] at found newest
              exact h node row batch row' found newest

/-- After a commit that is not current, some node alone is served a stale row. -/
theorem not_current_of_stale {s : State α} (served : Served s) {k : Nat} {embeddings : List α}
    (stale : ¬CommitsCurrent s k embeddings) :
    ∃ node, ¬Current (step s (.commitBatch k embeddings)) [node] := by
  simp only [CommitsCurrent, not_forall] at stale
  obtain ⟨batch, named, w, mem, before⟩ := stale
  refine ⟨w.1, fun current => before ?_⟩
  obtain ⟨row, last⟩ := lastOf_of_mem mem
  have cached := (commitFrom_spec served.housed embeddings 0 batch.recomputeNodes).2.2.2 w.1
  have stepped : step s (.commitBatch k embeddings) = { s with
      cache := (commitBatch s.cache batch embeddings).1
      log := (s.reached batch embeddings).reverse.map (fun w => .written k w.1 w.2) ++ s.log } := by
    rw [step, named]
  rw [stepped] at current
  obtain ⟨b, row', newest, since⟩ := current.fresh_of_served row
    (cached.trans (by rw [State.reached] at last; rw [last]; rfl))
  have newest := (lastWritten_written _ _ k (s.reached batch embeddings)).symm.trans newest
  rw [last] at newest
  obtain ⟨rfl, -⟩ := Prod.mk.inj (Option.some.inj newest)
  exact (preparedSince_written k k _).1 since

theorem run_append (c : EmbeddingCache α) (done : List (Call α)) (call : Call α) :
    run c (done ++ [call]) = step (run c done) call := by
  rw [run, List.foldl_append]
  rfl

section Run

variable {zero : α} {numNodes dim : Nat} {c : EmbeddingCache α}

theorem Served.run (made : EmbeddingCache.new zero numNodes dim = some c)
    (calls : List (Call α)) : Served (run c calls) := by
  induction calls using List.reverseRecOn with
  | nil => exact Served.init made
  | append_singleton done call ih =>
      rw [run_append]
      exact ih.step call

theorem Fresh.run (made : EmbeddingCache.new zero numNodes dim = some c) {calls : List (Call α)}
    (commits : ∀ done k embeddings, done ++ [.commitBatch k embeddings] <+: calls →
      CommitsCurrent (HistoricalSampler.run c done) k embeddings) :
    Fresh (HistoricalSampler.run c calls) := by
  induction calls using List.reverseRecOn with
  | nil =>
      intro node row batch row' found
      have found := (new_served made node).symm.trans found
      contradiction
  | append_singleton done call ih =>
      rw [run_append]
      refine (ih fun d k e before => commits d k e (before.trans (List.prefix_append _ _))).step
        (Served.run made done) call fun k embeddings same => ?_
      exact commits done k embeddings (by rw [same])

/-- Over a whole run, served rows are the newest ones and come from batches prepared since their
nodes last turned dirty exactly when no commit writes a row for a node that an advance since the
batch's preparation has named. -/
theorem neverStale_iff (made : EmbeddingCache.new zero numNodes dim = some c)
    (calls : List (Call α)) :
    (∀ done, done <+: calls → ∀ nodes, Current (HistoricalSampler.run c done) nodes) ↔
      ∀ done k embeddings, done ++ [.commitBatch k embeddings] <+: calls →
        CommitsCurrent (HistoricalSampler.run c done) k embeddings := by
  constructor
  · intro current done k embeddings before
    by_contra stale
    obtain ⟨node, not_current⟩ := not_current_of_stale (Served.run made done) stale
    rw [← run_append] at not_current
    exact not_current (current _ before [node])
  · intro commits done before nodes
    refine (Served.run made done).current (Fresh.run made ?_) nodes
    exact fun d k e within => commits d k e (within.trans before)

end Run

/-- Two nodes of one cell each, both prepared and committed before the second turns dirty. -/
theorem neverStale_iff_twoNodes :
    ∃ c, EmbeddingCache.new 0 2 1 = some c ∧
      ((∀ done, done <+: [.prepareBatch [0, 1], .commitBatch 0 [5, 6], .advanceEpochWith [1]] →
        ∀ nodes, Current (run c done) nodes) ↔
      ∀ done k embeddings, done ++ [.commitBatch k embeddings] <+:
        [.prepareBatch [0, 1], .commitBatch 0 [5, 6], .advanceEpochWith [1]] →
        CommitsCurrent (run c done) k embeddings) :=
  ⟨_, rfl, neverStale_iff (rfl : EmbeddingCache.new 0 2 1 = some _) _⟩

/-- A batch prepared before the advance and committed after it brings the dirty node back. -/
theorem served_stale :
    ¬∀ (numNodes dim : Nat) (c : EmbeddingCache Nat), EmbeddingCache.new 0 numNodes dim = some c →
      ∀ (calls : List (Call Nat)) (nodes : List UInt32), Current (run c calls) nodes := by
  intro always
  let done : List (Call Nat) := [.prepareBatch [0], .advanceEpochWith [0]]
  obtain ⟨c, made⟩ : ∃ c, EmbeddingCache.new 0 1 1 = some c := ⟨_, rfl⟩
  have stale : ¬CommitsCurrent (run c done) 0 [7] := by
    obtain rfl := Option.some.inj made
    intro current
    exact absurd (current ⟨[0], [], []⟩ (by decide) (0, [7]) (by decide))
      (by unfold PreparedSince; decide)
  obtain ⟨node, not_current⟩ := not_current_of_stale (Served.run made done) stale
  rw [← run_append] at not_current
  exact not_current (always 1 1 c made _ [node])

end HistoricalSampler

end AetherGraph
