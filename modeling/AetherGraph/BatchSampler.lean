import AetherGraph.SamplerHistory

/-! Batches sampled in parallel.  Each chunk of a call checks a sampler out of the pool,
reseeds it before each of its batches and checks it in again; the chunks of all calls in
progress take their steps in any order. -/

namespace AetherGraph

open NeighborSampler

/-- Sample in turn, each batch at its position, up to the first error. -/
def sampleEach {ε α : Type} (one : Nat → Seeds → Except ε α) : Nat → List Seeds → Except ε (List α)
  | _, [] => .ok []
  | pos, seeds :: group => do
      let out ← one pos seeds
      let rest ← sampleEach one (pos + 1) group
      return out :: rest

theorem sampleEach_append {ε α : Type} (one : Nat → Seeds → Except ε α) (pos : Nat)
    (xs ys : List Seeds) :
    sampleEach one pos (xs ++ ys) = (do
      let first ← sampleEach one pos xs
      let rest ← sampleEach one (pos + xs.length) ys
      return first ++ rest) := by
  induction xs generalizing pos with
  | nil =>
      simp only [List.nil_append, sampleEach, List.length_nil, Nat.add_zero]
      cases sampleEach one pos ys <;> rfl
  | cons x xs ih =>
      have next : pos + 1 + xs.length = pos + (x :: xs).length := by
        rw [List.length_cons]
        omega
      rw [List.cons_append, sampleEach, sampleEach, ih, next]
      cases one pos x with
      | error e => rfl
      | ok out =>
          cases sampleEach one (pos + 1) xs with
          | error e => rfl
          | ok first => cases sampleEach one (pos + (x :: xs).length) ys <;> rfl

theorem sampleEach_length {ε α : Type} {one : Nat → Seeds → Except ε α} {pos : Nat}
    {group : List Seeds} {done : List α} (h : sampleEach one pos group = .ok done) :
    done.length = group.length := by
  induction group generalizing pos done with
  | nil =>
      cases h
      rfl
  | cons seeds group ih =>
      rw [sampleEach] at h
      cases here : one pos seeds with
      | error e =>
          rw [here] at h
          cases h
      | ok out =>
          cases rest : sampleEach one (pos + 1) group with
          | error e =>
              rw [here, rest] at h
              cases h
          | ok outs =>
              rw [here, rest] at h
              cases h
              exact congrArg Nat.succ (ih rest)

inductive ChunkState (σ Time : Type) where
  | waiting
  | running (sampler : NeighborSampler σ Time) (out : Except SampleError (List SampledSubgraph))
  | done (out : Except SampleError (List SampledSubgraph))

/-- The batches of one chunk, the first of them at `offset` in the call. -/
structure BatchChunk (σ Time : Type) where
  offset : Nat
  group : List Seeds
  state : ChunkState σ Time

structure BatchCall (σ Time : Type) where
  first : Nat
  batches : List Seeds
  chunks : List (BatchChunk σ Time)

structure BatchReturn where
  first : Nat
  batches : List Seeds
  out : Except SampleError (List SampledSubgraph)

structure ParallelBatchSampler (σ Time : Type) where
  baseSeed : Nat
  nextBatch : Nat
  pool : List (NeighborSampler σ Time)
  calls : List (BatchCall σ Time)
  returned : List BatchReturn

namespace ParallelBatchSampler

variable {σ : Type} [Rng σ] {Time : Type} [LT Time] [DecidableLT Time] [LE Time] [DecidableLE Time]
  [Top Time]

/-- `base` is the config's seed, or a random one. -/
def new (base : Nat) : ParallelBatchSampler σ Time := ⟨base, 0, [], [], []⟩

/-- The batches in chunks, one for each thread. -/
def chunksOf (batches : List Seeds) (threads : Nat) : List (BatchChunk σ Time) :=
  let chunk := max ((batches.length + max threads 1 - 1) / max threads 1) 1
  (List.range ((batches.length + chunk - 1) / chunk)).map fun c =>
    ⟨c * chunk, (batches.drop (c * chunk)).take chunk, .waiting⟩

/-- The groups concatenated in order, or the first error among them. -/
def gather (grouped : List (Except SampleError (List SampledSubgraph))) :
    Except SampleError (List SampledSubgraph) :=
  grouped.foldlM (fun out group => do return out ++ (← group)) []

variable (ops : SliceOps) (g : Csr Time) (cfg : SamplingConfig) (base : Nat)

def streamSeed (first pos : Nat) : Nat := batchSeed base ((first + pos) % 2 ^ 64)

/-- What a chunk does next, and to the pool. -/
inductive ChunkStep (first : Nat) : List (NeighborSampler σ Time) → BatchChunk σ Time →
    List (NeighborSampler σ Time) → BatchChunk σ Time → Prop
  | checkout (pool : List (NeighborSampler σ Time)) (sampler : NeighborSampler σ Time)
      (offset : Nat) (group : List Seeds) :
      ChunkStep first (pool ++ [sampler]) ⟨offset, group, .waiting⟩
        pool ⟨offset, group, .running sampler (.ok [])⟩
  | build (entropy offset : Nat) (group : List Seeds) :
      ChunkStep first [] ⟨offset, group, .waiting⟩
        [] ⟨offset, group, .running (NeighborSampler.new g cfg entropy) (.ok [])⟩
  | sample (pool : List (NeighborSampler σ Time)) (sampler : NeighborSampler σ Time) (offset : Nat)
      (group : List Seeds) (done : List SampledSubgraph) (seeds : Seeds)
      (next : group[done.length]? = some seeds) :
      ChunkStep first pool ⟨offset, group, .running sampler (.ok done)⟩
        pool ⟨offset, group,
          .running
            ((sampler.reseed (streamSeed base first (offset + done.length))).sample ops g cfg seeds
              none).2
            (((sampler.reseed (streamSeed base first (offset + done.length))).sample ops g cfg seeds
              none).1.map fun sub => done ++ [sub])⟩
  | checkin (pool : List (NeighborSampler σ Time)) (sampler : NeighborSampler σ Time)
      (offset : Nat) (group : List Seeds) (out : Except SampleError (List SampledSubgraph))
      (whole : ∀ done, out = .ok done → done.length = group.length) :
      ChunkStep first pool ⟨offset, group, .running sampler out⟩
        (pool ++ [sampler]) ⟨offset, group, .done out⟩

/-- A step of a call in progress. -/
inductive Work : ParallelBatchSampler σ Time → ParallelBatchSampler σ Time → Prop
  | chunk (b : ParallelBatchSampler σ Time) (before after : List (BatchCall σ Time))
      (first : Nat) (batches : List Seeds) (left right : List (BatchChunk σ Time))
      (chunk chunk' : BatchChunk σ Time) (pool : List (NeighborSampler σ Time))
      (inFlight : b.calls = before ++ ⟨first, batches, left ++ chunk :: right⟩ :: after)
      (step : ChunkStep ops g cfg b.baseSeed first b.pool chunk pool chunk') :
      Work b { b with
        pool := pool
        calls := before ++ ⟨first, batches, left ++ chunk' :: right⟩ :: after }
  | finish (b : ParallelBatchSampler σ Time) (before after : List (BatchCall σ Time))
      (call : BatchCall σ Time) (grouped : List (Except SampleError (List SampledSubgraph)))
      (inFlight : b.calls = before ++ call :: after)
      (all : call.chunks.map BatchChunk.state = grouped.map ChunkState.done) :
      Work b { b with
        calls := before ++ after
        returned := b.returned ++ [⟨call.first, call.batches, gather grouped⟩] }

/-- Steps of the calls in progress, and new calls on any number of threads. -/
inductive Step : ParallelBatchSampler σ Time → ParallelBatchSampler σ Time → Prop
  | work {b b' : ParallelBatchSampler σ Time} (work : Work ops g cfg b b') : Step b b'
  | sampleBatches (b : ParallelBatchSampler σ Time) (batches : List Seeds) (threads : Nat) :
      Step b { b with
        nextBatch := (b.nextBatch + batches.length) % 2 ^ 64
        calls := b.calls ++ [⟨b.nextBatch, batches, chunksOf batches threads⟩] }

/-- The batch at a position of a call, from a new sampler. -/
def fromFresh (first pos : Nat) (seeds : Seeds) : Except SampleError SampledSubgraph :=
  ((fresh (decide (g.numNodes ≤ denseDedupMaxNodes)) g.numNodes (streamSeed base first pos) :
    NeighborSampler σ Time).sample ops g cfg seeds none).1

/-- A chunk's results so far are those of new samplers. -/
def ChunkGood (first : Nat) (chunk : BatchChunk σ Time) : Prop :=
  match chunk.state with
  | .waiting => True
  | .running sampler out =>
      sampler.Ready g.numNodes ∧ ∃ k ≤ chunk.group.length,
        sampleEach (fromFresh (σ := σ) ops g cfg base first) chunk.offset (chunk.group.take k) = out
  | .done out =>
      sampleEach (fromFresh (σ := σ) ops g cfg base first) chunk.offset chunk.group = out

variable {ops g cfg base}

/-- A step of a chunk keeps the samplers ready and the chunk's results those of new ones. -/
theorem ChunkStep.good {first : Nat} {pool pool' : List (NeighborSampler σ Time)}
    {chunk chunk' : BatchChunk σ Time} (step : ChunkStep ops g cfg base first pool chunk pool' chunk')
    (ready : ∀ s ∈ pool, s.Ready g.numNodes) (good : ChunkGood ops g cfg base first chunk) :
    (∀ s ∈ pool', s.Ready g.numNodes) ∧ ChunkGood ops g cfg base first chunk' ∧
      (chunk'.offset, chunk'.group) = (chunk.offset, chunk.group) := by
  cases step with
  | checkout _ sampler offset group =>
      obtain ⟨rest, own⟩ := List.forall_mem_append.mp ready
      exact ⟨rest, ⟨own sampler List.mem_cons_self, 0, Nat.zero_le _, rfl⟩, rfl⟩
  | build entropy offset group =>
      exact ⟨ready, ⟨fresh_ready _ _ _, 0, Nat.zero_le _, rfl⟩, rfl⟩
  | sample _ sampler offset group done seeds next =>
      obtain ⟨own, k, hk, sampled⟩ := good
      have count : done.length = k := by
        rw [sampleEach_length sampled, List.length_take, Nat.min_eq_left hk]
      subst count
      have same : ((sampler.reseed (streamSeed base first (offset + done.length))).sample ops g cfg
          seeds none).1 = fromFresh (σ := σ) ops g cfg base first (offset + done.length) seeds :=
        own.sample_reseed ops (fresh_ready _ _ 0) _ seeds none
      obtain ⟨inGroup, at_⟩ := List.getElem?_eq_some_iff.mp next
      refine ⟨ready, ⟨((own.reseed _).sample ops seeds none).2.1, done.length + 1, inGroup, ?_⟩, rfl⟩
      have step : group.take (done.length + 1) = group.take done.length ++ [seeds] := by
        rw [List.take_succ_eq_append_getElem inGroup, at_]
      rw [same]
      dsimp only at sampled ⊢
      rw [step, sampleEach_append, sampled, List.length_take, Nat.min_eq_left hk]
      simp only [sampleEach]
      cases fromFresh (σ := σ) ops g cfg base first (offset + done.length) seeds <;> rfl
  | checkin _ sampler offset group out whole =>
      obtain ⟨own, k, hk, sampled⟩ := good
      refine ⟨List.forall_mem_append.mpr ⟨ready, fun s hs => List.mem_singleton.mp hs ▸ own⟩, ?_,
        rfl⟩
      dsimp only [ChunkGood] at sampled ⊢
      cases out with
      | error e =>
          rw [← List.take_append_drop k group, sampleEach_append, sampled]
          rfl
      | ok done =>
          have count : done.length = k := by
            rw [sampleEach_length sampled, List.length_take, Nat.min_eq_left hk]
          rwa [← count, whole done rfl, List.take_length] at sampled

/-- Groups that make up the batches from position `pos` on, each at its offset. -/
def Tiles : Nat → List (Nat × List Seeds) → List Seeds → Prop
  | _, [], batches => batches = []
  | pos, (offset, group) :: rest, batches =>
      offset = pos ∧ ∃ later, batches = group ++ later ∧ Tiles (pos + group.length) rest later

theorem tiles_chunks (batches : List Seeds) {chunk : Nat} (positive : 0 < chunk) (n : Nat) :
    ∀ c, batches.length ≤ (c + n) * chunk → (0 < n → (c + n - 1) * chunk < batches.length) →
      ∀ pos, (0 < n → pos = c * chunk) →
      Tiles pos ((List.range' c n).map fun c => (c * chunk, (batches.drop (c * chunk)).take chunk))
        (batches.drop (c * chunk)) := by
  induction n with
  | zero =>
      intro c ends _ pos _
      exact List.drop_eq_nil_of_le ends
  | succ n ih =>
      intro c ends last pos start
      have here := start (Nat.succ_pos n)
      have rest : (batches.drop (c * chunk)).drop chunk = batches.drop ((c + 1) * chunk) := by
        rw [List.drop_drop, Nat.succ_mul]
      rw [List.range'_succ, List.map_cons]
      refine ⟨here.symm, batches.drop ((c + 1) * chunk), ?_, ?_⟩
      · rw [← rest, List.take_append_drop]
      · refine ih (c + 1) ?_ (fun _ => ?_) _ fun more => ?_
        · rwa [Nat.add_right_comm, Nat.add_assoc c n 1]
        · have := last (Nat.succ_pos n)
          rwa [Nat.add_right_comm, Nat.add_assoc c n 1]
        · have full : (c + 1) * chunk ≤ (c + (n + 1) - 1) * chunk :=
            Nat.mul_le_mul_right chunk (by omega)
          have inside := last (Nat.succ_pos n)
          rw [List.length_take, List.length_drop, here, Nat.succ_mul]
          rw [Nat.succ_mul] at full
          omega

variable (σ Time) in
omit [Rng σ] [LT Time] [DecidableLT Time] [LE Time] [DecidableLE Time] [Top Time] in
/-- A call's chunks lie end to end, and none has begun. -/
theorem chunksOf_tiles (batches : List Seeds) (threads : Nat) :
    Tiles 0 ((chunksOf batches threads : List (BatchChunk σ Time)).map fun c => (c.offset, c.group))
      batches ∧
      ∀ c ∈ (chunksOf batches threads : List (BatchChunk σ Time)), c.state = .waiting := by
  unfold chunksOf
  dsimp only
  generalize hchunk : max ((batches.length + max threads 1 - 1) / max threads 1) 1 = chunk
  have positive : 0 < chunk := hchunk ▸ Nat.le_max_right _ 1
  refine ⟨?_, List.forall_mem_map.mpr fun _ _ => rfl⟩
  have ends := Nat.div_add_mod (batches.length + chunk - 1) chunk
  have small := Nat.mod_lt (batches.length + chunk - 1) positive
  have comm := Nat.mul_comm chunk ((batches.length + chunk - 1) / chunk)
  have tiles := tiles_chunks batches positive ((batches.length + chunk - 1) / chunk) 0
    (by rw [Nat.zero_add]; omega) (fun more => by
      rw [Nat.zero_add, Nat.sub_one_mul]
      have := Nat.le_mul_of_pos_left chunk more
      omega) 0 fun _ => (Nat.zero_mul chunk).symm
  rw [Nat.zero_mul, List.drop_zero, ← List.range_eq_range'] at tiles
  rw [List.map_map]
  exact tiles

/-- Gathering the groups' results samples the batches in turn. -/
theorem gather_tiles (one : Nat → Seeds → Except SampleError SampledSubgraph)
    {tiles : List (Nat × List Seeds)} {pos : Nat} {batches : List Seeds}
    (h : Tiles pos tiles batches) (done : List SampledSubgraph) :
    (tiles.map fun t => sampleEach one t.1 t.2).foldlM
        (fun out group => do return out ++ (← group)) done = (do
      let rest ← sampleEach one pos batches
      return done ++ rest) := by
  induction tiles generalizing pos batches done with
  | nil =>
      obtain rfl : batches = [] := h
      simp only [sampleEach, List.map_nil, List.foldlM_nil]
      exact congrArg Except.ok (List.append_nil done).symm
  | cons tile tiles ih =>
      obtain ⟨offset, group⟩ := tile
      obtain ⟨rfl, later, rfl, rest⟩ := h
      rw [sampleEach_append]
      cases drawn : sampleEach one offset group with
      | error e =>
          simp only [List.map_cons, List.foldlM_cons, drawn]
          rfl
      | ok out =>
          have tail := ih rest (done ++ out)
          simp only [List.map_cons, List.foldlM_cons, drawn]
          refine tail.trans ?_
          cases sampleEach one (offset + group.length) later with
          | error e => rfl
          | ok outs => exact congrArg Except.ok (List.append_assoc done out outs)

variable (ops g cfg) in
/-- What holds between steps. -/
structure Inv (base : Nat) (b : ParallelBatchSampler σ Time) : Prop where
  baseSeed : b.baseSeed = base
  ready : ∀ s ∈ b.pool, s.Ready g.numNodes
  chunks : ∀ call ∈ b.calls, ∀ c ∈ call.chunks, ChunkGood ops g cfg base call.first c
  tiles : ∀ call ∈ b.calls, Tiles 0 (call.chunks.map fun c => (c.offset, c.group)) call.batches
  returned : ∀ ret ∈ b.returned,
    ret.out = sampleEach (fromFresh (σ := σ) ops g cfg base ret.first) 0 ret.batches

theorem Inv.work {b b' : ParallelBatchSampler σ Time} (h : Inv ops g cfg base b)
    (work : Work ops g cfg b b') : Inv ops g cfg base b' := by
  have chunks := h.chunks
  have tiles := h.tiles
  cases work with
  | chunk before after first batches left right chunk chunk' pool inFlight step =>
      rw [inFlight] at chunks tiles
      rw [h.baseSeed] at step
      obtain ⟨chunksBefore, chunksHere⟩ := List.forall_mem_append.mp chunks
      obtain ⟨here, chunksAfter⟩ := List.forall_mem_cons.mp chunksHere
      obtain ⟨tilesBefore, tilesHere⟩ := List.forall_mem_append.mp tiles
      obtain ⟨tile, tilesAfter⟩ := List.forall_mem_cons.mp tilesHere
      obtain ⟨goodLeft, goodRight⟩ := List.forall_mem_append.mp here
      obtain ⟨good, goodRight⟩ := List.forall_mem_cons.mp goodRight
      obtain ⟨ready, good', same⟩ := step.good h.ready good
      refine ⟨h.baseSeed, ready, ?_, ?_, h.returned⟩
      · refine List.forall_mem_append.mpr ⟨chunksBefore, List.forall_mem_cons.mpr ⟨?_, chunksAfter⟩⟩
        exact List.forall_mem_append.mpr ⟨goodLeft, List.forall_mem_cons.mpr ⟨good', goodRight⟩⟩
      · refine List.forall_mem_append.mpr ⟨tilesBefore, List.forall_mem_cons.mpr ⟨?_, tilesAfter⟩⟩
        rw [List.map_append, List.map_cons] at tile ⊢
        rwa [same]
  | finish before after call grouped inFlight all =>
      rw [inFlight] at chunks tiles
      obtain ⟨chunksBefore, chunksHere⟩ := List.forall_mem_append.mp chunks
      obtain ⟨here, chunksAfter⟩ := List.forall_mem_cons.mp chunksHere
      obtain ⟨tilesBefore, tilesHere⟩ := List.forall_mem_append.mp tiles
      obtain ⟨tile, tilesAfter⟩ := List.forall_mem_cons.mp tilesHere
      have outs : grouped = (call.chunks.map fun c => (c.offset, c.group)).map fun t =>
          sampleEach (fromFresh (σ := σ) ops g cfg base call.first) t.1 t.2 := by
        rw [List.map_map]
        have each : ∀ {chunks : List (BatchChunk σ Time)}
            {outs : List (Except SampleError (List SampledSubgraph))},
            chunks.map BatchChunk.state = outs.map ChunkState.done →
            (∀ c ∈ chunks, ChunkGood ops g cfg base call.first c) →
            outs = chunks.map fun c =>
              sampleEach (fromFresh (σ := σ) ops g cfg base call.first) c.offset c.group := by
          intro chunks
          induction chunks with
          | nil =>
              intro outs all _
              exact List.map_eq_nil_iff.mp all.symm
          | cons c chunks ih =>
              intro outs all good
              cases outs with
              | nil => cases all
              | cons out outs =>
                  obtain ⟨state, rest⟩ := List.cons.inj all
                  obtain ⟨goodHere, goodRest⟩ := List.forall_mem_cons.mp good
                  unfold ChunkGood at goodHere
                  rw [state] at goodHere
                  rw [List.map_cons, ← ih rest goodRest]
                  exact congrArg (· :: outs) goodHere.symm
        exact each all here
      have gathered := gather_tiles (fromFresh (σ := σ) ops g cfg base call.first) tile []
      rw [← outs] at gathered
      refine ⟨h.baseSeed, h.ready, List.forall_mem_append.mpr ⟨chunksBefore, chunksAfter⟩,
        List.forall_mem_append.mpr ⟨tilesBefore, tilesAfter⟩,
        List.forall_mem_append.mpr ⟨h.returned, fun ret hret => ?_⟩⟩
      obtain rfl := List.mem_singleton.mp hret
      refine gathered.trans ?_
      cases sampleEach (fromFresh (σ := σ) ops g cfg base call.first) 0 call.batches <;> rfl

theorem Inv.step {b b' : ParallelBatchSampler σ Time} (h : Inv ops g cfg base b)
    (step : Step ops g cfg b b') : Inv ops g cfg base b' := by
  cases step with
  | work work => exact h.work work
  | sampleBatches batches threads =>
      obtain ⟨tiles, waiting⟩ := chunksOf_tiles σ Time batches threads
      refine ⟨h.baseSeed, h.ready, List.forall_mem_append.mpr ⟨h.chunks, fun call hcall => ?_⟩,
        List.forall_mem_append.mpr ⟨h.tiles, fun call hcall => ?_⟩, h.returned⟩
      · obtain rfl := List.mem_singleton.mp hcall
        intro c hc
        unfold ChunkGood
        rw [waiting c hc]
        trivial
      · obtain rfl := List.mem_singleton.mp hcall
        exact tiles

theorem Inv.run {b : ParallelBatchSampler σ Time}
    (run : Relation.ReflTransGen (Step ops g cfg) (new base) b) : Inv ops g cfg base b := by
  have start : Inv ops g cfg base (new base : ParallelBatchSampler σ Time) :=
    ⟨rfl, fun _ hs => absurd hs List.not_mem_nil, fun _ hc => absurd hc List.not_mem_nil,
      fun _ hc => absurd hc List.not_mem_nil, fun _ hr => absurd hr List.not_mem_nil⟩
  induction run with
  | refl => exact start
  | tail _ step ih => exact ih.step step

/-- Steps a chunk has left. -/
def BatchChunk.left (c : BatchChunk σ Time) : Nat :=
  match c.state with
  | .waiting => c.group.length + 2
  | .running _ (.ok done) => c.group.length - done.length + 1
  | .running _ (.error _) => 1
  | .done _ => 0

def BatchCall.left (call : BatchCall σ Time) : Nat :=
  (call.chunks.map fun c => BatchChunk.left c).sum + 1

/-- Steps the calls in progress have left. -/
def left (b : ParallelBatchSampler σ Time) : Nat := (b.calls.map fun c => BatchCall.left c).sum

theorem ChunkStep.left_lt {first : Nat} {pool pool' : List (NeighborSampler σ Time)}
    {chunk chunk' : BatchChunk σ Time}
    (step : ChunkStep ops g cfg base first pool chunk pool' chunk') :
    BatchChunk.left chunk' < BatchChunk.left chunk := by
  cases step with
  | checkout => exact Nat.lt_succ_self _
  | build => exact Nat.lt_succ_self _
  | sample _ sampler offset group done seeds next =>
      obtain ⟨inGroup, -⟩ := List.getElem?_eq_some_iff.mp next
      cases ((sampler.reseed (streamSeed base first (offset + done.length))).sample ops g cfg seeds
        none).1 with
      | error e =>
          simp only [BatchChunk.left, Except.map]
          omega
      | ok sub =>
          simp only [BatchChunk.left, Except.map, List.length_append, List.length_singleton]
          omega
  | checkin _ sampler offset group out whole =>
      cases out <;> exact Nat.succ_pos _

/-- Every step of a call in progress leaves fewer. -/
theorem Work.left_lt {b b' : ParallelBatchSampler σ Time} (work : Work ops g cfg b b') :
    b'.left < b.left := by
  cases work with
  | chunk before after first batches left right chunk chunk' pool inFlight step =>
      have := step.left_lt
      unfold ParallelBatchSampler.left
      rw [inFlight]
      simp only [BatchCall.left, List.map_append, List.map_cons, List.sum_append, List.sum_cons]
      omega
  | finish before after call grouped inFlight all =>
      unfold ParallelBatchSampler.left
      rw [inFlight]
      simp only [BatchCall.left, List.map_append, List.map_cons, List.sum_append, List.sum_cons]
      omega

theorem ChunkGood.step {first : Nat} {chunk : BatchChunk σ Time}
    (good : ChunkGood ops g cfg base first chunk) (pool : List (NeighborSampler σ Time)) :
    (∃ out, chunk.state = .done out) ∨
      ∃ pool' chunk', ChunkStep ops g cfg base first pool chunk pool' chunk' := by
  obtain ⟨offset, group, state⟩ := chunk
  cases state with
  | done out => exact .inl ⟨out, rfl⟩
  | waiting =>
      rcases List.eq_nil_or_concat' pool with rfl | ⟨rest, sampler, rfl⟩
      · exact .inr ⟨_, _, .build 0 offset group⟩
      · exact .inr ⟨_, _, .checkout rest sampler offset group⟩
  | running sampler out =>
      obtain ⟨-, k, hk, sampled⟩ := good
      cases out with
      | error e => exact .inr ⟨_, _, .checkin pool sampler offset group _ nofun⟩
      | ok done =>
          have count : done.length = k := by
            rw [sampleEach_length sampled, List.length_take, Nat.min_eq_left hk]
          rcases Nat.lt_or_eq_of_le hk with more | whole
          · have next : group[done.length]? = some group[k] := by
              rw [count, List.getElem?_eq_getElem more]
            exact .inr ⟨_, _, .sample pool sampler offset group done _ next⟩
          · refine .inr ⟨_, _, .checkin pool sampler offset group _ fun done' same => ?_⟩
            cases same
            exact count.trans whole

/-- A call in progress can take a step. -/
theorem Inv.progress {b : ParallelBatchSampler σ Time} (h : Inv ops g cfg base b)
    (inFlight : b.calls ≠ []) : ∃ b', Work ops g cfg b b' := by
  obtain ⟨call, rest, calls⟩ := List.exists_cons_of_ne_nil inFlight
  by_cases all : ∀ c ∈ call.chunks, ∃ out, c.state = .done out
  · have outs : ∃ grouped : List (Except SampleError (List SampledSubgraph)),
        call.chunks.map BatchChunk.state = grouped.map ChunkState.done := by
      clear calls
      generalize call.chunks = chunks at all
      induction chunks with
      | nil => exact ⟨[], rfl⟩
      | cons c chunks ih =>
          obtain ⟨⟨out, state⟩, later⟩ := List.forall_mem_cons.mp all
          obtain ⟨grouped, same⟩ := ih later
          exact ⟨out :: grouped, by rw [List.map_cons, List.map_cons, state, same]⟩
    obtain ⟨grouped, same⟩ := outs
    exact ⟨_, .finish b [] rest call grouped calls same⟩
  · obtain ⟨c, hc, busy⟩ : ∃ c ∈ call.chunks, ¬ ∃ out, c.state = .done out := by
      by_contra none
      exact all fun c hc => by_contra fun busy => none ⟨c, hc, busy⟩
    have good := h.chunks call (calls ▸ List.mem_cons_self) c hc
    obtain ⟨pool', chunk', step⟩ := (good.step b.pool).resolve_left busy
    obtain ⟨left, right, split⟩ := List.append_of_mem hc
    refine ⟨_, .chunk b [] rest call.first call.batches left right c chunk' pool' ?_ ?_⟩
    · rw [calls, ← split]
      rfl
    · rwa [h.baseSeed]

/-- The calls in progress can all return. -/
theorem Inv.drain {b : ParallelBatchSampler σ Time} (h : Inv ops g cfg base b) :
    ∃ b', Relation.ReflTransGen (Work ops g cfg) b b' ∧ b'.calls = [] := by
  by_cases idle : b.calls = []
  · exact ⟨b, .refl, idle⟩
  · obtain ⟨next, work⟩ := h.progress idle
    have smaller := work.left_lt
    obtain ⟨last, run, done⟩ := (h.work work).drain
    exact ⟨last, .head work run, done⟩
termination_by b.left

variable (ops g cfg base)

/-- A sampler reseeded after any history of calls returns what a new one returns, with either
dedup table; so every parallel call returns, for each of its batches in order, what a new
sampler reseeded for the batch's place in the stream returns, and calls in progress can
always be finished. -/
theorem reuse_invisible :
    (∀ (history : List (Call g.numNodes Time)) (dense dense' : Bool) (first seed : Nat)
      (seeds : Seeds) (inputTimes : Option (List Time)),
      ((((fresh dense g.numNodes first : NeighborSampler σ Time).afterCalls g ops
        history).reseed seed).sample ops g cfg seeds inputTimes).1 =
          ((fresh dense' g.numNodes seed : NeighborSampler σ Time).sample ops g cfg seeds
            inputTimes).1) ∧
      ∀ b : ParallelBatchSampler σ Time, Relation.ReflTransGen (Step ops g cfg) (new base) b →
        (∀ ret ∈ b.returned, ret.out = sampleEach (fun k seeds =>
          ((fresh (decide (g.numNodes ≤ denseDedupMaxNodes)) g.numNodes
            (batchSeed base ((ret.first + k) % 2 ^ 64)) : NeighborSampler σ Time).sample ops g cfg
              seeds none).1) 0 ret.batches) ∧
        (∃ b', Relation.ReflTransGen (Work ops g cfg) b b' ∧ b'.calls = []) ∧
        ∀ b', Work ops g cfg b b' → b'.left < b.left := by
  refine ⟨fun history dense dense' first seed seeds inputTimes => ?_, fun b run => ?_⟩
  · exact ((fresh_ready dense g.numNodes first).afterCalls ops history).sample_reseed ops
      (fresh_ready dense' g.numNodes seed) seed seeds inputTimes
  · have inv := Inv.run run
    exact ⟨inv.returned, inv.drain, fun _ work => work.left_lt⟩

end ParallelBatchSampler

end AetherGraph
