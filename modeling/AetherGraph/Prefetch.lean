import AetherGraph.SamplerHistory

/-! The prefetching loader.  Submissions are numbered, sampled by a pool of workers, perhaps
given their features by a second pool, and put back in order for one consumer.  Every
thread takes its steps in any order. -/

namespace AetherGraph

structure Sequenced (α : Type) where
  seq : Nat
  item : α

structure PrefetchWork where
  batchIdx : Nat
  seeds : Seeds

structure SampledWork where
  work : PrefetchWork
  subgraph : SampledSubgraph

/-- `features` is what the feature store returned for the subgraph's nodes, `none` without a
store. -/
structure PrefetchResult (F : Type) where
  batchIdx : Nat
  subgraph : SampledSubgraph
  features : Option F

structure BatchReorder (α : Type) where
  nextSeq : Nat
  pending : List (Sequenced α)

namespace BatchReorder

variable {α : Type}

def popReady (b : BatchReorder α) : Option (α × BatchReorder α) :=
  (b.pending.find? (·.seq = b.nextSeq)).map fun found =>
    (found.item, ⟨b.nextSeq + 1, b.pending.filter (·.seq ≠ b.nextSeq)⟩)

theorem popReady_eq_some {b b' : BatchReorder α} {item : α}
    (ready : b.popReady = some (item, b')) :
    (⟨b.nextSeq, item⟩ : Sequenced α) ∈ b.pending ∧
      b' = ⟨b.nextSeq + 1, b.pending.filter (·.seq ≠ b.nextSeq)⟩ := by
  obtain ⟨⟨seq, own⟩, found, same⟩ := Option.map_eq_some_iff.mp ready
  obtain ⟨rfl, rfl⟩ := Prod.mk.inj same
  have turn := List.find?_some found
  obtain rfl : seq = b.nextSeq := of_decide_eq_true turn
  exact ⟨List.mem_of_find?_eq_some found, rfl⟩

theorem popReady_eq_none {b : BatchReorder α} :
    b.popReady = none ↔ ∀ r ∈ b.pending, r.seq ≠ b.nextSeq := by
  unfold popReady
  rw [Option.map_eq_none_iff, List.find?_eq_none]
  simp only [decide_eq_true_eq, ne_eq]

/-- One entry a number. -/
def insert (b : BatchReorder α) (r : Sequenced α) : BatchReorder α :=
  { b with pending := r :: b.pending.filter (·.seq ≠ r.seq) }

end BatchReorder

inductive SamplerThread (σ Time : Type) where
  | idle (sampler : NeighborSampler σ Time)
  | taken (sampler : NeighborSampler σ Time) (work : Sequenced PrefetchWork)
  | holding (sampler : NeighborSampler σ Time) (item : Sequenced SampledWork)
  | gone

/-- `pending` is the next batch, taken early to hint its rows. -/
inductive FeatureThread (F : Type) where
  | idle (pending : Option (Sequenced SampledWork))
  | loading (work : Sequenced SampledWork) (pending : Option (Sequenced SampledWork))
  | holding (result : Sequenced (PrefetchResult F)) (pending : Option (Sequenced SampledWork))
  | gone

structure Capacities where
  work : Nat
  samples : Nat
  results : Nat
  work_pos : 0 < work
  samples_pos : 0 < samples
  results_pos : 0 < results

/-- The loader's shared state.  The last three fields record its history: the submissions in
the order of their numbers, the numbers whose submit returned, and what the consumer got. -/
structure NeighborLoader (σ Time F : Type) where
  nextSeq : Nat
  submitting : List (Sequenced PrefetchWork)
  workQueue : List (Sequenced PrefetchWork)
  samplers : List (SamplerThread σ Time)
  sampleQueue : List (Sequenced SampledWork)
  featureLoaders : List (FeatureThread F)
  resultQueue : List (Sequenced (PrefetchResult F))
  reorder : BatchReorder (PrefetchResult F)
  stopped : Bool
  submissions : List PrefetchWork
  accepted : List Nat
  delivered : List (PrefetchResult F)

inductive SamplerConfigError where
  | weightsMissing
  | timestampsMissing
  deriving DecidableEq, Repr

def checkConfig {Time : Type} (g : Csr Time) (cfg : SamplingConfig) : Option SamplerConfigError :=
  if cfg.weighted ∧ g.weights.isNone then some .weightsMissing
  else if cfg.temporalStrategy.isSome ∧ g.timestamps.isNone then some .timestampsMissing
  else none

namespace NeighborLoader

variable {σ : Type} [Rng σ] {Time : Type} [LT Time] [DecidableLT Time] [LE Time] [DecidableLE Time]
  [Top Time] {F : Type}

/-- `entropy` seeds each thread's sampler when the config does not.  Feature loaders run only
over a feature store. -/
def new (g : Csr Time) (cfg : SamplingConfig) (load : Option (List Nat → F)) (entropy : Nat → Nat)
    (samplerThreads featureLoaders : Nat) :
    Except SamplerConfigError (NeighborLoader σ Time F) :=
  match checkConfig g cfg with
  | some e => .error e
  | none => .ok {
      nextSeq := 0
      submitting := []
      workQueue := []
      samplers := (List.range (max samplerThreads 1)).map fun t =>
        .idle (NeighborSampler.new g cfg (entropy t))
      sampleQueue := []
      featureLoaders :=
        if load.isSome then List.replicate (max featureLoaders 1) (.idle none) else []
      resultQueue := []
      reorder := ⟨0, []⟩
      stopped := false
      submissions := []
      accepted := []
      delivered := [] }

variable (ops : SliceOps) (g : Csr Time) (cfg : SamplingConfig)
  (load : Option (List Nat → F)) (cap : Capacities)

/-- What a sampler worker makes of a batch. -/
def sampleWork (s : NeighborSampler σ Time) (w : Sequenced PrefetchWork) :
    Except SampleError SampledSubgraph × NeighborSampler σ Time :=
  let s := match cfg.seed with
    | some base => s.reseed (batchSeed base w.seq)
    | none => s
  s.sample ops g cfg w.item.seeds none

/-- A step of a submitter past its claim, of a worker, or of the consumer. -/
inductive Work : NeighborLoader σ Time F → NeighborLoader σ Time F → Prop
  | send (l : NeighborLoader σ Time F) (before after : List (Sequenced PrefetchWork))
      (w : Sequenced PrefetchWork) (claimed : l.submitting = before ++ w :: after)
      (room : l.workQueue.length < cap.work) :
      Work l { l with
        submitting := before ++ after
        workQueue := l.workQueue ++ [w]
        accepted := l.accepted ++ [w.seq] }
  | recvWork (l : NeighborLoader σ Time F) (left right : List (SamplerThread σ Time))
      (s : NeighborSampler σ Time) (w : Sequenced PrefetchWork)
      (rest : List (Sequenced PrefetchWork)) (thread : l.samplers = left ++ .idle s :: right)
      (queue : l.workQueue = w :: rest) :
      Work l { l with samplers := left ++ .taken s w :: right, workQueue := rest }
  | sample (l : NeighborLoader σ Time F) (left right : List (SamplerThread σ Time))
      (s : NeighborSampler σ Time) (w : Sequenced PrefetchWork) (sub : SampledSubgraph)
      (thread : l.samplers = left ++ .taken s w :: right)
      (sampled : (sampleWork ops g cfg s w).1 = .ok sub) :
      Work l { l with
        samplers := left ++
          .holding (sampleWork ops g cfg s w).2 ⟨w.seq, ⟨w.item, sub⟩⟩ :: right }
  | deliverSample (l : NeighborLoader σ Time F) (left right : List (SamplerThread σ Time))
      (s : NeighborSampler σ Time) (r : Sequenced SampledWork)
      (thread : l.samplers = left ++ .holding s r :: right) (store : load.isSome)
      (room : l.sampleQueue.length < cap.samples) :
      Work l { l with
        samplers := left ++ .idle s :: right
        sampleQueue := l.sampleQueue ++ [r] }
  | deliverResult (l : NeighborLoader σ Time F) (left right : List (SamplerThread σ Time))
      (s : NeighborSampler σ Time) (r : Sequenced SampledWork)
      (thread : l.samplers = left ++ .holding s r :: right) (noStore : load = none)
      (room : l.resultQueue.length < cap.results) :
      Work l { l with
        samplers := left ++ .idle s :: right
        resultQueue := l.resultQueue ++
          [⟨r.seq, ⟨r.item.work.batchIdx, r.item.subgraph, none⟩⟩] }
  | recvSample (l : NeighborLoader σ Time F) (left right : List (FeatureThread F))
      (w : Sequenced SampledWork) (rest : List (Sequenced SampledWork))
      (thread : l.featureLoaders = left ++ .idle none :: right) (queue : l.sampleQueue = w :: rest) :
      Work l { l with featureLoaders := left ++ .loading w none :: right, sampleQueue := rest }
  | takePending (l : NeighborLoader σ Time F) (left right : List (FeatureThread F))
      (w : Sequenced SampledWork) (thread : l.featureLoaders = left ++ .idle (some w) :: right) :
      Work l { l with featureLoaders := left ++ .loading w none :: right }
  | takeNext (l : NeighborLoader σ Time F) (left right : List (FeatureThread F))
      (w next : Sequenced SampledWork) (rest : List (Sequenced SampledWork))
      (thread : l.featureLoaders = left ++ .loading w none :: right)
      (queue : l.sampleQueue = next :: rest) :
      Work l { l with
        featureLoaders := left ++ .loading w (some next) :: right
        sampleQueue := rest }
  | getBatch (l : NeighborLoader σ Time F) (left right : List (FeatureThread F))
      (w : Sequenced SampledWork) (pending : Option (Sequenced SampledWork))
      (thread : l.featureLoaders = left ++ .loading w pending :: right)
      (getBatch : List Nat → F) (store : load = some getBatch) :
      Work l { l with
        featureLoaders := left ++ .holding ⟨w.seq, ⟨w.item.work.batchIdx, w.item.subgraph,
          some (getBatch w.item.subgraph.nodes)⟩⟩ pending :: right }
  | deliverFeatures (l : NeighborLoader σ Time F) (left right : List (FeatureThread F))
      (r : Sequenced (PrefetchResult F)) (pending : Option (Sequenced SampledWork))
      (thread : l.featureLoaders = left ++ .holding r pending :: right)
      (room : l.resultQueue.length < cap.results) :
      Work l { l with
        featureLoaders := left ++ .idle pending :: right
        resultQueue := l.resultQueue ++ [r] }
  | tryRecv (l : NeighborLoader σ Time F) (r : Sequenced (PrefetchResult F))
      (rest : List (Sequenced (PrefetchResult F))) (ordered : cfg.seed.isSome)
      (notReady : l.reorder.popReady = none) (queue : l.resultQueue = r :: rest) :
      Work l { l with resultQueue := rest, reorder := l.reorder.insert r }
  | popReady (l : NeighborLoader σ Time F) (item : PrefetchResult F)
      (reorder : BatchReorder (PrefetchResult F)) (ordered : cfg.seed.isSome)
      (ready : l.reorder.popReady = some (item, reorder)) :
      Work l { l with reorder := reorder, delivered := l.delivered ++ [item] }
  | tryRecvUnordered (l : NeighborLoader σ Time F) (r : Sequenced (PrefetchResult F))
      (rest : List (Sequenced (PrefetchResult F))) (unordered : cfg.seed = none)
      (queue : l.resultQueue = r :: rest) :
      Work l { l with resultQueue := rest, delivered := l.delivered ++ [r.item] }

/-- Any step: submits claim numbers, the loader may be stopped, by a shutdown or by a worker
whose sample failed, and once it is stopped submits are refused and workers leave. -/
inductive Step : NeighborLoader σ Time F → NeighborLoader σ Time F → Prop
  | work {l l' : NeighborLoader σ Time F} (work : Work ops g cfg load cap l l') : Step l l'
  | submit (l : NeighborLoader σ Time F) (batchIdx : Nat) (seeds : Seeds)
      (inGraph : seeds.numNodes ≤ g.numNodes) :
      Step l { l with
        nextSeq := l.nextSeq + 1
        submitting := l.submitting ++ [⟨l.nextSeq, ⟨batchIdx, seeds⟩⟩]
        submissions := l.submissions ++ [⟨batchIdx, seeds⟩] }
  | shutdown (l : NeighborLoader σ Time F) : Step l { l with stopped := true }
  | fault (l : NeighborLoader σ Time F) (left right : List (SamplerThread σ Time))
      (s : NeighborSampler σ Time) (w : Sequenced PrefetchWork) (e : SampleError)
      (thread : l.samplers = left ++ .taken s w :: right)
      (failed : (sampleWork ops g cfg s w).1 = .error e) :
      Step l { l with samplers := left ++ .gone :: right, stopped := true }
  | refuse (l : NeighborLoader σ Time F) (before after : List (Sequenced PrefetchWork))
      (w : Sequenced PrefetchWork) (claimed : l.submitting = before ++ w :: after)
      (stopped : l.stopped = true) : Step l { l with submitting := before ++ after }
  | quitSampler (l : NeighborLoader σ Time F) (left right : List (SamplerThread σ Time))
      (t : SamplerThread σ Time) (thread : l.samplers = left ++ t :: right)
      (stopped : l.stopped = true) : Step l { l with samplers := left ++ .gone :: right }
  | quitFeatures (l : NeighborLoader σ Time F) (left right : List (FeatureThread F))
      (t : FeatureThread F) (thread : l.featureLoaders = left ++ t :: right)
      (stopped : l.stopped = true) : Step l { l with featureLoaders := left ++ .gone :: right }

end NeighborLoader

end AetherGraph
