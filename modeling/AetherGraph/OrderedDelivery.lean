import AetherGraph.Prefetch
import Mathlib.Data.Multiset.Range
import Mathlib.Algebra.BigOperators.Group.Multiset.Basic
import Mathlib.Algebra.Order.BigOperators.Group.Multiset

/-! The prefetching loader's batches, followed from their submission to the consumer.  Every
step of the loader's work takes one of them one stage on. -/

namespace AetherGraph

/-- A batch on its way, with the stages ahead of it. -/
inductive InFlight (F : Type) where
  | work (ahead : Nat) (w : Sequenced PrefetchWork)
  | sampled (ahead : Nat) (r : Sequenced SampledWork)
  | result (ahead : Nat) (r : Sequenced (PrefetchResult F))

namespace InFlight

variable {F : Type}

def seq : InFlight F → Nat
  | work _ w => w.seq
  | sampled _ r => r.seq
  | result _ r => r.seq

def ahead : InFlight F → Nat
  | work k _ => k
  | sampled k _ => k
  | result k _ => k

end InFlight

def SamplerThread.inFlight {σ Time : Type} (F : Type) :
    SamplerThread σ Time → Multiset (InFlight F)
  | .idle _ => 0
  | .taken _ w => {.work 8 w}
  | .holding _ r => {.sampled 7 r}
  | .gone => 0

def SamplerThread.Ready {σ Time : Type} (numNodes : Nat) : SamplerThread σ Time → Prop
  | .idle s => s.Ready numNodes
  | .taken s _ => s.Ready numNodes
  | .holding s _ => s.Ready numNodes
  | .gone => True

def FeatureThread.inFlight {F : Type} : FeatureThread F → Multiset (InFlight F)
  | .idle pending => ↑(pending.toList.map (InFlight.sampled (F := F) 5))
  | .loading w pending => .sampled 4 w ::ₘ ↑(pending.toList.map (InFlight.sampled (F := F) 5))
  | .holding r pending => .result 3 r ::ₘ ↑(pending.toList.map (InFlight.sampled (F := F) 5))
  | .gone => 0

namespace NeighborLoader

section Flight

variable {σ Time F : Type}

/-- Every batch submitted and not delivered. -/
def inFlight (l : NeighborLoader σ Time F) : Multiset (InFlight F) :=
  ↑(l.submitting.map (InFlight.work (F := F) 10)) + ↑(l.workQueue.map (InFlight.work (F := F) 9)) +
    (l.samplers.map (SamplerThread.inFlight F)).sum + ↑(l.sampleQueue.map (InFlight.sampled (F := F) 6)) +
    (l.featureLoaders.map FeatureThread.inFlight).sum +
    ↑(l.resultQueue.map (InFlight.result 2)) + ↑(l.reorder.pending.map (InFlight.result 1))

/-- Stages ahead of the batches in flight. -/
def left (l : NeighborLoader σ Time F) : Nat := (l.inFlight.map InFlight.ahead).sum

/-- Dropping the pending batches of a number loses no other, and none if no batch has it. -/
theorem inFlight_filter (l : NeighborLoader σ Time F) (n m k : Nat)
    (pending : List (Sequenced (PrefetchResult F))) :
    inFlight { l with reorder := ⟨m, pending.filter (·.seq ≠ k)⟩ } ≤
        inFlight { l with reorder := ⟨n, pending⟩ } ∧
      (k ∉ (inFlight { l with reorder := ⟨n, pending⟩ }).map InFlight.seq →
        inFlight { l with reorder := ⟨m, pending.filter (·.seq ≠ k)⟩ } =
          inFlight { l with reorder := ⟨n, pending⟩ }) := by
  constructor
  · refine add_le_add_right (Multiset.coe_le.mpr ?_) _
    exact (List.filter_sublist.map _).subperm
  · intro absent
    have all : pending.filter (·.seq ≠ k) = pending := by
      refine List.filter_eq_self.mpr fun r hr => decide_eq_true fun same => absent ?_
      refine Multiset.mem_map.mpr ⟨.result 1 r, ?_, same⟩
      exact Multiset.mem_add.mpr (.inr (List.mem_map_of_mem hr))
    unfold inFlight
    rw [all]

/-- What a step of the loader's work does to the batches in flight: one of them goes a stage
on, or to the consumer in its turn. -/
inductive Moves (right right' : InFlight F → Prop) (l l' : NeighborLoader σ Time F) : Prop
  | on (b b' : InFlight F) (rest rest' : Multiset (InFlight F)) (before : l.inFlight = b ::ₘ rest)
      (after : l'.inFlight = b' ::ₘ rest') (sub : rest' ≤ rest)
      (same : b.seq ∉ rest.map InFlight.seq → rest' = rest) (seq : b'.seq = b.seq)
      (closer : b'.ahead < b.ahead) (kept : right b → right' b')
      (turn : l'.reorder.nextSeq = l.reorder.nextSeq) (delivered : l'.delivered = l.delivered)
  | out (ahead : Nat) (item : PrefetchResult F) (rest : Multiset (InFlight F))
      (before : l.inFlight = .result (ahead + 1) ⟨l.reorder.nextSeq, item⟩ ::ₘ rest)
      (sub : l'.inFlight ≤ rest)
      (same : l.reorder.nextSeq ∉ rest.map InFlight.seq → l'.inFlight = rest)
      (turn : l'.reorder.nextSeq = l.reorder.nextSeq + 1)
      (delivered : l'.delivered = l.delivered ++ [item])

theorem Moves.delivered {right right' : InFlight F → Prop} {l l' : NeighborLoader σ Time F}
    (moves : Moves right right' l l') (turn : l.delivered.length = l.reorder.nextSeq) :
    l'.delivered.length = l'.reorder.nextSeq := by
  cases moves with
  | on b b' rest rest' before after sub same seq closer kept turn' delivered =>
      rw [delivered, turn, turn']
  | out ahead item rest before sub same turn' delivered =>
      rw [delivered, turn', List.length_append, turn]
      rfl

theorem Moves.whole {right right' : InFlight F → Prop} {l l' : NeighborLoader σ Time F}
    (moves : Moves right right' l l') {n : Nat}
    (whole : l.inFlight.map InFlight.seq + Multiset.range l.reorder.nextSeq = Multiset.range n) :
    l'.inFlight.map InFlight.seq + Multiset.range l'.reorder.nextSeq = Multiset.range n := by
  -- a number is in flight once, so a step drops no batch
  have once : ∀ {b : InFlight F} {rest : Multiset (InFlight F)}, l.inFlight = b ::ₘ rest →
      b.seq ∉ rest.map InFlight.seq := by
    intro b rest before
    have nodup := Multiset.nodup_range n
    rw [← whole, before, Multiset.map_cons] at nodup
    exact (Multiset.nodup_cons.mp (Multiset.nodup_add.mp nodup).1).1
  cases moves with
  | on b b' rest rest' before after sub same seq closer kept turn delivered =>
      rw [after, same (once before), Multiset.map_cons, seq, turn, ← Multiset.map_cons, ← before,
        whole]
  | out ahead item rest before sub same turn delivered =>
      rw [before, Multiset.map_cons] at whole
      rw [same (once before), turn, Multiset.range_succ, Multiset.add_cons, ← whole,
        Multiset.cons_add]
      rfl

theorem Moves.left_lt {right right' : InFlight F → Prop} {l l' : NeighborLoader σ Time F}
    (moves : Moves right right' l l') : l'.left < l.left := by
  have fewer : ∀ {a b : Multiset (InFlight F)}, a ≤ b →
      (a.map InFlight.ahead).sum ≤ (b.map InFlight.ahead).sum := by
    intro a b sub
    obtain ⟨more, rfl⟩ := Multiset.le_iff_exists_add.mp sub
    rw [Multiset.map_add, Multiset.sum_add]
    exact Nat.le_add_right _ _
  unfold left
  cases moves with
  | on b b' rest rest' before after sub same seq closer kept turn delivered =>
      have := fewer sub
      rw [before, after, Multiset.map_cons, Multiset.map_cons, Multiset.sum_cons,
        Multiset.sum_cons]
      omega
  | out ahead item rest before sub same turn delivered =>
      have := fewer sub
      rw [before, Multiset.map_cons, Multiset.sum_cons]
      simp only [InFlight.ahead]
      omega

theorem inFlight_idle {l : NeighborLoader σ Time F} (submitting : l.submitting = [])
    (workQueue : l.workQueue = []) (samplers : ∀ t ∈ l.samplers, t.inFlight F = 0)
    (sampleQueue : l.sampleQueue = []) (loaders : ∀ t ∈ l.featureLoaders, t.inFlight = 0)
    (resultQueue : l.resultQueue = []) :
    l.inFlight = ↑(l.reorder.pending.map (InFlight.result 1)) := by
  have idle : (l.samplers.map (SamplerThread.inFlight F)).sum = 0 :=
    List.sum_eq_zero fun x hx => by
      obtain ⟨t, ht, rfl⟩ := List.mem_map.mp hx
      exact samplers t ht
  have idle' : (l.featureLoaders.map FeatureThread.inFlight).sum = 0 :=
    List.sum_eq_zero fun x hx => by
      obtain ⟨t, ht, rfl⟩ := List.mem_map.mp hx
      exact loaders t ht
  simp only [inFlight, submitting, workQueue, sampleQueue, resultQueue, idle, idle', List.map_nil,
    Multiset.coe_nil, zero_add]

end Flight

variable {σ : Type} [Rng σ] {Time : Type} [LT Time] [DecidableLT Time] [LE Time] [DecidableLE Time]
  [Top Time] {F : Type}

variable (ops : SliceOps) (g : Csr Time) (cfg : SamplingConfig) (load : Option (List Nat → F))
  (base : Nat)

/-- The sample of a new sampler seeded for the submission's number. -/
def fromFresh (seq : Nat) (seeds : Seeds) : Except SampleError SampledSubgraph :=
  ((NeighborSampler.fresh (decide (g.numNodes ≤ NeighborSampler.denseDedupMaxNodes)) g.numNodes
    (batchSeed base seq) : NeighborSampler σ Time).sample ops g cfg seeds none).1

/-- What the consumer is to get for a submission: its sample from a new sampler, with the
features of the sampled nodes. -/
def IsBatch (subs : List PrefetchWork) (acc : List Nat) (r : Sequenced (PrefetchResult F)) :
    Prop :=
  r.seq ∈ acc ∧ ∃ w sub, subs[r.seq]? = some w ∧
    fromFresh (σ := σ) ops g cfg base r.seq w.seeds = .ok sub ∧
    r.item = ⟨w.batchIdx, sub, load.map fun getBatch => getBatch sub.nodes⟩

/-- A batch on its way is what has been made of its submission so far. -/
def Right (subs : List PrefetchWork) (acc : List Nat) : InFlight F → Prop
  | .work ahead w => subs[w.seq]? = some w.item ∧ (ahead < 10 → w.seq ∈ acc)
  | .sampled _ r => r.seq ∈ acc ∧ subs[r.seq]? = some r.item.work ∧
      fromFresh (σ := σ) ops g cfg base r.seq r.item.work.seeds = .ok r.item.subgraph
  | .result _ r => IsBatch (σ := σ) ops g cfg load base subs acc r

variable {ops g cfg load base} {cap : Capacities}

theorem IsBatch.grow {subs subs' : List PrefetchWork} {acc acc' : List Nat}
    {r : Sequenced (PrefetchResult F)} (h : IsBatch (σ := σ) ops g cfg load base subs acc r)
    (grown : ∀ (i : Nat) (w : PrefetchWork), subs[i]? = some w → subs'[i]? = some w) (accepted : acc ⊆ acc') :
    IsBatch (σ := σ) ops g cfg load base subs' acc' r := by
  obtain ⟨known, w, sub, submitted, made⟩ := h
  exact ⟨accepted known, w, sub, grown _ _ submitted, made⟩

theorem Right.grow {subs subs' : List PrefetchWork} {acc acc' : List Nat} {b : InFlight F}
    (h : Right (σ := σ) ops g cfg load base subs acc b)
    (grown : ∀ (i : Nat) (w : PrefetchWork), subs[i]? = some w → subs'[i]? = some w) (accepted : acc ⊆ acc') : Right (σ := σ) ops g cfg load base subs' acc' b := by
  cases b with
  | work ahead w => exact ⟨grown _ _ h.1, fun on => accepted (h.2 on)⟩
  | sampled ahead r => exact ⟨accepted h.1, grown _ _ h.2.1, h.2.2⟩
  | result ahead r => exact IsBatch.grow h grown accepted

theorem sampleWork_seeded (seeded : cfg.seed = some base) {s : NeighborSampler σ Time}
    (ready : s.Ready g.numNodes) (w : Sequenced PrefetchWork) :
    (sampleWork ops g cfg s w).1 = fromFresh (σ := σ) ops g cfg base w.seq w.item.seeds ∧
      (sampleWork ops g cfg s w).2.Ready g.numNodes := by
  unfold sampleWork
  rw [seeded]
  exact ⟨ready.sample_reseed ops (NeighborSampler.fresh_ready _ _ 0) _ w.item.seeds none,
    ((ready.reseed _).sample ops w.item.seeds none).2.1⟩

variable (base) in
theorem Work.moves {l l' : NeighborLoader σ Time F} (work : Work ops g cfg load cap l l')
    (seeded : cfg.seed = some base) (ready : ∀ t ∈ l.samplers, t.Ready g.numNodes) :
    Moves (Right (σ := σ) ops g cfg load base l.submissions l.accepted)
      (Right (σ := σ) ops g cfg load base l'.submissions l'.accepted) l l' := by
  cases work with
  | send before after w claimed room =>
      refine .on (.work 10 w) (.work 9 w)
        (inFlight { l with submitting := before ++ after }) _ ?_ ?_ le_rfl (fun _ => rfl) rfl
        (by simp only [InFlight.ahead]; omega) (fun right => ⟨right.1, fun _ => List.mem_append_right _ List.mem_cons_self⟩) rfl rfl
      all_goals
        simp only [inFlight, claimed, List.map_append, List.map_cons, List.map_nil,
          Multiset.coe_nil, add_zero, ← Multiset.coe_add, ← Multiset.cons_coe,
          ← Multiset.singleton_add]
        ac_rfl
  | recvWork left right s w rest thread queue =>
      refine .on (.work 9 w) (.work 8 w)
        (inFlight { l with samplers := left ++ .idle s :: right, workQueue := rest }) _ ?_ ?_ le_rfl (fun _ => rfl) rfl
        (by simp only [InFlight.ahead]; omega) (fun right => ⟨right.1, fun _ => right.2 (Nat.lt_succ_self 9)⟩) rfl rfl
      all_goals
        simp only [inFlight, thread, queue, List.map_append, List.map_cons, List.sum_append,
          List.sum_cons, SamplerThread.inFlight, ← Multiset.cons_coe, zero_add,
          ← Multiset.singleton_add]
        ac_rfl
  | sample left right s w sub thread sampled =>
      have own : s.Ready g.numNodes := by
        rw [thread] at ready
        exact ready _ (List.mem_append_right _ List.mem_cons_self)
      rw [(sampleWork_seeded seeded own w).1] at sampled
      have made : Right (σ := σ) ops g cfg load base l.submissions l.accepted (.work 8 w) →
          Right (σ := σ) ops g cfg load base l.submissions l.accepted
            (.sampled 7 ⟨w.seq, ⟨w.item, sub⟩⟩) :=
        fun right => ⟨right.2 (by omega), right.1, sampled⟩
      refine .on (.work 8 w) (.sampled 7 ⟨w.seq, ⟨w.item, sub⟩⟩)
        (inFlight { l with samplers := left ++ right }) _ ?_ ?_ le_rfl (fun _ => rfl) rfl
        (by simp only [InFlight.ahead]; omega) made rfl rfl
      all_goals
        simp only [inFlight, thread, List.map_append, List.map_cons, List.sum_append,
          List.sum_cons, SamplerThread.inFlight, ← Multiset.singleton_add]
        ac_rfl
  | deliverSample left right s r thread store room =>
      refine .on (.sampled 7 r) (.sampled 6 r)
        (inFlight { l with samplers := left ++ .idle s :: right }) _ ?_ ?_ le_rfl (fun _ => rfl) rfl
        (by simp only [InFlight.ahead]; omega) id rfl rfl
      all_goals
        simp only [inFlight, thread, List.map_append, List.map_cons, List.sum_append,
          List.sum_cons, SamplerThread.inFlight, List.map_nil, Multiset.coe_singleton,
          ← Multiset.coe_add, zero_add, ← Multiset.singleton_add]
        ac_rfl
  | deliverResult left right s r thread noStore room =>
      refine .on (.sampled 7 r) (.result 2 ⟨r.seq, ⟨r.item.work.batchIdx, r.item.subgraph, none⟩⟩)
        (inFlight { l with samplers := left ++ .idle s :: right }) _ ?_ ?_ le_rfl (fun _ => rfl) rfl
        (by simp only [InFlight.ahead]; omega) (fun right => ⟨right.1, r.item.work, r.item.subgraph, right.2.1, right.2.2, by
          rw [noStore]; rfl⟩) rfl rfl
      all_goals
        simp only [inFlight, thread, List.map_append, List.map_cons, List.sum_append,
          List.sum_cons, SamplerThread.inFlight, List.map_nil, Multiset.coe_singleton,
          ← Multiset.coe_add, zero_add, ← Multiset.singleton_add]
        ac_rfl
  | recvSample left right w rest thread queue =>
      refine .on (.sampled 6 w) (.sampled 4 w)
        (inFlight { l with featureLoaders := left ++ .idle none :: right, sampleQueue := rest }) _ ?_ ?_ le_rfl (fun _ => rfl) rfl
        (by simp only [InFlight.ahead]; omega) id rfl rfl
      all_goals
        simp only [inFlight, thread, queue, List.map_append, List.map_cons, List.sum_append,
          List.sum_cons, FeatureThread.inFlight, ← Multiset.cons_coe, ← Multiset.singleton_add]
        ac_rfl
  | takePending left right w thread =>
      refine .on (.sampled 5 w) (.sampled 4 w)
        (inFlight { l with featureLoaders := left ++ right }) _ ?_ ?_ le_rfl (fun _ => rfl) rfl
        (by simp only [InFlight.ahead]; omega) id rfl rfl
      all_goals
        simp only [inFlight, thread, List.map_append, List.map_cons, List.sum_append,
          List.sum_cons, FeatureThread.inFlight, Option.toList_some, Option.toList_none,
          List.map_nil, Multiset.coe_nil, add_zero, ← Multiset.cons_coe, ← Multiset.singleton_add]
        ac_rfl
  | takeNext left right w next rest thread queue =>
      refine .on (.sampled 6 next) (.sampled 5 next)
        (inFlight { l with featureLoaders := left ++ .loading w none :: right, sampleQueue := rest }) _ ?_ ?_ le_rfl (fun _ => rfl) rfl
        (by simp only [InFlight.ahead]; omega) id rfl rfl
      all_goals
        simp only [inFlight, thread, queue, List.map_append, List.map_cons, List.sum_append,
          List.sum_cons, FeatureThread.inFlight, Option.toList_some, Option.toList_none,
          List.map_nil, Multiset.coe_nil, add_zero, ← Multiset.cons_coe, ← Multiset.singleton_add]
        ac_rfl
  | getBatch left right w pending thread getBatch store =>
      refine .on (.sampled 4 w) (.result 3 ⟨w.seq, ⟨w.item.work.batchIdx, w.item.subgraph,
        some (getBatch w.item.subgraph.nodes)⟩⟩)
        (inFlight { l with featureLoaders := left ++ .idle pending :: right }) _ ?_ ?_ le_rfl (fun _ => rfl) rfl
        (by simp only [InFlight.ahead]; omega) (fun right => ⟨right.1, w.item.work, w.item.subgraph, right.2.1, right.2.2, by
          rw [store]; rfl⟩) rfl rfl
      all_goals
        simp only [inFlight, thread, List.map_append, List.map_cons, List.sum_append,
          List.sum_cons, FeatureThread.inFlight, ← Multiset.singleton_add]
        ac_rfl
  | deliverFeatures left right r pending thread room =>
      refine .on (.result 3 r) (.result 2 r)
        (inFlight { l with featureLoaders := left ++ .idle pending :: right }) _ ?_ ?_ le_rfl (fun _ => rfl) rfl
        (by simp only [InFlight.ahead]; omega) id rfl rfl
      all_goals
        simp only [inFlight, thread, List.map_append, List.map_cons, List.sum_append,
          List.sum_cons, FeatureThread.inFlight, List.map_nil, Multiset.coe_singleton,
          ← Multiset.coe_add, ← Multiset.singleton_add]
        ac_rfl
  | tryRecv r rest ordered notReady queue =>
      obtain ⟨sub, same⟩ := inFlight_filter { l with resultQueue := rest } l.reorder.nextSeq
        l.reorder.nextSeq r.seq l.reorder.pending
      refine .on (.result 2 r) (.result 1 r) (inFlight { l with resultQueue := rest }) _ ?_ ?_ sub
        same rfl (Nat.lt_succ_self 1) id rfl rfl
      · simp only [inFlight, queue, List.map_cons, ← Multiset.cons_coe, ← Multiset.singleton_add]
        ac_rfl
      · simp only [inFlight, BatchReorder.insert, List.map_cons, ← Multiset.cons_coe,
          ← Multiset.singleton_add]
        ac_rfl
  | popReady item reorder ordered ready =>
      obtain ⟨here, rfl⟩ := BatchReorder.popReady_eq_some ready
      obtain ⟨left, right, split⟩ := List.append_of_mem here
      obtain ⟨sub, same⟩ := inFlight_filter l l.reorder.nextSeq
        (l.reorder.nextSeq + 1) l.reorder.nextSeq (left ++ right)
      have dropped : l.reorder.pending.filter (·.seq ≠ l.reorder.nextSeq) =
          (left ++ right).filter (·.seq ≠ l.reorder.nextSeq) := by
        rw [split]
        simp
      refine .out 0 item (inFlight { l with reorder := ⟨l.reorder.nextSeq, left ++ right⟩ }) ?_ ?_ ?_
        rfl rfl
      · simp only [inFlight, split, List.map_append, List.map_cons, ← Multiset.coe_add,
          ← Multiset.cons_coe, ← Multiset.singleton_add]
        ac_rfl
      · rw [dropped]
        exact sub
      · rw [dropped]
        exact same
  | tryRecvUnordered r rest unordered queue =>
      rw [seeded] at unordered
      cases unordered

theorem Work.frame {l l' : NeighborLoader σ Time F} (work : Work ops g cfg load cap l l') :
    l'.nextSeq = l.nextSeq ∧ l'.submissions = l.submissions ∧ l'.stopped = l.stopped ∧
      l.accepted ⊆ l'.accepted := by
  cases work with
  | send => exact ⟨rfl, rfl, rfl, List.subset_append_left _ _⟩
  | _ => exact ⟨rfl, rfl, rfl, fun _ => id⟩

theorem Work.ready {l l' : NeighborLoader σ Time F} (work : Work ops g cfg load cap l l')
    (seeded : cfg.seed = some base) (ready : ∀ t ∈ l.samplers, t.Ready g.numNodes) :
    ∀ t ∈ l'.samplers, t.Ready g.numNodes := by
  have replace : ∀ {left right : List (SamplerThread σ Time)} {t t' : SamplerThread σ Time},
      l.samplers = left ++ t :: right → (t.Ready g.numNodes → t'.Ready g.numNodes) →
      ∀ u ∈ left ++ t' :: right, u.Ready g.numNodes := by
    intro left right t t' thread kept
    rw [thread] at ready
    obtain ⟨before, here⟩ := List.forall_mem_append.mp ready
    obtain ⟨own, after⟩ := List.forall_mem_cons.mp here
    exact List.forall_mem_append.mpr ⟨before, List.forall_mem_cons.mpr ⟨kept own, after⟩⟩
  cases work with
  | recvWork left right s w rest thread queue => exact replace thread id
  | sample left right s w sub thread sampled =>
      exact replace thread fun own => (sampleWork_seeded seeded own w).2
  | deliverSample left right s r thread store room => exact replace thread id
  | deliverResult left right s r thread noStore room => exact replace thread id
  | _ => exact ready

variable (load) in
/-- No thread has left, and every pool the loader needs has one. -/
structure Staffed (l : NeighborLoader σ Time F) : Prop where
  samplers : l.samplers ≠ []
  sampling : ∀ t ∈ l.samplers, t ≠ .gone
  featureLoaders : load.isSome → l.featureLoaders ≠ []
  loading : ∀ t ∈ l.featureLoaders, t ≠ .gone

theorem forall_ne_replace {α : Type} {gone t t' : α} {left right : List α}
    (here : ∀ u ∈ left ++ t :: right, u ≠ gone) (stays : t' ≠ gone) :
    ∀ u ∈ left ++ t' :: right, u ≠ gone := by
  obtain ⟨before, rest⟩ := List.forall_mem_append.mp here
  obtain ⟨-, after⟩ := List.forall_mem_cons.mp rest
  exact List.forall_mem_append.mpr ⟨before, List.forall_mem_cons.mpr ⟨stays, after⟩⟩

theorem Staffed.work {l l' : NeighborLoader σ Time F} (h : Staffed load l)
    (work : Work ops g cfg load cap l l') : Staffed load l' := by
  have samplers : ∀ (t' : SamplerThread σ Time) {left right : List (SamplerThread σ Time)}
      {t : SamplerThread σ Time},
      l.samplers = left ++ t :: right → t' ≠ .gone →
      left ++ t' :: right ≠ [] ∧ ∀ u ∈ left ++ t' :: right, u ≠ .gone := by
    intro t' left right t thread stays
    exact ⟨by simp, forall_ne_replace (thread ▸ h.sampling) stays⟩
  have loaders : ∀ (t' : FeatureThread F) {left right : List (FeatureThread F)}
      {t : FeatureThread F},
      l.featureLoaders = left ++ t :: right → t' ≠ .gone →
      (load.isSome → left ++ t' :: right ≠ []) ∧ ∀ u ∈ left ++ t' :: right, u ≠ .gone := by
    intro t' left right t thread stays
    exact ⟨fun _ => by simp, forall_ne_replace (thread ▸ h.loading) stays⟩
  cases work with
  | recvWork left right s w rest thread queue =>
      exact { h with
        samplers := (samplers (.taken s w) thread nofun).1
        sampling := (samplers (.taken s w) thread nofun).2 }
  | sample left right s w sub thread sampled =>
      exact { h with
        samplers := (samplers (.holding _ _) thread nofun).1
        sampling := (samplers (.holding _ _) thread nofun).2 }
  | deliverSample left right s r thread store room =>
      exact { h with
        samplers := (samplers (.idle s) thread nofun).1
        sampling := (samplers (.idle s) thread nofun).2 }
  | deliverResult left right s r thread noStore room =>
      exact { h with
        samplers := (samplers (.idle s) thread nofun).1
        sampling := (samplers (.idle s) thread nofun).2 }
  | recvSample left right w rest thread queue =>
      exact { h with
        featureLoaders := (loaders (.loading w none) thread nofun).1
        loading := (loaders (.loading w none) thread nofun).2 }
  | takePending left right w thread =>
      exact { h with
        featureLoaders := (loaders (.loading w none) thread nofun).1
        loading := (loaders (.loading w none) thread nofun).2 }
  | takeNext left right w next rest thread queue =>
      exact { h with
        featureLoaders := (loaders (.loading w (some next)) thread nofun).1
        loading := (loaders (.loading w (some next)) thread nofun).2 }
  | getBatch left right w pending thread getBatch store =>
      exact { h with
        featureLoaders := (loaders (.holding _ pending) thread nofun).1
        loading := (loaders (.holding _ pending) thread nofun).2 }
  | deliverFeatures left right r pending thread room =>
      exact { h with
        featureLoaders := (loaders (.idle pending) thread nofun).1
        loading := (loaders (.idle pending) thread nofun).2 }
  | _ => exact { h with }

variable (ops g cfg load base) in
/-- What holds between steps. -/
structure Inv (l : NeighborLoader σ Time F) : Prop where
  claimed : l.nextSeq = l.submissions.length
  inGraph : ∀ w ∈ l.submissions, w.seeds.numNodes ≤ g.numNodes
  known : ∀ i ∈ l.accepted, i < l.submissions.length
  ready : ∀ t ∈ l.samplers, t.Ready g.numNodes
  noStore : load = none → l.featureLoaders = [] ∧ l.sampleQueue = []
  right : ∀ b ∈ l.inFlight, Right (σ := σ) ops g cfg load base l.submissions l.accepted b
  turn : l.delivered.length = l.reorder.nextSeq
  delivered : ∀ i r, l.delivered[i]? = some r →
    IsBatch (σ := σ) ops g cfg load base l.submissions l.accepted ⟨i, r⟩
  staffed : l.stopped = false → Staffed load l
  whole : l.stopped = false → l.inFlight.map InFlight.seq + Multiset.range l.reorder.nextSeq =
    Multiset.range l.submissions.length

theorem Work.noStore {l l' : NeighborLoader σ Time F} (work : Work ops g cfg load cap l l')
    (store : load = none) (h : l.featureLoaders = [] ∧ l.sampleQueue = []) :
    l'.featureLoaders = [] ∧ l'.sampleQueue = [] := by
  have empty : ∀ {left right : List (FeatureThread F)} {t : FeatureThread F},
      l.featureLoaders = left ++ t :: right → False := by
    intro left right t thread
    rw [h.1] at thread
    exact List.append_ne_nil_of_right_ne_nil left (List.cons_ne_nil t right) thread.symm
  cases work with
  | deliverSample left right s r thread some room =>
      rw [store] at some
      cases some
  | recvSample left right w rest thread queue => exact (empty thread).elim
  | takePending left right w thread => exact (empty thread).elim
  | takeNext left right w next rest thread queue => exact (empty thread).elim
  | getBatch left right w pending thread getBatch some => exact (empty thread).elim
  | deliverFeatures left right r pending thread room => exact (empty thread).elim
  | _ => exact h

theorem Inv.known_work {l l' : NeighborLoader σ Time F} (h : Inv ops g cfg load base l)
    (work : Work ops g cfg load cap l l') : ∀ i ∈ l'.accepted, i < l.submissions.length := by
  cases work with
  | send before after w claimed room =>
      refine List.forall_mem_append.mpr ⟨h.known, fun i hi => ?_⟩
      obtain rfl := List.mem_singleton.mp hi
      have here : InFlight.work 10 w ∈ l.inFlight := by
        have queued : InFlight.work (F := F) 10 w ∈ l.submitting.map (InFlight.work 10) := by
          rw [claimed]
          exact List.mem_map_of_mem (List.mem_append_right _ List.mem_cons_self)
        simp only [inFlight, Multiset.mem_add, Multiset.mem_coe]
        tauto
      obtain ⟨inside, -⟩ := List.getElem?_eq_some_iff.mp (h.right _ here).1
      exact inside
  | _ => exact h.known

theorem Inv.work {l l' : NeighborLoader σ Time F} (h : Inv ops g cfg load base l)
    (seeded : cfg.seed = some base) (work : Work ops g cfg load cap l l') :
    Inv ops g cfg load base l' := by
  have moves := work.moves base seeded h.ready
  obtain ⟨next, subs, stopped, accepted⟩ := work.frame
  have grow : ∀ (i : Nat) (w : PrefetchWork), l.submissions[i]? = some w →
      l'.submissions[i]? = some w := subs ▸ fun _ _ => id
  refine ⟨by rw [next, subs, h.claimed], subs ▸ h.inGraph, subs ▸ h.known_work work,
    work.ready seeded h.ready, fun store => work.noStore store (h.noStore store), ?_,
    moves.delivered h.turn, ?_, fun running => (h.staffed (stopped ▸ running)).work work,
    fun running => subs ▸ moves.whole (h.whole (stopped ▸ running))⟩
  · cases moves with
    | on b b' rest rest' before after sub same seq closer kept turn delivered =>
        have right := h.right
        rw [before] at right
        obtain ⟨here, others⟩ := Multiset.forall_mem_cons.mp right
        rw [after]
        exact Multiset.forall_mem_cons.mpr ⟨kept here, fun c hc =>
          (others c (Multiset.mem_of_le sub hc)).grow grow accepted⟩
    | out ahead item rest before sub same turn delivered =>
        have right := h.right
        rw [before] at right
        obtain ⟨-, others⟩ := Multiset.forall_mem_cons.mp right
        exact fun c hc => (others c (Multiset.mem_of_le sub hc)).grow grow accepted
  · cases moves with
    | on b b' rest rest' before after sub same seq closer kept turn delivered =>
        intro i r got
        rw [delivered] at got
        exact (h.delivered i r got).grow grow accepted
    | out ahead item rest before sub same turn delivered =>
        intro i r got
        rw [delivered, List.getElem?_append] at got
        split at got
        · exact (h.delivered i r got).grow grow accepted
        · have last : i = l.delivered.length ∧ r = item := by
            rw [List.getElem?_singleton] at got
            split at got
            · exact ⟨by omega, (Option.some.inj got).symm⟩
            · cases got
          obtain ⟨rfl, rfl⟩ := last
          have here := h.right (.result (ahead + 1) ⟨l.reorder.nextSeq, r⟩)
            (before ▸ Multiset.mem_cons_self _ _)
          rw [h.turn]
          exact IsBatch.grow here grow accepted

/-- Stopping, and losing batches once stopped. -/
theorem Inv.stop {l l' : NeighborLoader σ Time F} (h : Inv ops g cfg load base l)
    (stopped : l'.stopped = true) (next : l'.nextSeq = l.nextSeq)
    (subs : l'.submissions = l.submissions) (accepted : l'.accepted = l.accepted)
    (reorder : l'.reorder = l.reorder) (delivered : l'.delivered = l.delivered)
    (ready : ∀ t ∈ l'.samplers, t.Ready g.numNodes)
    (noStore : load = none → l'.featureLoaders = [] ∧ l'.sampleQueue = [])
    (lost : l'.inFlight ≤ l.inFlight) : Inv ops g cfg load base l' := by
  have running : l'.stopped ≠ false := by
    rw [stopped]
    exact Bool.noConfusion
  refine ⟨by rw [next, subs, h.claimed], subs ▸ h.inGraph, ?_, ready, noStore, ?_, ?_, ?_,
    fun run => absurd run running, fun run => absurd run running⟩
  · rw [accepted, subs]
    exact h.known
  · rw [accepted, subs]
    exact fun b hb => h.right b (Multiset.mem_of_le lost hb)
  · rw [delivered, reorder]
    exact h.turn
  · rw [delivered, accepted, subs]
    exact h.delivered

theorem Inv.submit {l : NeighborLoader σ Time F} (h : Inv ops g cfg load base l)
    (batchIdx : Nat) (seeds : Seeds) (inGraph : seeds.numNodes ≤ g.numNodes) :
    Inv ops g cfg load base { l with
      nextSeq := l.nextSeq + 1
      submitting := l.submitting ++ [⟨l.nextSeq, ⟨batchIdx, seeds⟩⟩]
      submissions := l.submissions ++ [⟨batchIdx, seeds⟩] } := by
  have grow : ∀ (i : Nat) (w : PrefetchWork), l.submissions[i]? = some w →
      (l.submissions ++ [⟨batchIdx, seeds⟩])[i]? = some w := by
    intro i w submitted
    obtain ⟨inside, -⟩ := List.getElem?_eq_some_iff.mp submitted
    rwa [List.getElem?_append_left inside]
  have flight : inFlight { l with
      nextSeq := l.nextSeq + 1
      submitting := l.submitting ++ [⟨l.nextSeq, ⟨batchIdx, seeds⟩⟩]
      submissions := l.submissions ++ [⟨batchIdx, seeds⟩] } =
        .work 10 ⟨l.nextSeq, ⟨batchIdx, seeds⟩⟩ ::ₘ l.inFlight := by
    simp only [inFlight, List.map_append, List.map_cons, List.map_nil, Multiset.coe_singleton,
      ← Multiset.coe_add, ← Multiset.singleton_add]
    ac_rfl
  refine ⟨?_, ?_, ?_, h.ready, h.noStore, ?_, h.turn, ?_, fun running => ?_, fun running => ?_⟩
  · rw [h.claimed, List.length_append]
    rfl
  · exact List.forall_mem_append.mpr ⟨h.inGraph, fun w hw => List.mem_singleton.mp hw ▸ inGraph⟩
  · intro i hi
    have := h.known i hi
    rw [List.length_append]
    omega
  · rw [flight]
    refine Multiset.forall_mem_cons.mpr ⟨⟨?_, fun less => absurd less (lt_irrefl 10)⟩,
      fun b hb => (h.right b hb).grow grow fun _ => id⟩
    rw [h.claimed, List.getElem?_append_right le_rfl, Nat.sub_self]
    rfl
  · exact fun i r got => (h.delivered i r got).grow grow fun _ => id
  · exact { h.staffed running with }
  · have whole := h.whole running
    rw [flight, Multiset.map_cons, Multiset.cons_add, whole, List.length_append,
      List.length_singleton, Multiset.range_succ]
    exact congrArg (· ::ₘ Multiset.range l.submissions.length) h.claimed

theorem Inv.step {l l' : NeighborLoader σ Time F} (h : Inv ops g cfg load base l)
    (seeded : cfg.seed = some base) (step : Step ops g cfg load cap l l') :
    Inv ops g cfg load base l' := by
  have leaves : ∀ {left right : List (SamplerThread σ Time)} {t : SamplerThread σ Time},
      l.samplers = left ++ t :: right →
      ∀ u ∈ left ++ .gone :: right, SamplerThread.Ready g.numNodes u := by
    intro left right t thread
    have ready := h.ready
    rw [thread] at ready
    obtain ⟨before, here⟩ := List.forall_mem_append.mp ready
    obtain ⟨-, after⟩ := List.forall_mem_cons.mp here
    exact List.forall_mem_append.mpr ⟨before, List.forall_mem_cons.mpr ⟨trivial, after⟩⟩
  cases step with
  | work work => exact h.work seeded work
  | submit batchIdx seeds inGraph => exact h.submit batchIdx seeds inGraph
  | shutdown => exact h.stop rfl rfl rfl rfl rfl rfl h.ready h.noStore le_rfl
  | fault left right s w e thread failed =>
      refine h.stop rfl rfl rfl rfl rfl rfl (leaves thread) h.noStore ?_
      refine Multiset.le_iff_exists_add.mpr ⟨{.work 8 w}, ?_⟩
      simp only [inFlight, thread, List.map_append, List.map_cons, List.sum_append, List.sum_cons,
        SamplerThread.inFlight, zero_add]
      ac_rfl
  | refuse before after w claimed stopped =>
      refine h.stop stopped rfl rfl rfl rfl rfl h.ready h.noStore ?_
      refine Multiset.le_iff_exists_add.mpr ⟨{.work 10 w}, ?_⟩
      simp only [inFlight, claimed, List.map_append, List.map_cons, ← Multiset.coe_add,
        ← Multiset.cons_coe, ← Multiset.singleton_add]
      ac_rfl
  | quitSampler left right t thread stopped =>
      refine h.stop stopped rfl rfl rfl rfl rfl (leaves thread) h.noStore ?_
      refine Multiset.le_iff_exists_add.mpr ⟨t.inFlight F, ?_⟩
      simp only [inFlight, thread, List.map_append, List.map_cons, List.sum_append, List.sum_cons,
        SamplerThread.inFlight, zero_add]
      ac_rfl
  | quitFeatures left right t thread stopped =>
      refine h.stop stopped rfl rfl rfl rfl rfl h.ready (fun store => ?_) ?_
      · have empty := (h.noStore store).1
        rw [thread] at empty
        exact absurd empty (List.append_ne_nil_of_right_ne_nil left (List.cons_ne_nil t right))
      · refine Multiset.le_iff_exists_add.mpr ⟨t.inFlight, ?_⟩
        simp only [inFlight, thread, List.map_append, List.map_cons, List.sum_append,
          List.sum_cons, FeatureThread.inFlight, zero_add]
        ac_rfl

variable (entropy : Nat → Nat) (samplerThreads featureLoaders : Nat)

variable (ops base) in
theorem new_eq_ok {l : NeighborLoader σ Time F}
    (started : new g cfg load entropy samplerThreads featureLoaders = .ok l) :
    checkConfig g cfg = none ∧ Inv ops g cfg load base l := by
  unfold new at started
  cases checked : checkConfig g cfg with
  | some e =>
      rw [checked] at started
      cases started
  | none =>
      rw [checked] at started
      generalize threads : ((List.range (max samplerThreads 1)).map fun t =>
        (.idle (NeighborSampler.new g cfg (entropy t)) : SamplerThread σ Time)) = samplers at started
      generalize pool : (if load.isSome then List.replicate (max featureLoaders 1) (.idle none)
        else [] : List (FeatureThread F)) = loaders at started
      cases started
      have fresh : ∀ t ∈ samplers, t.Ready g.numNodes ∧ t.inFlight F = 0 ∧ t ≠ .gone := by
        intro t ht
        rw [← threads] at ht
        obtain ⟨k, -, rfl⟩ := List.mem_map.mp ht
        exact ⟨NeighborSampler.fresh_ready _ _ _, rfl, nofun⟩
      have idle : ∀ t ∈ loaders, t = .idle none := by
        intro t ht
        rw [← pool] at ht
        split at ht
        · exact List.eq_of_mem_replicate ht
        · cases ht
      have empty := inFlight_idle (F := F)
        (l := ⟨0, [], [], samplers, [], loaders, [], ⟨0, []⟩, false, [], [], []⟩)
        rfl rfl (fun t ht => (fresh t ht).2.1) rfl (fun t ht => idle t ht ▸ rfl) rfl
      refine ⟨rfl, rfl, nofun, nofun, fun t ht => (fresh t ht).1, fun store => ?_, ?_, rfl, nofun,
        fun _ => ⟨?_, fun t ht => (fresh t ht).2.2, fun store => ?_, fun t ht => ?_⟩, fun _ => ?_⟩
      · rw [store] at pool
        exact ⟨pool.symm, rfl⟩
      · rw [empty]
        exact fun b hb => absurd hb (Multiset.notMem_zero b)
      · rw [← threads]
        simp
      · rw [if_pos store] at pool
        rw [← pool]
        simp
      · rw [idle t ht]
        exact nofun
      · rw [empty]
        rfl

/-- Past the checks of the constructor and of the submit, a sample does not fail. -/
theorem Inv.samples {l : NeighborLoader σ Time F} (h : Inv ops g cfg load base l)
    (seeded : cfg.seed = some base) (checked : checkConfig g cfg = none)
    {left right : List (SamplerThread σ Time)} {s : NeighborSampler σ Time}
    {w : Sequenced PrefetchWork} (thread : l.samplers = left ++ .taken s w :: right) :
    ∃ sub, (sampleWork ops g cfg s w).1 = .ok sub := by
  have here : InFlight.work 8 w ∈ l.inFlight := by
    have taken : InFlight.work (F := F) 8 w ∈ (l.samplers.map (SamplerThread.inFlight F)).sum := by
      rw [thread, List.map_append, List.sum_append, List.map_cons, List.sum_cons]
      simp [SamplerThread.inFlight]
    simp only [inFlight, Multiset.mem_add]
    tauto
  have inGraph := h.inGraph _ (List.mem_of_getElem? (h.right _ here).1)
  have passes : NeighborSampler.checkSample g cfg w.item.seeds none = none := by
    unfold NeighborSampler.checkSample
    rw [if_neg (Nat.not_lt.mpr inGraph)]
    refine if_neg fun missing => ?_
    unfold checkConfig at checked
    rw [if_pos missing] at checked
    split at checked <;> cases checked
  unfold sampleWork NeighborSampler.sample
  rw [seeded, passes]
  exact ⟨_, rfl⟩

variable (cap) in
/-- While a submission is not delivered, some thread can go on. -/
theorem Inv.progress {l : NeighborLoader σ Time F} (h : Inv ops g cfg load base l)
    (seeded : cfg.seed = some base) (checked : checkConfig g cfg = none)
    (running : l.stopped = false) (behind : l.delivered.length < l.submissions.length) :
    ∃ l', Work ops g cfg load cap l l' := by
  by_contra stuck
  have stuck : ∀ l', ¬ Work ops g cfg load cap l l' := fun l' work => stuck ⟨l', work⟩
  have staffed := h.staffed running
  have ordered : cfg.seed.isSome := by
    rw [seeded]
    rfl
  have notReady : l.reorder.popReady = none := by
    cases ready : l.reorder.popReady with
    | none => rfl
    | some next => exact (stuck _ (.popReady l next.1 next.2 ordered ready)).elim
  have resultQueue : l.resultQueue = [] := by
    cases queue : l.resultQueue with
    | nil => rfl
    | cons r rest => exact (stuck _ (.tryRecv l r rest ordered notReady queue)).elim
  have room : l.resultQueue.length < cap.results := resultQueue ▸ cap.results_pos
  have loaders : ∀ t ∈ l.featureLoaders, t = .idle none := by
    intro t ht
    obtain ⟨left, right, thread⟩ := List.append_of_mem ht
    cases t with
    | idle pending =>
        cases pending with
        | none => rfl
        | some w => exact (stuck _ (.takePending l left right w thread)).elim
    | loading w pending =>
        cases store : load with
        | none =>
            rw [(h.noStore store).1] at ht
            cases ht
        | some getBatch => exact (stuck _ (.getBatch l left right w pending thread getBatch store)).elim
    | holding r pending =>
        exact (stuck _ (.deliverFeatures l left right r pending thread room)).elim
    | gone => exact (staffed.loading .gone ht rfl).elim
  have sampleQueue : l.sampleQueue = [] := by
    cases queue : l.sampleQueue with
    | nil => rfl
    | cons w rest =>
        have store : load.isSome := by
          rw [Option.isSome_iff_ne_none]
          intro store
          rw [(h.noStore store).2] at queue
          cases queue
        obtain ⟨t, ht⟩ := List.exists_mem_of_ne_nil _ (staffed.featureLoaders store)
        obtain ⟨left, right, thread⟩ := List.append_of_mem ht
        rw [loaders t ht] at thread
        exact (stuck _ (.recvSample l left right w rest thread queue)).elim
  have samplers : ∀ t ∈ l.samplers, ∃ s, t = .idle s := by
    intro t ht
    obtain ⟨left, right, thread⟩ := List.append_of_mem ht
    cases t with
    | idle s => exact ⟨s, rfl⟩
    | taken s w =>
        obtain ⟨sub, sampled⟩ := h.samples seeded checked thread
        exact (stuck _ (.sample l left right s w sub thread sampled)).elim
    | holding s r =>
        cases store : load with
        | none => exact (stuck _ (.deliverResult l left right s r thread store room)).elim
        | some getBatch =>
            refine (stuck _ (.deliverSample l left right s r thread ?_ ?_)).elim
            · rw [store]
              rfl
            · rw [sampleQueue]
              exact cap.samples_pos
    | gone => exact (staffed.sampling .gone ht rfl).elim
  have workQueue : l.workQueue = [] := by
    cases queue : l.workQueue with
    | nil => rfl
    | cons w rest =>
        obtain ⟨t, ht⟩ := List.exists_mem_of_ne_nil _ staffed.samplers
        obtain ⟨s, rfl⟩ := samplers t ht
        obtain ⟨left, right, thread⟩ := List.append_of_mem ht
        exact (stuck _ (.recvWork l left right s w rest thread queue)).elim
  have submitting : l.submitting = [] := by
    cases claimed : l.submitting with
    | nil => rfl
    | cons w rest => exact (stuck _ (.send l [] rest w claimed (workQueue ▸ cap.work_pos))).elim
  -- what is undelivered can only be pending, so the next number is
  have flight := inFlight_idle submitting workQueue
    (fun t ht => by
      obtain ⟨s, rfl⟩ := samplers t ht
      rfl)
    sampleQueue (fun t ht => loaders t ht ▸ rfl) resultQueue
  have turn : l.reorder.nextSeq ∈ l.inFlight.map InFlight.seq + Multiset.range l.reorder.nextSeq := by
    rw [h.whole running, Multiset.mem_range, ← h.turn]
    exact behind
  rcases Multiset.mem_add.mp turn with undelivered | early
  · rw [flight] at undelivered
    obtain ⟨b, hb, next⟩ := Multiset.mem_map.mp undelivered
    obtain ⟨r, hr, rfl⟩ := List.mem_map.mp hb
    exact BatchReorder.popReady_eq_none.mp notReady r hr next
  · exact lt_irrefl _ (Multiset.mem_range.mp early)

theorem Inv.behind {l : NeighborLoader σ Time F} (h : Inv ops g cfg load base l)
    (running : l.stopped = false) : l.delivered.length ≤ l.submissions.length := by
  have count := congrArg Multiset.card (h.whole running)
  rw [Multiset.card_add, Multiset.card_range, Multiset.card_range] at count
  have := h.turn
  omega

variable (cap) in
/-- A running loader can deliver everything submitted. -/
theorem Inv.drain {l : NeighborLoader σ Time F} (h : Inv ops g cfg load base l)
    (seeded : cfg.seed = some base) (checked : checkConfig g cfg = none)
    (running : l.stopped = false) :
    ∃ l', Relation.ReflTransGen (Work ops g cfg load cap) l l' ∧ l'.submissions = l.submissions ∧
      l'.delivered.length = l.submissions.length := by
  rcases Nat.lt_or_eq_of_le (h.behind running) with behind | all
  · obtain ⟨next, work⟩ := h.progress cap seeded checked running behind
    have smaller := (work.moves base seeded h.ready).left_lt
    obtain ⟨-, subs, stopped, -⟩ := work.frame
    obtain ⟨last, run, same, done⟩ :=
      (h.work seeded work).drain seeded checked (stopped.trans running)
    exact ⟨last, .head work run, same.trans subs, done.trans (congrArg List.length subs)⟩
  · exact ⟨l, .refl, rfl, all⟩
termination_by l.left

section Lone

/-- One node with no neighbors. -/
def loneGraph : Csr (WithTop Nat) where
  numNodes := 1
  numDstNodes := 1
  offsets := [0, 0]
  edges := []
  weights := none
  timestamps := none
  numNodes_le := one_le_maxNodes
  numDstNodes_le := one_le_maxNodes
  offsets_length := rfl
  first_offset := rfl
  last_offset := rfl
  weights_length := nofun
  timestamps_length := nofun

/-- A loader whose one batch is being submitted. -/
def loneSubmission : NeighborLoader WyRand (WithTop Nat) Nat where
  nextSeq := 1
  submitting := [⟨0, ⟨4, ⟨[0], 1, by decide⟩⟩⟩]
  workQueue := []
  samplers := [.idle (NeighborSampler.new loneGraph { (default : SamplingConfig) with seed := some 7 } 3)]
  sampleQueue := []
  featureLoaders := [.idle none]
  resultQueue := []
  reorder := ⟨0, []⟩
  stopped := false
  submissions := [⟨4, ⟨[0], 1, by decide⟩⟩]
  accepted := []
  delivered := []

end Lone

end NeighborLoader

end AetherGraph
