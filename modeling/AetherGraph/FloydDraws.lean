import AetherGraph.HeteroSampler
import AetherGraph.Foundation.FloydCount

/-! The Floyd loops of the samplers: `draw_positions`, and `emit_sample_floyd` and `sample_floyd`
over the stamp block and the set, as functions of the draws their generator makes. -/

namespace AetherGraph

open Foundation

namespace FloydStamps

/-- The stamp blocks a sampler can hold. -/
inductive Reached : FloydStamps → Prop where
  | new : Reached .new
  | begin {f : FloydStamps} : Reached f → Reached f.begin
  | testAndSet {f : FloydStamps} {i : Nat} : Reached f → i < 256 → Reached (f.testAndSet i).2

theorem Ready.testAndSet {f : FloydStamps} (h : f.Ready) (i : Nat) : (f.testAndSet i).2.Ready := by
  unfold FloydStamps.testAndSet
  split
  · exact h
  · refine ⟨by rw [List.length_set, h.length], h.generation, fun x hx => ?_⟩
    rcases List.mem_or_eq_of_mem_set hx with old | rfl
    · exact h.stamps x old
    · exact Nat.le_refl _

theorem Reached.ready {f : FloydStamps} (h : f.Reached) : f.Ready := by
  induction h with
  | new => exact new_ready
  | begin _ ih => exact ih.begin.ready
  | testAndSet _ _ ih => exact ih.testAndSet _

theorem membership : Membership FloydStamps.testAndSet (· < 256) FloydStamps.Marks where
  untaken h hi := (h.testAndSet hi).1
  marked h hi := (h.testAndSet hi).2

end FloydStamps

theorem seenInsert_membership : Membership seenInsert (fun _ => True) Eq where
  untaken {m taken i} h _ := by
    subst h
    unfold seenInsert
    by_cases old : i ∈ m
    · simp [old]
    · simp [old]
  marked {m taken i} h _ := by
    subst h
    unfold seenInsert
    split <;> rfl

/-- The picks of the draws on an emptied set. -/
def setPicks (lo : Nat) (js : List Nat) : List Nat := (drawPicks seenInsert [] lo js).1

/-- The picks of the draws on the stamp block. -/
def stampPicks (floyd : FloydStamps) (lo : Nat) (js : List Nat) : List Nat :=
  (drawPicks FloydStamps.testAndSet floyd.begin lo js).1

theorem setPicks_eq {lo k : Nat} {js : List Nat} (drawn : Drawn lo k js) :
    setPicks lo js = floydPicks [] lo js := by
  have picks := seenInsert_membership.picks rfl (Picked.nil lo)
    (show Drawn lo js.length js from ⟨rfl, drawn.below⟩) fun _ _ => trivial
  exact picks

theorem stampPicks_eq {floyd : FloydStamps} (ready : floyd.Ready) {lo k : Nat} {js : List Nat}
    (drawn : Drawn lo k js) (small : lo + k ≤ 256) :
    stampPicks floyd lo js = floydPicks [] lo js := by
  have picks := FloydStamps.membership.picks ready.begin (Picked.nil lo)
    (show Drawn lo js.length js from ⟨rfl, drawn.below⟩) fun i hi => by
      rw [drawn.length] at hi
      omega
  exact picks

namespace NeighborSampler

variable {σ Time : Type}

/-- The scratch of the draws with everything else as it was. -/
def scratch (s : NeighborSampler σ Time) (rng : σ) (floyd : FloydStamps) (seen : List Nat) :
    NeighborSampler σ Time :=
  { s with rng := rng, floyd := floyd, seenSet := seen }

section Scratch

variable [LT Time] [DecidableLT Time] (g : Csr Time) (cfg : SamplingConfig)
variable (s : NeighborSampler σ Time) (rng : σ) (floyd : FloydStamps) (seen : List Nat)

theorem register_scratch (id : Nat) (time : Time) :
    (s.scratch rng floyd seen).register id time =
      ((s.register id time).1, (s.register id time).2.scratch rng floyd seen) := by
  unfold register scratch
  dsimp only
  split_ifs <;> rfl

theorem insertNodeFrontier_scratch (id : Nat) (time : Time) :
    (s.scratch rng floyd seen).insertNodeFrontier g id time =
      ((s.insertNodeFrontier g id time).1,
        (s.insertNodeFrontier g id time).2.scratch rng floyd seen) := by
  unfold insertNodeFrontier
  rw [register_scratch]
  by_cases outside : g.numNodes ≤ id
  · rw [if_pos outside, if_pos outside]
  · rw [if_neg outside, if_neg outside]
    cases s.register id time with
    | mk found s =>
        obtain ⟨idx, new⟩ := found
        cases new <;> rfl

omit [LT Time] [DecidableLT Time] in
theorem freshEdge_scratch (eid : Nat) :
    (s.scratch rng floyd seen).freshEdge eid =
      ((s.freshEdge eid).1, (s.freshEdge eid).2.scratch rng floyd seen) := by
  have same : (s.scratch rng floyd seen).emittedAt = s.emittedAt := rfl
  unfold freshEdge
  rw [same]
  cases s.emittedAt.lookup eid <;> rfl

theorem emitEdge_scratch (src srcLocal dst eid : Nat) (time : Time) :
    (s.scratch rng floyd seen).emitEdge g cfg src srcLocal dst eid time =
      (s.emitEdge g cfg src srcLocal dst eid time).scratch rng floyd seen := by
  have pushed : ∀ s : NeighborSampler σ Time,
      (s.scratch rng floyd seen).emitAllowed g cfg src srcLocal dst eid time =
        (s.emitAllowed g cfg src srcLocal dst eid time).scratch rng floyd seen := by
    intro s
    unfold emitAllowed
    rw [insertNodeFrontier_scratch]
    cases s.insertNodeFrontier g dst time with
    | mk found s => cases found <;> rfl
  unfold emitEdge
  by_cases cumulative : cfg.cumulative = true
  · rw [if_pos cumulative, if_pos cumulative, freshEdge_scratch]
    cases s.freshEdge eid with
    | mk allowed s =>
        cases allowed with
        | true => exact pushed s
        | false => rfl
  · rw [if_neg cumulative, if_neg cumulative]
    exact pushed s

end Scratch

variable [Rng σ]

def seenPad : Scratchpad σ (List Nat) (NeighborSampler σ Time) where
  rng s := s.rng
  mem s := s.seenSet
  put s r seen := { s with rng := r, seenSet := seen }
  rng_put _ _ _ := rfl
  mem_put _ _ _ := rfl
  put_put _ _ _ _ _ := rfl
  put_get _ := rfl

def stampPad : Scratchpad σ FloydStamps (NeighborSampler σ Time) where
  rng s := s.rng
  mem s := s.floyd
  put s r floyd := { s with rng := r, floyd := floyd }
  rng_put _ _ _ := rfl
  mem_put _ _ _ := rfl
  put_put _ _ _ _ _ := rfl
  put_get _ := rfl

theorem seenPick_draw (s : NeighborSampler σ Time) (i : Nat) :
    s.seenPick i = ((drawPick seenInsert s.seenSet i (randBelow s.rng (i + 1)).1).1,
      seenPad.put s (randBelow s.rng (i + 1)).2
        (drawPick seenInsert s.seenSet i (randBelow s.rng (i + 1)).1).2) := by
  unfold seenPick drawPick
  dsimp only
  cases seenInsert s.seenSet (randBelow s.rng (i + 1)).1 with
  | mk new seen => cases new <;> rfl

theorem stampPick_draw (s : NeighborSampler σ Time) (i : Nat) :
    s.stampPick i = ((drawPick FloydStamps.testAndSet s.floyd i (randBelow s.rng (i + 1)).1).1,
      stampPad.put s (randBelow s.rng (i + 1)).2
        (drawPick FloydStamps.testAndSet s.floyd i (randBelow s.rng (i + 1)).1).2) := by
  unfold stampPick drawPick
  dsimp only
  cases s.floyd.testAndSet (randBelow s.rng (i + 1)).1 with
  | mk new floyd => cases new <;> rfl

/-- The draws for `k` positions below `n`. -/
def draws (r : σ) (n k : Nat) : List Nat := (drawsFrom randBelow r (n - k) k).1

theorem draws_drawn (r : σ) (n k : Nat) : Drawn (n - k) k (draws r n k) :=
  drawsFrom_drawn (fun r _ hs => randBelow_lt r hs) r (n - k) k

theorem upperEnds_eq {n k : Nat} (hk : k ≤ n) : upperEnds n k = List.range' (n - k) k := by
  rw [upperEnds, Nat.sub_sub_self hk]

section Picks

variable [LT Time] [DecidableLT Time] [Top Time] (g : Csr Time) (cfg : SamplingConfig)

omit [LT Time] [DecidableLT Time] [Top Time] in
/-- `draw_positions` sorts the picks of the set. -/
theorem drawPositions_picks (s : NeighborSampler σ Time) {n k : Nat} (hk : k ≤ n) :
    (s.drawPositions n k).capIdx =
      (setPicks (n - k) (draws s.rng n k)).insertionSort (· ≤ ·) := by
  have ran := seenPad.loop randBelow seenPick
    (fun (s : NeighborSampler σ Time) p => { s with capIdx := s.capIdx ++ [p] })
    seenPick_draw (fun _ _ _ _ => rfl) (n - k) k { s with capIdx := [], seenSet := [] }
  have pushes : ∀ (ps : List Nat) (s : NeighborSampler σ Time),
      (ps.foldl (fun s p => { s with capIdx := s.capIdx ++ [p] }) s).capIdx = s.capIdx ++ ps := by
    intro ps
    induction ps with
    | nil => exact fun s => (List.append_nil _).symm
    | cons p ps ih =>
        intro s
        rw [List.foldl_cons, ih, List.append_assoc]
        rfl
  have collected := (congrArg NeighborSampler.capIdx ran).trans (pushes _ _)
  unfold drawPositions
  dsimp only
  rw [upperEnds_eq hk]
  exact congrArg (List.insertionSort (· ≤ ·)) collected

/-- `emit_sample_floyd` emits the picks of the stamp block for rows of up to 256, of the set
otherwise. -/
theorem emitSampleFloyd_picks (s : NeighborSampler σ Time) (node nodeLocal : Nat)
    {neighbors : List Nat} (edgeOffset : Nat) {k : Nat} (hk : k ≤ neighbors.length) :
    ∃ rng floyd seen, s.emitSampleFloyd g cfg node nodeLocal neighbors edgeOffset k =
      ((if neighbors.length ≤ 256 then
          stampPicks s.floyd (neighbors.length - k) (draws s.rng neighbors.length k)
        else setPicks (neighbors.length - k) (draws s.rng neighbors.length k)).foldl
          (fun s p => s.emitPick g cfg node nodeLocal neighbors edgeOffset p) s).scratch
            rng floyd seen := by
  have spread : ∀ (ps : List Nat) (s : NeighborSampler σ Time) (rng : σ) (floyd : FloydStamps)
      (seen : List Nat), ps.foldl (fun s p =>
          s.emitPick g cfg node nodeLocal neighbors edgeOffset p) (s.scratch rng floyd seen) =
        (ps.foldl (fun s p =>
          s.emitPick g cfg node nodeLocal neighbors edgeOffset p) s).scratch rng floyd seen := by
    intro ps
    induction ps with
    | nil => exact fun _ _ _ _ => rfl
    | cons p ps ih =>
        intro s rng floyd seen
        rw [List.foldl_cons, List.foldl_cons, emitPick, emitEdge_scratch, ih]
        rfl
  have kept : ∀ (s : NeighborSampler σ Time) p,
      (s.emitPick g cfg node nodeLocal neighbors edgeOffset p).floyd = s.floyd ∧
        (s.emitPick g cfg node nodeLocal neighbors edgeOffset p).seenSet = s.seenSet := by
    intro s p
    have same := emitEdge_scratch g cfg s s.rng s.floyd s.seenSet node nodeLocal
      (neighbors.getD p 0) (edgeOffset + p) ⊤
    exact ⟨(congrArg NeighborSampler.floyd same :), (congrArg NeighborSampler.seenSet same :)⟩
  unfold emitSampleFloyd
  dsimp only
  rw [upperEnds_eq hk]
  split
  · have ran := stampPad.loop randBelow stampPick
      (fun (s : NeighborSampler σ Time) p =>
        s.emitPick g cfg node nodeLocal neighbors edgeOffset p)
      stampPick_draw (fun s r m p => by
        refine (emitEdge_scratch g cfg s r m s.seenSet _ _ _ _ _).trans ?_
        rw [← (kept s p).2]
        rfl)
      (neighbors.length - k) k (s.scratch s.rng s.floyd.begin s.seenSet)
    rw [spread] at ran
    exact ⟨_, _, _, ran⟩
  · have ran := seenPad.loop randBelow seenPick
      (fun (s : NeighborSampler σ Time) p =>
        s.emitPick g cfg node nodeLocal neighbors edgeOffset p)
      seenPick_draw (fun s r m p => by
        refine (emitEdge_scratch g cfg s r s.floyd m _ _ _ _ _).trans ?_
        rw [← (kept s p).1]
        rfl)
      (neighbors.length - k) k (s.scratch s.rng s.floyd [])
    rw [spread] at ran
    exact ⟨_, _, _, ran⟩

end Picks

end NeighborSampler

namespace HeteroNeighborSampler

variable {σ : Type} [Rng σ]

def stampPad : Scratchpad σ FloydStamps (List Nat × HeteroNeighborSampler σ) where
  rng acc := acc.2.rng
  mem acc := acc.2.floyd
  put acc r floyd := (acc.1, { acc.2 with rng := r, floyd := floyd })
  rng_put _ _ _ := rfl
  mem_put _ _ _ := rfl
  put_put _ _ _ _ _ := rfl
  put_get _ := rfl

def setPad : Scratchpad σ (List Nat) (List Nat × HeteroNeighborSampler σ) where
  rng acc := acc.2.rng
  mem acc := acc.2.floydSet
  put acc r seen := (acc.1, { acc.2 with rng := r, floydSet := seen })
  rng_put _ _ _ := rfl
  mem_put _ _ _ := rfl
  put_put _ _ _ _ _ := rfl
  put_get _ := rfl

theorem stampPick_draw (s : HeteroNeighborSampler σ) (i : Nat) :
    s.stampPick i = ((drawPick FloydStamps.testAndSet s.floyd i (randBelow s.rng (i + 1)).1).1,
      { s with
        rng := (randBelow s.rng (i + 1)).2
        floyd := (drawPick FloydStamps.testAndSet s.floyd i (randBelow s.rng (i + 1)).1).2 }) := by
  unfold stampPick drawPick
  dsimp only
  cases s.floyd.testAndSet (randBelow s.rng (i + 1)).1 with
  | mk new floyd => cases new <;> rfl

theorem setPick_draw (s : HeteroNeighborSampler σ) (i : Nat) :
    s.setPick i = ((drawPick seenInsert s.floydSet i (randBelow s.rng (i + 1)).1).1,
      { s with
        rng := (randBelow s.rng (i + 1)).2
        floydSet := (drawPick seenInsert s.floydSet i (randBelow s.rng (i + 1)).1).2 }) := by
  unfold setPick drawPick
  dsimp only
  cases seenInsert s.floydSet (randBelow s.rng (i + 1)).1 with
  | mk new seen => cases new <;> rfl

/-- `sample_floyd` picks as `emit_sample_floyd` does. -/
theorem sampleFloyd_picks (s : HeteroNeighborSampler σ) {sources : List Nat} {k : Nat}
    (hk : k ≤ sources.length) (dstLocal et srcType : Nat) :
    (s.sampleFloyd sources k dstLocal et srcType).1 =
      if sources.length ≤ 256 then
        stampPicks s.floyd (sources.length - k)
          (NeighborSampler.draws s.rng sources.length k)
      else setPicks (sources.length - k) (NeighborSampler.draws s.rng sources.length k) := by
  let act := fun (acc : List Nat × HeteroNeighborSampler σ) p =>
    (acc.1 ++ [p], acc.2.emit (sources.getD p 0) srcType dstLocal et)
  have pushes : ∀ (ps : List Nat) (acc : List Nat × HeteroNeighborSampler σ),
      (ps.foldl act acc).1 = acc.1 ++ ps := by
    intro ps
    induction ps with
    | nil => exact fun acc => (List.append_nil _).symm
    | cons p ps ih =>
        intro acc
        rw [List.foldl_cons, ih, List.append_assoc]
        rfl
  unfold sampleFloyd pickEach
  dsimp only
  rw [NeighborSampler.upperEnds_eq hk]
  split
  · have ran := stampPad.loop randBelow
      (fun acc i => ((acc.2.stampPick i).1, (acc.1, (acc.2.stampPick i).2))) act
      (fun acc i => by
        rw [stampPick_draw]
        rfl)
      (fun _ _ _ _ => rfl) (sources.length - k) k ([], { s with floyd := s.floyd.begin })
    exact (congrArg Prod.fst ran).trans (pushes _ _)
  · have ran := setPad.loop randBelow
      (fun acc i => ((acc.2.setPick i).1, (acc.1, (acc.2.setPick i).2))) act
      (fun acc i => by
        rw [setPick_draw]
        rfl)
      (fun _ _ _ _ => rfl) (sources.length - k) k ([], { s with floydSet := [] })
    exact (congrArg Prod.fst ran).trans (pushes _ _)

end HeteroNeighborSampler

/-- What the draws at the ends from `n - k` on pick: always `k` distinct positions below `n`, each
`k` of them equally often, and on the stamp block as on the set. -/
structure FloydUniform (n k : Nat) : Prop where
  distinct : ∀ js, Drawn (n - k) k js →
    (setPicks (n - k) js).Nodup ∧ (setPicks (n - k) js).length = k ∧
      ∀ p ∈ setPicks (n - k) js, p < n
  uniform : ∀ chosen : Finset Nat, chosen ⊆ Finset.range n → chosen.card = k →
    {js | Drawn (n - k) k js ∧ (setPicks (n - k) js).toFinset = chosen}.ncard = k.factorial
  stamped : n ≤ 256 → ∀ floyd : FloydStamps, floyd.Reached → ∀ js, Drawn (n - k) k js →
    stampPicks floyd (n - k) js = setPicks (n - k) js

section Loops

variable (σ Time : Type) [Rng σ] [LT Time] [DecidableLT Time] [Top Time]

/-- The loops of the code pick what the draws of their generator pick. -/
structure FloydLoops (n k : Nat) : Prop where
  drawn : ∀ r : σ, Drawn (n - k) k (NeighborSampler.draws r n k)
  drawPositions : ∀ s : NeighborSampler σ Time, (s.drawPositions n k).capIdx =
    (setPicks (n - k) (NeighborSampler.draws s.rng n k)).insertionSort (· ≤ ·)
  emitSampleFloyd : ∀ (g : Csr Time) (cfg : SamplingConfig) (s : NeighborSampler σ Time)
    (node nodeLocal : Nat) (neighbors : List Nat) (edgeOffset : Nat), neighbors.length = n →
    ∃ rng floyd seen, s.emitSampleFloyd g cfg node nodeLocal neighbors edgeOffset k =
      ((if n ≤ 256 then stampPicks s.floyd (n - k) (NeighborSampler.draws s.rng n k)
        else setPicks (n - k) (NeighborSampler.draws s.rng n k)).foldl
          (fun s p => s.emitPick g cfg node nodeLocal neighbors edgeOffset p) s).scratch
            rng floyd seen
  sampleFloyd : ∀ (s : HeteroNeighborSampler σ) (sources : List Nat) (dstLocal et srcType : Nat),
    sources.length = n → (s.sampleFloyd sources k dstLocal et srcType).1 =
      if n ≤ 256 then stampPicks s.floyd (n - k) (NeighborSampler.draws s.rng n k)
      else setPicks (n - k) (NeighborSampler.draws s.rng n k)

/-- Floyd's sampling draws every `k` of `n` positions equally often, in all its loops. -/
theorem floyd_uniform {n k : Nat} (hk : k ≤ n) : FloydUniform n k ∧ FloydLoops σ Time n k := by
  have all : n - k + k = n := Nat.sub_add_cancel hk
  refine ⟨⟨fun js drawn => ?_, fun chosen below size => ?_, fun small floyd reached js drawn => ?_⟩,
    ⟨fun r => NeighborSampler.draws_drawn r n k, fun s => s.drawPositions_picks hk, ?_, ?_⟩⟩
  · obtain ⟨picked, length⟩ := drawn.picked
    rw [setPicks_eq drawn]
    exact ⟨picked.nodup, length, fun p hp => all ▸ picked.lt p hp⟩
  · rw [← all] at below
    rw [← ncard_picks below size]
    congr 1
    ext js
    exact and_congr_right fun drawn => by rw [setPicks_eq drawn]
  · rw [stampPicks_eq reached.ready drawn (all.symm ▸ small), setPicks_eq drawn]
  · rintro g cfg s node nodeLocal neighbors edgeOffset rfl
    exact s.emitSampleFloyd_picks g cfg node nodeLocal edgeOffset hk
  · rintro s sources dstLocal et srcType rfl
    exact s.sampleFloyd_picks hk dstLocal et srcType

theorem floyd_uniform_two : FloydUniform 3 2 ∧ FloydLoops WyRand (WithTop Nat) 3 2 :=
  floyd_uniform WyRand (WithTop Nat) (by decide)

end Loops

end AetherGraph
