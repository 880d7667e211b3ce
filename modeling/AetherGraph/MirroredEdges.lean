import AetherGraph.PassStates

/-! Bidirectional subgraphs: the reverses `mirror` appends.  The pair set is filled from every
sampled edge before it is probed, so a reverse is added once; the sampled edges themselves stay
as they are, repeats included. -/

namespace AetherGraph

namespace Pass

/-- The ordered pair of local endpoints. -/
def ends (e : SampledEdge) : Nat × Nat := (e.srcLocal, e.dstLocal)

def endsKey (e : SampledEdge) : Nat := pairKey e.srcLocal e.dstLocal

theorem pairKey_inj {a b c d : Nat} (hb : b < 2 ^ 32) (hd : d < 2 ^ 32) :
    pairKey a b = pairKey c d ↔ a = c ∧ b = d := by
  unfold pairKey
  omega

/-- The locals fit in 32 bits. -/
def Small (es : List SampledEdge) : Prop := ∀ e ∈ es, e.srcLocal < 2 ^ 32 ∧ e.dstLocal < 2 ^ 32

theorem ends_reversed (e : SampledEdge) : ends (reversed e) = (ends e).swap := rfl

theorem mem_mirrored {pairs : List Nat} {es : List SampledEdge} {e : SampledEdge}
    (h : e ∈ mirrored pairs es) :
    (∃ e' ∈ es, e = reversed e') ∧ endsKey e ∉ pairs := by
  induction es generalizing pairs with
  | nil => cases h
  | cons e' es ih =>
      rw [mirrored] at h
      split at h
      · obtain ⟨⟨e'', he, same⟩, new⟩ := ih h
        exact ⟨⟨e'', List.mem_cons_of_mem e' he, same⟩, new⟩
      · rename_i new
        rcases List.mem_cons.mp h with rfl | h
        · exact ⟨⟨e', List.mem_cons_self, rfl⟩, new⟩
        · obtain ⟨⟨e'', he, same⟩, fresh⟩ := ih h
          exact ⟨⟨e'', List.mem_cons_of_mem e' he, same⟩,
            fun old => fresh (List.mem_append_left _ old)⟩

theorem mirrored_nodup (pairs : List Nat) (es : List SampledEdge) :
    ((mirrored pairs es).map endsKey).Nodup := by
  induction es generalizing pairs with
  | nil => exact List.nodup_nil
  | cons e es ih =>
      rw [mirrored]
      split
      · exact ih pairs
      · refine List.nodup_cons.mpr ⟨fun again => ?_, ih _⟩
        obtain ⟨e', he', same⟩ := List.mem_map.mp again
        have key : endsKey e' = pairKey e.dstLocal e.srcLocal := same
        exact (mem_mirrored he').2 (List.mem_append_right _ (List.mem_singleton.mpr key))

/-- The reverse of every edge is there before or is added. -/
theorem mirrored_complete (pairs : List Nat) {es : List SampledEdge} {e : SampledEdge}
    (he : e ∈ es) : endsKey (reversed e) ∈ pairs ∨
      endsKey (reversed e) ∈ (mirrored pairs es).map endsKey := by
  induction es generalizing pairs with
  | nil => cases he
  | cons e' es ih =>
      rw [mirrored]
      rcases List.mem_cons.mp he with rfl | he
      · split
        · rename_i old
          exact .inl old
        · exact .inr List.mem_cons_self
      · split
        · exact ih pairs he
        · rcases ih (pairs ++ [pairKey e'.dstLocal e'.srcLocal]) he with old | added
          · rcases List.mem_append.mp old with old | same
            · exact .inl old
            · have key : endsKey (reversed e) = endsKey (reversed e') := List.mem_singleton.mp same
              rw [key]
              exact .inr List.mem_cons_self
          · exact .inr (List.mem_cons_of_mem _ added)

/-- The keys tell the pairs apart. -/
theorem key_iff {e e' : SampledEdge} (h : e.dstLocal < 2 ^ 32) (h' : e'.dstLocal < 2 ^ 32) :
    endsKey e = endsKey e' ↔ ends e = ends e' := by
  unfold endsKey ends
  rw [pairKey_inj h h', Prod.mk.injEq]

/-- The edges `mirror` leaves. -/
def mirrorOf (sampled : List SampledEdge) : List SampledEdge :=
  sampled ++ mirrored (sampled.map endsKey) sampled

variable {sampled : List SampledEdge}

theorem small_mirrored (small : Small sampled) {pairs : List Nat} :
    Small (mirrored pairs sampled) := by
  intro e he
  obtain ⟨⟨e', he', rfl⟩, -⟩ := mem_mirrored he
  exact (small e' he').symm

/-- A key among those of small edges belongs to the pair. -/
theorem mem_ends_of_key {es : List SampledEdge} (small : Small es) {e : SampledEdge}
    (he : e.dstLocal < 2 ^ 32) (mem : endsKey e ∈ es.map endsKey) : ends e ∈ es.map ends := by
  obtain ⟨e', he', same⟩ := List.mem_map.mp mem
  exact List.mem_map.mpr ⟨e', he', (key_iff (small e' he').2 he).mp same⟩

/-- A pair is there exactly where it or its reverse was sampled. -/
theorem mem_mirrorOf (small : Small sampled) (a b : Nat) :
    (a, b) ∈ (mirrorOf sampled).map ends ↔
      (a, b) ∈ sampled.map ends ∨ (b, a) ∈ sampled.map ends := by
  unfold mirrorOf
  rw [List.map_append, List.mem_append]
  constructor
  · rintro (old | added)
    · exact .inl old
    · obtain ⟨e, he, same⟩ := List.mem_map.mp added
      obtain ⟨⟨e', he', rfl⟩, -⟩ := mem_mirrored he
      exact .inr (List.mem_map.mpr ⟨e', he', congrArg Prod.swap same⟩)
  · rintro (old | reverse)
    · exact .inl old
    · obtain ⟨e, he, same⟩ := List.mem_map.mp reverse
      have pair : (a, b) = ends (reversed e) := by
        rw [ends_reversed, same]
        rfl
      have fits : (reversed e).dstLocal < 2 ^ 32 := (small e he).1
      rw [pair]
      exact (mirrored_complete (sampled.map endsKey) he).imp (mem_ends_of_key small fits)
        (mem_ends_of_key (small_mirrored small) fits)

/-- The pairs are distinct exactly where those of the sampled edges are. -/
theorem nodup_mirrorOf (small : Small sampled) :
    ((mirrorOf sampled).map ends).Nodup ↔ (sampled.map ends).Nodup := by
  unfold mirrorOf
  rw [List.map_append]
  constructor
  · exact fun h => h.sublist (List.sublist_append_left _ _)
  · refine fun h => List.nodup_append.mpr ⟨h, ?_, fun x hx y hy same => ?_⟩
    · have keys := mirrored_nodup (sampled.map endsKey) sampled
      have split : (mirrored (sampled.map endsKey) sampled).map endsKey =
          ((mirrored (sampled.map endsKey) sampled).map ends).map fun p => pairKey p.1 p.2 := by
        rw [List.map_map]
        rfl
      rw [split] at keys
      exact keys.of_map _
    · subst same
      obtain ⟨e, he, rfl⟩ := List.mem_map.mp hx
      obtain ⟨e', he', same⟩ := List.mem_map.mp hy
      refine (mem_mirrored he').2 (List.mem_map.mpr ⟨e, he, ?_⟩)
      exact (key_iff (small e he).2 (small_mirrored small e' he').2).mpr same.symm

end Pass

namespace NeighborSampler

variable {σ : Type} [Rng σ] {Time : Type}

/-- The ordered endpoint pairs of the edges in the buffers. -/
def pairs (s : NeighborSampler σ Time) : List (Nat × Nat) := s.srcLocalBuf.zip s.dstLocalBuf

/-- Each pair once; a pair where it or its reverse was sampled; and every edge after the sampled
ones reverses a sampled one and has its id. -/
structure Bidirected (cfg : SamplingConfig) (sampled out : NeighborSampler σ Time) : Prop where
  once : out.pairs.Nodup
  both : ∀ a b, (a, b) ∈ out.pairs ↔ (a, b) ∈ sampled.pairs ∨ (b, a) ∈ sampled.pairs
  added : ∀ (i a b : Nat), sampled.pairs.length ≤ i → out.pairs[i]? = some (a, b) →
    ∃ j : Nat, sampled.pairs[j]? = some (b, a) ∧ (cfg.trackEdgeIds = true →
      ∃ eid, out.edgeIdsBuf[i]? = some eid ∧ sampled.edgeIdsBuf[j]? = some eid)

variable {g : Csr Time} {cfg : SamplingConfig} {s pass : NeighborSampler σ Time} {p : Pass Time}
  {sampled : List SampledEdge}

omit [Rng σ] in
theorem Tracks.pairs (h : Tracks g.numNodes cfg s p) : s.pairs = p.edges.map Pass.ends := by
  rw [NeighborSampler.pairs, h.srcLocal, h.dstLocal, List.zip_map']
  rfl

omit [Rng σ] in
theorem Tracks.edgeId (h : Tracks g.numNodes cfg s p) (track : cfg.trackEdgeIds = true) (i : Nat) :
    s.edgeIdsBuf[i]? = p.edges[i]?.map SampledEdge.eid := by
  rw [h.ids, Pass.edgeIds, if_pos track, List.getElem?_map]

omit [Rng σ] in
/-- The added edges reverse sampled ones. -/
theorem Tracks.mirror_added (h : Tracks g.numNodes cfg s p) (i a b : Nat)
    (later : s.pairs.length ≤ i) (here : (s.mirror cfg).pairs[i]? = some (a, b)) :
    ∃ j : Nat, s.pairs[j]? = some (b, a) ∧ (cfg.trackEdgeIds = true →
      ∃ eid, (s.mirror cfg).edgeIdsBuf[i]? = some eid ∧ s.edgeIdsBuf[j]? = some eid) := by
  have mirrored := h.mirror.1
  have edges : p.mirror.edges = Pass.mirrorOf p.edges := rfl
  rw [h.pairs, List.length_map] at later
  rw [mirrored.pairs, List.getElem?_map, edges] at here
  obtain ⟨e, he, pair⟩ := Option.map_eq_some_iff.mp here
  have added : e ∈ Pass.mirrored (p.edges.map Pass.endsKey) p.edges := by
    rw [Pass.mirrorOf, List.getElem?_append_right later] at he
    exact List.mem_of_getElem? he
  obtain ⟨⟨e', he', rfl⟩, -⟩ := Pass.mem_mirrored added
  obtain ⟨j, hj⟩ := List.mem_iff_getElem?.mp he'
  refine ⟨j, ?_, fun track => ⟨e'.eid, ?_, ?_⟩⟩
  · rw [h.pairs, List.getElem?_map, hj]
    exact congrArg some (congrArg Prod.swap pair)
  · rw [mirrored.edgeId track, edges, he]
    rfl
  · rw [h.edgeId track, hj]
    rfl

section Main

variable [LT Time] [DecidableLT Time] [LE Time] [DecidableLE Time] [Top Time] {ops : SliceOps}

omit [LE Time] [DecidableLE Time] in
/-- The endpoints of a pass's edges are local indices of 32 bits. -/
theorem PassOf.small (h : s.Ready g.numNodes) (passed : PassOf ops g cfg s pass sampled) :
    ∃ p, Tracks g.numNodes cfg pass p ∧ Pass.Small p.edges := by
  obtain ⟨seeds, start, hop, starts, -, tracks⟩ := passed.tracks h
  obtain ⟨ids, locals, seeded⟩ := starts.seeded g
  have sound := seeded.start.sound.hops ops cfg s.rng
  have length : (Pass.hops ops g cfg start s.rng).2.1.nodes.length ≤ g.numNodes :=
    GenDedup.length_le_of_nodup tracks.nodup tracks.inRange
  have limit : g.numNodes ≤ 2 ^ 32 - 1 := g.numNodes_le
  refine ⟨_, tracks, fun e he => ?_⟩
  have stored := sound.edges e he
  have source := (List.getElem?_eq_some_iff.mp stored.src).1
  have target := (List.getElem?_eq_some_iff.mp stored.dst).1
  omega

/-- A bidirectional pass coalesces its edges exactly where the directional one sampled no ordered
pair of endpoints twice. -/
theorem mirror_coalesces (reached : Reached ops g s) (passed : PassOf ops g cfg s pass sampled) :
    Bidirected cfg pass (pass.mirror cfg) ↔ pass.pairs.Nodup := by
  obtain ⟨p, tracks, small⟩ := passed.small reached.ready
  have edges : p.mirror.edges = Pass.mirrorOf p.edges := rfl
  have pairs := tracks.mirror.1.pairs
  rw [edges] at pairs
  constructor
  · intro h
    have once := h.once
    rwa [pairs, Pass.nodup_mirrorOf small, ← tracks.pairs] at once
  · intro distinct
    refine ⟨?_, fun a b => ?_, tracks.mirror_added⟩
    · rwa [pairs, Pass.nodup_mirrorOf small, ← tracks.pairs]
    · rw [pairs, tracks.pairs]
      exact Pass.mem_mirrorOf small a b

end Main

/-- A sampler of two nodes before its first call. -/
def pairSampler : NeighborSampler WyRand (WithTop Nat) := fresh true 2 0

theorem mirror_coalesces_pair :
    Bidirected { (default : SamplingConfig) with fanout := [1] }
      (pairSampler.sampledAll .sorting pairGraph { (default : SamplingConfig) with fanout := [1] }
        [0] none)
      ((pairSampler.sampledAll .sorting pairGraph
        { (default : SamplingConfig) with fanout := [1] } [0] none).mirror
        { (default : SamplingConfig) with fanout := [1] }) :=
  (mirror_coalesces (.new true 0) (.shared [0] (by decide) none)).mpr (by decide +kernel)

/-- Node 0 has node 1 as its neighbor twice. -/
def parallelGraph : Csr (WithTop Nat) where
  numNodes := 2
  numDstNodes := 2
  offsets := [0, 2, 2]
  edges := [1, 1]
  weights := none
  timestamps := none
  numNodes_le := two_le_maxNodes
  numDstNodes_le := two_le_maxNodes
  offsets_length := by decide
  first_offset := by decide
  last_offset := by decide
  weights_length := nofun
  timestamps_length := nofun

/-- Both parallel edges stay, so their ordered pair is there twice. -/
theorem mirror_keeps_repeats :
    ¬ ∀ (g : Csr (WithTop Nat)) (cfg : SamplingConfig)
      (s pass : NeighborSampler WyRand (WithTop Nat)) (sampled : List SampledEdge),
      Reached .sorting g s → PassOf .sorting g cfg s pass sampled →
      Bidirected cfg pass (pass.mirror cfg) := by
  intro claim
  have repeated := claim parallelGraph { (default : SamplingConfig) with fanout := [2] } pairSampler
    _ _ (.new true 0) (.shared [0] (by decide) none)
  have once := repeated.once
  revert once
  decide +kernel

end NeighborSampler

end AetherGraph
