import AetherGraph.HeteroSampler
import AetherGraph.Foundation.Floyd

/-! What one expansion does to the heterogeneous sampler: its picks are positions of the row,
and each pick's source is registered in its own type and its edge pushed. -/

namespace AetherGraph

open Foundation

namespace HeteroNeighborSampler

variable {σ : Type} {Time : Type}

theorem getD_modify {α : Type} (xs : List α) (i j : Nat) (f : α → α) (d : α) (inside : i < xs.length) :
    (xs.modify i f).getD j d = if i = j then f (xs.getD j d) else xs.getD j d := by
  rw [List.getD_eq_getElem?_getD, List.getD_eq_getElem?_getD, List.getElem?_modify]
  split
  · rename_i same
    subst same
    rw [List.getElem?_eq_getElem inside]
    rfl
  · cases xs[j]? <;> rfl

/-- Ids in discovery order, with one more. -/
def discover (ids : List Nat) (id : Nat) : List Nat := if id ∈ ids then ids else ids ++ [id]

theorem prefix_discover (ids : List Nat) (id : Nat) : ids <+: discover ids id := by
  unfold discover
  split
  · exact List.prefix_refl ids
  · exact List.prefix_append ids [id]

theorem mem_discover (ids : List Nat) (id : Nat) : id ∈ discover ids id := by
  unfold discover
  split
  · assumption
  · exact List.mem_append_right _ List.mem_cons_self

theorem discover_nodup {ids : List Nat} (h : ids.Nodup) (id : Nat) : (discover ids id).Nodup := by
  unfold discover
  split
  · exact h
  · rename_i new
    exact List.nodup_append.mpr ⟨h, List.nodup_singleton _, fun a ha b hb same =>
      new (List.mem_singleton.mp hb ▸ same ▸ ha)⟩

/-- Local indices stay what they were as a type discovers more nodes. -/
theorem idxOf_of_grown {ids more : List Nat} (grown : ids <+: more) {id : Nat} (mem : id ∈ ids) :
    more.idxOf id = ids.idxOf id := by
  obtain ⟨rest, rfl⟩ := grown
  exact List.idxOf_append_of_mem mem

theorem getElem?_idxOf {ids : List Nat} {id : Nat} (mem : id ∈ ids) :
    ids[ids.idxOf id]? = some id := by
  rw [List.getElem?_eq_getElem (List.idxOf_lt_length_of_mem mem), List.getElem_idxOf]

/-- A new node is put where looking for it ended. -/
theorem idxOf_discover (ids : List Nat) (id : Nat) :
    (discover ids id).idxOf id = ids.idxOf id := by
  by_cases known : id ∈ ids
  · exact idxOf_of_grown (prefix_discover ids id) known
  · rw [discover, if_neg known, List.idxOf_append_of_notMem known, List.idxOf_of_notMem known,
      List.idxOf_cons_self, Nat.add_zero]

theorem getElem?_discover (ids : List Nat) (id : Nat) :
    (discover ids id)[ids.idxOf id]? = some id :=
  idxOf_discover ids id ▸ getElem?_idxOf (mem_discover ids id)

theorem getElem?_prefix {ids more : List Nat} (grown : ids <+: more) {l id : Nat}
    (at_ : ids[l]? = some id) : more[l]? = some id := by
  obtain ⟨rest, rfl⟩ := grown
  obtain ⟨inside, -⟩ := List.getElem?_eq_some_iff.mp at_
  rwa [List.getElem?_append_left inside]

theorem names_prefix {ids more : List Nat} (grown : ids <+: more) {locals names : List Nat}
    (h : locals.map (fun l => ids[l]?) = names.map some) :
    locals.map (fun l => more[l]?) = names.map some := by
  refine Eq.trans (List.map_congr_left fun l hl => ?_) h
  have here : ids[l]? ∈ names.map some := h ▸ List.mem_map_of_mem hl
  obtain ⟨id, -, at_⟩ := List.mem_map.mp here
  rw [← at_]
  exact getElem?_prefix grown at_.symm

/-- Each type's table answers for the nodes of the type discovered so far. -/
structure Tracks (g : HeteroGraph Time) (s : HeteroNeighborSampler σ) : Prop where
  dedupLength : s.dedup.length = g.nodeTypes.length
  vecsLength : s.nodeVecs.length = g.nodeTypes.length
  indexes : ∀ nt < g.nodeTypes.length,
    (s.dedup.getD nt (.map [])).Indexes (g.numNodes nt) (s.nodesOf nt)
  nodup : ∀ nt, (s.nodesOf nt).Nodup
  inRange : ∀ nt, ∀ id ∈ s.nodesOf nt, id < g.numNodes nt

variable {g : HeteroGraph Time} {s : HeteroNeighborSampler σ}

/-- A node gets the index of its place in its own type's discovery order. -/
theorem Tracks.insertNode (h : Tracks g s) (valid : g.Valid) {id nt : Nat}
    (typed : nt < g.nodeTypes.length) (inRange : id < g.numNodes nt) :
    (s.insertNode id nt).1 = ((s.nodesOf nt).idxOf id, decide (id ∉ s.nodesOf nt)) ∧
      Tracks g (s.insertNode id nt).2 ∧
      (∀ t, (s.insertNode id nt).2.nodesOf t =
        if nt = t then discover (s.nodesOf t) id else s.nodesOf t) ∧
      ∃ dedup vecs, (s.insertNode id nt).2 = { s with dedup := dedup, nodeVecs := vecs } := by
  have small : (s.nodesOf nt).length < 2 ^ 32 := by
    have := GenDedup.length_le_of_nodup (h.nodup nt) (h.inRange nt)
    have := valid.numNodes_le nt
    unfold maxNodes at this
    omega
  obtain ⟨found, indexes⟩ := (h.indexes nt typed).probe inRange small
  have index : (s.insertNode id nt).1 =
      ((s.nodesOf nt).idxOf id, decide (id ∉ s.nodesOf nt)) := by
    unfold HeteroNeighborSampler.insertNode
    rw [Nat.mod_eq_of_lt small]
    exact found
  have nodes : ∀ t, (s.insertNode id nt).2.nodesOf t =
      if nt = t then discover (s.nodesOf t) id else s.nodesOf t := by
    intro t
    unfold HeteroNeighborSampler.insertNode nodesOf
    dsimp only
    have small' : (s.nodeVecs.getD nt []).length < 2 ^ 32 := small
    unfold nodesOf at found
    rw [Nat.mod_eq_of_lt small', found]
    dsimp only
    by_cases new : id ∈ s.nodeVecs.getD nt []
    · rw [decide_eq_false (not_not_intro new), if_neg Bool.false_ne_true]
      split
      · rename_i same
        rw [← same, discover, if_pos new]
      · rfl
    · rw [decide_eq_true new, if_pos rfl, getD_modify _ _ _ _ _ (h.vecsLength ▸ typed)]
      split
      · rename_i same
        rw [← same, discover, if_neg new]
      · rfl
  refine ⟨index, ⟨?_, ?_, fun t ht => ?_, fun t => ?_, fun t x hx => ?_⟩, nodes, _, _, rfl⟩
  · exact (List.length_set ..).trans h.dedupLength
  · have length : (s.insertNode id nt).2.nodeVecs.length = s.nodeVecs.length := by
      unfold HeteroNeighborSampler.insertNode
      dsimp only
      split
      · exact List.length_modify ..
      · rfl
    exact length.trans h.vecsLength
  · rw [nodes t]
    unfold HeteroNeighborSampler.insertNode
    dsimp only
    rw [Nat.mod_eq_of_lt small, List.getD_eq_getElem?_getD, List.getElem?_set]
    split
    · rename_i same
      subst same
      rw [if_pos (h.dedupLength ▸ typed)]
      exact indexes
    · rw [← List.getD_eq_getElem?_getD]
      exact h.indexes t ht
  · rw [nodes t]
    split
    · exact discover_nodup (h.nodup t) id
    · exact h.nodup t
  · rw [nodes t] at hx
    split at hx
    · rename_i same
      subst same
      unfold discover at hx
      split at hx
      · exact h.inRange nt x hx
      · rcases List.mem_append.mp hx with old | new
        · exact h.inRange nt x old
        · exact List.mem_singleton.mp new ▸ inRange
    · exact h.inRange t x hx

/-- What an expansion along `et` has done so far: the edges of its picks pushed, and their
sources registered and, where new, put in the next frontier. -/
structure Emitted (g : HeteroGraph Time) (sources : List Nat) (dstLocal et srcType : Nat)
    (s₀ s : HeteroNeighborSampler σ) (picks : List Nat) : Prop where
  tracks : Tracks g s
  grown : ∀ t, s₀.nodesOf t <+: s.nodesOf t
  found : ∀ p ∈ picks, sources.getD p 0 ∈ s.nodesOf srcType
  src : s.edgeSrcBuf = s₀.edgeSrcBuf.modify et
    (· ++ picks.map fun p => (s.nodesOf srcType).idxOf (sources.getD p 0))
  dst : s.edgeDstBuf = s₀.edgeDstBuf.modify et (· ++ picks.map fun _ => dstLocal)
  next : ∃ new, s.nextFrontier = s₀.nextFrontier ++ new ∧
    (new.map TypedNode.id).Nodup ∧ ∀ x ∈ new, x.nodeType = srcType ∧
      (s.nodesOf srcType)[x.localIdx]? = some x.id ∧ x.id ∉ s₀.nodesOf srcType
  seedIndices : s.seedIndicesBuf = s₀.seedIndicesBuf
  expansions : s.expansions = s₀.expansions

section Emit

variable {sources : List Nat} {dstLocal et srcType : Nat} {s₀ : HeteroNeighborSampler σ}
  {picks : List Nat}

theorem Emitted.start (h : Tracks g s₀) : Emitted g sources dstLocal et srcType s₀ s₀ [] := by
  have keep : ∀ bufs : List (List Nat), bufs = bufs.modify et (· ++ []) := by
    intro bufs
    simp only [List.append_nil]
    exact (List.modify_id et bufs).symm
  exact ⟨h, fun t => List.prefix_refl _, nofun, keep _, keep _,
    ⟨[], (List.append_nil _).symm, List.nodup_nil, nofun⟩, rfl, rfl⟩

theorem modify_append (bufs : List (List Nat)) (i : Nat) (a b c : List Nat) (h : c = a ++ b) :
    (bufs.modify i (· ++ a)).modify i (· ++ b) = bufs.modify i (· ++ c) := by
  refine List.ext_getElem? fun k => ?_
  rw [List.getElem?_modify, List.getElem?_modify, List.getElem?_modify, h]
  split
  · cases bufs[k]? with
    | none => rfl
    | some buf => exact congrArg some (List.append_assoc buf a b)
  · cases bufs[k]? <;> rfl

theorem Emitted.emit (h : Emitted g sources dstLocal et srcType s₀ s picks) (valid : g.Valid)
    (typed : srcType < g.nodeTypes.length) {p : Nat}
    (inRange : sources.getD p 0 < g.numNodes srcType) :
    Emitted g sources dstLocal et srcType s₀ (s.emit (sources.getD p 0) srcType dstLocal et)
      (picks ++ [p]) := by
  obtain ⟨index, tracks, nodes, dedup, vecs, frame⟩ := h.tracks.insertNode valid typed inRange
  have own : (s.insertNode (sources.getD p 0) srcType).2.nodesOf srcType =
      discover (s.nodesOf srcType) (sources.getD p 0) := by
    rw [nodes, if_pos rfl]
  have later : s.nodesOf srcType <+: (s.insertNode (sources.getD p 0) srcType).2.nodesOf srcType :=
    own ▸ prefix_discover _ _
  obtain ⟨new, next, nodup, named⟩ := h.next
  refine ⟨{ tracks with }, fun t => ?_, ?_, ?_, ?_, ?_, ?_, ?_⟩
  · refine (h.grown t).trans ?_
    change s.nodesOf t <+: (s.insertNode (sources.getD p 0) srcType).2.nodesOf t
    rw [nodes]
    split
    · exact prefix_discover _ _
    · exact List.prefix_refl _
  · change ∀ q ∈ picks ++ [p], sources.getD q 0 ∈
      (s.insertNode (sources.getD p 0) srcType).2.nodesOf srcType
    refine List.forall_mem_append.mpr ⟨fun q hq => later.subset (h.found q hq), fun q hq => ?_⟩
    rw [List.mem_singleton.mp hq, own]
    exact mem_discover _ _
  · change (s.insertNode (sources.getD p 0) srcType).2.edgeSrcBuf.modify et
      (· ++ [(s.insertNode (sources.getD p 0) srcType).1.1]) = s₀.edgeSrcBuf.modify et (· ++
        (picks ++ [p]).map fun q =>
          ((s.insertNode (sources.getD p 0) srcType).2.nodesOf srcType).idxOf (sources.getD q 0))
    rw [index, own, List.map_append, List.map_singleton, idxOf_discover]
    have same : picks.map (fun q =>
        (discover (s.nodesOf srcType) (sources.getD p 0)).idxOf (sources.getD q 0)) =
        picks.map fun q => (s.nodesOf srcType).idxOf (sources.getD q 0) :=
      List.map_congr_left fun q hq => idxOf_of_grown (prefix_discover _ _) (h.found q hq)
    rw [same, frame, h.src]
    exact modify_append _ _ _ _ _ rfl
  · change (s.insertNode (sources.getD p 0) srcType).2.edgeDstBuf.modify et (· ++ [dstLocal]) =
      s₀.edgeDstBuf.modify et (· ++ (picks ++ [p]).map fun _ => dstLocal)
    rw [frame, h.dst, List.map_append]
    exact modify_append _ _ _ _ _ rfl
  · change ∃ new, (if (s.insertNode (sources.getD p 0) srcType).1.2 then
        (s.insertNode (sources.getD p 0) srcType).2.nextFrontier ++
          [⟨srcType, sources.getD p 0, (s.insertNode (sources.getD p 0) srcType).1.1⟩]
      else (s.insertNode (sources.getD p 0) srcType).2.nextFrontier) = s₀.nextFrontier ++ new ∧
      (new.map TypedNode.id).Nodup ∧ ∀ x ∈ new, x.nodeType = srcType ∧
        ((s.insertNode (sources.getD p 0) srcType).2.nodesOf srcType)[x.localIdx]? = some x.id ∧
          x.id ∉ s₀.nodesOf srcType
    have still : ∀ x ∈ new, x.nodeType = srcType ∧
        ((s.insertNode (sources.getD p 0) srcType).2.nodesOf srcType)[x.localIdx]? = some x.id ∧
          x.id ∉ s₀.nodesOf srcType := fun x hx =>
      ⟨(named x hx).1, getElem?_prefix later (named x hx).2.1, (named x hx).2.2⟩
    rw [index]
    dsimp only
    by_cases known : sources.getD p 0 ∈ s.nodesOf srcType
    · rw [decide_eq_false (not_not_intro known), if_neg Bool.false_ne_true]
      exact ⟨new, by rw [frame]; exact next, nodup, still⟩
    · rw [decide_eq_true known, if_pos rfl]
      refine ⟨new ++ [⟨srcType, sources.getD p 0, (s.nodesOf srcType).idxOf (sources.getD p 0)⟩],
        ?_, ?_, List.forall_mem_append.mpr ⟨still, fun x hx => ?_⟩⟩
      · rw [frame, ← List.append_assoc, ← next]
      · rw [List.map_append]
        refine List.nodup_append.mpr ⟨nodup, List.nodup_singleton _, fun a ha b hb same => ?_⟩
        obtain ⟨x, hx, rfl⟩ := List.mem_map.mp ha
        rw [List.mem_singleton.mp hb] at same
        have same : x.id = sources.getD p 0 := same
        exact known (same ▸ List.mem_of_getElem? (named x hx).2.1)
      · rw [List.mem_singleton.mp hx, own]
        dsimp only
        refine ⟨rfl, ?_, fun old => known ((h.grown srcType).subset old)⟩
        exact getElem?_discover _ _
  · change (s.insertNode (sources.getD p 0) srcType).2.seedIndicesBuf = s₀.seedIndicesBuf
    rw [frame]
    exact h.seedIndices
  · change (s.insertNode (sources.getD p 0) srcType).2.expansions = s₀.expansions
    rw [frame]
    exact h.expansions

end Emit

/-- An expansion done: its picks are positions of the row, and the draws' scratch is ready for
the next one. -/
structure Drawn (g : HeteroGraph Time) (sources : List Nat) (dstLocal et srcType : Nat)
    (s₀ : HeteroNeighborSampler σ) (out : List Nat × HeteroNeighborSampler σ) : Prop where
  emitted : Emitted g sources dstLocal et srcType s₀ out.2 out.1
  inRow : ∀ p ∈ out.1, p < sources.length
  floyd : out.2.floyd.Ready

section Draw

variable {sources : List Nat} {k srcType : Nat} (dstLocal et : Nat)

theorem getD_mem {p : Nat} (inRow : p < sources.length) : sources.getD p 0 ∈ sources := by
  rw [List.getD_eq_getElem _ _ inRow]
  exact List.getElem_mem inRow

variable [Rng σ] (valid : g.Valid) (typed : srcType < g.nodeTypes.length)
  (inRange : ∀ src ∈ sources, src < g.numNodes srcType)

include valid typed inRange

omit [Rng σ] in
theorem Tracks.takeAll (h : Tracks g s) (floyd : s.floyd.Ready) :
    Drawn g sources dstLocal et srcType s (s.takeAll sources dstLocal et srcType) ∧
      (s.takeAll sources dstLocal et srcType).1 = List.range sources.length := by
  have upTo : ∀ n ≤ sources.length, ∀ out, out = (List.range n).foldl
      (fun (acc : List Nat × HeteroNeighborSampler σ) i =>
        (acc.1 ++ [i], acc.2.emit (sources.getD i 0) srcType dstLocal et)) ([], s) →
      Drawn g sources dstLocal et srcType s out ∧ out.1 = List.range n := by
    intro n
    induction n with
    | zero =>
        rintro - _ rfl
        exact ⟨⟨.start h, nofun, floyd⟩, rfl⟩
    | succ n ih =>
        rintro hn _ rfl
        obtain ⟨drawn, picks⟩ := ih (Nat.le_of_succ_le hn) _ rfl
        rw [List.range_succ, List.foldl_append, List.foldl_cons, List.foldl_nil]
        refine ⟨⟨drawn.emitted.emit valid typed (inRange _ (getD_mem hn)), ?_, drawn.floyd⟩, ?_⟩
        · exact List.forall_mem_append.mpr ⟨drawn.inRow, fun p hp => List.mem_singleton.mp hp ▸ hn⟩
        · exact congrArg (· ++ [n]) picks
  exact upTo sources.length le_rfl _ rfl

theorem Tracks.sampleReplace (h : Tracks g s) (floyd : s.floyd.Ready) (some_ : sources ≠ []) :
    Drawn g sources dstLocal et srcType s (s.sampleReplace sources k dstLocal et srcType) ∧
      (s.sampleReplace sources k dstLocal et srcType).1.length = k := by
  have upTo : ∀ n, ∀ out, out = (List.range n).foldl
      (fun (acc : List Nat × HeteroNeighborSampler σ) _ =>
        let drawn := randBelow acc.2.rng sources.length
        (acc.1 ++ [drawn.1],
          { acc.2 with rng := drawn.2 }.emit (sources.getD drawn.1 0) srcType dstLocal et)) ([], s) →
      Drawn g sources dstLocal et srcType s out ∧ out.1.length = n := by
    intro n
    induction n with
    | zero =>
        rintro _ rfl
        exact ⟨⟨.start h, nofun, floyd⟩, rfl⟩
    | succ n ih =>
        rintro _ rfl
        obtain ⟨drawn, picks⟩ := ih _ rfl
        rw [List.range_succ, List.foldl_append, List.foldl_cons, List.foldl_nil]
        generalize List.foldl _ _ _ = acc at drawn picks
        have pick := randBelow_lt acc.2.rng (List.length_pos_iff.mpr some_)
        have redrawn : Emitted g sources dstLocal et srcType s
            { acc.2 with rng := (randBelow acc.2.rng sources.length).2 } acc.1 :=
          { drawn.emitted with tracks := { drawn.emitted.tracks with } }
        refine ⟨⟨redrawn.emit valid typed (inRange _ (getD_mem pick)), ?_, drawn.floyd⟩, ?_⟩
        · exact List.forall_mem_append.mpr
            ⟨drawn.inRow, fun p hp => List.mem_singleton.mp hp ▸ pick⟩
        · exact (List.length_append ..).trans (congrArg Nat.succ picks)
  exact upTo k _ rfl

end Draw

/-- What the membership scratch of Floyd's sampling knows of the positions taken. -/
abbrev Scratch := FloydStamps → List Nat → List Nat → Prop

def stamped : Scratch := fun floyd _ taken => floyd.Marks taken

def collected : Scratch := fun floyd floydSet taken => floyd.Ready ∧ floydSet = taken

section Floyd

variable [Rng σ] {taken : List Nat} {i : Nat}

/-- A pick is the library's, from a draw up to its upper end, and is recorded. -/
def Picks (scratch : Scratch) (pick : HeteroNeighborSampler σ → Nat → Nat × HeteroNeighborSampler σ)
    (s : HeteroNeighborSampler σ) (taken : List Nat) (i : Nat) : Prop :=
  ∃ j < i + 1, ∃ rng floyd floydSet,
    pick s i = (floydPick taken i j, { s with rng := rng, floyd := floyd, floydSet := floydSet }) ∧
      scratch floyd floydSet (taken ++ [floydPick taken i j])

theorem stampPick_picks (h : s.floyd.Marks taken) (picked : Picked taken i) (hi : i < 256) :
    Picks stamped stampPick s taken i := by
  have drawn : (randBelow s.rng (i + 1)).1 < i + 1 := randBelow_lt s.rng (Nat.succ_pos i)
  refine ⟨(randBelow s.rng (i + 1)).1, drawn, ?_⟩
  obtain ⟨found, marks⟩ := h.testAndSet (i := (randBelow s.rng (i + 1)).1) (by omega)
  unfold stampPick floydPick
  dsimp only
  generalize s.floyd.testAndSet (randBelow s.rng (i + 1)).1 = tested at found marks
  obtain ⟨isNew, floyd⟩ := tested
  by_cases old : (randBelow s.rng (i + 1)).1 ∈ taken
  · rw [decide_eq_false (not_not_intro old)] at found
    obtain rfl : isNew = false := found
    rw [if_pos old] at marks ⊢
    have own := (marks.testAndSet hi).2
    rw [if_neg fun again => Nat.lt_irrefl i (picked.lt i again)] at own
    exact ⟨_, _, _, rfl, own⟩
  · rw [decide_eq_true old] at found
    obtain rfl : isNew = true := found
    rw [if_neg old] at marks ⊢
    exact ⟨_, _, _, rfl, marks⟩

theorem setPick_picks (h : collected s.floyd s.floydSet taken) (picked : Picked taken i) :
    Picks collected setPick s taken i := by
  obtain ⟨ready, rfl⟩ := h
  refine ⟨(randBelow s.rng (i + 1)).1, randBelow_lt s.rng (Nat.succ_pos i), ?_⟩
  unfold setPick floydPick seenInsert
  dsimp only
  by_cases old : (randBelow s.rng (i + 1)).1 ∈ s.floydSet
  · have new : i ∉ s.floydSet := fun again => Nat.lt_irrefl i (picked.lt i again)
    rw [if_pos old, if_pos old]
    dsimp only
    rw [if_neg new]
    exact ⟨_, _, _, rfl, ready, rfl⟩
  · rw [if_neg old, if_neg old]
    exact ⟨_, _, _, rfl, ready, rfl⟩

variable {sources : List Nat} {k srcType : Nat} (dstLocal et : Nat) (valid : g.Valid)
  (typed : srcType < g.nodeTypes.length) (inRange : ∀ src ∈ sources, src < g.numNodes srcType)

include valid typed inRange

omit [Rng σ] in
theorem Tracks.pickEach (scratch : Scratch)
    (pick : HeteroNeighborSampler σ → Nat → Nat × HeteroNeighborSampler σ) (h : Tracks g s)
    (ready : ∀ {floyd floydSet taken}, scratch floyd floydSet taken → floyd.Ready)
    (step : ∀ {s : HeteroNeighborSampler σ} {taken i}, i < sources.length →
      scratch s.floyd s.floydSet taken → Picked taken i → Picks scratch pick s taken i)
    (start : scratch s.floyd s.floydSet []) (hk : k ≤ sources.length) :
    Drawn g sources dstLocal et srcType s
        (s.pickEach sources dstLocal et srcType pick (NeighborSampler.upperEnds sources.length k)) ∧
      (s.pickEach sources dstLocal et srcType pick
        (NeighborSampler.upperEnds sources.length k)).1.Nodup ∧
      (s.pickEach sources dstLocal et srcType pick
        (NeighborSampler.upperEnds sources.length k)).1.length = k := by
  have upTo : ∀ n lo, lo + n ≤ sources.length →
      ∀ acc : List Nat × HeteroNeighborSampler σ,
      Drawn g sources dstLocal et srcType s acc → Picked acc.1 lo →
      scratch acc.2.floyd acc.2.floydSet acc.1 → ∀ out, out = (List.range' lo n).foldl
        (fun (acc : List Nat × HeteroNeighborSampler σ) i =>
          let picked := pick acc.2 i
          (acc.1 ++ [picked.1], picked.2.emit (sources.getD picked.1 0) srcType dstLocal et)) acc →
      Drawn g sources dstLocal et srcType s out ∧ out.1.Nodup ∧ out.1.length = acc.1.length + n := by
    intro n
    induction n with
    | zero =>
        rintro lo - acc drawn picked marks _ rfl
        exact ⟨drawn, picked.nodup, rfl⟩
    | succ n ih =>
        rintro lo fits acc drawn picked marks _ rfl
        obtain ⟨j, hj, rng, floyd, floydSet, pickEq, marks'⟩ := step (by omega) marks picked
        have lt := (picked.pick hj).2
        have redrawn : Emitted g sources dstLocal et srcType s
            { acc.2 with rng := rng, floyd := floyd, floydSet := floydSet } acc.1 :=
          { drawn.emitted with tracks := { drawn.emitted.tracks with } }
        have here : floydPick acc.1 lo j < sources.length := by omega
        rw [List.range'_succ, List.foldl_cons]
        dsimp only
        rw [pickEq]
        have next := ih (lo + 1) (by omega) (acc.1 ++ [floydPick acc.1 lo j], _)
          ⟨redrawn.emit valid typed (inRange _ (getD_mem here)),
            List.forall_mem_append.mpr
              ⟨drawn.inRow, fun p hp => List.mem_singleton.mp hp ▸ here⟩, ready marks'⟩
          (picked.snoc hj) marks' _ rfl
        obtain ⟨drawn', nodup, length⟩ := next
        refine ⟨drawn', nodup, length.trans ?_⟩
        rw [List.length_append, List.length_singleton]
        omega
  unfold HeteroNeighborSampler.pickEach NeighborSampler.upperEnds
  have all := upTo (sources.length - (sources.length - k)) (sources.length - k) (by omega) ([], s)
    ⟨.start h, nofun, ready start⟩ (.nil _) start _ rfl
  obtain ⟨drawn, nodup, length⟩ := all
  refine ⟨drawn, nodup, length.trans ?_⟩
  rw [List.length_nil, Nat.zero_add, Nat.sub_sub_self hk]

theorem Tracks.sampleFloyd (h : Tracks g s) (floyd : s.floyd.Ready) (hk : k ≤ sources.length) :
    Drawn g sources dstLocal et srcType s (s.sampleFloyd sources k dstLocal et srcType) ∧
      (s.sampleFloyd sources k dstLocal et srcType).1.Nodup ∧
      (s.sampleFloyd sources k dstLocal et srcType).1.length = k := by
  unfold HeteroNeighborSampler.sampleFloyd
  dsimp only
  split
  · rename_i small
    have begun : Tracks g { s with floyd := s.floyd.begin } := { h with }
    have ran := Tracks.pickEach dstLocal et valid typed inRange stamped stampPick begun
      (fun marks => marks.ready) (fun hi marks picked => stampPick_picks marks picked (by omega))
      floyd.begin hk
    exact ⟨⟨{ ran.1.emitted with }, ran.1.inRow, ran.1.floyd⟩, ran.2⟩
  · have begun : Tracks g { s with floydSet := [] } := { h with }
    have ran := Tracks.pickEach dstLocal et valid typed inRange collected setPick begun
      (fun marks => marks.1) (fun _ marks picked => setPick_picks marks picked) ⟨floyd, rfl⟩ hk
    exact ⟨⟨{ ran.1.emitted with }, ran.1.inRow, ran.1.floyd⟩, ran.2⟩

end Floyd

end HeteroNeighborSampler

end AetherGraph
