import AetherGraph.SamplerRuns

/-! What a pass adds, expansion by expansion and hop by hop: the nodes it discovers and the
rows of edges it emits. -/

namespace AetherGraph

open Foundation

namespace Pass

variable {σ : Type} [Rng σ] {Time : Type} [LT Time] [DecidableLT Time] [Top Time]
variable {ops : SliceOps} {g : Csr Time} {cfg : SamplingConfig} {p q : Pass Time}

/-- From `p` to `q` the nodes `new` were discovered and the edges `row` emitted. -/
structure Added (cfg : SamplingConfig) (p q : Pass Time) (new : List Nat) (row : List SampledEdge) :
    Prop where
  nodes : q.nodes = p.nodes ++ new
  next : q.next.map Prod.fst = p.next.map Prod.fst ++ new
  edges : q.edges = p.edges ++ row
  frontier : q.frontier = p.frontier
  hop : q.hop = p.hop
  fresh : ∀ eid, q.fresh eid = p.fresh eid
  kept : ∀ eid hop, p.emittedAt.lookup eid = some hop → q.emittedAt.lookup eid = some hop
  noted : cfg.cumulative = true → ∀ e ∈ row, p.fresh e.eid = true ∧
    q.emittedAt.lookup e.eid = some q.hop

omit [LT Time] [DecidableLT Time] [Top Time] in
theorem Added.refl (p : Pass Time) : Added cfg p p [] [] where
  nodes := (List.append_nil _).symm
  next := (List.append_nil _).symm
  edges := (List.append_nil _).symm
  frontier := rfl
  hop := rfl
  fresh _ := rfl
  kept _ _ h := h
  noted _ _ he := absurd he List.not_mem_nil

omit [LT Time] [DecidableLT Time] [Top Time] in
theorem Added.trans {r : Pass Time} {new new' : List Nat} {row row' : List SampledEdge}
    (h : Added cfg p q new row) (h' : Added cfg q r new' row') :
    Added cfg p r (new ++ new') (row ++ row') where
  nodes := by rw [h'.nodes, h.nodes, List.append_assoc]
  next := by rw [h'.next, h.next, List.append_assoc]
  edges := by rw [h'.edges, h.edges, List.append_assoc]
  frontier := h'.frontier.trans h.frontier
  hop := h'.hop.trans h.hop
  fresh eid := (h'.fresh eid).trans (h.fresh eid)
  kept eid hop found := h'.kept eid hop (h.kept eid hop found)
  noted cumulative e he := by
    rcases List.mem_append.mp he with he | he
    · obtain ⟨fresh, noted⟩ := h.noted cumulative e he
      exact ⟨fresh, h'.kept _ _ (h'.hop ▸ noted)⟩
    · obtain ⟨fresh, noted⟩ := h'.noted cumulative e he
      exact ⟨(h.fresh _).symm.trans fresh, noted⟩

omit [LT Time] [DecidableLT Time] [Top Time] in
/-- Noting an edge allowed this hop makes this hop its own, and allows no edge more or less. -/
theorem noteEmitted_fresh {eid : Nat} (allowed : p.fresh eid = true) :
    (p.noteEmitted eid).emittedAt.lookup eid = some p.hop ∧
      (∀ x, (p.noteEmitted eid).fresh x = p.fresh x) ∧
      ∀ x hop, p.emittedAt.lookup x = some hop →
        (p.noteEmitted eid).emittedAt.lookup x = some hop := by
  unfold noteEmitted
  cases found : p.emittedAt.lookup eid with
  | some hop =>
      unfold fresh at allowed
      rw [found] at allowed
      have same : hop = p.hop := of_decide_eq_true allowed
      exact ⟨found.trans (congrArg some same), fun _ => rfl, fun _ _ h => h⟩
  | none =>
      refine ⟨List.lookup_cons_self, fun x => ?_, fun x hop known => ?_⟩
      · unfold fresh
        by_cases same : x = eid
        · subst same
          rw [found, List.lookup_cons_self]
          exact decide_eq_true rfl
        · rw [List.lookup_cons, beq_false_of_ne same]
      · have ne : x ≠ eid := by
          rintro rfl
          rw [found] at known
          cases known
        rw [List.lookup_cons, beq_false_of_ne ne]
        exact known

variable (g cfg) in
omit [Top Time] in
/-- An emission adds at most its own edge, and at most its neighbor to the nodes. -/
theorem emit_added (src srcLocal : Nat) (p : Pass Time) (dst eid : Nat) (time : Time) :
    ∃ new row, Added cfg p (p.emit g cfg src srcLocal dst eid time) new row ∧
      (row = [] ∨ ∃ dstLocal, row = [⟨src, srcLocal, dst, dstLocal, eid⟩]) ∧
      (cfg.cumulative = false → dst < g.numNodes → row ≠ []) := by
  obtain ⟨same, cumulative, -⟩ | ⟨allowed, noted, isNoted, kept, reached⟩ :=
    emit_cases g cfg src srcLocal p dst eid time
  · rw [same]
    exact ⟨[], [], .refl p, .inl rfl, fun not => nomatch not.symm.trans cumulative⟩
  · have mark : (∀ x, noted.fresh x = p.fresh x) ∧
        (∀ x hop, p.emittedAt.lookup x = some hop → noted.emittedAt.lookup x = some hop) ∧
        (cfg.cumulative = true → noted.emittedAt.lookup eid = some p.hop) := by
      rw [isNoted]
      split
      · rename_i cumulative
        obtain ⟨own, fresh, old⟩ := noteEmitted_fresh (allowed cumulative)
        exact ⟨fresh, old, fun _ => own⟩
      · rename_i not
        exact ⟨fun _ => rfl, fun _ _ h => h, fun cumulative => absurd cumulative not⟩
    obtain ⟨fresh, old, own⟩ := mark
    obtain ⟨outside, same⟩ | ⟨inside, same⟩ := reached
    · refine ⟨[], [], ?_, .inl rfl, fun _ inside => absurd inside (Nat.not_lt.mpr outside)⟩
      rw [same]
      rw [kept] at fresh old ⊢
      exact { (Added.refl p : Added cfg p p [] []) with fresh := fresh, kept := old, noted := nofun }
    · refine ⟨if dst ∈ p.nodes then [] else [dst],
        [⟨src, srcLocal, dst, p.nodes.idxOf dst, eid⟩], ?_, .inr ⟨_, rfl⟩,
        fun _ _ => List.cons_ne_nil _ _⟩
      rw [same, push_eq]
      rw [kept] at fresh old own ⊢
      refine ⟨?_, ?_, rfl, rfl, rfl, fresh, old, fun cumulative e he => ?_⟩
      · dsimp only
        split
        · exact (List.append_nil _).symm
        · rfl
      · dsimp only
        split
        · exact (List.append_nil _).symm
        · rw [List.map_append]
          rfl
      · obtain rfl := List.mem_singleton.mp he
        exact ⟨allowed cumulative, own cumulative⟩

variable (g cfg) in
omit [Top Time] in
/-- The edges emitted for `picks`, in their order; an edge is left out only in cumulative
mode, or when its neighbor lies outside the graph. -/
theorem emitAll_added (node nodeLocal : Nat) (neighbors : List Nat) (edgeOffset : Nat)
    (time : Nat → Time) (picks : List Nat) (p : Pass Time) :
    ∃ new row taken, Added cfg p
        (p.emitAll g cfg node nodeLocal neighbors edgeOffset time picks) new row ∧
      taken.Sublist picks ∧ row.map SampledEdge.eid = taken.map (edgeOffset + ·) ∧
      (∀ e ∈ row, e.src = node) ∧
      (cfg.cumulative = false → (∀ i ∈ picks, neighbors.getD i 0 < g.numNodes) → taken = picks) := by
  induction picks generalizing p with
  | nil =>
      exact ⟨[], [], [], .refl p, .slnil, rfl, fun _ he => absurd he List.not_mem_nil,
        fun _ _ => rfl⟩
  | cons i picks ih =>
      obtain ⟨new, row, first, own, inside⟩ := emit_added g cfg node nodeLocal p
        (neighbors.getD i 0) (edgeOffset + i) (time i)
      obtain ⟨new', row', taken, rest, sub, ids, src, all⟩ := ih (p.emit g cfg node nodeLocal
        (neighbors.getD i 0) (edgeOffset + i) (time i))
      have whole := first.trans rest
      rcases own with rfl | ⟨dstLocal, rfl⟩
      · refine ⟨_, _, taken, whole, sub.cons i, ids, src, fun not inRange => ?_⟩
        exact absurd rfl (inside not (inRange i List.mem_cons_self))
      · refine ⟨_, _, i :: taken, whole, sub.cons_cons i, ?_, ?_, fun not inRange => ?_⟩
        · rw [List.singleton_append, List.map_cons, List.map_cons, ids]
        · exact List.forall_mem_cons.mpr ⟨rfl, src⟩
        · rw [all not fun j hj => inRange j (List.mem_cons_of_mem i hj)]

variable (g cfg) in
/-- The edges that one expansion of `node` emits. -/
structure RowEdges (sampleSize node : Nat) (row : List SampledEdge) : Prop where
  src : ∀ e ∈ row, e.src = node
  once : cfg.replace = false → (row.map SampledEdge.eid).Nodup ∧ row.length ≤ sampleSize
  uniform : cfg.replace = false → cfg.temporalStrategy = none → cfg.weighted = false →
    cfg.cumulative = false → (∀ d ∈ g.neighbors node, d < g.numNodes) →
      row.length = min sampleSize (g.degree node)

variable (ops g) in
theorem expand_added {isTemporal : Bool} (temporal : isTemporal = cfg.temporalStrategy.isSome)
    (sampleSize : Nat) (p : Pass Time) (r : σ) (entry : Nat × Nat) :
    ∃ new row, Added cfg p (expand ops g cfg isTemporal sampleSize (p, r) entry).1 new row ∧
      RowEdges g cfg sampleSize entry.1 row := by
  have draw := rowPicks_draw ops g cfg temporal sampleSize p entry r
  obtain ⟨new, row, taken, added, sub, ids, src, all⟩ := emitAll_added g cfg
    entry.1 entry.2 (slice g.edges (g.neighborRange entry.1)) (g.neighborRange entry.1).1
    (p.rowPicks ops g cfg isTemporal sampleSize entry r).2.1
    (p.rowPicks ops g cfg isTemporal sampleSize entry r).1 p
  have length : row.length = taken.length := by
    rw [← List.length_map (f := SampledEdge.eid), ids, List.length_map]
  refine ⟨new, row, added, src, fun once => ?_, fun once notTemporal unweighted not inRange => ?_⟩
  · obtain ⟨nodup, few⟩ := draw.once once
    refine ⟨?_, length ▸ Nat.le_trans sub.length_le few⟩
    rw [ids]
    exact (List.nodup_map_iff fun _ _ => Nat.add_left_cancel).mpr (sub.nodup nodup)
  · rw [length, all not fun i hi => ?_, draw.uniform once notTemporal unweighted]
    have inRow : i < (g.neighbors entry.1).length := by
      rw [Csr.neighbors_length]
      exact draw.lt i hi
    refine inRange _ ?_
    change (g.neighbors entry.1).getD i 0 ∈ g.neighbors entry.1
    rw [List.getD_eq_getElem _ _ inRow]
    exact List.getElem_mem inRow

variable (ops g) in
theorem expandAll_added {isTemporal : Bool} (temporal : isTemporal = cfg.temporalStrategy.isSome)
    (sampleSize : Nat) (entries : List (Nat × Nat)) (p : Pass Time) (r : σ) :
    ∃ new rows, Added cfg p
        (entries.foldl (expand ops g cfg isTemporal sampleSize) (p, r)).1 new rows.flatten ∧
      List.Forall₂ (RowEdges g cfg sampleSize) (entries.map Prod.fst) rows := by
  induction entries generalizing p r with
  | nil => exact ⟨[], [], .refl p, .nil⟩
  | cons entry entries ih =>
      obtain ⟨new, row, first, own⟩ := expand_added ops g temporal sampleSize p r
        entry
      obtain ⟨new', rows, rest, others⟩ :=
        ih (expand ops g cfg isTemporal sampleSize (p, r) entry).1
          (expand ops g cfg isTemporal sampleSize (p, r) entry).2
      exact ⟨new ++ new', row :: rows, first.trans rest, .cons own others⟩

variable (g cfg) in
/-- The edges one hop emits from the nodes `front`, each expanded once. -/
structure HopEdges (sampleSize : Nat) (front : List Nat) (edges : List SampledEdge) : Prop where
  once : cfg.replace = false → ∀ u,
    ((edges.filter (·.src = u)).map SampledEdge.eid).Nodup ∧
      (edges.filter (·.src = u)).length ≤ sampleSize
  uniform : cfg.replace = false → cfg.temporalStrategy = none → cfg.weighted = false →
    cfg.cumulative = false → ∀ u ∈ front, (∀ d ∈ g.neighbors u, d < g.numNodes) →
      (edges.filter (·.src = u)).length = min sampleSize (g.degree u)

omit [LT Time] [DecidableLT Time] [Top Time] in
/-- A row's edges are found among the hop's by their source. -/
theorem filter_flatten {sampleSize : Nat} {front : List Nat} {rows : List (List SampledEdge)}
    (h : List.Forall₂ (RowEdges g cfg sampleSize) front rows) (nodup : front.Nodup) (u : Nat) :
    u ∉ front ∧ rows.flatten.filter (·.src = u) = [] ∨
      u ∈ front ∧ RowEdges g cfg sampleSize u (rows.flatten.filter (·.src = u)) := by
  induction h with
  | nil => exact .inl ⟨List.not_mem_nil, rfl⟩
  | @cons v row front rows own rest ih =>
      obtain ⟨new, nodup⟩ := List.nodup_cons.mp nodup
      rw [List.flatten_cons, List.filter_append]
      by_cases here : v = u
      · subst here
        have whole : row.filter (·.src = v) = row :=
          List.filter_eq_self.mpr fun e he => decide_eq_true (own.src e he)
        obtain ⟨-, others⟩ := (ih nodup).resolve_right fun h => new h.1
        rw [whole, others, List.append_nil]
        exact .inr ⟨List.mem_cons_self, own⟩
      · have none : row.filter (·.src = u) = [] :=
          List.filter_eq_nil_iff.mpr fun e he same => here ((own.src e he).symm.trans
            (of_decide_eq_true same))
        rw [none, List.nil_append]
        refine (ih nodup).imp (fun h => ⟨fun hu => ?_, h.2⟩)
          fun h => ⟨List.mem_cons_of_mem v h.1, h.2⟩
        rcases List.mem_cons.mp hu with same | hu
        · exact here same.symm
        · exact h.1 hu

omit [LT Time] [DecidableLT Time] [Top Time] in
theorem hopEdges_of_rows {sampleSize : Nat} {front : List Nat} {rows : List (List SampledEdge)}
    (h : List.Forall₂ (RowEdges g cfg sampleSize) front rows) (nodup : front.Nodup) :
    HopEdges g cfg sampleSize front rows.flatten where
  once once u := by
    rcases filter_flatten h nodup u with ⟨-, none⟩ | ⟨-, own⟩
    · rw [none]
      exact ⟨List.nodup_nil, Nat.zero_le _⟩
    · exact own.once once
  uniform once notTemporal unweighted not u hu inRange := by
    obtain ⟨-, own⟩ := (filter_flatten h nodup u).resolve_left fun h => h.1 hu
    exact own.uniform once notTemporal unweighted not inRange

/-- The edge names its ends by their places in `nodes`, and stands in the row of its source. -/
structure Stored (g : Csr Time) (nodes : List Nat) (e : SampledEdge) : Prop where
  src : nodes[e.srcLocal]? = some e.src
  dst : nodes[e.dstLocal]? = some e.dst
  row : (g.neighborRange e.src).1 ≤ e.eid ∧ e.eid < (g.neighborRange e.src).2
  target : g.edges[e.eid]? = some e.dst

/-- The nodes are distinct, and the edges and both frontiers name them by their places. -/
structure Sound (g : Csr Time) (p : Pass Time) : Prop where
  nodup : p.nodes.Nodup
  edges : ∀ e ∈ p.edges, Stored g p.nodes e
  frontier : ∀ x ∈ p.frontier, p.nodes[x.2]? = some x.1
  next : ∀ x ∈ p.next, p.nodes[x.2]? = some x.1

omit [LT Time] [DecidableLT Time] [Top Time] in
theorem getElem?_append_of_some {nodes : List Nat} {i v : Nat} (h : nodes[i]? = some v)
    (more : List Nat) : (nodes ++ more)[i]? = some v := by
  rw [List.getElem?_append_left (List.getElem?_eq_some_iff.mp h).1, h]

omit [LT Time] [DecidableLT Time] [Top Time] in
theorem Stored.append {nodes : List Nat} {e : SampledEdge} (h : Stored g nodes e)
    (more : List Nat) : Stored g (nodes ++ more) e :=
  ⟨getElem?_append_of_some h.src more, getElem?_append_of_some h.dst more, h.row, h.target⟩

omit [LT Time] [DecidableLT Time] [Top Time] in
/-- The index a node has, or will have once it is appended. -/
theorem getElem?_idxOf (nodes : List Nat) (id : Nat) :
    (if id ∈ nodes then nodes else nodes ++ [id])[nodes.idxOf id]? = some id := by
  split
  · rename_i known
    exact List.getElem?_idxOf known
  · rename_i new
    rw [List.idxOf_of_notMem new, List.getElem?_concat_length]

omit [Top Time] in
theorem Sound.emit (h : Sound g p) {src srcLocal : Nat} (named : p.nodes[srcLocal]? = some src)
    {dst eid : Nat} (row : (g.neighborRange src).1 ≤ eid ∧ eid < (g.neighborRange src).2)
    (target : g.edges[eid]? = some dst) (time : Time) :
    Sound g (p.emit g cfg src srcLocal dst eid time) := by
  obtain ⟨same, -, -⟩ | ⟨-, noted, -, kept, ⟨-, same⟩ | ⟨-, same⟩⟩ :=
    emit_cases g cfg src srcLocal p dst eid time
  · rwa [same]
  · rw [same, kept]
    exact { h with }
  · rw [same, push_eq, kept]
    have grown : ∃ more, (if dst ∈ p.nodes then p.nodes else p.nodes ++ [dst]) = p.nodes ++ more := by
      split
      · exact ⟨[], (List.append_nil _).symm⟩
      · exact ⟨[dst], rfl⟩
    have last := getElem?_idxOf p.nodes dst
    refine ⟨?_, fun e he => ?_, fun x hx => ?_, fun x hx => ?_⟩
    · dsimp only
      split
      · exact h.nodup
      · rename_i new
        exact List.nodup_append.mpr ⟨h.nodup, List.nodup_singleton dst, fun a ha b hb same =>
          new (List.mem_singleton.mp hb ▸ same ▸ ha)⟩
    · rcases List.mem_append.mp he with he | he
      · obtain ⟨more, grown⟩ := grown
        exact grown ▸ (h.edges e he).append more
      · obtain rfl := List.mem_singleton.mp he
        refine ⟨?_, last, row, target⟩
        obtain ⟨more, grown⟩ := grown
        exact grown ▸ getElem?_append_of_some named more
    · obtain ⟨more, grown⟩ := grown
      exact grown ▸ getElem?_append_of_some (h.frontier x hx) more
    · dsimp only at hx
      have old : x ∈ p.next →
          (if dst ∈ p.nodes then p.nodes else p.nodes ++ [dst])[x.2]? = some x.1 := by
        intro hx
        obtain ⟨more, grown⟩ := grown
        exact grown ▸ getElem?_append_of_some (h.next x hx) more
      split at hx
      · exact old hx
      · rcases List.mem_append.mp hx with hx | hx
        · exact old hx
        · obtain rfl := List.mem_singleton.mp hx
          exact last

theorem Sound.expand {isTemporal : Bool} (temporal : isTemporal = cfg.temporalStrategy.isSome)
    (h : Sound g p) {sampleSize : Nat} {r : σ} {entry : Nat × Nat} (hentry : entry ∈ p.frontier) :
    Sound g (expand ops g cfg isTemporal sampleSize (p, r) entry).1 := by
  have draw := rowPicks_draw ops g cfg temporal sampleSize p entry r
  suffices run : ∀ (picks : List Nat), (∀ i ∈ picks, i < g.degree entry.1) →
      ∀ {q : Pass Time}, Sound g q → entry ∈ q.frontier → ∀ time : Nat → Time,
      Sound g (q.emitAll g cfg entry.1 entry.2 (slice g.edges (g.neighborRange entry.1))
        (g.neighborRange entry.1).1 time picks) from run _ draw.lt h hentry _
  intro picks
  induction picks with
  | nil => exact fun _ _ h _ _ => h
  | cons i picks ih =>
      intro lt q h hentry time
      obtain ⟨here, later⟩ := List.forall_mem_cons.mp lt
      have edge : g.edges[(g.neighborRange entry.1).1 + i]? =
          some ((slice g.edges (g.neighborRange entry.1)).getD i 0) := by
        have inRow : i < (g.neighbors entry.1).length := by rwa [Csr.neighbors_length]
        rw [← Csr.neighbors_getElem? here]
        change (g.neighbors entry.1)[i]? = some ((g.neighbors entry.1).getD i 0)
        rw [List.getD_eq_getElem _ _ inRow, List.getElem?_eq_getElem inRow]
      have inRange : (g.neighborRange entry.1).1 ≤ (g.neighborRange entry.1).1 + i ∧
          (g.neighborRange entry.1).1 + i < (g.neighborRange entry.1).2 := by
        unfold Csr.degree at here
        omega
      refine ih later (h.emit (h.frontier entry hentry) inRange edge (time i)) ?_ time
      rw [(emit_frame g cfg _ _ _ _ _ _).1]
      exact hentry

theorem Sound.expandAll {isTemporal : Bool} (temporal : isTemporal = cfg.temporalStrategy.isSome)
    {sampleSize : Nat} {entries : List (Nat × Nat)} (sub : entries ⊆ p.frontier) (h : Sound g p)
    (r : σ) : Sound g (entries.foldl (Pass.expand ops g cfg isTemporal sampleSize) (p, r)).1 := by
  induction entries generalizing p r with
  | nil => exact h
  | cons entry entries ih =>
      refine ih (p := (Pass.expand ops g cfg isTemporal sampleSize (p, r) entry).1) ?_
        (h.expand temporal (sub List.mem_cons_self)) _
      have kept : (Pass.expand ops g cfg isTemporal sampleSize (p, r) entry).1.frontier =
          p.frontier := (emitAll_frame _ _ _ _ _ _ _ _ p).1
      rw [kept]
      exact fun x hx => sub (List.mem_cons_of_mem entry hx)

/-- Between hops: the nodes still to be expanded are the last ones discovered. -/
structure HopStart (g : Csr Time) (p : Pass Time) : Prop where
  sound : Sound g p
  front : p.frontier.map Prod.fst <:+ p.nodes

variable (g cfg) in
/-- What hop number `hop` adds: the nodes `new` and the edges `row`. -/
structure HopAdded (hop : Nat) (p q : Pass Time) (new : List Nat) (row : List SampledEdge) :
    Prop where
  start : HopStart g q
  nodes : q.nodes = p.nodes ++ new
  edges : q.edges = p.edges ++ row
  front : cfg.cumulative = false → q.frontier.map Prod.fst = new
  emitted : HopEdges g cfg (cfg.fanout.getD hop 0) (p.frontier.map Prod.fst) row
  kept : ∀ eid h, p.emittedAt.lookup eid = some h → q.emittedAt.lookup eid = some h
  noted : cfg.cumulative = true → ∀ e ∈ row,
    (∀ h ∈ p.emittedAt.lookup e.eid, h = hop % 2 ^ 32) ∧
      q.emittedAt.lookup e.eid = some (hop % 2 ^ 32)

variable (ops) in
theorem HopStart.runHop {isTemporal : Bool} (temporal : isTemporal = cfg.temporalStrategy.isSome)
    (h : HopStart g p) (r : σ) (hop : Nat) :
    ∃ new row, (Pass.runHop ops g cfg isTemporal (p, r) hop).1 = (new.length, row.length) ∧
      HopAdded g cfg hop p (Pass.runHop ops g cfg isTemporal (p, r) hop).2.1 new row := by
  obtain ⟨new, rows, added, each⟩ := expandAll_added ops g temporal (cfg.fanout.getD hop 0)
    p.frontier { p with hop := hop % 2 ^ 32, next := [] } r
  have sound : Sound g { p with hop := hop % 2 ^ 32, next := [] } :=
    { h.sound with next := fun x hx => absurd hx List.not_mem_nil }
  have ran : Sound g (p.frontier.foldl (Pass.expand ops g cfg isTemporal (cfg.fanout.getD hop 0))
      ({ p with hop := hop % 2 ^ 32, next := [] }, r)).1 :=
    sound.expandAll temporal (List.Subset.refl _) r
  have nodup : (p.frontier.map Prod.fst).Nodup := h.front.sublist.nodup h.sound.nodup
  have emitted := hopEdges_of_rows each nodup
  have counts : (Pass.runHop ops g cfg isTemporal (p, r) hop).1 =
      (new.length, rows.flatten.length) := by
    have next := congrArg List.length added.next
    have edges := congrArg List.length added.edges
    rw [List.length_map, List.length_append] at next
    rw [List.length_append] at edges
    unfold Pass.runHop
    dsimp only at next edges ⊢
    rw [next, edges]
    simp
  have noted : cfg.cumulative = true → ∀ e ∈ rows.flatten,
      (∀ h ∈ p.emittedAt.lookup e.eid, h = hop % 2 ^ 32) ∧
        (p.frontier.foldl (Pass.expand ops g cfg isTemporal (cfg.fanout.getD hop 0))
          ({ p with hop := hop % 2 ^ 32, next := [] }, r)).1.emittedAt.lookup e.eid =
            some (hop % 2 ^ 32) := by
    intro cumulative e he
    obtain ⟨fresh, own⟩ := added.noted cumulative e he
    refine ⟨fun known found => ?_, own.trans (congrArg some added.hop)⟩
    unfold Pass.fresh at fresh
    rw [Option.mem_def.mp found] at fresh
    exact of_decide_eq_true fresh
  refine ⟨new, rows.flatten, counts, ?_⟩
  have nextNodes : (p.frontier.foldl (Pass.expand ops g cfg isTemporal (cfg.fanout.getD hop 0))
      ({ p with hop := hop % 2 ^ 32, next := [] }, r)).1.next.map Prod.fst = new := added.next
  unfold Pass.runHop
  dsimp only
  by_cases cumulative : cfg.cumulative = true
  · simp only [cumulative, if_true]
    refine ⟨⟨{ ran with frontier := List.forall_mem_append.mpr ⟨ran.frontier, ran.next⟩ }, ?_⟩,
      added.nodes, added.edges, fun not => absurd cumulative (Bool.not_eq_true _ ▸ not), emitted, added.kept, fun _ => noted cumulative⟩
    dsimp only
    rw [List.map_append, nextNodes, added.nodes, added.frontier]
    exact List.suffix_append_self_iff.mpr h.front
  · simp only [cumulative, Bool.false_eq_true, if_false]
    refine ⟨⟨{ ran with frontier := ran.next, next := ran.frontier }, ?_⟩, added.nodes, added.edges,
      fun _ => nextNodes, emitted, added.kept, fun not => absurd not cumulative⟩
    dsimp only
    rw [nextNodes, added.nodes]
    exact List.suffix_append _ _

variable (g cfg) in
/-- What the hops from number `hop` on add: the nodes `news` and the edges `rows` of each. -/
structure RunAdded (hop : Nat) (p q : Pass Time) (counts : List (Nat × Nat))
    (news : List (List Nat)) (rows : List (List SampledEdge)) : Prop where
  start : HopStart g q
  nodes : q.nodes = p.nodes ++ news.flatten
  edges : q.edges = p.edges ++ rows.flatten
  newCounts : counts.map Prod.fst = news.map List.length
  edgeCounts : counts.map Prod.snd = rows.map List.length
  each : ∀ k < rows.length, HopEdges g cfg (cfg.fanout.getD (hop + k) 0)
    ((p.frontier.map Prod.fst :: news).getD k []) (rows.getD k [])

omit [LT Time] [DecidableLT Time] [Top Time] in
theorem HopEdges.of_cumulative {sampleSize : Nat} {front front' : List Nat}
    {edges : List SampledEdge} (h : HopEdges g cfg sampleSize front edges)
    (same : cfg.cumulative = false → front' = front) : HopEdges g cfg sampleSize front' edges where
  once := h.once
  uniform once notTemporal unweighted not u hu inRange :=
    h.uniform once notTemporal unweighted not u (same not ▸ hu) inRange

variable (ops) in
theorem HopStart.runHopsFrom {isTemporal : Bool}
    (temporal : isTemporal = cfg.temporalStrategy.isSome) (hops hop : Nat) (h : HopStart g p)
    (r : σ) :
    ∃ news rows, rows.length = hops ∧ news.length = hops ∧
      RunAdded g cfg hop p (Pass.runHopsFrom ops g cfg isTemporal hop hops (p, r)).2.1
        (Pass.runHopsFrom ops g cfg isTemporal hop hops (p, r)).1 news rows := by
  induction hops generalizing p r hop with
  | zero =>
      refine ⟨[], [], rfl, rfl, h, ?_, ?_, rfl, rfl, fun k hk => absurd hk (Nat.not_lt_zero k)⟩
      · exact (List.append_nil _).symm
      · exact (List.append_nil _).symm
  | succ hops ih =>
      obtain ⟨new, row, counts, added⟩ := h.runHop ops temporal r hop
      obtain ⟨news, rows, rowsLength, newsLength, rest⟩ := ih (hop + 1) added.start
        (Pass.runHop ops g cfg isTemporal (p, r) hop).2.2
      refine ⟨new :: news, row :: rows, congrArg Nat.succ rowsLength, congrArg Nat.succ newsLength,
        rest.start, ?_, ?_, ?_, ?_, fun k hk => ?_⟩
      · rw [List.flatten_cons, ← List.append_assoc, ← added.nodes]
        exact rest.nodes
      · rw [List.flatten_cons, ← List.append_assoc, ← added.edges]
        exact rest.edges
      · rw [List.map_cons, ← rest.newCounts]
        exact congrArg (fun c : Nat × Nat => c.1 :: _) counts
      · rw [List.map_cons, ← rest.edgeCounts]
        exact congrArg (fun c : Nat × Nat => c.2 :: _) counts
      · cases k with
        | zero => exact added.emitted
        | succ k =>
            have later := rest.each k (Nat.lt_of_succ_lt_succ hk)
            rw [Nat.add_right_comm, Nat.add_assoc] at later
            refine later.of_cumulative fun not => ?_
            rw [added.front not]
            rfl

omit [LT Time] [DecidableLT Time] [Top Time] in
/-- Edges whose ids tell their sources are distinct once they are so source by source. -/
theorem nodup_of_filter {edges : List SampledEdge}
    (each : ∀ u, ((edges.filter (·.src = u)).map SampledEdge.eid).Nodup)
    (source : ∀ e ∈ edges, ∀ e' ∈ edges, e.eid = e'.eid → e.src = e'.src) :
    (edges.map SampledEdge.eid).Nodup := by
  induction edges with
  | nil => exact List.nodup_nil
  | cons e edges ih =>
      rw [List.map_cons, List.nodup_cons]
      refine ⟨fun again => ?_, ih (fun u => ?_) fun a ha b hb =>
        source a (List.mem_cons_of_mem e ha) b (List.mem_cons_of_mem e hb)⟩
      · obtain ⟨e', he', same⟩ := List.mem_map.mp again
        have src := source e' (List.mem_cons_of_mem e he') e List.mem_cons_self same
        have own := each e.src
        rw [List.filter_cons_of_pos (by simp), List.map_cons, List.nodup_cons] at own
        exact own.1 (List.mem_map.mpr ⟨e', List.mem_filter.mpr ⟨he', decide_eq_true src⟩, same⟩)
      · have own := each u
        by_cases here : e.src = u
        · rw [List.filter_cons_of_pos (by simpa using here), List.map_cons, List.nodup_cons] at own
          exact own.2
        · rwa [List.filter_cons_of_neg (by simpa using here)] at own

/-- In cumulative mode the edges so far are distinct, each noted under the hop it was
emitted in. -/
structure Noted (hop : Nat) (p : Pass Time) : Prop where
  nodup : (p.edges.map SampledEdge.eid).Nodup
  noted : ∀ e ∈ p.edges, ∃ h < hop, p.emittedAt.lookup e.eid = some h

omit [LT Time] [DecidableLT Time] [Top Time] in
theorem HopAdded.noted_next {hop : Nat} {new : List Nat} {row : List SampledEdge}
    (added : HopAdded g cfg hop p q new row) (h : Noted hop p) (mono : g.Monotone)
    (cumulative : cfg.cumulative = true) (once : cfg.replace = false) (small : hop < 2 ^ 32) :
    Noted (hop + 1) q := by
  have own : hop % 2 ^ 32 = hop := Nat.mod_eq_of_lt small
  have stored : ∀ e ∈ row, Stored g q.nodes e := fun e he =>
    added.start.sound.edges e (added.edges ▸ List.mem_append_right _ he)
  have rowNodup : (row.map SampledEdge.eid).Nodup := by
    refine nodup_of_filter (fun u => (added.emitted.once once u).1) fun e he e' he' same => ?_
    exact mono.row_unique (stored e he).row (same ▸ (stored e' he').row)
  refine ⟨?_, fun e he => ?_⟩
  · rw [added.edges, List.map_append]
    refine List.nodup_append.mpr ⟨h.nodup, rowNodup, fun a ha b hb same => ?_⟩
    obtain ⟨old, hold, rfl⟩ := List.mem_map.mp ha
    obtain ⟨e, he, rfl⟩ := List.mem_map.mp hb
    obtain ⟨earlier, before, found⟩ := h.noted old hold
    have now := (added.noted cumulative e he).1 earlier (same ▸ found)
    omega
  · rw [added.edges] at he
    rcases List.mem_append.mp he with he | he
    · obtain ⟨earlier, before, found⟩ := h.noted e he
      exact ⟨earlier, Nat.lt_succ_of_lt before, added.kept _ _ found⟩
    · exact ⟨hop, Nat.lt_succ_self hop, own ▸ (added.noted cumulative e he).2⟩

variable (ops) in
theorem Noted.runHopsFrom {isTemporal : Bool}
    (temporal : isTemporal = cfg.temporalStrategy.isSome) (mono : g.Monotone)
    (cumulative : cfg.cumulative = true) (once : cfg.replace = false) (hops hop : Nat)
    (small : hop + hops ≤ 2 ^ 32) (start : HopStart g p) (h : Noted hop p) (r : σ) :
    Noted (hop + hops) (Pass.runHopsFrom ops g cfg isTemporal hop hops (p, r)).2.1 := by
  induction hops generalizing p r hop with
  | zero => exact h
  | succ hops ih =>
      obtain ⟨new, row, -, added⟩ := start.runHop ops temporal r hop
      have next := added.noted_next h mono cumulative once (by omega)
      have rest := ih (hop + 1) (by omega) added.start next
        (Pass.runHop ops g cfg isTemporal (p, r) hop).2.2
      rwa [Nat.add_right_comm, Nat.add_assoc] at rest

end Pass

end AetherGraph
