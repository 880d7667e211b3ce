import AetherGraph.SamplerPass

/-! What an expansion can draw, and what the steps of a pass preserve over all its hops. -/

namespace AetherGraph

open Foundation

namespace Pass

section Picks

variable {σ : Type} [Rng σ] {Time : Type} [LT Time] [DecidableLT Time] [Top Time]
variable (ops : SliceOps) (g : Csr Time) (cfg : SamplingConfig)

/-- The positions one expansion of `node` draws. -/
structure RowDraw (sampleSize node : Nat) (picks : List Nat) : Prop where
  lt : ∀ i ∈ picks, i < g.degree node
  once : cfg.replace = false → picks.Nodup ∧ picks.length ≤ sampleSize
  uniform : cfg.replace = false → cfg.temporalStrategy = none → cfg.weighted = false →
    picks.length = min sampleSize (g.degree node)

omit [LT Time] [DecidableLT Time] [Top Time] in
theorem RowDraw.nil {sampleSize node : Nat} (empty : g.degree node = 0) :
    RowDraw g cfg sampleSize node [] where
  lt i hi := absurd hi List.not_mem_nil
  once _ := ⟨List.nodup_nil, Nat.zero_le _⟩
  uniform _ _ _ := by rw [empty, Nat.min_zero, List.length_nil]

/-- A row whose timestamps are missing draws nothing. -/
theorem rowPicks_draw {isTemporal : Bool} (temporal : isTemporal = cfg.temporalStrategy.isSome)
    (sampleSize : Nat) (p : Pass Time) (entry : Nat × Nat) (r : σ) :
    RowDraw g cfg sampleSize entry.1 (p.rowPicks ops g cfg isTemporal sampleSize entry r).1 := by
  have rowLength {α : Type} {xs : List α} (all : xs.length = g.edges.length) :
      (slice xs (g.neighborRange entry.1)).length = g.degree entry.1 :=
    slice_length (all ▸ Csr.neighborRange_le entry.1)
  have edges := rowLength (rfl : g.edges.length = _)
  unfold rowPicks
  dsimp only
  split
  · rename_i empty
    exact RowDraw.nil g cfg (Nat.sub_eq_zero_of_le empty)
  · rename_i nonempty
    have positive : 0 < g.degree entry.1 := Nat.sub_pos_of_lt (Nat.lt_of_not_le nonempty)
    rw [edges]
    cases isTemporal with
    | true =>
        simp only [if_true]
        obtain ⟨strategy, found⟩ := Option.isSome_iff_exists.mp temporal.symm
        rw [found]
        cases stamps : g.timestamps with
        | none =>
            exact ⟨fun i hi => absurd hi List.not_mem_nil,
              fun _ => ⟨List.nodup_nil, Nat.zero_le _⟩, fun _ none => nomatch found.symm.trans none⟩
        | some ts =>
            have length := rowLength (g.timestamps_length ts stamps)
            have picked := (eligible_eligible cfg (p.times.getD entry.2 ⊤) strategy length r).picked
            obtain ⟨drawn, count, -⟩ := temporalPicks_picked ops (k := sampleSize)
              strategy picked (eligible cfg strategy (g.degree entry.1)
                (slice ts (g.neighborRange entry.1)) (p.times.getD entry.2 ⊤) r).2
            refine ⟨drawn.lt, fun _ => ⟨drawn.nodup, ?_⟩,
              fun _ none => nomatch found.symm.trans none⟩
            exact count ▸ Nat.min_le_right _ _
    | false =>
        simp only [Bool.false_eq_true, if_false]
        have weights : ∀ w ∈ ((if cfg.weighted then g.weights else none).map
            fun w => slice w (g.neighborRange entry.1)), w.length = g.degree entry.1 := by
          intro w hw
          obtain ⟨all, hall, rfl⟩ := Option.mem_map.mp hw
          split at hall
          · exact rowLength (g.weights_length all hall)
          · cases hall
        refine ⟨normalPicks_lt weights positive r, fun once => ?_, fun once _ unweighted => ?_⟩
        · obtain ⟨picked, few, -⟩ := normalPicks_picked ops (k := sampleSize) weights once r
          exact ⟨picked.nodup, Nat.le_trans few (Nat.min_le_left _ _)⟩
        · obtain ⟨-, -, all⟩ := normalPicks_picked ops (k := sampleSize) weights once r
          exact all (by simp [unweighted])

end Picks

section Runs

variable {σ : Type} [Rng σ] {Time : Type} [LT Time] [DecidableLT Time] [Top Time]
variable {ops : SliceOps} {g : Csr Time} {cfg : SamplingConfig}

omit [Top Time] in
/-- Registering changes the nodes and their times alone. -/
theorem register_eq (p : Pass Time) (id : Nat) (time : Time) :
    p.register id time =
      { p with
        nodes := if id ∈ p.nodes then p.nodes else p.nodes ++ [id]
        times := (p.register id time).times } := by
  unfold register
  split <;> rfl

omit [LT Time] [DecidableLT Time] [Top Time] in
theorem noteEmitted_eq (p : Pass Time) (eid : Nat) :
    p.noteEmitted eid = { p with emittedAt := (p.noteEmitted eid).emittedAt } := by
  unfold noteEmitted
  split <;> rfl

variable (g cfg)

omit [Top Time] in
/-- An emitted edge is dropped, skipped as one that leaves the graph, or pushed. -/
theorem emit_cases (src srcLocal : Nat) (p : Pass Time) (dst eid : Nat) (time : Time) :
    p.emit g cfg src srcLocal dst eid time = p ∧ cfg.cumulative = true ∧ p.fresh eid = false ∨
      (cfg.cumulative = true → p.fresh eid = true) ∧
        ∃ noted : Pass Time, noted = (if cfg.cumulative then p.noteEmitted eid else p) ∧
          noted = { p with emittedAt := noted.emittedAt } ∧
          (g.numNodes ≤ dst ∧ p.emit g cfg src srcLocal dst eid time = noted ∨
            dst < g.numNodes ∧ p.emit g cfg src srcLocal dst eid time =
              noted.push src srcLocal dst eid time) := by
  unfold emit
  by_cases drop : cfg.cumulative = true ∧ p.fresh eid = false
  · rw [if_pos drop]
    exact .inl ⟨rfl, drop⟩
  · rw [if_neg drop]
    refine .inr ⟨fun cumulative => ?_, _, rfl, ?_, ?_⟩
    · exact Bool.of_not_eq_false fun stale => drop ⟨cumulative, stale⟩
    · split
      · exact noteEmitted_eq p eid
      · rfl
    · dsimp only
      by_cases outside : g.numNodes ≤ dst
      · exact .inl ⟨outside, if_pos outside⟩
      · exact .inr ⟨Nat.lt_of_not_le outside, if_neg outside⟩

omit [Top Time] in
theorem push_eq (p : Pass Time) (src srcLocal dst eid : Nat) (time : Time) :
    p.push src srcLocal dst eid time =
      { p with
        nodes := if dst ∈ p.nodes then p.nodes else p.nodes ++ [dst]
        times := (p.register dst time).times
        next := if dst ∈ p.nodes then p.next else p.next ++ [(dst, p.nodes.idxOf dst)]
        edges := p.edges ++ [⟨src, srcLocal, dst, p.nodes.idxOf dst, eid⟩] } := by
  unfold push reach addEdge
  rw [register_eq]

omit [Top Time] in
/-- Emitting leaves the frontier under expansion and the recorded seeds alone. -/
theorem emit_frame (src srcLocal : Nat) (p : Pass Time) (dst eid : Nat) (time : Time) :
    (p.emit g cfg src srcLocal dst eid time).frontier = p.frontier ∧
      (p.emit g cfg src srcLocal dst eid time).seedLocals = p.seedLocals ∧
      (p.emit g cfg src srcLocal dst eid time).hop = p.hop ∧
      (p.emit g cfg src srcLocal dst eid time).trackTimes = p.trackTimes := by
  obtain ⟨same, -, -⟩ | ⟨-, noted, -, kept, ⟨-, same⟩ | ⟨-, same⟩⟩ :=
    emit_cases g cfg src srcLocal p dst eid time
  · rw [same]
    exact ⟨rfl, rfl, rfl, rfl⟩
  · rw [same, kept]
    exact ⟨rfl, rfl, rfl, rfl⟩
  · rw [same, push_eq, kept]
    exact ⟨rfl, rfl, rfl, rfl⟩

omit [Top Time] in
theorem emitAll_frame (node nodeLocal : Nat) (neighbors : List Nat) (edgeOffset : Nat)
    (time : Nat → Time) (picks : List Nat) (p : Pass Time) :
    (p.emitAll g cfg node nodeLocal neighbors edgeOffset time picks).frontier = p.frontier ∧
      (p.emitAll g cfg node nodeLocal neighbors edgeOffset time picks).seedLocals = p.seedLocals ∧
      (p.emitAll g cfg node nodeLocal neighbors edgeOffset time picks).hop = p.hop ∧
      (p.emitAll g cfg node nodeLocal neighbors edgeOffset time picks).trackTimes =
        p.trackTimes := by
  unfold emitAll
  induction picks generalizing p with
  | nil => exact ⟨rfl, rfl, rfl, rfl⟩
  | cons i picks ih =>
      obtain ⟨frontier, seedLocals, hop, track⟩ := ih (p.emit g cfg node nodeLocal
        (neighbors.getD i 0) (edgeOffset + i) (time i))
      obtain ⟨frontier', seedLocals', hop', track'⟩ := emit_frame g cfg node
        nodeLocal p (neighbors.getD i 0) (edgeOffset + i) (time i)
      exact ⟨frontier.trans frontier', seedLocals.trans seedLocals', hop.trans hop',
        track.trans track'⟩

variable {g cfg}

/-- What every expansion and every change of frontier keep, a run of hops keeps. -/
theorem runHopsFrom_induct {isTemporal : Bool} {Q : Pass Time → Prop}
    (begin_ : ∀ p hop, Q p → Q { p with hop := hop, next := [] })
    (expand_ : ∀ p (r : σ) hop entry, entry ∈ p.frontier → Q p →
      Q (expand ops g cfg isTemporal (cfg.fanout.getD hop 0) (p, r) entry).1)
    (extend : ∀ p, Q p → Q { p with frontier := p.frontier ++ p.next })
    (swap : ∀ p, Q p → Q { p with frontier := p.next, next := p.frontier })
    (hops hop : Nat) {p : Pass Time} (h : Q p) (r : σ) :
    Q (runHopsFrom ops g cfg isTemporal hop hops (p, r)).2.1 := by
  have rows : ∀ (hop : Nat) (entries : List (Nat × Nat)) (p : Pass Time) (r : σ),
      entries ⊆ p.frontier → Q p →
      Q (entries.foldl (expand ops g cfg isTemporal (cfg.fanout.getD hop 0)) (p, r)).1 := by
    intro hop entries
    induction entries with
    | nil => exact fun p r _ h => h
    | cons entry entries ih =>
        intro p r sub h
        have kept : (expand ops g cfg isTemporal (cfg.fanout.getD hop 0) (p, r) entry).1.frontier =
            p.frontier := (emitAll_frame _ _ _ _ _ _ _ _ p).1
        refine ih (expand ops g cfg isTemporal (cfg.fanout.getD hop 0) (p, r) entry).1 _ ?_
          (expand_ p r hop entry (sub List.mem_cons_self) h)
        rw [kept]
        exact fun x hx => sub (List.mem_cons_of_mem entry hx)
  induction hops generalizing p r hop with
  | zero => exact h
  | succ hops ih =>
      have ran := rows hop p.frontier { p with hop := hop % 2 ^ 32, next := [] } r
        (List.Subset.refl _) (begin_ p _ h)
      refine ih (hop + 1) ?_ _
      dsimp only
      split
      · exact extend _ ran
      · exact swap _ ran

theorem seedLocals_hops (p : Pass Time) (r : σ) :
    (hops ops g cfg p r).2.1.seedLocals = p.seedLocals :=
  runHopsFrom_induct (Q := fun q => q.seedLocals = p.seedLocals)
    (fun _ _ h => h)
    (fun q _ _ _ _ h => (emitAll_frame _ _ _ _ _ _ _ _ q).2.1.trans h)
    (fun _ h => h) (fun _ h => h) _ _ rfl r

end Runs

section SubgraphType

variable {Time : Type} [LE Time] [DecidableLE Time] [Top Time]
variable {g : Csr Time} {cfg : SamplingConfig}

theorem seedLocals_applySubgraphType (p : Pass Time) :
    (p.applySubgraphType g cfg).seedLocals = p.seedLocals := by
  unfold applySubgraphType
  cases cfg.subgraphType with
  | directional => rfl
  | bidirectional => rfl
  | induced =>
      refine List.foldlRecOn (motive := fun (q : Pass Time) => q.seedLocals = p.seedLocals) _ _ rfl
        fun q h entry _ => ?_
      refine List.foldlRecOn (motive := fun (q : Pass Time) => q.seedLocals = p.seedLocals) _ _ h
        fun q h pos _ => ?_
      unfold induceEdge
      dsimp only
      generalize Option.any _ _ = late
      cases late with
      | true => exact h
      | false => cases GenDedup.localOf q.nodes (g.edges.getD pos 0) <;> exact h

end SubgraphType

end Pass

end AetherGraph
