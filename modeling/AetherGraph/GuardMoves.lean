import AetherGraph.PinSafety

/-! Whole guard calls keep the pins: the moves a call makes on the trees rewrite nothing that a
live snapshot reaches. -/

namespace AetherGraph

open Foundation Foundation.LeafTree ArenaWriter Tree

/-- Rewriting no reached slot keeps every walk. -/
theorem Arena.Reach.into_same {a a' : Arena} {off : Nat} {k : SlotClass} {i : Nat}
    (h : a.Reach off k i) (same : ∀ k i, a.Reach off k i → SameNode a a' k i) :
    a'.Reach off k i := by
  induction h with
  | leaf proper hl => exact .leaf proper hl
  | node proper hn => exact .node proper hn
  | @left off k i proper hn _ ih =>
      have own : a'.interiorAt off = a.interiorAt off := same _ _ (.node proper hn)
      refine .left proper hn ?_
      rw [own]
      exact ih fun k i hi => same k i (.left proper hn hi)
  | @right off k i proper hn _ ih =>
      have own : a'.interiorAt off = a.interiorAt off := same _ _ (.node proper hn)
      refine .right proper hn ?_
      rw [own]
      exact ih fun k i hi => same k i (.right proper hn hi)

/-- What the snapshots reach is stored the same in `a'`. -/
def SnapshotsKeep (a a' : Arena) (snaps : List Snapshot) : Prop :=
  ∀ S ∈ snaps, ∀ v k i, a.Reach (S.rootOf v) k i → Arena.SameNode a a' k i

theorem SnapshotsKeep.refl (a : Arena) (snaps : List Snapshot) : SnapshotsKeep a a snaps :=
  fun _ _ _ k i _ => .refl a k i

theorem SnapshotsKeep.trans {a b c : Arena} {snaps : List Snapshot} (h : SnapshotsKeep a b snaps)
    (h' : SnapshotsKeep b c snaps) : SnapshotsKeep a c snaps := fun S hS v k i reach =>
  (h S hS v k i reach).trans (h' S hS v k i (reach.into_same (h S hS v)))

theorem ArenaKeeps.snapshots {g : DynamicGraph} {snaps : List Snapshot} {a' : Arena}
    (h : ArenaKeeps g snaps a') : SnapshotsKeep g.arena a' (g.latest :: snaps) :=
  fun S hS v k i reach => (h.shielded S hS v k i reach).2

theorem Core.Good.retirable {w : Writer} {T : Nat → Adj}
    (good : Core.Good w.graph.numVertices (w.core T)) : Retirable w where
  nodup := good.log.nodup
  held := good.log.held
  unreachable k i hi v reach := by
    have forest : Forest w.graph.arena w.graph.numVertices w.graph.roots T := good.forest
    rw [forest.root_eq, (forest.live v).reach_iff] at reach
    exact good.log.off v k i hi reach

namespace Writer

/-- The guard with another core. -/
def withCore (w : Writer) (c : Core) : Writer :=
  { w with graph := { w.graph with arena := c.arena, roots := c.roots }
           retireLog := c.log
           touchedLeaves := c.touched }

end Writer

section Moves

variable {w w' : Writer} {snaps : List Snapshot}

/-- A guard's pins depend on its arena, roots, counters and noted leaves only. -/
theorem GuardPins.congr (h : GuardPins w snaps) (frame : Writer.Frame w w')
    (arena : w'.graph.arena = w.graph.arena) (roots : w'.graph.roots = w.graph.roots)
    (touched : w'.touchedLeaves = w.touchedLeaves) : GuardPins w' snaps := by
  obtain ⟨⟨r, a, n, e, d, lk, po, ep, la, wl⟩, ys, rs, di, tl, rl, pe, td, wf⟩ := w
  obtain ⟨⟨r', a', n', e', d', lk', po', ep', la', wl'⟩, ys', rs', di', tl', rl', pe', td', wf'⟩ :=
    w'
  obtain ⟨hn, -, -, -, hep, hla, hys, hrs⟩ := frame
  dsimp only at hn hep hla hys hrs arena roots touched
  subst hn hep hla hys hrs arena roots touched
  exact { h with }

/-- A stored root whose slots are held, its leaf noted. -/
theorem GuardPins.store (h : GuardPins w snaps) {v root : Nat} {touched : List Nat}
    (hv : v < w.graph.numVertices)
    (held : ∀ k i, w.graph.arena.Reach root k i → w.graph.arena.Held k i)
    (mem : ∀ l, l ∈ touched ↔ l ∈ w.touchedLeaves ∨ l = v / leafLen) :
    GuardPins { w with graph := { w.graph with roots := w.graph.roots.set v root }
                       touchedLeaves := touched } snaps := by
  obtain ⟨touched', limit, eq, mem'⟩ := (w.storeRoot v root).noteRootStore_eq v
  have stored := h.publish hv held
  rw [eq] at stored
  refine { stored with untouched := fun u hu => stored.untouched u fun noted => hu ?_ }
  exact (mem _).mpr ((mem' _).mp noted)

theorem GuardPins.move {c c' : Core} {added : List (Nat × Nat)}
    (h : GuardPins (w.withCore c) snaps) (good : c.Good w.graph.numVertices)
    (m : Move w.graph.numVertices w.youngStart w.retireStamp c c' added) :
    GuardPins (w.withCore c') snaps ∧
      SnapshotsKeep c.arena c'.arena (w.graph.latest :: snaps) := by
  cases m with
  | grow grows =>
      have keeps := h.toPinsHold.grows grows
      exact ⟨h.setArena keeps grows.pins c.log, keeps.snapshots⟩
  | @publish a' src t' new touched logged leak F hsrc r keys mem =>
      have keeps := h.toPinsHold.grows r.grows
      have grown := h.setArena keeps r.grows.pins (c.log.append logged)
      refine ⟨grown.store hsrc (fun k i reach => ?_) mem, keeps.snapshots⟩
      exact r.live.held k i (r.live.reach_iff.mp reach)
  | stamp =>
      obtain ⟨retired, -⟩ := good.retired w.youngStart w.retireStamp
      have allowed : Retirable (w.withCore c) :=
        Core.Good.retirable (w := w.withCore c) (T := c.trees) good
      have keeps := h.retired allowed h.stamp retired
      exact ⟨h.setArena keeps retired.pins _, keeps.snapshots⟩

theorem GuardPins.moves {c c' : Core} {added : List (Nat × Nat)}
    (h : GuardPins (w.withCore c) snaps) (good : c.Good w.graph.numVertices)
    (ms : Moves w.graph.numVertices w.youngStart w.retireStamp c c' added) :
    GuardPins (w.withCore c') snaps ∧
      SnapshotsKeep c.arena c'.arena (w.graph.latest :: snaps) := by
  induction ms with
  | refl => exact ⟨h, .refl _ _⟩
  | step ms m ih =>
      obtain ⟨pins, keep⟩ := ih
      obtain ⟨pins', keep'⟩ := pins.move (ms.good good) m
      exact ⟨pins', keep.trans keep'⟩

/-- A move that publishes edges notes the leaf of their source. -/
theorem Moves.noted {n stamp : Nat} {young : SlotClass → Nat} {c c' : Core}
    {added : List (Nat × Nat)} (ms : Moves n young stamp c c' added) :
    (∀ l ∈ c.touched, l ∈ c'.touched) ∧ ∀ e ∈ added, e.1 / leafLen ∈ c'.touched := by
  induction ms with
  | refl => exact ⟨fun _ => id, nofun⟩
  | @step c' c'' added new ms m ih =>
      obtain ⟨kept, noted⟩ := ih
      cases m with
      | grow grows => exact ⟨kept, by simpa using noted⟩
      | stamp => exact ⟨kept, by simpa using noted⟩
      | publish hsrc r keys mem =>
          refine ⟨fun l hl => (mem l).mpr (.inl (kept l hl)), fun e he => ?_⟩
          rcases List.mem_append.mp he with he | he
          · exact (mem _).mpr (.inl (noted e he))
          · obtain ⟨x, -, rfl⟩ := List.mem_map.mp he
            exact (mem _).mpr (.inr rfl)

/-- A call with the effect of its specification keeps the pins, notes the leaves of what it
added, and rewrites nothing a snapshot reaches. -/
theorem GuardPins.effect {s : Prop} {T T' : Nat → Adj} {added : List (Nat × Nat)}
    (h : GuardPins w snaps) (good : Core.Good w.graph.numVertices (w.core T))
    (effect : Writer.Effect s w w' T T' added) :
    GuardPins w' snaps ∧ SnapshotsKeep w.graph.arena w'.graph.arena (w.graph.latest :: snaps) ∧
      (∀ l ∈ w.touchedLeaves, l ∈ w'.touchedLeaves) ∧
      ∀ e ∈ added, e.1 / leafLen ∈ w'.touchedLeaves := by
  obtain ⟨log, moves, -⟩ := effect.moves
  have start : GuardPins (w.withCore (w.core T)) snaps := h
  obtain ⟨pins, keep⟩ := start.moves good moves
  obtain ⟨kept, noted⟩ := moves.noted
  refine ⟨pins.congr ?_ rfl rfl rfl, keep, kept, noted⟩
  have frame := effect.frame
  exact ⟨frame.1, frame.2, frame.3, frame.4, frame.5, frame.6, frame.7, frame.8⟩

end Moves

end AetherGraph
