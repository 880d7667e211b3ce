import AetherGraph.Pins
import AetherGraph.Retirement

/-! Pin safety of the recycler: what a live snapshot reaches is never freed, whatever the
guards allocate, publish and retire. -/

namespace AetherGraph

open Foundation ArenaWriter

/-- The committed graph behind every live snapshot: its own roots reach held slots, a
snapshot's roots reach slots shielded for its epoch. -/
structure PinsHold (g : DynamicGraph) (snaps : List Snapshot) : Prop where
  ok : g.arena.Ok
  length_eq : g.roots.length = g.numVertices
  tracks : g.arena.pins.Tracks ((g.latest :: snaps).map Snapshot.epoch)
  held : ∀ v k i, g.arena.Reach (g.roots.getD v null) k i → g.arena.Held k i
  shielded : ∀ S ∈ g.latest :: snaps, ∀ v k i, g.arena.Reach (S.rootOf v) k i →
    g.arena.Shields S.epoch k i
  epoch_le : ∀ S ∈ g.latest :: snaps, S.epoch ≤ g.epoch
  numVertices_eq : g.latest.numVertices = g.numVertices
  room : ∀ v < g.numVertices, v / (leafLen * fan * fan) < g.latest.table.top.length

/-- Between guards the latest snapshot shows the live roots. -/
structure IdlePins (g : DynamicGraph) (snaps : List Snapshot) : Prop extends
    PinsHold g snaps where
  current : g.poisoned = false → ∀ v, g.latest.rootOf v = g.roots.getD v null

/-- Under a guard every snapshot is older than its stamp and reaches only slots below its
cursors, and the latest one shows the live root of every leaf not noted. -/
structure GuardPins (w : Writer) (snaps : List Snapshot) : Prop extends
    PinsHold w.graph snaps where
  young : ∀ S ∈ w.graph.latest :: snaps, ∀ v k i, w.graph.arena.Reach (S.rootOf v) k i →
    i < w.youngStart k
  stamp : ∀ S ∈ w.graph.latest :: snaps, S.epoch < w.retireStamp
  untouched : ∀ v, v / leafLen ∉ w.touchedLeaves →
    w.graph.latest.rootOf v = w.graph.roots.getD v null

theorem PinsHold.min_le {g : DynamicGraph} {snaps : List Snapshot} (h : PinsHold g snaps)
    {S : Snapshot} (hS : S ∈ g.latest :: snaps) : g.arena.pins.min ≤ S.epoch :=
  h.tracks.min_le (List.mem_map_of_mem hS)

/-- An arena that rewrites nothing reached, and gives up nothing too early. -/
structure ArenaKeeps (g : DynamicGraph) (snaps : List Snapshot) (a' : Arena) : Prop where
  ok : a'.Ok
  held : ∀ v k i, g.arena.Reach (g.roots.getD v null) k i →
    a'.Held k i ∧ Arena.SameNode g.arena a' k i
  shielded : ∀ S ∈ g.latest :: snaps, ∀ v k i, g.arena.Reach (S.rootOf v) k i →
    a'.Shields S.epoch k i ∧ Arena.SameNode g.arena a' k i

theorem ArenaKeeps.reach {g : DynamicGraph} {snaps : List Snapshot} {a' : Arena}
    (h : ArenaKeeps g snaps a') {S : Snapshot} (hS : S ∈ g.latest :: snaps) {v : Nat}
    {k : SlotClass} {i : Nat} (reach : a'.Reach (S.rootOf v) k i) :
    g.arena.Reach (S.rootOf v) k i :=
  reach.of_same fun k i hi => (h.shielded S hS v k i hi).2

theorem PinsHold.setArena {g : DynamicGraph} {snaps : List Snapshot} (h : PinsHold g snaps)
    {a' : Arena} (keeps : ArenaKeeps g snaps a') (pins : a'.pins = g.arena.pins) :
    PinsHold { g with arena := a' } snaps :=
  { h with
    ok := keeps.ok
    tracks := pins ▸ h.tracks
    held := fun v k i reach =>
      (keeps.held v k i (reach.of_same fun k i hi => (keeps.held v k i hi).2)).1
    shielded := fun S hS v k i reach => (keeps.shielded S hS v k i (keeps.reach hS reach)).1 }

theorem PinsHold.grows {g : DynamicGraph} {snaps : List Snapshot} (h : PinsHold g snaps)
    {a' : Arena} {F : SlotClass → List Nat} (grows : g.arena.Grows a' F) :
    ArenaKeeps g snaps a' where
  ok := grows.ok
  held v k i reach := ⟨grows.heldOld (h.held v k i reach), grows.node (h.held v k i reach)⟩
  shielded S hS v k i reach :=
    have kept := grows.shields S.epoch (h.min_le hS) k i (h.shielded S hS v k i reach)
    ⟨kept.1, kept.2.1⟩

/-- What `retire` is called with: slots handed out, listed once, in no published tree. -/
structure Retirable (w : Writer) : Prop where
  nodup : ∀ k, (w.retireLog.slots k).Nodup
  held : ∀ k, ∀ i ∈ w.retireLog.slots k, w.graph.arena.Held k i
  unreachable : ∀ k, ∀ i ∈ w.retireLog.slots k, ∀ v,
    ¬ w.graph.arena.Reach (w.graph.roots.getD v null) k i

theorem GuardPins.retired {w : Writer} {snaps : List Snapshot} (h : GuardPins w snaps)
    (allowed : Retirable w) {stamp : Nat} (later : ∀ S ∈ w.graph.latest :: snaps, S.epoch < stamp)
    {aw' : ArenaWriter} (retired : Retired w.aw w.retireLog stamp aw') :
    ArenaKeeps w.graph snaps aw'.arena where
  ok := retired.ok
  held v k i reach :=
    have off : i ∉ w.retireLog.slots k := fun hi => allowed.unreachable k i hi v reach
    have held := h.held v k i reach
    ⟨(retired.held k i).mpr ⟨held, off⟩, retired.node held off⟩
  shielded S hS v k i reach :=
    retired.shields S.epoch (h.min_le hS) k i (h.shielded S hS v k i reach) fun _ =>
      ⟨h.young S hS v k i reach, later S hS⟩

theorem Arena.Reach.of_setPins {a : Arena} {gate : ReadGate} {pins : PinRegistry} {off : Nat}
    {k : SlotClass} {i : Nat}
    (h : ({ a with gate := gate, pins := pins } : Arena).Reach off k i) : a.Reach off k i :=
  h.of_same fun k i _ => by cases k <;> rfl

/-- Pins and gate move; the live snapshots are among those before. -/
theorem PinsHold.setPins {g : DynamicGraph} {snaps snaps' : List Snapshot} (h : PinsHold g snaps)
    (gate : ReadGate) {pins : PinRegistry}
    (tracks : pins.Tracks ((g.latest :: snaps').map Snapshot.epoch))
    (among : ∀ S ∈ g.latest :: snaps', S ∈ g.latest :: snaps) :
    PinsHold { g with arena := { g.arena with gate := gate, pins := pins } } snaps' :=
  { h with
    ok := { h.ok with }
    tracks := tracks
    held := fun v k i reach => h.held v k i reach.of_setPins
    shielded := fun S hS v k i reach => h.shielded S (among S hS) v k i reach.of_setPins
    epoch_le := fun S hS => h.epoch_le S (among S hS) }

theorem IdlePins.setPins {g : DynamicGraph} {snaps snaps' : List Snapshot} (h : IdlePins g snaps)
    (gate : ReadGate) {pins : PinRegistry}
    (tracks : pins.Tracks ((g.latest :: snaps').map Snapshot.epoch))
    (among : ∀ S ∈ g.latest :: snaps', S ∈ g.latest :: snaps) :
    IdlePins { g with arena := { g.arena with gate := gate, pins := pins } } snaps' :=
  { h.toPinsHold.setPins gate tracks among with current := h.current }

theorem GuardPins.setPins {w : Writer} {snaps snaps' : List Snapshot} (h : GuardPins w snaps)
    (gate : ReadGate) {pins : PinRegistry}
    (tracks : pins.Tracks ((w.graph.latest :: snaps').map Snapshot.epoch))
    (among : ∀ S ∈ w.graph.latest :: snaps', S ∈ w.graph.latest :: snaps) :
    GuardPins { w with graph :=
      { w.graph with arena := { w.graph.arena with gate := gate, pins := pins } } } snaps' :=
  { h.toPinsHold.setPins gate tracks among with
    young := fun S hS v k i reach => h.young S (among S hS) v k i reach.of_setPins
    stamp := fun S hS => h.stamp S (among S hS)
    untouched := h.untouched }

theorem GuardPins.setArena {w : Writer} {snaps : List Snapshot} (h : GuardPins w snaps)
    {a' : Arena} (keeps : ArenaKeeps w.graph snaps a') (pins : a'.pins = w.graph.arena.pins)
    (log : RetireLog) :
    GuardPins { w with graph := { w.graph with arena := a' }, retireLog := log } snaps :=
  { h.toPinsHold.setArena keeps pins with
    young := fun S hS v k i reach => h.young S hS v k i (keeps.reach hS reach)
    stamp := h.stamp
    untouched := h.untouched }

theorem IdlePins.openGuard {g : DynamicGraph} {w : Writer} {snaps : List Snapshot}
    (h : IdlePins g snaps) (opened : g.writer = .ok w) : GuardPins w snaps := by
  obtain ⟨clean, -, rfl⟩ := DynamicGraph.writer_ok opened
  exact { h.toPinsHold with
    young := fun S hS v k i reach => (h.shielded S hS v k i reach).1
    stamp := fun S hS => Nat.lt_succ_of_le (h.epoch_le S hS)
    untouched := fun v _ => h.current clean v }

theorem GuardPins.publish {w : Writer} {snaps : List Snapshot} (h : GuardPins w snaps)
    {v root : Nat} (hv : v < w.graph.numVertices)
    (held : ∀ k i, w.graph.arena.Reach root k i → w.graph.arena.Held k i) :
    GuardPins ((w.storeRoot v root).noteRootStore v) snaps := by
  obtain ⟨touched, limit, eq, mem⟩ := (w.storeRoot v root).noteRootStore_eq v
  rw [eq]
  have other : ∀ u, u ≠ v → (w.graph.roots.set v root).getD u null = w.graph.roots.getD u null := by
    intro u hu
    rw [List.getD_eq_getElem?_getD, List.getElem?_set_ne (Ne.symm hu),
      ← List.getD_eq_getElem?_getD]
  refine { h with
    length_eq := (List.length_set ..).trans h.length_eq
    held := fun u k i reach => ?_
    untouched := fun u hu => ?_ }
  · by_cases same : u = v
    · subst same
      have own : (w.graph.roots.set u root).getD u null = root := by
        rw [List.getD_eq_getElem?_getD, List.getElem?_set_self (h.length_eq ▸ hv), Option.getD_some]
      exact held k i (own ▸ reach)
    · exact h.held u k i (other u same ▸ reach)
  · rw [mem, not_or] at hu
    refine (h.untouched u hu.1).trans (other u fun same => hu.2 ?_).symm
    rw [same]

/-- The snapshot a commit leaves shows the live roots. -/
theorem GuardPins.latestAfter {w : Writer} {snaps : List Snapshot} (h : GuardPins w snaps)
    (v : Nat) : w.latestAfter.rootOf v = w.graph.roots.getD v null := by
  unfold Writer.latestAfter
  split
  · rename_i untouched
    exact h.untouched v (untouched ▸ List.not_mem_nil)
  · unfold Snapshot.rootOf
    dsimp only
    split
    · rename_i outside
      rw [List.getD_eq_getElem?_getD, List.getElem?_eq_none (h.length_eq.le.trans outside)]
      rfl
    · rename_i inside
      have inside := Nat.lt_of_not_le inside
      have same := fun hv => h.untouched v hv
      simp only [Snapshot.rootOf, h.numVertices_eq, if_neg (Nat.not_le_of_lt inside)] at same
      rw [DynamicGraph.buildTable, RootTable.get_withLeaves _ _ _ (h.room v inside)]
      split
      · rfl
      · rename_i hv
        exact same fun noted => hv (mem_sortDedup.mpr noted)

/-- The pins of the live snapshots once a commit has swapped the latest one. -/
theorem GuardPins.pinsAfter {w : Writer} {snaps : List Snapshot} (h : GuardPins w snaps) :
    ∃ pins, w.pinsAfter = some pins ∧
      pins.Tracks ((w.latestAfter :: snaps).map Snapshot.epoch) := by
  unfold Writer.pinsAfter Writer.latestAfter
  split
  · exact ⟨_, rfl, h.tracks⟩
  · exact ((h.tracks.register (w.graph.epoch + 1)).perm (List.Perm.swap ..)).release

theorem GuardPins.room_after {w : Writer} {snaps : List Snapshot} (h : GuardPins w snaps) :
    w.latestAfter.numVertices = w.graph.numVertices ∧ ∀ v < w.graph.numVertices,
      v / (leafLen * fan * fan) < w.latestAfter.table.top.length := by
  unfold Writer.latestAfter
  split
  · exact ⟨h.numVertices_eq, h.room⟩
  · refine ⟨rfl, fun v hv => ?_⟩
    dsimp only
    rw [DynamicGraph.buildTable, RootTable.top_length_withLeaves]
    exact h.room v hv

theorem GuardPins.epoch_after {w : Writer} {snaps : List Snapshot} (h : GuardPins w snaps) :
    ∀ S ∈ w.latestAfter :: snaps, S.epoch ≤ w.graph.epoch + 1 := by
  intro S hS
  rcases List.mem_cons.mp hS with rfl | hS
  · unfold Writer.latestAfter
    split
    · exact (h.epoch_le _ List.mem_cons_self).trans (Nat.le_succ _)
    · exact Nat.le_refl _
  · exact (h.epoch_le S (List.mem_cons_of_mem _ hS)).trans (Nat.le_succ _)

/-- The pins `pins` of a commit stamp its log before anything is reclaimed. -/
theorem GuardPins.arenaAfter {w : Writer} {snaps : List Snapshot} (h : GuardPins w snaps)
    (allowed : Retirable w) {pins : PinRegistry}
    (tracks : pins.Tracks ((w.latestAfter :: snaps).map Snapshot.epoch)) :
    (w.arenaAfter pins).pins = pins ∧ (w.arenaAfter pins).Ok ∧
    (∀ v k i, w.graph.arena.Reach (w.graph.roots.getD v null) k i →
      (w.arenaAfter pins).Held k i ∧ Arena.SameNode w.graph.arena (w.arenaAfter pins) k i) ∧
    ∀ S ∈ snaps, ∀ v k i, w.graph.arena.Reach (S.rootOf v) k i →
      (w.arenaAfter pins).Shields S.epoch k i ∧
        Arena.SameNode w.graph.arena (w.arenaAfter pins) k i := by
  have retired : Retired ⟨{ w.graph.arena with pins := pins }, w.youngStart⟩ w.retireLog
      (w.graph.epoch + 1) (retire ⟨{ w.graph.arena with pins := pins }, w.youngStart⟩
        w.retireLog (w.graph.epoch + 1)).1 :=
    (retire_retired { h.ok with } allowed.nodup allowed.held).1
  have reclaimed := Arena.reclaimReady_reclaimed retired.ok
  have min_le : ∀ S ∈ snaps, pins.min ≤ S.epoch := fun S hS =>
    tracks.min_le (List.mem_map_of_mem (List.mem_cons_of_mem _ hS))
  refine ⟨reclaimed.pins.trans retired.pins, reclaimed.ok, fun v k i reach => ?_,
    fun S hS v k i reach => ?_⟩
  · have off : i ∉ w.retireLog.slots k := fun hi => allowed.unreachable k i hi v reach
    have held := h.held v k i reach
    have same := retired.node held off
    have held' := (retired.held k i).mpr ⟨held, off⟩
    refine ⟨(reclaimed.held k i).mpr held', ?_⟩
    have same' := (reclaimed.grows.node held')
    cases k <;> exact Eq.trans same' same
  · have hS' := List.mem_cons_of_mem w.graph.latest hS
    obtain ⟨shielded, same⟩ := retired.shields S.epoch (min_le S hS) k i
      (h.shielded S hS' v k i reach) fun _ =>
        ⟨h.young S hS' v k i reach, Nat.lt_succ_of_le (h.epoch_le S hS')⟩
    obtain ⟨shielded', same'⟩ := reclaimed.shields S.epoch
      (retired.pins.symm ▸ min_le S hS) k i shielded
    refine ⟨shielded', ?_⟩
    cases k <;> exact Eq.trans same' same

theorem GuardPins.commit {w : Writer} {snaps : List Snapshot} (h : GuardPins w snaps)
    (allowed : Retirable w) {g : DynamicGraph} (committed : w.Committed g) : IdlePins g snaps := by
  obtain ⟨pins, hpins, tracks⟩ := h.pinsAfter
  obtain ⟨pins', hpins', arena⟩ := committed.arena
  obtain rfl := Option.some.inj (hpins'.symm.trans hpins)
  obtain ⟨apins, ok, held, shielded⟩ := h.arenaAfter allowed tracks
  rw [← arena] at apins ok held shielded
  have live : ∀ v k i, g.arena.Reach (w.graph.roots.getD v null) k i → g.arena.Held k i :=
    fun v k i reach => (held v k i (reach.of_same fun k i hi => (held v k i hi).2)).1
  have latest : ∀ v, g.latest.rootOf v = g.roots.getD v null := fun v => by
    rw [committed.latest, committed.roots]
    exact h.latestAfter v
  obtain ⟨vertices, room⟩ := h.room_after
  refine ⟨⟨ok, ?_, ?_, ?_, fun S hS v k i reach => ?_, ?_, ?_, ?_⟩, fun _ => latest⟩
  · rw [committed.roots, committed.numVertices]
    exact h.length_eq
  · rw [apins, committed.latest]
    exact tracks
  · rw [committed.roots]
    exact live
  · rcases List.mem_cons.mp hS with rfl | hS
    · rw [latest, committed.roots] at reach
      exact (live v k i reach).shields _
    · exact (shielded S hS v k i (reach.of_same fun k i hi => (shielded S hS v k i hi).2)).1
  · rw [committed.latest, committed.epoch]
    exact h.epoch_after
  · rw [committed.latest, committed.numVertices]
    exact vertices
  · rw [committed.latest, committed.numVertices]
    exact room

namespace Stage

def withGraph : Stage → DynamicGraph → Stage
  | .idle _, g => .idle g
  | .guarded w, g => .guarded { w with graph := g }

end Stage

/-- One step of a graph and its live snapshots.  A guard allocates and writes nodes, stores
roots whose slots it holds, keeps any log, and retires only what `Retirable` allows; the
epoch clock, the gate and the snapshots move at any time. -/
inductive PinStep : Stage × List Snapshot → Stage × List Snapshot → Prop where
  | openGuard {g w snaps} : g.writer = .ok w → PinStep (.idle g, snaps) (.guarded w, snaps)
  | chunk {w snaps val res aw} : w.aw.allocWriteChunk val = (res, aw) →
      PinStep (.guarded w, snaps) (.guarded (w.withArena aw), snaps)
  | interior {w snaps val res aw} : w.aw.allocWriteInterior val = (res, aw) →
      PinStep (.guarded w, snaps) (.guarded (w.withArena aw), snaps)
  | publish {w snaps v root} : v < w.graph.numVertices →
      (∀ k i, w.graph.arena.Reach root k i → w.graph.arena.Held k i) →
      PinStep (.guarded w, snaps) (.guarded ((w.storeRoot v root).noteRootStore v), snaps)
  | record {w snaps} (log : RetireLog) :
      PinStep (.guarded w, snaps) (.guarded { w with retireLog := log }, snaps)
  | retire {w snaps} : Retirable w → PinStep (.guarded w, snaps) (.guarded w.stampRetired, snaps)
  | commit {w snaps g} : Retirable w → w.commit = some g →
      PinStep (.guarded w, snaps) (.idle g, snaps)
  | acquire {s snaps} : PinStep (s, snaps)
      (s.withGraph s.graph.acquire.2, s.graph.acquire.1 :: snaps)
  | clone {s snaps S} : S ∈ snaps → PinStep (s, snaps) (s.withGraph (s.graph.pin S.epoch), S :: snaps)
  | dropSnapshot {s before S after g} : s.graph.unpin S.epoch = some g →
      PinStep (s, before ++ S :: after) (s.withGraph g, before ++ after)
  | advance {s snaps} (d : Nat) :
      PinStep (s, snaps) (s.withGraph { s.graph with epoch := s.graph.epoch + d }, snaps)
  | gate {s snaps} (gate : ReadGate) : PinStep (s, snaps)
      (s.withGraph { s.graph with arena := { s.graph.arena with gate := gate } }, snaps)

def PinsInOrder : Stage × List Snapshot → Prop
  | (.idle g, snaps) => IdlePins g snaps
  | (.guarded w, snaps) => GuardPins w snaps

theorem PinsInOrder.holds {s : Stage} {snaps : List Snapshot} (h : PinsInOrder (s, snaps)) :
    PinsHold s.graph snaps := by
  cases s with
  | idle g => exact h.toPinsHold
  | guarded w => exact h.toPinsHold

theorem PinsInOrder.setPins {s : Stage} {snaps snaps' : List Snapshot}
    (h : PinsInOrder (s, snaps)) (gate : ReadGate) {pins : PinRegistry}
    (tracks : pins.Tracks ((s.graph.latest :: snaps').map Snapshot.epoch))
    (among : ∀ S ∈ s.graph.latest :: snaps', S ∈ s.graph.latest :: snaps) :
    PinsInOrder (s.withGraph { s.graph with
      arena := { s.graph.arena with gate := gate, pins := pins } }, snaps') := by
  cases s with
  | idle g => exact IdlePins.setPins h gate tracks among
  | guarded w => exact GuardPins.setPins h gate tracks among

/-- Registering one more holder of an epoch some live snapshot has. -/
theorem PinsInOrder.pin {s : Stage} {snaps : List Snapshot} (h : PinsInOrder (s, snaps))
    {S : Snapshot} (hS : S ∈ s.graph.latest :: snaps) :
    PinsInOrder (s.withGraph (s.graph.pin S.epoch), S :: snaps) := by
  refine h.setPins s.graph.arena.gate ?_ fun S' hS' => ?_
  · exact (h.holds.tracks.register S.epoch).perm (List.Perm.swap ..)
  · rcases List.mem_cons.mp hS' with rfl | hS'
    · exact List.mem_cons_self
    · rcases List.mem_cons.mp hS' with rfl | hS'
      · exact hS
      · exact List.mem_cons_of_mem _ hS'

theorem PinsInOrder.step {s s' : Stage × List Snapshot} (h : PinsInOrder s)
    (step : PinStep s s') : PinsInOrder s' := by
  cases step with
  | openGuard opened => exact IdlePins.openGuard h opened
  | @chunk w snaps val res aw alloc =>
      have h : GuardPins w snaps := h
      have ok : w.aw.arena.Ok := h.ok
      have grown : ∃ F, Grown w.aw aw F := by
        cases res with
        | none => exact ⟨_, grown_of_chunk_none ok alloc⟩
        | some idx => exact ⟨_, (grown_of_chunk ok alloc).1⟩
      obtain ⟨F, grown⟩ := grown
      exact h.setArena (h.grows grown.grows) grown.grows.pins w.retireLog
  | @interior w snaps val res aw alloc =>
      have h : GuardPins w snaps := h
      have ok : w.aw.arena.Ok := h.ok
      have grown : ∃ F, Grown w.aw aw F := by
        cases res with
        | none => exact ⟨_, grown_of_interior_none ok alloc⟩
        | some idx => exact ⟨_, (grown_of_interior ok alloc).1⟩
      obtain ⟨F, grown⟩ := grown
      exact h.setArena (h.grows grown.grows) grown.grows.pins w.retireLog
  | publish hv held => exact GuardPins.publish h hv held
  | record log => exact { h with }
  | @retire w snaps allowed =>
      have h : GuardPins w snaps := h
      have retired : Retired w.aw w.retireLog w.retireStamp
          (w.aw.retire w.retireLog w.retireStamp).1 :=
        (retire_retired h.ok allowed.nodup allowed.held).1
      exact h.setArena (h.retired allowed h.stamp retired) retired.pins _
  | commit allowed done => exact GuardPins.commit h allowed (Writer.commit_some done)
  | acquire => exact h.pin List.mem_cons_self
  | clone hS => exact h.pin (List.mem_cons_of_mem _ hS)
  | @dropSnapshot s before S after g released =>
      have tracks := h.holds.tracks
      have front : ((s.graph.latest :: (before ++ S :: after)).map Snapshot.epoch).Perm
          (S.epoch :: (s.graph.latest :: (before ++ after)).map Snapshot.epoch) :=
        ((List.perm_middle.cons _).trans (List.Perm.swap ..)).map Snapshot.epoch
      obtain ⟨pins, hpins, tracks⟩ := (tracks.perm front).release
      obtain ⟨pins', hpins', rfl⟩ := Option.map_eq_some_iff.mp released
      obtain rfl := Option.some.inj (hpins'.symm.trans hpins)
      refine h.setPins s.graph.arena.gate tracks fun S' hS' => ?_
      simp only [List.mem_cons, List.mem_append] at hS' ⊢
      tauto
  | @advance s snaps d =>
      cases s with
      | idle g =>
          exact { h with epoch_le := fun S hS => (h.epoch_le S hS).trans (Nat.le_add_right _ d) }
      | guarded w =>
          exact { h with epoch_le := fun S hS => (h.epoch_le S hS).trans (Nat.le_add_right _ d) }
  | @gate s snaps gate => exact h.setPins gate h.holds.tracks fun S hS => hS

/-- What a live snapshot reaches is neither free nor in a young batch nor in an old batch
its pin does not outlast; an old batch that could go now has a stamp below every pin. -/
structure PinSafe (g : DynamicGraph) (snaps : List Snapshot) : Prop where
  free : ∀ S ∈ g.latest :: snaps, ∀ v k i, g.arena.Reach (S.rootOf v) k i →
    i ∉ g.arena.freeList k
  young : ∀ S ∈ g.latest :: snaps, ∀ v k i, g.arena.Reach (S.rootOf v) k i →
    ∀ b ∈ g.arena.recycler.pendingYoung, i ∉ b.slots k
  old : ∀ S ∈ g.latest :: snaps, ∀ v k i, g.arena.Reach (S.rootOf v) k i →
    ∀ b ∈ g.arena.recycler.pendingOld, i ∈ b.slots k → S.epoch < b.stampEpoch
  released : ∀ b ∈ g.arena.recycler.pendingOld, b ∉ g.arena.reclaimReady.recycler.pendingOld →
    ∀ S ∈ g.latest :: snaps, b.stampEpoch ≤ S.epoch

theorem PinsHold.safe {g : DynamicGraph} {snaps : List Snapshot} (h : PinsHold g snaps) :
    PinSafe g snaps where
  free S hS v k i reach := (h.shielded S hS v k i reach).2.1
  young S hS v k i reach := (h.shielded S hS v k i reach).2.2.1
  old S hS v k i reach := (h.shielded S hS v k i reach).2.2.2
  released b hb gone _ hS :=
    ((Arena.reclaimReady_reclaimed h.ok).released b hb gone).trans (h.min_le hS)

theorem idlePins_of_new {n bytes epoch : Nat} {g : DynamicGraph}
    (h : DynamicGraph.newWithEpoch n bytes epoch = some g) : IdlePins g [] := by
  unfold DynamicGraph.newWithEpoch at h
  split at h
  · cases h
  obtain ⟨a, ha, rfl⟩ := Option.map_eq_some_iff.mp h
  have roots : ∀ v, (List.replicate n null).getD v null = null := fun v => by
    rw [List.getD_eq_getElem?_getD, List.getElem?_replicate]
    split <;> rfl
  have empty : ∀ v, (Snapshot.mk epoch n 0 (.empty n)).rootOf v = null := fun v => by
    unfold Snapshot.rootOf
    split
    · rfl
    · exact RootTable.get_empty n v
  have pins : a.pins = .new := by
    unfold Arena.new at ha
    split at ha
    · cases ha
    dsimp only at ha
    split at ha
    · cases ha
    obtain rfl := Option.some.inj ha
    rfl
  refine ⟨⟨{ Arena.new_ok ha with }, List.length_replicate, ?_, fun v k i reach => ?_,
    fun S hS v k i reach => ?_, fun _ hS => ?_, rfl, fun v hv => RootTable.top_length_empty hv⟩,
    fun _ v => (empty v).trans (roots v).symm⟩
  · exact pins ▸ PinRegistry.tracks_new.register epoch
  · rw [roots] at reach
    exact absurd reach (Arena.not_reach_null _ k i)
  · rw [List.mem_singleton.mp hS, empty] at reach
    exact absurd reach (Arena.not_reach_null _ k i)
  · rw [List.mem_singleton.mp hS]

end AetherGraph
