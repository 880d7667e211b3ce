import AetherGraph.Reach

/-! Grace periods of the reader gate.  Readers and the writer interleave one atomic
operation at a time; a slot whose stamp the phase has reached is out of every reader's
sight. -/

namespace AetherGraph

open Relation (ReflTransGen)

/-- A slot of either class. -/
abbrev Slot := SlotClass × Nat

namespace ReadGate

def setActive (g : ReadGate) (stripe bucket count : Nat) : ReadGate :=
  { g with active :=
      Function.update g.active stripe (Function.update (g.active stripe) bucket count) }

/-- The increment of `enter`. -/
def enter (g : ReadGate) (stripe bucket : Nat) : ReadGate :=
  g.setActive stripe bucket (g.active stripe bucket + 1)

/-- The decrement when a read guard drops. -/
def leave (g : ReadGate) (stripe bucket : Nat) : ReadGate :=
  g.setActive stripe bucket (g.active stripe bucket - 1)

theorem setActive_active (g : ReadGate) (stripe bucket count s b : Nat) :
    (g.setActive stripe bucket count).active s b =
      if s = stripe ∧ b = bucket then count else g.active s b := by
  simp only [setActive, Function.update_apply]
  by_cases hs : s = stripe
  · subst hs
    by_cases hb : b = bucket <;> simp [hb]
  · simp [hs]

end ReadGate

/-- A read guard on its way: the phase is loaded, or a bucket is entered and `loads` are
the roots loaded since, each with the arena of that moment. -/
inductive Reader where
  | steered (phase : Nat)
  | inside (stripe bucket : Nat) (loads : List (Arena × Nat))

def Reader.counted (stripe bucket : Nat) : Reader → Bool
  | .steered _ => false
  | .inside s b _ => decide (s = stripe ∧ b = bucket)

/-- Everything readers and the writer share.  `stamp` is the grace phase of a retired or
free slot, `drafts` the slots handed out and not yet published.  `scan` is the writer
inside `advance`: turns of its loop left, and the next stripe `bucket_empty` loads. -/
structure World where
  arena : Arena
  roots : List Nat
  stamp : Slot → Option Nat
  drafts : Set Slot
  readers : List Reader
  scan : Option (Nat × Nat)

/-- One slot is written, whatever its contents become. -/
structure Arena.Rewrites (a a' : Arena) (s : Slot) : Prop where
  gate : a'.gate = a.gate
  bumped : ∀ k, a.bumped k ≤ a'.bumped k
  covers : s.2 < a'.bumped s.1
  same : ∀ k i, (k, i) ≠ s → a.SameNode a' k i

namespace World

def phase (w : World) : Nat := w.arena.gate.phase

def root (w : World) (v : Nat) : Nat := w.roots.getD v null

def withGate (w : World) (gate : ReadGate) : World := { w with arena := { w.arena with gate := gate } }

/-- The stamp of a slot has been reached. -/
def Graced (w : World) (s : Slot) : Prop := ∃ g, w.stamp s = some g ∧ g ≤ w.phase

/-- One atomic operation of a reader or of the writer. -/
inductive Step : World → World → Prop where
  -- any phase ever stored may be the one a reader loads
  | loadPhase (w : World) (phase : Nat) (stored : phase ≤ w.phase) :
      Step w { w with readers := .steered phase :: w.readers }
  | enter (w : World) (before after : List Reader) (phase stripe : Nat)
      (at_ : w.readers = before ++ .steered phase :: after) (striped : stripe < gateStripes) :
      Step w { w.withGate (w.arena.gate.enter stripe (phase % 2)) with
        readers := before ++ .inside stripe (phase % 2) [] :: after }
  | loadRoot (w : World) (before after : List Reader) (stripe bucket : Nat)
      (loads : List (Arena × Nat)) (v : Nat)
      (at_ : w.readers = before ++ .inside stripe bucket loads :: after) :
      Step w { w with
        readers := before ++ .inside stripe bucket ((w.arena, w.root v) :: loads) :: after }
  | leave (w : World) (before after : List Reader) (stripe bucket : Nat)
      (loads : List (Arena × Nat))
      (at_ : w.readers = before ++ .inside stripe bucket loads :: after) :
      Step w { w.withGate (w.arena.gate.leave stripe bucket) with readers := before ++ after }
  -- a slot off the bump cursor or a free list
  | alloc (w : World) (a : Arena) (s : Slot) (idle : w.scan = none)
      (free : w.arena.bumped s.1 ≤ s.2 ∨ w.Graced s) (write : w.arena.Rewrites a s) :
      Step w { w with
        arena := a, stamp := Function.update w.stamp s none, drafts := insert s w.drafts }
  | write (w : World) (a : Arena) (s : Slot) (idle : w.scan = none) (draft : s ∈ w.drafts)
      (write : w.arena.Rewrites a s) : Step w { w with arena := a }
  -- a slot of a failed build goes back to its free list
  | giveBack (w : World) (a : Arena) (s : Slot) (idle : w.scan = none) (draft : s ∈ w.drafts)
      (write : w.arena.Rewrites a s) :
      Step w { w with
        arena := a, stamp := Function.update w.stamp s (some w.phase), drafts := w.drafts \ {s} }
  -- a free slot is threaded onto its list
  | free (w : World) (a : Arena) (s : Slot) (idle : w.scan = none) (graced : w.Graced s)
      (write : w.arena.Rewrites a s) : Step w { w with arena := a }
  | publish (w : World) (v root : Nat) (drafts : Set Slot) (idle : w.scan = none)
      (fewer : drafts ⊆ w.drafts)
      (built : ∀ s : Slot, w.arena.Reach root s.1 s.2 →
        w.stamp s = none ∧ s.2 < w.arena.bumped s.1 ∧ s ∉ drafts) :
      Step w { w with roots := w.roots.set v root, drafts := drafts }
  | retire (w : World) (log : RetireLog) (idle : w.scan = none)
      (unlinked : ∀ k, ∀ i ∈ log.slots k, ∀ v, ¬ w.arena.Reach (w.root v) k i) :
      Step w { w with
        stamp := fun s => if s.2 ∈ log.slots s.1 then some (w.phase + 2) else w.stamp s
        drafts := { s ∈ w.drafts | s.2 ∉ log.slots s.1 } }
  | fence (w : World) (idle : w.scan = none) : Step w { w with scan := some (2, 0) }
  | stripeEmpty (w : World) (left stripe : Nat) (at_ : w.scan = some (left + 1, stripe))
      (more : stripe < gateStripes)
      (zero : w.arena.gate.active stripe ((w.phase + 1) % 2) = 0) :
      Step w { w with scan := some (left + 1, stripe + 1) }
  | stripeBusy (w : World) (left stripe : Nat) (at_ : w.scan = some (left + 1, stripe))
      (more : stripe < gateStripes)
      (busy : w.arena.gate.active stripe ((w.phase + 1) % 2) ≠ 0) :
      Step w { w with scan := none }
  | storePhase (w : World) (left : Nat) (at_ : w.scan = some (left + 1, gateStripes)) :
      Step w { w.withGate { w.arena.gate with phase := w.phase + 1 } with
        scan := if left = 0 then none else some (left, 0) }

/-- No reader inside the gate has loaded a root that reached a slot whose stamp the phase
has reached, and what such a root reached is still in place. -/
structure GraceSafe (w : World) : Prop where
  grace : ∀ stripe bucket loads, Reader.inside stripe bucket loads ∈ w.readers →
    ∀ load ∈ loads, ∀ s : Slot, load.1.Reach load.2 s.1 s.2 →
      ∀ g, w.stamp s = some g → w.phase < g
  intact : ∀ stripe bucket loads, Reader.inside stripe bucket loads ∈ w.readers →
    ∀ load ∈ loads, ∀ s : Slot, load.1.Reach load.2 s.1 s.2 → load.1.SameNode w.arena s.1 s.2

/-- Nobody reads and nothing is retired. -/
structure Quiet (w : World) : Prop where
  active : ∀ stripe bucket, w.arena.gate.active stripe bucket = 0
  readers : w.readers = []
  stamp : ∀ s, w.stamp s = none
  drafts : w.drafts = ∅
  scan : w.scan = none
  bumped : ∀ v (s : Slot), w.arena.Reach (w.root v) s.1 s.2 → s.2 < w.arena.bumped s.1

/-- What the gate keeps for a reader that has seen slot `s`: the first advance after the
stamp drains one bucket, the second the other, stripe by stripe. -/
structure Kept (w : World) (stripe bucket : Nat) (a : Arena) (s : Slot) : Prop where
  bumped : s.2 < w.arena.bumped s.1
  published : s ∉ w.drafts
  same : a.SameNode w.arena s.1 s.2
  after : ∀ g, w.stamp s = some g → w.phase < g
  drained : ∀ g, w.stamp s = some g → g = w.phase + 1 → bucket ≠ w.phase % 2
  passed : ∀ g, w.stamp s = some g → ∀ left next, w.scan = some (left, next) →
    bucket = (w.phase + 1) % 2 → next ≤ stripe

structure Inv (w : World) : Prop where
  counts : ∀ stripe bucket,
    w.arena.gate.active stripe bucket = w.readers.countP (Reader.counted stripe bucket)
  placed : ∀ stripe bucket loads, Reader.inside stripe bucket loads ∈ w.readers →
    stripe < gateStripes ∧ bucket < 2
  stamps : ∀ s g, w.stamp s = some g → g ≤ w.phase + 2
  drafts : ∀ s ∈ w.drafts, w.stamp s = none ∧ s.2 < w.arena.bumped s.1
  live : ∀ v (s : Slot), w.arena.Reach (w.root v) s.1 s.2 →
    w.stamp s = none ∧ s.2 < w.arena.bumped s.1 ∧ s ∉ w.drafts
  held : ∀ stripe bucket loads, Reader.inside stripe bucket loads ∈ w.readers →
    ∀ load ∈ loads, ∀ s : Slot, load.1.Reach load.2 s.1 s.2 → w.Kept stripe bucket load.1 s

theorem Inv.graceSafe {w : World} (h : w.Inv) : w.GraceSafe where
  grace := fun stripe bucket loads inside load loaded s reach g stamped =>
    (h.held stripe bucket loads inside load loaded s reach).after g stamped
  intact := fun stripe bucket loads inside load loaded s reach =>
    (h.held stripe bucket loads inside load loaded s reach).same

theorem Quiet.inv {w : World} (h : w.Quiet) : w.Inv where
  counts := fun stripe bucket => by rw [h.active, h.readers, List.countP_nil]
  placed := fun stripe bucket loads inside => by simp [h.readers] at inside
  stamps := fun s g stamped => by simp [h.stamp] at stamped
  drafts := fun s hs => by simp [h.drafts] at hs
  live := fun v s reach => ⟨h.stamp s, h.bumped v s reach, by simp [h.drafts]⟩
  held := fun stripe bucket loads inside => by simp [h.readers] at inside

/-- A slot the writer may write is out of sight: no published root and no root a reader
has loaded reaches it. -/
theorem Inv.unseen {w : World} (h : w.Inv) {s : Slot}
    (mine : w.arena.bumped s.1 ≤ s.2 ∨ w.Graced s ∨ s ∈ w.drafts) :
    (∀ v, ¬ w.arena.Reach (w.root v) s.1 s.2) ∧
      ∀ stripe bucket loads, Reader.inside stripe bucket loads ∈ w.readers →
        ∀ load ∈ loads, ¬ load.1.Reach load.2 s.1 s.2 := by
  refine ⟨fun v reach => ?_, fun stripe bucket loads inside load loaded reach => ?_⟩
  · obtain ⟨unstamped, bumped, published⟩ := h.live v s reach
    rcases mine with fresh | ⟨g, stamped, -⟩ | draft
    · exact Nat.not_lt.mpr fresh bumped
    · rw [unstamped] at stamped
      cases stamped
    · exact published draft
  · have kept := h.held stripe bucket loads inside load loaded s reach
    rcases mine with fresh | ⟨g, stamped, reached⟩ | draft
    · exact Nat.not_lt.mpr fresh kept.bumped
    · exact Nat.not_lt.mpr reached (kept.after g stamped)
    · exact kept.published draft

/-- Writing a slot out of sight, whatever becomes of its own stamp. -/
theorem Inv.rewrite {w : World} (h : w.Inv) {s : Slot} {a : Arena}
    (mine : w.arena.bumped s.1 ≤ s.2 ∨ w.Graced s ∨ s ∈ w.drafts) (write : w.arena.Rewrites a s)
    {stamp : Slot → Option Nat} {drafts : Set Slot} (stamps : ∀ t, t ≠ s → stamp t = w.stamp t)
    (members : ∀ t, t ≠ s → (t ∈ drafts ↔ t ∈ w.drafts))
    (bound : ∀ g, stamp s = some g → g ≤ w.phase + 2) (draft : s ∈ drafts → stamp s = none) :
    Inv { w with arena := a, stamp := stamp, drafts := drafts } := by
  obtain ⟨unpublished, unloaded⟩ := h.unseen mine
  have phase : World.phase { w with arena := a, stamp := stamp, drafts := drafts } = w.phase :=
    congrArg ReadGate.phase write.gate
  refine ⟨fun stripe bucket => ?_, h.placed, fun t g stamped => ?_, fun t ht => ?_,
    fun v t reach => ?_, fun stripe bucket loads inside load loaded t reach => ?_⟩
  · rw [← h.counts stripe bucket]
    exact congrArg (ReadGate.active · stripe bucket) write.gate
  · rw [phase]
    by_cases ht : t = s
    · exact bound g (ht ▸ stamped)
    · exact h.stamps t g ((stamps t ht).symm.trans stamped)
  · by_cases same : t = s
    · subst same
      exact ⟨draft ht, write.covers⟩
    · obtain ⟨unstamped, bumped⟩ := h.drafts t ((members t same).mp ht)
      exact ⟨(stamps t same).trans unstamped, bumped.trans_le (write.bumped _)⟩
  · have before : w.arena.Reach (w.root v) t.1 t.2 := by
      refine reach.of_same fun k i old => write.same k i fun same => ?_
      subst same
      exact unpublished v old
    have other : t ≠ s := fun same => unpublished v (same ▸ before)
    obtain ⟨unstamped, bumped, published⟩ := h.live v t before
    exact ⟨(stamps t other).trans unstamped, bumped.trans_le (write.bumped _),
      fun ht => published ((members t other).mp ht)⟩
  · have kept := h.held stripe bucket loads inside load loaded t reach
    have other : t ≠ s := fun same => unloaded _ _ _ inside load loaded (same ▸ reach)
    have stamped : ∀ {g}, stamp t = some g → w.stamp t = some g := (stamps t other).symm.trans
    refine ⟨kept.bumped.trans_le (write.bumped _), fun ht => kept.published ((members t other).mp ht),
      kept.same.trans (write.same _ _ other), fun g hg => ?_, fun g hg => ?_, fun g hg => ?_⟩
    · rw [phase]
      exact kept.after g (stamped hg)
    · rw [phase]
      exact kept.drained g (stamped hg)
    · rw [phase]
      exact kept.passed g (stamped hg)

/-- A phase is stored once all stripes of the bucket it reuses have been found empty. -/
theorem Kept.storePhase {w : World} {stripe bucket left : Nat} {a : Arena} {s : Slot}
    (h : w.Kept stripe bucket a s) (at_ : w.scan = some (left + 1, gateStripes))
    (placed : stripe < gateStripes ∧ bucket < 2) :
    Kept { w.withGate { w.arena.gate with phase := w.phase + 1 } with
      scan := if left = 0 then none else some (left, 0) } stripe bucket a s := by
  have drained : ∀ g, w.stamp s = some g → bucket ≠ (w.phase + 1) % 2 := fun g stamped here =>
    Nat.not_lt.mpr (h.passed g stamped _ _ at_ here) placed.1
  refine ⟨h.bumped, h.published, h.same, fun g stamped => ?_, fun g stamped _ => drained g stamped,
    fun g _ left' next scan _ => ?_⟩
  · -- a slot one phase short of its stamp has lost the other bucket already
    have := h.after g stamped
    have := drained g stamped
    have := h.drained g stamped
    change w.phase + 1 < g
    omega
  · change (if left = 0 then none else some (left, 0)) = some (left', next) at scan
    split at scan
    · cases scan
    · obtain ⟨rfl, rfl⟩ := Prod.mk.inj (Option.some.inj scan)
      exact Nat.zero_le stripe

/-- A step of a reader: the counts follow it, and it has seen only what is kept. -/
theorem Inv.reader {w : World} (h : w.Inv) (gate : ReadGate) (phase : gate.phase = w.phase)
    {readers : List Reader}
    (counts : ∀ stripe bucket,
      gate.active stripe bucket = readers.countP (Reader.counted stripe bucket))
    (inside : ∀ stripe bucket loads, Reader.inside stripe bucket loads ∈ readers →
      (stripe < gateStripes ∧ bucket < 2) ∧ ∀ load ∈ loads, ∀ s : Slot,
        load.1.Reach load.2 s.1 s.2 → w.Kept stripe bucket load.1 s) :
    Inv { w.withGate gate with readers := readers } := by
  have same : World.phase { w.withGate gate with readers := readers } = w.phase := phase
  have reach : ∀ {root k i}, (w.withGate gate).arena.Reach root k i → w.arena.Reach root k i :=
    fun reach => reach.of_same fun k i _ => by cases k <;> rfl
  refine ⟨counts, fun stripe bucket loads here => (inside stripe bucket loads here).1,
    fun s g stamped => same ▸ h.stamps s g stamped, h.drafts, fun v s seen => h.live v s (reach seen),
    fun stripe bucket loads here load loaded s seen => ?_⟩
  have kept := (inside stripe bucket loads here).2 load loaded s seen
  exact ⟨kept.bumped, kept.published, kept.same, fun g hg => same ▸ kept.after g hg,
    fun g hg => same ▸ kept.drained g hg, fun g hg => same ▸ kept.passed g hg⟩

theorem Inv.inside {w : World} (h : w.Inv) {stripe bucket : Nat} {loads : List (Arena × Nat)}
    (here : Reader.inside stripe bucket loads ∈ w.readers) :
    (stripe < gateStripes ∧ bucket < 2) ∧ ∀ load ∈ loads, ∀ s : Slot,
      load.1.Reach load.2 s.1 s.2 → w.Kept stripe bucket load.1 s :=
  ⟨h.placed stripe bucket loads here, h.held stripe bucket loads here⟩

/-- What a published root reaches is kept for whoever loads it now. -/
theorem Inv.kept_root {w : World} (h : w.Inv) (stripe bucket v : Nat) {s : Slot}
    (reach : w.arena.Reach (w.root v) s.1 s.2) : w.Kept stripe bucket w.arena s := by
  obtain ⟨unstamped, bumped, published⟩ := h.live v s reach
  have never : ∀ g, w.stamp s ≠ some g := fun g stamped => by
    rw [unstamped] at stamped
    cases stamped
  exact ⟨bumped, published, .refl _ _ _, fun g hg => absurd hg (never g),
    fun g hg => absurd hg (never g), fun g hg => absurd hg (never g)⟩

theorem Inv.loadPhase {w : World} (h : w.Inv) (phase : Nat) :
    Inv { w with readers := .steered phase :: w.readers } := by
  refine h.reader w.arena.gate rfl (fun stripe bucket => ?_) fun stripe bucket loads inside => ?_
  · exact (h.counts stripe bucket).trans (List.countP_cons_of_neg Bool.false_ne_true).symm
  · exact h.inside ((List.mem_cons.mp inside).resolve_left nofun)

theorem Inv.enter {w : World} (h : w.Inv) {before after : List Reader} {phase stripe : Nat}
    (at_ : w.readers = before ++ .steered phase :: after) (striped : stripe < gateStripes) :
    Inv { w.withGate (w.arena.gate.enter stripe (phase % 2)) with
      readers := before ++ .inside stripe (phase % 2) [] :: after } := by
  refine h.reader (w.arena.gate.enter stripe (phase % 2)) rfl (fun s b => ?_) fun s b loads inside => ?_
  · have count := h.counts s b
    simp only [at_, List.countP_append, List.countP_cons, Reader.counted] at count
    simp only [ReadGate.enter, ReadGate.setActive_active, List.countP_append, List.countP_cons,
      Reader.counted, decide_eq_true_eq]
    by_cases here : s = stripe ∧ b = phase % 2
    · obtain ⟨rfl, rfl⟩ := here
      simp [count, Nat.add_assoc]
    · have other : ¬ (stripe = s ∧ phase % 2 = b) := fun e => here ⟨e.1.symm, e.2.symm⟩
      simp [here, other, count]
  · rcases List.mem_append.mp inside with earlier | later
    · exact h.inside (at_ ▸ List.mem_append_left _ earlier)
    · rcases List.mem_cons.mp later with same | later
      · obtain ⟨rfl, rfl, rfl⟩ := Reader.inside.inj same
        exact ⟨⟨striped, Nat.mod_lt _ (by decide)⟩, fun load loaded => absurd loaded List.not_mem_nil⟩
      · exact h.inside (at_ ▸ List.mem_append_right _ (List.mem_cons_of_mem _ later))

theorem Inv.loadRoot {w : World} (h : w.Inv) {before after : List Reader} {stripe bucket : Nat}
    {loads : List (Arena × Nat)} (at_ : w.readers = before ++ .inside stripe bucket loads :: after)
    (v : Nat) : Inv { w with
      readers := before ++ .inside stripe bucket ((w.arena, w.root v) :: loads) :: after } := by
  refine h.reader w.arena.gate rfl (fun s b => ?_) fun s b loads' inside => ?_
  · rw [h.counts s b, at_, List.countP_append, List.countP_append]
    rfl
  · rcases List.mem_append.mp inside with earlier | later
    · exact h.inside (at_ ▸ List.mem_append_left _ earlier)
    · rcases List.mem_cons.mp later with same | later
      · obtain ⟨rfl, rfl, rfl⟩ := Reader.inside.inj same
        obtain ⟨placed, kept⟩ := h.inside (at_ ▸ List.mem_append_right _ List.mem_cons_self)
        refine ⟨placed, fun load loaded t reach => ?_⟩
        rcases List.mem_cons.mp loaded with rfl | loaded
        · exact h.kept_root _ _ v reach
        · exact kept load loaded t reach
      · exact h.inside (at_ ▸ List.mem_append_right _ (List.mem_cons_of_mem _ later))

theorem Inv.leave {w : World} (h : w.Inv) {before after : List Reader} {stripe bucket : Nat}
    {loads : List (Arena × Nat)} (at_ : w.readers = before ++ .inside stripe bucket loads :: after) :
    Inv { w.withGate (w.arena.gate.leave stripe bucket) with readers := before ++ after } := by
  refine h.reader (w.arena.gate.leave stripe bucket) rfl (fun s b => ?_) fun s b loads' inside => ?_
  · have count := h.counts s b
    simp only [at_, List.countP_append, List.countP_cons, Reader.counted] at count
    simp only [ReadGate.leave, ReadGate.setActive_active, List.countP_append]
    by_cases here : s = stripe ∧ b = bucket
    · obtain ⟨rfl, rfl⟩ := here
      simp only [and_self, decide_true, if_true] at count ⊢
      omega
    · have other : ¬ (stripe = s ∧ bucket = b) := fun e => here ⟨e.1.symm, e.2.symm⟩
      simpa [here, other] using count
  · refine h.inside (at_ ▸ ?_)
    exact (List.mem_append.mp inside).elim (List.mem_append_left _)
      fun later => List.mem_append_right _ (List.mem_cons_of_mem _ later)

/-- Publishing keeps retired slots and drafts out of sight. -/
theorem Inv.publish {w : World} (h : w.Inv) {root : Nat} (v : Nat) {drafts : Set Slot}
    (fewer : drafts ⊆ w.drafts)
    (built : ∀ s : Slot, w.arena.Reach root s.1 s.2 →
      w.stamp s = none ∧ s.2 < w.arena.bumped s.1 ∧ s ∉ drafts) :
    Inv { w with roots := w.roots.set v root, drafts := drafts } := by
  refine ⟨h.counts, h.placed, h.stamps, fun s hs => h.drafts s (fewer hs), fun u s reach => ?_,
    fun stripe bucket loads inside load loaded s reach => ?_⟩
  · simp only [World.root, List.getD_eq_getElem?_getD, List.getElem?_set] at reach
    split at reach
    · split at reach
      · exact built s reach
      · exact absurd reach (w.arena.not_reach_null _ _)
    · obtain ⟨unstamped, bumped, published⟩ :=
        h.live u s (by simpa only [World.root, List.getD_eq_getElem?_getD] using reach)
      exact ⟨unstamped, bumped, fun hs => published (fewer hs)⟩
  · have kept := h.held stripe bucket loads inside load loaded s reach
    exact { kept with published := fun hs => kept.published (fewer hs) }

/-- A slot retired now is two phases from its stamp. -/
theorem Inv.retire {w : World} (h : w.Inv) {log : RetireLog} (idle : w.scan = none)
    (unlinked : ∀ k, ∀ i ∈ log.slots k, ∀ v, ¬ w.arena.Reach (w.root v) k i) :
    Inv { w with
      stamp := fun s => if s.2 ∈ log.slots s.1 then some (w.phase + 2) else w.stamp s
      drafts := { s ∈ w.drafts | s.2 ∉ log.slots s.1 } } := by
  have split_stamp : ∀ {s g}, (if s.2 ∈ log.slots s.1 then some (w.phase + 2) else w.stamp s) =
      some g → g = w.phase + 2 ∨ w.stamp s = some g := by
    intro s g stamped
    split at stamped
    · exact .inl (Option.some.inj stamped).symm
    · exact .inr stamped
  refine ⟨h.counts, h.placed, fun s g stamped => ?_, fun s hs => ?_, fun v s reach => ?_,
    fun stripe bucket loads inside load loaded s reach => ?_⟩
  · exact (split_stamp stamped).elim Nat.le_of_eq (h.stamps s g)
  · exact ⟨(if_neg hs.2).trans (h.drafts s hs.1).1, (h.drafts s hs.1).2⟩
  · obtain ⟨unstamped, bumped, published⟩ := h.live v s reach
    exact ⟨(if_neg fun logged => unlinked _ _ logged v reach).trans unstamped, bumped,
      fun hs => published hs.1⟩
  · have kept := h.held stripe bucket loads inside load loaded s reach
    refine ⟨kept.bumped, fun hs => kept.published hs.1, kept.same, fun g hg => ?_,
      fun g hg near => ?_, fun g hg left next scan => ?_⟩
    · rcases split_stamp hg with rfl | hg
      · exact Nat.lt_add_of_pos_right (by decide)
      · exact kept.after g hg
    · rcases split_stamp hg with rfl | hg
      · exact absurd near (Nat.ne_of_gt (Nat.lt_succ_self _))
      · exact kept.drained g hg near
    · rw [idle] at scan
      cases scan

/-- One more stripe is known to hold no reader in the scanned bucket. -/
theorem Inv.stripeEmpty {w : World} (h : w.Inv) {left stripe : Nat}
    (at_ : w.scan = some (left + 1, stripe))
    (zero : w.arena.gate.active stripe ((w.phase + 1) % 2) = 0) :
    Inv { w with scan := some (left + 1, stripe + 1) } := by
  refine ⟨h.counts, h.placed, h.stamps, h.drafts, h.live,
    fun s b loads inside load loaded t reach => ?_⟩
  have kept := h.held s b loads inside load loaded t reach
  refine { kept with passed := fun g hg left' next scan here => ?_ }
  obtain ⟨-, rfl⟩ := Prod.mk.inj (Option.some.inj scan)
  have passed := kept.passed g hg _ _ at_ here
  refine Nat.lt_of_le_of_ne passed fun same => ?_
  subst same here
  rw [h.counts, List.countP_eq_zero] at zero
  exact zero _ inside (decide_eq_true ⟨rfl, rfl⟩)

theorem Inv.withScan {w : World} (h : w.Inv) {scan : Option (Nat × Nat)}
    (start : ∀ left next, scan = some (left, next) → next = 0) : Inv { w with scan := scan } := by
  refine ⟨h.counts, h.placed, h.stamps, h.drafts, h.live,
    fun s b loads inside load loaded t reach => ?_⟩
  have kept := h.held s b loads inside load loaded t reach
  exact { kept with passed := fun g hg left next scan here => start left next scan ▸ Nat.zero_le s }

theorem Inv.storePhase {w : World} (h : w.Inv) {left : Nat}
    (at_ : w.scan = some (left + 1, gateStripes)) :
    Inv { w.withGate { w.arena.gate with phase := w.phase + 1 } with
      scan := if left = 0 then none else some (left, 0) } := by
  have reach : ∀ {gate root k i}, (w.withGate gate).arena.Reach root k i →
      w.arena.Reach root k i :=
    fun reach => reach.of_same fun k i _ => by cases k <;> rfl
  refine ⟨h.counts, h.placed, fun s g stamped => ?_, h.drafts, fun v s seen => h.live v s (reach seen),
    fun s b loads inside load loaded t seen => ?_⟩
  · exact (h.stamps s g stamped).trans (Nat.le_succ _)
  · exact (h.held s b loads inside load loaded t seen).storePhase at_ (h.placed s b loads inside)

theorem Inv.step {w w' : World} (h : w.Inv) (step : w.Step w') : w'.Inv := by
  cases step with
  | loadPhase phase stored => exact h.loadPhase phase
  | enter before after phase stripe at_ striped => exact h.enter at_ striped
  | loadRoot before after stripe bucket loads v at_ => exact h.loadRoot at_ v
  | leave before after stripe bucket loads at_ => exact h.leave at_
  | alloc a s idle free write =>
      refine h.rewrite (free.imp_right .inl) write (fun t other => Function.update_of_ne other ..)
        (fun t other => ?_) (fun g stamped => ?_) fun _ => Function.update_self ..
      · exact Set.mem_insert_iff.trans (or_iff_right other)
      · rw [Function.update_self] at stamped
        cases stamped
  | write a s idle draft write =>
      exact h.rewrite (.inr (.inr draft)) write (fun _ _ => rfl) (fun _ _ => Iff.rfl)
        (h.stamps s) fun hs => (h.drafts s hs).1
  | giveBack a s idle draft write =>
      refine h.rewrite (.inr (.inr draft)) write (fun t other => Function.update_of_ne other ..)
        (fun t other => ?_) (fun g stamped => ?_) fun hs => absurd rfl hs.2
      · exact and_iff_left other
      · rw [Function.update_self] at stamped
        exact Option.some.inj stamped ▸ Nat.le_add_right ..
  | free a s idle graced write =>
      exact h.rewrite (.inr (.inl graced)) write (fun _ _ => rfl) (fun _ _ => Iff.rfl)
        (h.stamps s) fun hs => (h.drafts s hs).1
  | publish v root drafts idle fewer built => exact h.publish v fewer built
  | retire log idle unlinked => exact h.retire idle unlinked
  | fence idle =>
      exact h.withScan fun left next scan => (Prod.mk.inj (Option.some.inj scan)).2.symm
  | stripeEmpty left stripe at_ more zero => exact h.stripeEmpty at_ zero
  | stripeBusy left stripe at_ more busy => exact h.withScan nofun
  | storePhase left at_ => exact h.storePhase at_

theorem Inv.steps {w w' : World} (h : w.Inv) (steps : ReflTransGen Step w w') :
    w'.Inv := by
  induction steps with
  | refl => exact h
  | tail _ step ih => exact ih.step step

/-- The writer alone passes empty stripes one by one. -/
theorem steps_stripes (w : World) (left stripe count : Nat) (more : stripe + count ≤ gateStripes)
    (zero : ∀ s, stripe ≤ s → s < stripe + count →
      w.arena.gate.active s ((w.phase + 1) % 2) = 0) :
    ReflTransGen Step { w with scan := some (left + 1, stripe) }
      { w with scan := some (left + 1, stripe + count) } := by
  induction count with
  | zero => exact .refl
  | succ count ih =>
      have before := ih (by omega) fun s low high => zero s low (by omega)
      exact before.tail (.stripeEmpty { w with scan := some (left + 1, stripe + count) } left
        (stripe + count) rfl (by omega) (zero _ (by omega) (by omega)))

/-- One turn of the loop in `advance`, with no other operation in between. -/
theorem steps_turn (w : World) (left : Nat) :
    ReflTransGen Step { w with scan := some (left + 1, 0) }
      (w.arena.gate.advanceOnce.elim { w with scan := none } fun gate =>
        { w.withGate gate with scan := if left = 0 then none else some (left, 0) }) := by
  unfold ReadGate.advanceOnce
  split
  · rename_i empty
    simp only [ReadGate.bucketEmpty, List.all_eq_true, List.mem_range, beq_iff_eq] at empty
    have scanned := w.steps_stripes left 0 gateStripes (by omega) fun s _ high =>
      empty s (by omega)
    rw [Nat.zero_add] at scanned
    exact scanned.tail (.storePhase { w with scan := some (left + 1, gateStripes) } left rfl)
  · rename_i busy
    simp only [ReadGate.bucketEmpty, List.all_eq_true, List.mem_range, beq_iff_eq, not_forall,
      exists_prop] at busy
    obtain ⟨striped, held⟩ := Nat.find_spec busy
    have scanned := w.steps_stripes left 0 (Nat.find busy) (by omega) fun s _ high => by
      by_contra active
      exact Nat.find_min busy (by omega) ⟨by omega, active⟩
    rw [Nat.zero_add] at scanned
    exact scanned.tail (.stripeBusy { w with scan := some (left + 1, Nat.find busy) } left _ rfl
      striped held)

/-- The atomic `ReadGate.advance` is the scan with no other operation in between. -/
theorem steps_advance (w : World) (idle : w.scan = none) :
    ReflTransGen Step w (w.withGate w.arena.gate.advance) := by
  have ends : ∀ gate, { w.withGate gate with scan := none } = w.withGate gate := fun gate => by
    rw [← idle]
    rfl
  have first := (ReflTransGen.single (Step.fence w idle)).trans (w.steps_turn 1)
  unfold ReadGate.advance
  split
  · rename_i stays
    rw [stays] at first
    exact (ends w.arena.gate) ▸ first
  · rename_i gate once
    rw [once] at first
    have second := first.trans ((w.withGate gate).steps_turn 0)
    change ReflTransGen Step w (gate.advanceOnce.elim _ _) at second
    cases twice : gate.advanceOnce with
    | none =>
        rw [twice] at second
        exact (ends gate) ▸ second
    | some gate' =>
        rw [twice] at second
        exact (ends gate') ▸ second

end World

/-- Under every interleaving, a reader still in its bucket has loaded no root that reached
a slot whose stamp the phase has reached. -/
theorem graceSafe_of_steps (w₀ w : World) (quiet : w₀.Quiet)
    (steps : ReflTransGen World.Step w₀ w) : w.GraceSafe :=
  (quiet.inv.steps steps).graceSafe

/-- One vertex whose tree is the leaf in chunk 0. -/
def leafWorld : World :=
  ⟨⟨1024, .new, .new, 64, 1024, .new, fun _ => .empty, fun _ => ⟨0, 0, 0, 0⟩⟩, [0],
    fun _ => none, ∅, [], none⟩

theorem leafWorld_reach {v : Nat} {s : Slot}
    (h : leafWorld.arena.Reach (leafWorld.root v) s.1 s.2) : s = (.chunk, 0) := by
  obtain ⟨k, i⟩ := s
  rcases v with _ | v
  · change leafWorld.arena.Reach 0 k i at h
    have leaf : isLeaf 0 = true := by decide
    cases h with
    | leaf => rfl
    | node _ hn => rw [leaf] at hn; cases hn
    | left _ hn => rw [leaf] at hn; cases hn
    | right _ hn => rw [leaf] at hn; cases hn
  · exact absurd h (leafWorld.arena.not_reach_null k i)

theorem leafWorld_quiet : leafWorld.Quiet :=
  ⟨fun _ _ => rfl, rfl, fun _ => rfl, rfl, rfl, fun _ _ h => by
    rw [leafWorld_reach h]
    decide⟩

/-- A reader in bucket 0 has loaded the leaf, which is then replaced and retired. -/
def leafRetired : World :=
  { leafWorld.withGate (leafWorld.arena.gate.enter 3 0) with
    roots := [null]
    stamp := fun s => if s.2 ∈ (RetireLog.new.push .chunk 0).slots s.1 then some 2 else none
    readers := [.inside 3 0 [((leafWorld.withGate (leafWorld.arena.gate.enter 3 0)).arena, 0)]] }

theorem leafRetired_steps : ReflTransGen World.Step leafWorld leafRetired := by
  have drafts : ({ s ∈ (∅ : Set Slot) | s.2 ∉ (RetireLog.new.push .chunk 0).slots s.1 }) = ∅ :=
    Set.sep_empty _
  refine ((((ReflTransGen.single (.loadPhase leafWorld 0 (Nat.zero_le _))).tail
    (.enter _ [] [] 0 3 rfl (by decide))).tail (.loadRoot _ [] [] 3 0 [] 0 rfl)).tail
    (.publish _ 0 null ∅ rfl (fun _ h => h) fun s h => absurd h (Arena.not_reach_null _ _ _))).tail ?_
  have retired := World.Step.retire { leafRetired with stamp := fun _ => none, drafts := ∅ }
    (RetireLog.new.push .chunk 0) rfl fun k i _ v => by
      rcases v with _ | v <;> exact Arena.not_reach_null _ _ _
  rw [drafts] at retired
  exact retired

theorem graceSafe_of_steps_leaf :
    World.phase (leafRetired.withGate leafRetired.arena.gate.advance) = 1 ∧
      leafRetired.stamp (.chunk, 0) = some 2 ∧
      (leafRetired.withGate leafRetired.arena.gate.advance).GraceSafe :=
  ⟨by decide, by decide, graceSafe_of_steps leafWorld _ leafWorld_quiet
    (leafRetired_steps.trans (leafRetired.steps_advance rfl))⟩

end AetherGraph
