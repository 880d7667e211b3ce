import AetherGraph.Commit
import AetherGraph.Foundation.TakenFlag
import AetherGraph.GuardNotes

/-! Dirty marks against drains: the guard's flushes and the swaps of other threads meet word by
word on the shared bitmap, and a mark is still there at the commit unless a swap was the last to
touch it. -/

namespace AetherGraph

open Foundation

/-- What one thread does to the shared bitmap in one atomic step. -/
inductive BitmapEvent where
  | fetchOr (word mask : Nat)
  | swap (word : Nat)
  deriving DecidableEq, Repr

namespace BitmapEvent

def isSwap : BitmapEvent → Bool
  | swap _ => true
  | fetchOr .. => false

def apply (d : DirtyBitmap) : BitmapEvent → DirtyBitmap
  | fetchOr word mask => d.orWord word mask
  | swap word => (d.swapWord word).2

def run (d : DirtyBitmap) (events : List BitmapEvent) : DirtyBitmap := events.foldl apply d

/-- What an event does to the bit of `v`. -/
def onVertex (v : Nat) : BitmapEvent → FlagEvent
  | fetchOr word mask => if word = v / 64 ∧ mask.testBit (v % 64) then .raise else .skip
  | swap word => if word = v / 64 then .take else .skip

/-- The `fetch_or`s of `mark_sorted`, in order. -/
def ofSorted (numVertices : Nat) : List Nat → List BitmapEvent
  | [] => []
  | v :: rest =>
      if numVertices ≤ v then []
      else
        let inWord := fun u => decide (u < numVertices) && u / 64 == v / 64
        fetchOr (v / 64) (DirtyBitmap.maskOf (v :: rest.takeWhile inWord)) ::
          ofSorted numVertices (rest.dropWhile inWord)
  termination_by sorted => sorted.length
  decreasing_by exact Nat.lt_succ_of_le (List.dropWhile_sublist _).length_le

/-- The `fetch_or`s of `flush_dirty` on the buffer `buf`. -/
def ofFlush (numVertices : Nat) (buf : List Nat) : List BitmapEvent :=
  if buf.isEmpty then [] else ofSorted numVertices (sortDedup buf)

/-- The `fetch_or`s of a guard that notes `vs` after the marks in `buf` and then commits. -/
def ofGuard (numVertices : Nat) (buf : List Nat) : List Nat → List BitmapEvent
  | [] => ofFlush numVertices buf
  | v :: vs =>
      if buf.length = dirtyBufFlushThreshold then
        ofFlush numVertices buf ++ ofGuard numVertices [v] vs
      else ofGuard numVertices (buf ++ [v]) vs

/-- The swaps of one `drain_dirty` or `clear_dirty` over `words` words. -/
def ofDrain (words : Nat) : List BitmapEvent := (List.range words).map swap

end BitmapEvent

namespace DirtyBitmap

open BitmapEvent

/-- The bit of `v`, in range or not. -/
def bit (d : DirtyBitmap) (v : Nat) : Bool := (d.words.getD (v / 64) 0).testBit (v % 64)

/-- There is a word for every vertex. -/
def Covers (d : DirtyBitmap) : Prop := ∀ v < d.numVertices, v / 64 < d.words.length

theorem covers_new (n : Nat) : (DirtyBitmap.new n).Covers := by
  intro v hv
  simp only [new, List.length_replicate] at hv ⊢
  omega

@[simp] theorem numVertices_apply (d : DirtyBitmap) (e : BitmapEvent) :
    (e.apply d).numVertices = d.numVertices := by
  cases e <;> rfl

@[simp] theorem length_apply (d : DirtyBitmap) (e : BitmapEvent) :
    (e.apply d).words.length = d.words.length := by
  cases e with
  | fetchOr word mask => exact List.length_modify ..
  | swap word => exact List.length_set ..

@[simp] theorem numVertices_run (d : DirtyBitmap) (events : List BitmapEvent) :
    (run d events).numVertices = d.numVertices := by
  induction events generalizing d with
  | nil => rfl
  | cons e events ih => exact (ih _).trans (numVertices_apply d e)

@[simp] theorem length_run (d : DirtyBitmap) (events : List BitmapEvent) :
    (run d events).words.length = d.words.length := by
  induction events generalizing d with
  | nil => rfl
  | cons e events ih => exact (ih _).trans (length_apply d e)

theorem Covers.run {d : DirtyBitmap} (h : d.Covers) (events : List BitmapEvent) :
    (run d events).Covers := by
  unfold Covers
  rw [numVertices_run, length_run]
  exact h

/-- One event moves the bit of a vertex as it moves a flag. -/
theorem bit_apply {d : DirtyBitmap} {v : Nat} (inside : v / 64 < d.words.length)
    (e : BitmapEvent) : (e.apply d).bit v = (e.onVertex v).apply (d.bit v) := by
  cases e with
  | fetchOr word mask =>
      simp only [apply, bit, orWord, onVertex, List.getD_eq_getElem?_getD, List.getElem?_modify]
      by_cases here : word = v / 64
      · subst here
        rw [List.getElem?_eq_getElem inside]
        by_cases set : mask.testBit (v % 64) = true <;> simp [set, FlagEvent.apply]
      · simp [here, FlagEvent.apply]
  | swap word =>
      simp only [apply, bit, swapWord, onVertex, List.getD_eq_getElem?_getD]
      by_cases here : word = v / 64
      · subst here
        rw [List.getElem?_set_self inside]
        simp [FlagEvent.apply]
      · rw [List.getElem?_set_ne here]
        simp [here, FlagEvent.apply]

theorem bit_run {d : DirtyBitmap} {v : Nat} (inside : v / 64 < d.words.length)
    (events : List BitmapEvent) :
    (run d events).bit v = FlagEvent.run (d.bit v) (events.map (onVertex v)) := by
  induction events generalizing d with
  | nil => rfl
  | cons e events ih =>
      refine (ih (d := e.apply d) ((length_apply d e).symm ▸ inside)).trans ?_
      rw [bit_apply inside]
      rfl

theorem isDirty_eq {d : DirtyBitmap} {v : Nat} (hv : v < d.numVertices) :
    d.isDirty v = d.bit v := by
  rw [isDirty, decide_eq_true hv, Bool.true_and, bit]

theorem testBit_foldl_mask (run : List Nat) (mask b : Nat) :
    (run.foldl (fun mask v => mask ||| 1 <<< (v % 64)) mask).testBit b =
      (mask.testBit b || run.any fun v => v % 64 == b) := by
  induction run generalizing mask with
  | nil => simp
  | cons v run ih =>
      rw [List.foldl_cons, ih, Nat.testBit_or, List.any_cons, Bool.or_assoc]
      congr 2
      rw [Nat.one_shiftLeft, Nat.testBit_two_pow]
      rfl

theorem testBit_maskOf {run : List Nat} {v : Nat} (hv : v ∈ run) :
    (maskOf run).testBit (v % 64) = true := by
  rw [maskOf, testBit_foldl_mask]
  exact Bool.or_eq_true_iff.mpr (.inr (List.any_eq_true.mpr ⟨v, hv, beq_self_eq_true _⟩))

/-- `mark_sorted` raises the bit of each of its vertices. -/
theorem raise_mem_ofSorted {n v : Nat} {sorted : List Nat} (hv : v ∈ sorted)
    (inRange : ∀ u ∈ sorted, u < n) :
    FlagEvent.raise ∈ (ofSorted n sorted).map (onVertex v) := by
  induction sorted using ofSorted.induct n with
  | case1 => cases hv
  | case2 u rest far => exact absurd (inRange u List.mem_cons_self) (Nat.not_lt.mpr far)
  | case3 u rest near inWord ih =>
      rw [ofSorted, if_neg near, List.map_cons]
      rw [← List.takeWhile_append_dropWhile (p := inWord) (l := rest), ← List.cons_append,
        List.mem_append] at hv
      rcases hv with hv | hv
      · have word : v / 64 = u / 64 := by
          rcases List.mem_cons.mp hv with rfl | hv
          · rfl
          · have := List.mem_takeWhile_imp hv
            simp only [inWord, Bool.and_eq_true, beq_iff_eq] at this
            exact this.2
        have raised := testBit_maskOf hv
        rw [onVertex, if_pos ⟨word.symm, raised⟩]
        exact List.mem_cons_self
      · exact List.mem_cons_of_mem _
          (ih hv fun w hw =>
            inRange w (List.mem_cons_of_mem u ((List.dropWhile_sublist _).subset hw)))

theorem raise_mem_ofFlush {n v : Nat} {buf : List Nat} (hv : v ∈ buf)
    (inRange : ∀ u ∈ buf, u < n) : FlagEvent.raise ∈ (ofFlush n buf).map (onVertex v) := by
  rw [ofFlush, if_neg (mt List.isEmpty_iff.mp (List.ne_nil_of_mem hv))]
  exact raise_mem_ofSorted (mem_sortDedup.mpr hv) fun u hu => inRange u (mem_sortDedup.mp hu)

/-- A guard that commits has raised the bit of everything it noted. -/
theorem raise_mem_ofGuard {n v : Nat} {buf vs : List Nat} (hv : v ∈ buf ++ vs)
    (inRange : ∀ u ∈ buf ++ vs, u < n) :
    FlagEvent.raise ∈ (ofGuard n buf vs).map (onVertex v) := by
  induction vs generalizing buf with
  | nil =>
      rw [List.append_nil] at hv inRange
      exact raise_mem_ofFlush hv inRange
  | cons u vs ih =>
      rw [ofGuard]
      split
      · rw [List.map_append, List.mem_append]
        rcases List.mem_append.mp hv with hv | hv
        · exact .inl (raise_mem_ofFlush hv fun w hw => inRange w (List.mem_append_left _ hw))
        · exact .inr (ih hv fun w hw => inRange w (List.mem_append_right _ hw))
      · rw [List.append_cons] at hv inRange
        exact ih hv inRange

theorem run_append (d : DirtyBitmap) (events events' : List BitmapEvent) :
    run d (events ++ events') = run (run d events) events' := List.foldl_append

/-- Alone on the bitmap, the `fetch_or`s are `mark_sorted`. -/
theorem run_ofSorted (d : DirtyBitmap) (sorted : List Nat) :
    run d (ofSorted d.numVertices sorted) = d.markSorted sorted := by
  induction d, sorted using markSorted.induct with
  | case1 d => simp [ofSorted, markSorted, run]
  | case2 d v rest far => rw [ofSorted, markSorted, if_pos far, if_pos far]; rfl
  | case3 d v rest near inWord ih =>
      rw [ofSorted, markSorted, if_neg near, if_neg near]
      exact ih

theorem run_ofFlush (d : DirtyBitmap) (buf : List Nat) :
    run d (ofFlush d.numVertices buf) = (Marks.flush ⟨buf, d⟩).map := by
  unfold ofFlush Marks.flush
  dsimp only
  split
  · rfl
  · exact run_ofSorted d _

/-- Alone on the bitmap, a guard's `fetch_or`s leave it as the guard's buffer and flushes do. -/
theorem run_ofGuard (m : Marks) (vs : List Nat) :
    run m.map (ofGuard m.map.numVertices m.buf vs) = (vs.foldl Marks.note m).flush.map := by
  induction vs generalizing m with
  | nil => exact run_ofFlush m.map m.buf
  | cons v vs ih =>
      rw [ofGuard, List.foldl_cons, ← ih, Marks.note]
      split
      · rename_i full
        have flushed := run_ofFlush m.map m.buf
        have emptied : m.flush.buf = [] := by
          unfold Marks.flush
          split
          · exact List.isEmpty_iff.mp ‹_›
          · rfl
        rw [run_append, flushed, ← numVertices_run m.map (ofFlush m.map.numVertices m.buf),
          flushed, emptied]
        rfl
      · rfl

theorem isSwap_ofSorted (n : Nat) (sorted : List Nat) :
    ∀ e ∈ ofSorted n sorted, e.isSwap = false := by
  induction sorted using ofSorted.induct n with
  | case1 => simp [ofSorted]
  | case2 v rest far => simp [ofSorted, far]
  | case3 v rest near inWord ih =>
      rw [ofSorted, if_neg near]
      exact List.forall_mem_cons.mpr ⟨rfl, ih⟩

theorem isSwap_ofGuard (n : Nat) (buf vs : List Nat) :
    ∀ e ∈ ofGuard n buf vs, e.isSwap = false := by
  have flushed : ∀ buf, ∀ e ∈ ofFlush n buf, e.isSwap = false := by
    intro buf
    unfold ofFlush
    split
    · simp
    · exact isSwap_ofSorted n _
  induction vs generalizing buf with
  | nil => exact flushed buf
  | cons v vs ih =>
      rw [ofGuard]
      split
      · exact List.forall_mem_append.mpr ⟨flushed buf, ih [v]⟩
      · exact ih _

theorem filter_ofGuard (n : Nat) (buf vs : List Nat) :
    (ofGuard n buf vs).filter (fun e => !e.isSwap) = ofGuard n buf vs :=
  List.filter_eq_self.mpr fun e he => by simp [isSwap_ofGuard n buf vs e he]

/-- A drain and a clear swap the words out in order. -/
theorem run_ofDrain (d : DirtyBitmap) :
    run d (ofDrain d.words.length) = d.drainDirty.2 ∧
      run d (ofDrain d.words.length) = d.clearAll := by
  have swaps : ∀ (words : List Nat) (d : DirtyBitmap),
      run d (words.map swap) = (d.drainFrom words).2 := by
    intro words
    induction words with
    | nil => exact fun d => rfl
    | cons word words ih => exact fun d => ih _
  exact ⟨swaps _ d, List.foldl_map⟩

/-- `v` is reported once a commit has left the bitmap `d`: whatever comes before the next swap of
its word, it reads dirty, and that swap returns it. -/
def Reported (d : DirtyBitmap) (post : List BitmapEvent) (v : Nat) : Prop :=
  ∀ early late, post = early ++ late → swap (v / 64) ∉ early →
    (run d early).isDirty v = true ∧ ∀ rest, late = swap (v / 64) :: rest →
      v ∈ wordVertices d.numVertices (v / 64) ((run d early).swapWord (v / 64)).1

theorem onVertex_eq_take {v : Nat} {e : BitmapEvent} :
    e.onVertex v = .take ↔ e = swap (v / 64) := by
  cases e with
  | fetchOr word mask =>
      rw [onVertex]
      split <;> simp
  | swap word =>
      rw [onVertex]
      split
      · simp [*]
      · simp [*]

theorem reported_iff {d : DirtyBitmap} (covers : d.Covers) {v : Nat} (hv : v < d.numVertices)
    (post : List BitmapEvent) : d.Reported post v ↔ d.bit v = true := by
  have inside := covers v hv
  constructor
  · intro h
    have now := (h [] post rfl List.not_mem_nil).1
    rwa [run, List.foldl_nil, isDirty_eq hv] at now
  · rintro up early late rfl untaken
    have still : (run d early).bit v = true := by
      rw [bit_run inside, up]
      refine FlagEvent.run_of_untaken fun taken => untaken ?_
      obtain ⟨e, he, take⟩ := List.mem_map.mp taken
      exact onVertex_eq_take.mp take ▸ he
    refine ⟨(isDirty_eq (by rwa [numVertices_run])).trans still, fun rest _ => ?_⟩
    refine List.mem_map.mpr ⟨v % 64, List.mem_filter.mpr ⟨List.mem_range.mpr (by omega), ?_⟩,
      by omega⟩
    rw [Bool.and_eq_true, decide_eq_true_iff]
    exact ⟨still, by omega⟩

end DirtyBitmap

open BitmapEvent

theorem Publish.mem_notes {p : Publish} {e : Nat × Nat} (he : e ∈ p.edges) {v : Nat}
    (hv : v = e.1 ∨ v = e.2) : v ∈ p.notes := by
  cases p with
  | edge src dst =>
      obtain rfl := List.mem_singleton.mp he
      rcases hv with rfl | rfl <;> simp [notes]
  | batch src newDsts =>
      obtain ⟨d, hd, rfl⟩ := List.mem_map.mp he
      rcases hv with rfl | rfl
      · simp [notes]
      · exact List.mem_append_left _ hd

/-- A guard that commits with nobody else on the bitmap leaves it as its `fetch_or`s do. -/
theorem Writer.drop_marks {w w' : Writer} {calls : List InsertCall} {ps : List Publish}
    (ran : w.insertAll calls = some (w', ps)) {g : DynamicGraph} (dropped : w'.drop false = some g)
    (up : w'.walFailed = false) (synced : (syncLog w'.graph.wal).1 = true) :
    g.dirty = run w.graph.dirty
      (ofGuard w.graph.dirty.numVertices w.dirty (ps.flatMap Publish.notes)) := by
  rcases drop_some dropped with ⟨-, -, -, committed⟩ | ⟨failed, -⟩
  · refine committed.dirty.trans ?_
    have noted := (insertAll_noted ran).marks
    exact (congrArg (fun m => m.flush.map) noted).trans (DirtyBitmap.run_ofGuard w.marks _).symm
  · rw [up, synced] at failed
    simp at failed

/-- Every swap of the word of `v` is followed by a `fetch_or` that carries `v`. -/
def Refreshed (pre : List BitmapEvent) (v : Nat) : Prop :=
  ∀ before after, pre = before ++ swap (v / 64) :: after →
    ∃ mask, fetchOr (v / 64) mask ∈ after ∧ mask.testBit (v % 64) = true

theorem raise_mem_iff {v : Nat} {events : List BitmapEvent} :
    .raise ∈ events.map (onVertex v) ↔
      ∃ mask, fetchOr (v / 64) mask ∈ events ∧ mask.testBit (v % 64) = true := by
  rw [List.mem_map]
  constructor
  · rintro ⟨e, he, raised⟩
    cases e with
    | fetchOr word mask =>
        rw [onVertex] at raised
        split at raised
        · rename_i bit
          exact ⟨mask, bit.1 ▸ he, bit.2⟩
        · cases raised
    | swap word =>
        rw [onVertex] at raised
        split at raised <;> cases raised
  · rintro ⟨mask, he, bit⟩
    exact ⟨_, he, if_pos ⟨rfl, bit⟩⟩

theorem raised_iff_refreshed {v : Nat} {events : List BitmapEvent} :
    FlagEvent.Raised (events.map (onVertex v)) ↔ Refreshed events v := by
  constructor
  · rintro raised before after rfl
    refine raise_mem_iff.mp (raised (before.map (onVertex v)) (after.map (onVertex v)) ?_)
    rw [List.map_append, List.map_cons, onVertex, if_pos rfl]
  · intro refreshed before after eq
    obtain ⟨before', rest, rfl, rfl, split⟩ := List.map_eq_append_iff.mp eq
    obtain ⟨e, after', rfl, take, rfl⟩ := List.map_eq_cons_iff.mp split
    rw [DirtyBitmap.onVertex_eq_take] at take
    subst take
    exact raise_mem_iff.mpr (refreshed before' after' rfl)

/-- A vertex the guard noted is reported after the commit unless a swap of its word came after
the last flush that carried it. -/
theorem reported_iff_refreshed {n : Nat} {vs : List Nat} (inRange : ∀ u ∈ vs, u < n)
    (past post : List BitmapEvent) {pre : List BitmapEvent}
    (woven : pre.filter (fun e => !e.isSwap) = ofGuard n [] vs) {v : Nat} (hv : v ∈ vs) :
    (run (.new n) (past ++ pre)).Reported post v ↔ Refreshed pre v := by
  have covers := (DirtyBitmap.covers_new n).run past
  have small : v < (run (DirtyBitmap.new n) past).numVertices := by
    rw [DirtyBitmap.numVertices_run]
    exact inRange v hv
  have raised : FlagEvent.raise ∈ pre.map (onVertex v) := by
    have marked := @DirtyBitmap.raise_mem_ofGuard n v [] vs hv inRange
    rw [← woven] at marked
    exact (List.filter_sublist.map _).subset marked
  rw [DirtyBitmap.run_append, DirtyBitmap.reported_iff (covers.run pre)
    (by rwa [DirtyBitmap.numVertices_run]), DirtyBitmap.bit_run (covers v small),
    FlagEvent.run_iff_raised raised, raised_iff_refreshed]

theorem DynamicGraph.writer_opened {g : DynamicGraph} {w : Writer} (opened : g.writer = .ok w) :
    w.dirty = [] ∧ w.graph.numVertices = g.numVertices := by
  unfold DynamicGraph.writer at opened
  split at opened
  · cases opened
  split at opened
  · cases opened
  obtain rfl := Except.ok.inj opened
  exact ⟨rfl, rfl⟩

/-- A guard inserts and commits while other threads swap words of the bitmap, `pre` being all
that happens to the bitmap from its opening to its commit: the endpoints of its new edges are all
reported afterwards if and only if each swap of the word of one is followed, before the commit,
by a flush that carries it.  No insert reads the bitmap. -/
theorem dirty_marks_reported {g : DynamicGraph} {w w' : Writer} {calls : List InsertCall}
    {ps : List Publish} (opened : g.writer = .ok w) (ran : w.insertAll calls = some (w', ps))
    (past pre post : List BitmapEvent)
    (woven : pre.filter (fun e => !e.isSwap) =
      ofGuard g.numVertices w.dirty (ps.flatMap Publish.notes)) :
    (∀ e ∈ ps.flatMap Publish.edges, ∀ v, v = e.1 ∨ v = e.2 →
        (run (.new g.numVertices) (past ++ pre)).Reported post v) ↔
      ∀ e ∈ ps.flatMap Publish.edges, ∀ v, v = e.1 ∨ v = e.2 → Refreshed pre v := by
  obtain ⟨buffer, size⟩ := DynamicGraph.writer_opened opened
  rw [buffer] at woven
  have inRange : ∀ u ∈ ps.flatMap Publish.notes, u < g.numVertices := by
    intro u hu
    obtain ⟨p, hp, hu⟩ := List.mem_flatMap.mp hu
    exact size ▸ Writer.insertAll_inGraph ran p hp u hu
  refine forall₂_congr fun e he => forall₂_congr fun v hv => ?_
  obtain ⟨p, hp, he⟩ := List.mem_flatMap.mp he
  exact reported_iff_refreshed inRange past post woven
    (List.mem_flatMap.mpr ⟨p, hp, p.mem_notes he hv⟩)

/-- One edge through a guard of an empty graph: what it publishes, and whether the commit
poisons. -/
def oneEdge : Option (List Publish × Option Bool) := do
  let g ← DynamicGraph.new 2 496
  let w ← g.writer.toOption
  let (w', ps) ← w.insertAll [.edge 0 1]
  some (ps, (w'.drop false).map DynamicGraph.poisoned)

theorem oneEdge_eq : oneEdge = some ([.edge 0 1], some false) := by decide +kernel

theorem oneEdge_guard : ∃ g w w' g', DynamicGraph.new 2 496 = some g ∧ g.writer = .ok w ∧
    w.insertAll [.edge 0 1] = some (w', [.edge 0 1]) ∧ w'.drop false = some g' ∧
    g'.poisoned = false := by
  have ran := oneEdge_eq
  simp only [oneEdge, Option.bind_eq_bind, Option.bind_eq_some_iff, Option.some.injEq,
    Prod.mk.injEq, Option.map_eq_some_iff] at ran
  obtain ⟨g, new, w, opened, ⟨w', ps⟩, inserted, rfl, g', dropped, poisoned⟩ := ran
  refine ⟨g, w, w', g', new, ?_, inserted, dropped, poisoned⟩
  cases writer : g.writer with
  | ok w'' =>
      rw [writer] at opened
      exact congrArg _ (Option.some.inj opened)
  | error e =>
      rw [writer] at opened
      cases opened

theorem DynamicGraph.dirty_of_new {n bytes : Nat} {g : DynamicGraph}
    (new : DynamicGraph.new n bytes = some g) : g.dirty = .new n ∧ g.numVertices = n := by
  unfold DynamicGraph.new newWithEpoch at new
  split at new
  · cases new
  obtain ⟨arena, -, rfl⟩ := Option.map_eq_some_iff.mp new
  exact ⟨rfl, rfl⟩

/-- A drain between the last flush and the commit takes both marks of the edge. -/
theorem dirty_marks_lost : ¬ ∀ (n bytes : Nat) (g : DynamicGraph) (w w' : Writer)
    (g' : DynamicGraph) (calls : List InsertCall) (ps : List Publish) (drains : Nat)
    (pre post : List BitmapEvent), DynamicGraph.new n bytes = some g → g.writer = .ok w →
      w.insertAll calls = some (w', ps) → w'.drop false = some g' → g'.poisoned = false →
      pre.filter (fun e => !e.isSwap) = ofGuard n w.dirty (ps.flatMap Publish.notes) →
      pre.filter isSwap = (List.replicate drains (ofDrain g.dirty.words.length)).flatten →
      ∀ e ∈ ps.flatMap Publish.edges, ∀ v, v = e.1 ∨ v = e.2 →
        (run (.new n) pre).Reported post v := by
  intro reported
  obtain ⟨g, w, w', g', new, opened, inserted, dropped, poisoned⟩ := oneEdge_guard
  have fetchOrs := DirtyBitmap.isSwap_ofGuard 2 [] [0, 1]
  have woven : (ofGuard 2 [] [0, 1] ++ [swap 0]).filter (fun e => !e.isSwap) =
      ofGuard 2 [] [0, 1] := by
    rw [List.filter_append, DirtyBitmap.filter_ofGuard]
    exact List.append_nil _
  have swaps : (ofGuard 2 [] [0, 1] ++ [swap 0]).filter isSwap =
      (List.replicate 1 (ofDrain g.dirty.words.length)).flatten := by
    rw [List.filter_append, List.filter_eq_nil_iff.mpr fun e he => by simp [fetchOrs e he],
      (DynamicGraph.dirty_of_new new).1]
    rfl
  have buffer := (DynamicGraph.writer_opened opened).1
  have kept := reported 2 496 g w w' g' _ _ 1 (ofGuard 2 [] [0, 1] ++ [swap 0]) [] new opened
    inserted dropped poisoned (by rw [buffer]; exact woven) swaps (0, 1) List.mem_cons_self 0
    (.inl rfl)
  have inRange : ∀ u ∈ [0, 1], u < 2 := by decide
  obtain ⟨mask, late, -⟩ := (reported_iff_refreshed inRange [] [] woven
    (v := 0) List.mem_cons_self).mp kept _ [] rfl
  cases late

/-- A drain that comes before the flush leaves both marks to the next one. -/
theorem dirty_marks_reported_early : ∃ g w w' ps, DynamicGraph.new 2 496 = some g ∧
    g.writer = .ok w ∧ w.insertAll [.edge 0 1] = some (w', ps) ∧
    ∀ v ∈ [0, 1], (run (.new g.numVertices) ([] ++ swap 0 :: ofGuard 2 [] [0, 1])).Reported
      [swap 0] v := by
  obtain ⟨g, w, w', g', new, opened, inserted, -⟩ := oneEdge_guard
  have fetchOrs := DirtyBitmap.isSwap_ofGuard 2 [] [0, 1]
  have buffer := (DynamicGraph.writer_opened opened).1
  have size := (DynamicGraph.dirty_of_new new).2
  have woven : (swap 0 :: ofGuard 2 [] [0, 1]).filter (fun e => !e.isSwap) =
      ofGuard g.numVertices w.dirty ([Publish.edge 0 1].flatMap Publish.notes) := by
    rw [size, buffer, List.filter_cons_of_neg (by simp [isSwap])]
    exact DirtyBitmap.filter_ofGuard 2 [] [0, 1]
  have refreshed : ∀ v ∈ [0, 1], Refreshed (swap 0 :: ofGuard 2 [] [0, 1]) v := by
    intro v hv before after eq
    cases before with
    | nil =>
        obtain ⟨-, rfl⟩ := List.cons.inj eq
        exact raise_mem_iff.mp (DirtyBitmap.raise_mem_ofGuard hv (by decide))
    | cons e before =>
        have swapped : swap (v / 64) ∈ ofGuard 2 [] [0, 1] :=
          (List.cons.inj eq).2 ▸ List.mem_append_right before List.mem_cons_self
        cases fetchOrs _ swapped
  refine ⟨g, w, w', _, new, opened, inserted, fun v hv => ?_⟩
  refine (dirty_marks_reported opened inserted [] _ [swap 0] woven).mpr ?_ (0, 1)
    List.mem_cons_self v (by simpa using hv)
  intro e he u hu
  obtain rfl : e = (0, 1) := by simpa [Publish.edges] using he
  exact refreshed u (by simpa using hu)

end AetherGraph
