import AetherGraph.Batch
import AetherGraph.Forest
import AetherGraph.LogAppend

/-! What a guard call changes: moves on the trees, the log and the arena, as many
pending edges and log records as edges published, and marks for their endpoints. -/

namespace AetherGraph

open Foundation Foundation.LeafTree Arena ArenaWriter Tree DynamicGraph

/-- Marks buffered on a guard, and the shared bitmap. -/
structure Marks where
  buf : List Nat
  map : DirtyBitmap
  deriving DecidableEq

namespace Marks

def flush (m : Marks) : Marks :=
  if m.buf.isEmpty then m else ⟨[], m.map.markSorted (sortDedup m.buf)⟩

def note (m : Marks) (v : Nat) : Marks :=
  let m := if m.buf.length = dirtyBufFlushThreshold then m.flush else m
  { m with buf := m.buf ++ [v] }

end Marks

/-- The records of published edges. -/
def recordsOf (edges : List (Nat × Nat)) : List EdgeRecord := edges.map fun e => ⟨e.1, e.2⟩

namespace Writer

def core (w : Writer) (T : Nat → Adj) : Core :=
  ⟨w.graph.arena, w.graph.roots, w.retireLog, w.touchedLeaves, T⟩

def marks (w : Writer) : Marks := ⟨w.dirty, w.graph.dirty⟩

/-- Fields no insert touches. -/
structure Frame (w w' : Writer) : Prop where
  numVertices : w'.graph.numVertices = w.graph.numVertices
  numEdges : w'.graph.numEdges = w.graph.numEdges
  writerLocked : w'.graph.writerLocked = w.graph.writerLocked
  poisoned : w'.graph.poisoned = w.graph.poisoned
  epoch : w'.graph.epoch = w.graph.epoch
  latest : w'.graph.latest = w.graph.latest
  youngStart : w'.youngStart = w.youngStart
  retireStamp : w'.retireStamp = w.retireStamp

theorem Frame.refl (w : Writer) : Frame w w := ⟨rfl, rfl, rfl, rfl, rfl, rfl, rfl, rfl⟩

theorem Frame.trans {w w' w'' : Writer} (h : Frame w w') (h' : Frame w' w'') : Frame w w'' :=
  ⟨h'.1.trans h.1, h'.2.trans h.2, h'.3.trans h.3, h'.4.trans h.4, h'.5.trans h.5,
    h'.6.trans h.6, h'.7.trans h.7, h'.8.trans h.8⟩

/-- `w'` is `w` after publishing `added`.  Only when `sound` is the log it is left with
the one the moves end in. -/
structure Effect (sound : Prop) (w w' : Writer) (T T' : Nat → Adj)
    (added : List (Nat × Nat)) : Prop where
  frame : Frame w w'
  moves : ∃ log, Moves w.graph.numVertices w.youngStart w.retireStamp (w.core T)
    { w'.core T' with log := log } added ∧ (sound → log = w'.retireLog)
  pending : w'.pendingEdges = w.pendingEdges + added.length
  wal : WalAppended w.graph.wal w'.graph.wal (recordsOf added)
  failed : w.graph.wal = none → w'.walFailed = w.walFailed
  marks : ∃ vs : List Nat, w'.marks = vs.foldl Marks.note w.marks ∧
    ∀ v, v ∈ vs ↔ ∃ e ∈ added, v = e.1 ∨ v = e.2

theorem Effect.refl (sound : Prop) (w : Writer) (T : Nat → Adj) : Effect sound w w T T [] where
  frame := .refl w
  moves := ⟨w.retireLog, .refl, fun _ => rfl⟩
  pending := rfl
  wal := .refl _
  failed _ := rfl
  marks := ⟨[], rfl, by simp⟩

theorem Effect.trans {s s' : Prop} {w w' w'' : Writer} {T T' T'' : Nat → Adj}
    {added added' : List (Nat × Nat)} (h : Effect s w w' T T' added) (trusted : s)
    (h' : Effect s' w' w'' T' T'' added') : Effect s' w w'' T T'' (added ++ added') where
  frame := h.frame.trans h'.frame
  moves := by
    obtain ⟨log, moves, same⟩ := h.moves
    obtain ⟨log', moves', same'⟩ := h'.moves
    rw [h.frame.numVertices, h.frame.youngStart, h.frame.retireStamp] at moves'
    obtain rfl := same trusted
    exact ⟨log', moves.trans moves', same'⟩
  pending := by
    rw [h'.pending, h.pending, List.length_append]
    omega
  wal := by
    rw [recordsOf, List.map_append]
    exact h.wal.trans h'.wal
  failed none := (h'.failed (WalAppended.none_left (none ▸ h.wal))).trans (h.failed none)
  marks := by
    obtain ⟨vs, eq, mem⟩ := h.marks
    obtain ⟨vs', eq', mem'⟩ := h'.marks
    refine ⟨vs ++ vs', ?_, fun v => ?_⟩
    · rw [eq', eq, List.foldl_append]
    · simp only [List.mem_append, mem, mem', or_and_right, exists_or]

theorem Effect.weaken {s s' : Prop} {w w' : Writer} {T T' : Nat → Adj}
    {added : List (Nat × Nat)} (h : Effect s w w' T T' added) (weaker : s' → s) :
    Effect s' w w' T T' added := by
  obtain ⟨log, moves, same⟩ := h.moves
  exact { h with moves := ⟨log, moves, fun hs => same (weaker hs)⟩ }

/-- The trees and, until the write-ahead log fails, the retire log are in order. -/
def Sound (w : Writer) (T : Nat → Adj) : Prop :=
  ∃ log, Core.Good w.graph.numVertices { w.core T with log := log } ∧
    (w.walFailed = false → log = w.retireLog)

theorem Sound.good {w : Writer} {T : Nat → Adj} (h : w.Sound T) (up : w.walFailed = false) :
    Core.Good w.graph.numVertices (w.core T) := by
  obtain ⟨log, good, same⟩ := h
  rw [same up] at good
  exact good

theorem Effect.added {sound : Prop} {w w' : Writer} {T T' : Nat → Adj}
    {added : List (Nat × Nat)} (h : Effect sound w w' T T' added) :
    Added w.graph.numVertices T T' added := by
  obtain ⟨log, moves, -⟩ := h.moves
  exact moves.added

theorem Effect.good {sound : Prop} {w w' : Writer} {T T' : Nat → Adj}
    {added : List (Nat × Nat)} (h : Effect sound w w' T T' added) (trusted : sound)
    (good : Core.Good w.graph.numVertices (w.core T)) :
    Core.Good w'.graph.numVertices (w'.core T') := by
  obtain ⟨log, moves, same⟩ := h.moves
  obtain rfl := same trusted
  rw [h.frame.numVertices]
  exact moves.good good

theorem Effect.sound {w w' : Writer} {T T' : Nat → Adj} {added : List (Nat × Nat)}
    (h : Effect (w'.walFailed = false) w w' T T' added)
    (good : Core.Good w.graph.numVertices (w.core T)) : w'.Sound T' := by
  obtain ⟨log, moves, same⟩ := h.moves
  refine ⟨log, ?_, same⟩
  rw [h.frame.numVertices]
  exact moves.good good

/-- How a call ends: it published `added`, and `post` says what it answered.  After a
panic the log is not to be trusted, nor once the write-ahead log has failed. -/
def Outcome {α : Type} (w : Writer) (T : Nat → Adj)
    (post : Except InsertError α → List (Nat × Nat) → Prop) : Call α → Prop
  | .panic w' => ∃ T' added, Effect False w w' T T' added
  | .done result w' => ∃ T' added, Effect (w'.walFailed = false) w w' T T' added ∧
      post result added ∧ (result ≠ .error .walAppend → w'.walFailed = w.walFailed)

theorem Outcome.mono {α : Type} {w : Writer} {T : Nat → Adj}
    {post post' : Except InsertError α → List (Nat × Nat) → Prop} {call : Call α}
    (h : Outcome w T post call) (weaker : ∀ r added, post r added → post' r added) :
    Outcome w T post' call := by
  cases call with
  | panic w' => exact h
  | done result w' =>
      obtain ⟨T', added, effect, holds, failed⟩ := h
      exact ⟨T', added, effect, weaker _ _ holds, failed⟩

def withMarks (w : Writer) (m : Marks) : Writer :=
  { w with graph := { w.graph with dirty := m.map }, dirty := m.buf }

theorem noteDirty_eq (w : Writer) (v : Nat) : w.noteDirty v = w.withMarks (w.marks.note v) := by
  unfold noteDirty Marks.note flushDirty Marks.flush
  rw [show w.marks.buf.length = w.dirty.length from rfl,
    show w.marks.buf.isEmpty = w.dirty.isEmpty from rfl]
  split
  · split <;> rfl
  · rfl

theorem foldl_noteDirty (w : Writer) (vs : List Nat) :
    vs.foldl noteDirty w = w.withMarks (vs.foldl Marks.note w.marks) := by
  induction vs generalizing w with
  | nil => rfl
  | cons v vs ih =>
      rw [List.foldl_cons, ih, noteDirty_eq]
      rfl

theorem noteRootStore_eq (w : Writer) (src : Nat) : ∃ touched limit,
    w.noteRootStore src = { w with touchedLeaves := touched, touchedDedupLimit := limit } ∧
      ∀ l, l ∈ touched ↔ l ∈ w.touchedLeaves ∨ l = src / leafLen := by
  unfold noteRootStore
  dsimp only
  split
  · rename_i last
    refine ⟨w.touchedLeaves, w.touchedDedupLimit, rfl, fun l => ⟨.inl, ?_⟩⟩
    rintro (hl | rfl)
    · exact hl
    · exact List.mem_of_getLast? last
  · split
    · exact ⟨_, _, rfl, fun l => by simp⟩
    · exact ⟨_, _, rfl, fun l => by simp⟩

theorem publishBatch_eq (w : Writer) (src : Nat) (tree : CTree) (new : List Nat) :
    ∃ touched limit, w.publishBatch src tree new = withMarks
        { w with graph := { w.graph with roots := w.graph.roots.set src tree.root }
                 touchedLeaves := touched
                 touchedDedupLimit := limit
                 pendingEdges := w.pendingEdges + new.length }
        ((new ++ [src]).foldl Marks.note w.marks) ∧
      ∀ l, l ∈ touched ↔ l ∈ w.touchedLeaves ∨ l = src / leafLen := by
  obtain ⟨touched, limit, eq, mem⟩ := (w.storeRoot src tree.root).noteRootStore_eq src
  refine ⟨touched, limit, ?_, mem⟩
  simp only [publishBatch, eq, foldl_noteDirty, noteDirty_eq, List.foldl_append, List.foldl_cons,
    List.foldl_nil]
  rfl

theorem publishEdge_eq (w : Writer) (src dst : Nat) (tree : CTree) :
    ∃ touched limit, w.publishEdge src dst tree = withMarks
        { w with graph := { w.graph with roots := w.graph.roots.set src tree.root }
                 touchedLeaves := touched
                 touchedDedupLimit := limit
                 pendingEdges := w.pendingEdges + 1 }
        ([src, dst].foldl Marks.note w.marks) ∧
      ∀ l, l ∈ touched ↔ l ∈ w.touchedLeaves ∨ l = src / leafLen := by
  obtain ⟨touched, limit, eq, mem⟩ := (w.storeRoot src tree.root).noteRootStore_eq src
  refine ⟨touched, limit, ?_, mem⟩
  simp only [publishEdge, eq, noteDirty_eq, List.foldl_cons, List.foldl_nil]
  rfl

@[simp] theorem publishBatch_walFailed (w : Writer) (src : Nat) (tree : CTree) (new : List Nat) :
    (w.publishBatch src tree new).walFailed = w.walFailed := by
  obtain ⟨touched, limit, eq, -⟩ := w.publishBatch_eq src tree new
  rw [eq]
  rfl

@[simp] theorem publishEdge_walFailed (w : Writer) (src dst : Nat) (tree : CTree) :
    (w.publishEdge src dst tree).walFailed = w.walFailed := by
  obtain ⟨touched, limit, eq, -⟩ := w.publishEdge_eq src dst tree
  rw [eq]
  rfl

@[simp] theorem publishBatch_retireLog (w : Writer) (src : Nat) (tree : CTree) (new : List Nat) :
    (w.publishBatch src tree new).retireLog = w.retireLog := by
  obtain ⟨touched, limit, eq, -⟩ := w.publishBatch_eq src tree new
  rw [eq]
  rfl

@[simp] theorem publishBatch_arena (w : Writer) (src : Nat) (tree : CTree) (new : List Nat) :
    (w.publishBatch src tree new).graph.arena = w.graph.arena := by
  obtain ⟨touched, limit, eq, -⟩ := w.publishBatch_eq src tree new
  rw [eq]
  rfl

@[simp] theorem publishEdge_retireLog (w : Writer) (src dst : Nat) (tree : CTree) :
    (w.publishEdge src dst tree).retireLog = w.retireLog := by
  obtain ⟨touched, limit, eq, -⟩ := w.publishEdge_eq src dst tree
  rw [eq]
  rfl

@[simp] theorem maybeStampRetired_walFailed (w : Writer) :
    w.maybeStampRetired.walFailed = w.walFailed := by
  unfold maybeStampRetired
  split <;> rfl

theorem appendBatch_true {w w' : Writer} {src : Nat} {dsts : List Nat}
    (h : w.appendBatch src dsts = (true, w')) :
    ∃ wal, w' = { w with graph := { w.graph with wal := wal } } ∧
      WalAppended w.graph.wal wal (recordsOf (dsts.map (src, ·))) := by
  unfold appendBatch at h
  split at h
  · rename_i none
    obtain rfl := (Prod.mk.inj h).2
    refine ⟨.none, ?_, ?_⟩
    · rw [← none]
    · rw [none]
      trivial
  · rename_i wal some
    have appended := wal.appendEdges_appended src dsts
    rcases result : wal.appendEdges src dsts with ⟨ok, wal'⟩
    rw [result] at appended
    simp only [result, Prod.mk.injEq] at h
    obtain ⟨rfl, rfl⟩ := h
    refine ⟨.some wal', ?_, ?_⟩
    · rw [Bool.not_true, Bool.or_false]
    · rw [some, recordsOf, List.map_map]
      exact appended

theorem appendBatch_false {w w' : Writer} {src : Nat} {dsts : List Nat}
    (h : w.appendBatch src dsts = (false, w')) : w.graph.wal ≠ none ∧
    ∃ wal, w' = { w with graph := { w.graph with wal := wal }, walFailed := true } ∧
      WalAppended w.graph.wal wal [] := by
  unfold appendBatch at h
  split at h
  · simp only [Prod.mk.injEq, Bool.true_eq_false, false_and] at h
  · rename_i wal some
    have appended := wal.appendEdges_appended src dsts
    rcases result : wal.appendEdges src dsts with ⟨ok, wal'⟩
    rw [result] at appended
    simp only [result, Prod.mk.injEq] at h
    obtain ⟨rfl, rfl⟩ := h
    refine ⟨some ▸ Option.some_ne_none _, .some wal', ?_, ?_⟩
    · rw [Bool.not_false, Bool.or_true]
    · rw [some]
      exact appended

/-- `w'` is `w` after allocating and staging `recs`; only its retire log may differ, too. -/
structure Staged (w w' : Writer) (recs : List EdgeRecord) : Prop where
  frame : Frame w w'
  roots : w'.graph.roots = w.graph.roots
  touched : w'.touchedLeaves = w.touchedLeaves
  pending : w'.pendingEdges = w.pendingEdges
  wal : WalAppended w.graph.wal w'.graph.wal recs
  failed : w.graph.wal = none → w'.walFailed = w.walFailed
  marks : w'.marks = w.marks

theorem Staged.withLog (w : Writer) (aw : ArenaWriter) (log : RetireLog) :
    Staged w (w.withLog aw log) [] :=
  ⟨⟨rfl, rfl, rfl, rfl, rfl, rfl, rfl, rfl⟩, rfl, rfl, rfl, .refl _, fun _ => rfl, rfl⟩

theorem Staged.setLog (w : Writer) (log : RetireLog) :
    Staged w { w with retireLog := log } [] :=
  ⟨⟨rfl, rfl, rfl, rfl, rfl, rfl, rfl, rfl⟩, rfl, rfl, rfl, .refl _, fun _ => rfl, rfl⟩

theorem Staged.trans {w w' w'' : Writer} {recs recs' : List EdgeRecord} (h : Staged w w' recs)
    (h' : Staged w' w'' recs') : Staged w w'' (recs ++ recs') where
  frame := h.frame.trans h'.frame
  roots := h'.roots.trans h.roots
  touched := h'.touched.trans h.touched
  pending := h'.pending.trans h.pending
  wal := h.wal.trans h'.wal
  failed none := (h'.failed (WalAppended.none_left (none ▸ h.wal))).trans (h.failed none)
  marks := h'.marks.trans h.marks

theorem appendBatch_staged_true {w w' : Writer} {src : Nat} {dsts : List Nat}
    (h : w.appendBatch src dsts = (true, w')) : Staged w w' (recordsOf (dsts.map (src, ·))) ∧
      w'.graph.arena = w.graph.arena ∧ w'.retireLog = w.retireLog ∧
      w'.walFailed = w.walFailed := by
  obtain ⟨wal, rfl, appended⟩ := appendBatch_true h
  exact ⟨⟨⟨rfl, rfl, rfl, rfl, rfl, rfl, rfl, rfl⟩, rfl, rfl, rfl, appended, fun _ => rfl, rfl⟩,
    rfl, rfl, rfl⟩

theorem appendBatch_staged_false {w w' : Writer} {src : Nat} {dsts : List Nat}
    (h : w.appendBatch src dsts = (false, w')) : Staged w w' [] ∧
      w'.graph.arena = w.graph.arena ∧ w'.walFailed = true := by
  obtain ⟨attached, wal, rfl, appended⟩ := appendBatch_false h
  exact ⟨⟨⟨rfl, rfl, rfl, rfl, rfl, rfl, rfl, rfl⟩, rfl, rfl, rfl, appended,
    fun none => absurd none attached, rfl⟩, rfl, rfl⟩

theorem effect_quiet (sound : Prop) {w w' : Writer} {F : SlotClass → List Nat}
    (T : Nat → Adj) (staged : Staged w w' []) (grows : Grows w.graph.arena w'.graph.arena F)
    (log : sound → w'.retireLog = w.retireLog) : Effect sound w w' T T [] where
  frame := staged.frame
  moves := by
    refine ⟨w.retireLog, .one ?_, fun hs => (log hs).symm⟩
    have move : Move w.graph.numVertices w.youngStart w.retireStamp (w.core T) _ _ := .grow grows
    rw [show (w.core T).roots = w'.graph.roots from staged.roots.symm,
      show (w.core T).touched = w'.touchedLeaves from staged.touched.symm] at move
    exact move
  pending := staged.pending
  wal := staged.wal
  failed := staged.failed
  marks := ⟨[], staged.marks, by simp⟩

theorem effect_stampRetired (sound : Prop) (w : Writer) (T : Nat → Adj) :
    Effect sound w w.stampRetired T T [] where
  frame := ⟨rfl, rfl, rfl, rfl, rfl, rfl, rfl, rfl⟩
  moves := ⟨w.stampRetired.retireLog, .one .stamp, fun _ => rfl⟩
  pending := rfl
  wal := .refl _
  failed _ := rfl
  marks := ⟨[], rfl, by simp⟩

theorem effect_maybeStampRetired (sound : Prop) (w : Writer) (T : Nat → Adj) :
    Effect sound w w.maybeStampRetired T T [] := by
  unfold maybeStampRetired
  split
  · exact effect_stampRetired sound w T
  · exact .refl sound w T

/-- A guard that stored a replacement for `src` and kept its books. -/
theorem effect_publish (sound : Prop) {w w₁ w' : Writer} {T : Nat → Adj} {src : Nat} {t' : Adj}
    {new : List Nat} {logged leak F : SlotClass → List Nat}
    (staged : Staged w w₁ (recordsOf (new.map (src, ·))))
    (r : Replaced w.graph.arena w₁.graph.arena (T src) t' new logged leak F)
    (hsrc : src < w.graph.numVertices) (keys : ∀ x ∈ new, x < w.graph.numVertices)
    {touched vs : List Nat} {limit : Nat}
    (eq : w' = withMarks
      { w₁ with graph := { w₁.graph with roots := w₁.graph.roots.set src t'.root }
                touchedLeaves := touched
                touchedDedupLimit := limit
                pendingEdges := w₁.pendingEdges + new.length }
      (vs.foldl Marks.note w₁.marks))
    (mem : ∀ l, l ∈ touched ↔ l ∈ w₁.touchedLeaves ∨ l = src / leafLen)
    (hvs : ∀ v, v ∈ vs ↔ new ≠ [] ∧ v = src ∨ v ∈ new) (log : RetireLog)
    (hlog : sound → log = w.retireLog.append logged) :
    Effect sound w { w' with retireLog := log } T (Function.update T src t')
      (new.map (src, ·)) := by
  subst eq
  refine ⟨staged.frame.trans ⟨rfl, rfl, rfl, rfl, rfl, rfl, rfl, rfl⟩,
    ⟨_, .one ?_, fun hs => (hlog hs).symm⟩, ?_, staged.wal, staged.failed, vs, ?_, fun v => ?_⟩
  · have leaves : ∀ l, l ∈ touched ↔ l ∈ (w.core T).touched ∨ l = src / leafLen :=
      show ∀ l, l ∈ touched ↔ l ∈ w.touchedLeaves ∨ _ from staged.touched ▸ mem
    have move : Move w.graph.numVertices w.youngStart w.retireStamp (w.core T) _ _ :=
      .publish hsrc r keys leaves
    rw [show (w.core T).roots = w₁.graph.roots from staged.roots.symm] at move
    exact move
  · rw [List.length_map, ← staged.pending]
    rfl
  · rw [← staged.marks]
    rfl
  · rw [hvs]
    constructor
    · rintro (⟨ne, rfl⟩ | hv)
      · obtain ⟨x, hx⟩ := List.exists_mem_of_ne_nil new ne
        exact ⟨_, List.mem_map_of_mem hx, .inl rfl⟩
      · exact ⟨_, List.mem_map_of_mem hv, .inr rfl⟩
    · rintro ⟨e, he, hv⟩
      obtain ⟨x, hx, rfl⟩ := List.mem_map.mp he
      rcases hv with rfl | rfl
      · exact .inl ⟨List.ne_nil_of_mem hx, rfl⟩
      · exact .inr hx

theorem publishEdge_effect (sound : Prop) {w w₁ : Writer} {T : Nat → Adj} {src dst : Nat}
    {t' : Adj} {tree : CTree} (root : tree.root = t'.root) {logged leak F : SlotClass → List Nat}
    (staged : Staged w w₁ (recordsOf [(src, dst)]))
    (r : Replaced w.graph.arena w₁.graph.arena (T src) t' [dst] logged leak F)
    (hsrc : src < w.graph.numVertices) (hdst : dst < w.graph.numVertices)
    (log : sound → w₁.retireLog = w.retireLog.append logged) :
    Effect sound w (w₁.publishEdge src dst tree) T (Function.update T src t') [(src, dst)] := by
  obtain ⟨touched, limit, eq, mem⟩ := w₁.publishEdge_eq src dst tree
  rw [root] at eq
  have published := effect_publish sound staged r hsrc (List.forall_mem_singleton.mpr hdst) eq mem
    (by simp) w₁.retireLog log
  rw [← w₁.publishEdge_retireLog src dst tree] at published
  exact published

theorem publishBatch_effect (sound : Prop) {w w₁ : Writer} {T : Nat → Adj} {src : Nat} {t' : Adj}
    {tree : CTree} (root : tree.root = t'.root) {new : List Nat}
    {logged leak F : SlotClass → List Nat}
    (staged : Staged w w₁ (recordsOf (new.map (src, ·))))
    (r : Replaced w.graph.arena w₁.graph.arena (T src) t' new logged leak F) (ne : new ≠ [])
    (hsrc : src < w.graph.numVertices) (keys : ∀ x ∈ new, x < w.graph.numVertices)
    (log : RetireLog) (hlog : sound → log = w.retireLog.append logged) :
    Effect sound w { w₁.publishBatch src tree new with retireLog := log } T
      (Function.update T src t') (new.map (src, ·)) := by
  obtain ⟨touched, limit, eq, mem⟩ := w₁.publishBatch_eq src tree new
  rw [root] at eq
  exact effect_publish sound staged r hsrc keys eq mem (by simp [ne, or_comm]) log hlog

end Writer

end AetherGraph
