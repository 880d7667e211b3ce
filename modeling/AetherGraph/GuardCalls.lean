import AetherGraph.GuardEffect

/-! The insert calls of a guard, each with the effect it has when its retire log is in
order, and the one branch of the path-copy chain that leaves the log out of order. -/

namespace AetherGraph

open Foundation Foundation.LeafTree ArenaWriter Tree
open Arena (Grows)

theorem RetireLog.truncate_append_marks (log : RetireLog) (logged : SlotClass → List Nat) :
    (log.append logged).truncate log.marks = log := by
  have eq : ∀ k, ((log.append logged).slots k).take (log.marks k) = log.slots k := fun k =>
    List.take_left
  obtain ⟨slots⟩ := log
  exact congrArg RetireLog.mk (funext eq)

theorem Forest.treeFor {g : DynamicGraph} {T : Nat → Adj}
    (h : Forest g.arena g.numVertices g.roots T) (v : Nat) : g.treeFor v = ⟨(T v).root⟩ :=
  congrArg CTree.mk (h.root_eq v)

theorem RetireLog.slots_of_isEmpty {log : RetireLog} (h : log.isEmpty = true) (k : SlotClass) :
    log.slots k = [] := by
  simp only [isEmpty, Bool.and_eq_true, List.isEmpty_iff] at h
  cases k
  · exact h.1
  · exact h.2

theorem RetireLog.eq_of_cleared {log log' : RetireLog} (h : ∀ k, log.slots k = [])
    (h' : ∀ k, log'.slots k = []) : log = log' := by
  obtain ⟨slots⟩ := log
  obtain ⟨slots'⟩ := log'
  exact congrArg RetireLog.mk (funext fun k => (h k).trans (h' k).symm)

theorem size_of_keys {a : Arena} {n : Nat} {t : Adj} (live : t.Live a)
    (keys : ∀ x ∈ t.elems, x < n) (small : n ≤ DynamicGraph.u32Max) {x : Nat} (hx : x < n) :
    x ∈ t.elems ∨ t.elems.length + 1 < 2 ^ 32 := by
  by_cases old : x ∈ t.elems
  · exact .inl old
  · have := length_lt_of_keys live.elems_sorted keys hx old
    simp only [DynamicGraph.u32Max] at small
    exact .inr (by omega)

theorem Forest.size {a : Arena} {n : Nat} {roots : List Nat} {T : Nat → Adj}
    (h : Forest a n roots T) (v : Nat) {x : Nat} (hx : x < n) :
    x ∈ (T v).elems ∨ (T v).elems.length + 1 < 2 ^ 32 :=
  size_of_keys (h.live v) (h.keys v) h.small hx

namespace Writer

/-- Answer of `insert_edge` and the edges it published. -/
def edgePost (T : Nat → Adj) (src dst : Nat) : Except InsertError Bool → List (Nat × Nat) → Prop
  | .ok true, added => added = [(src, dst)]
  | .ok false, added => added = [] ∧ dst ∈ (T src).elems
  | .error _, added => added = []

theorem insertEdgeInner_outcome {w : Writer} {T : Nat → Adj}
    (good : Core.Good w.graph.numVertices (w.core T)) {src dst : Nat}
    (hsrc : src < w.graph.numVertices) (hdst : dst < w.graph.numVertices) :
    Outcome w T (edgePost T src dst) (w.insertEdgeInner src dst) := by
  have forest : Forest w.graph.arena w.graph.numVertices w.graph.roots T := good.forest
  have outcome := insertWithScratch_spec (w := w.aw) forest.ok (forest.live src)
    (forest.size src hdst) w.retireLog
  unfold insertEdgeInner
  rw [forest.treeFor src]
  dsimp only
  split
  · rename_i aw log result
    rw [result] at outcome
    obtain ⟨-, F, grown⟩ := outcome
    exact ⟨T, [], effect_quiet _ T (.withLog w aw log) grown.grows False.elim⟩
  · rename_i tree aw log result
    rw [result] at outcome
    obtain ⟨t', logged, leak, F, hroot, rfl, done⟩ := outcome
    have staged := Staged.withLog w aw (w.retireLog.append logged)
    split
    · rename_i w₁ append
      obtain ⟨staged', arena, failed⟩ := appendBatch_staged_false append
      have grows := done.grown.grows
      rw [show aw.arena = w₁.graph.arena from arena.symm] at grows
      have whole := (staged.trans staged').trans (.setLog w₁ (w₁.retireLog.truncate w.retireLog.marks))
      refine ⟨T, [], effect_quiet _ T whole grows fun up => ?_, rfl, fun no => absurd rfl no⟩
      cases failed.symm.trans up
    · rename_i w₁ append
      obtain ⟨staged', arena, log, failed⟩ := appendBatch_staged_true append
      have replaced := done.replaced
      rw [show aw.arena = w₁.graph.arena from arena.symm] at replaced
      have published := publishEdge_effect True (show _ = Adj.root (some t') from hroot)
        (staged.trans staged') replaced hsrc hdst fun _ => log
      have stamped := effect_maybeStampRetired True (w₁.publishEdge src dst tree)
        (Function.update T src (some t'))
      refine ⟨_, _, (published.trans trivial stamped).weaken fun _ => trivial, rfl, fun _ => ?_⟩
      rw [maybeStampRetired_walFailed, publishEdge_walFailed, failed]
      rfl
  · rename_i aw log result
    rw [result] at outcome
    obtain ⟨dup, rfl, rfl⟩ := outcome
    exact ⟨T, [], .refl _ w T, ⟨rfl, dup⟩, fun _ => rfl⟩
  · rename_i aw log result
    rw [result] at outcome
    obtain ⟨rfl, ⟨F, grown⟩, -⟩ := outcome
    exact ⟨T, [], effect_quiet _ T (.withLog w aw _) grown.grows fun _ => rfl, rfl, fun _ => rfl⟩

/-- A call that follows an effect. -/
theorem Effect.outcome {α : Type} {s : Prop} {w w' : Writer} {T T' : Nat → Adj}
    {added : List (Nat × Nat)} (h : Effect s w w' T T' added) (trusted : s)
    (same : w'.walFailed = w.walFailed) {call : Call α}
    {post post' : Except InsertError α → List (Nat × Nat) → Prop}
    (outcome : Outcome w' T' post' call)
    (implies : ∀ r added', post' r added' → post r (added ++ added')) : Outcome w T post call := by
  cases call with
  | panic w'' =>
      obtain ⟨T'', added', effect⟩ := outcome
      exact ⟨T'', _, h.trans trusted effect⟩
  | done result w'' =>
      obtain ⟨T'', added', effect, holds, failed⟩ := outcome
      exact ⟨T'', _, h.trans trusted effect, implies _ _ holds, fun r => (failed r).trans same⟩

theorem insertEdge_outcome {w : Writer} {T : Nat → Adj} (good : w.Sound T) (src dst : Nat) :
    Outcome w T (edgePost T src dst) (w.insertEdge src dst) := by
  unfold insertEdge
  split
  · exact ⟨T, [], .refl _ w T, rfl, fun _ => rfl⟩
  rename_i inRange
  obtain ⟨hsrc, hdst⟩ := not_or.mp inRange
  rw [Nat.not_le] at hsrc hdst
  split
  · exact ⟨T, [], .refl _ w T, rfl, fun _ => rfl⟩
  rename_i up
  have up : w.walFailed = false := by simpa [walRefuses] using up
  have outcome := insertEdgeInner_outcome (good.good up) hsrc hdst
  split
  · rename_i w₁ result
    rw [result] at outcome
    obtain ⟨T₁, added, effect, rfl, failed⟩ := outcome
    have same : w₁.walFailed = w.walFailed := failed fun h => nomatch h
    have stamped := effect.trans (same.trans up) (effect_stampRetired True w₁ T₁)
    have good₁ := stamped.good trivial (good.good up)
    have retried := insertEdgeInner_outcome good₁ (stamped.frame.numVertices ▸ hsrc)
      (stamped.frame.numVertices ▸ hdst)
    refine stamped.outcome trivial same retried fun r added' holds => ?_
    match r, holds with
    | .error _, holds => exact holds
    | .ok true, holds => exact holds
    | .ok false, ⟨nothing, dup⟩ =>
        exact ⟨nothing, ((stamped.added.mem_elems src dst).mp dup).resolve_right List.not_mem_nil⟩
  · exact outcome

theorem aw_withLog {w : Writer} {aw : ArenaWriter} (young : aw.youngStart = w.youngStart)
    (log : RetireLog) : (w.withLog aw log).aw = aw := by
  obtain ⟨arena, start⟩ := aw
  obtain rfl : start = w.youngStart := young
  rfl

/-- How a chain from `t` ends: nothing is published; only a full chain and a built one
leave the log as they found it but for what they appended. -/
def ChainOutcome (w : Writer) (t : Adj) (acc dsts : List Nat) : Chain → Prop
  | .panic w' => ∃ aw log F, w' = w.withLog aw log ∧ Grown w.aw aw F
  | .full w' => ∃ aw logged F, w' = w.withLog aw (w.retireLog.append logged) ∧ Grown w.aw aw F
  | .built tree newDsts w' => ∃ t' added aw logged leak F,
      w' = w.withLog aw (w.retireLog.append logged) ∧ Grown w.aw aw F ∧ tree.root = t'.root ∧
      newDsts = acc ++ added ∧ added = dsts.filter (fun d => decide (d ∉ t.elems)) ∧
      Replaced w.graph.arena aw.arena t t' added logged leak F ∧ (added = [] → w' = w)

theorem chain_outcome {w : Writer} (ok : w.graph.arena.Ok) {t : Adj} (live : t.Live w.graph.arena)
    {n : Nat} (small : n ≤ DynamicGraph.u32Max) (keys : ∀ x ∈ t.elems, x < n) {dsts : List Nat}
    (sorted : dsts.Pairwise (· < ·)) (inRange : ∀ d ∈ dsts, d < n) (acc : List Nat) :
    ChainOutcome w t acc dsts (w.chain ⟨t.root⟩ acc dsts) := by
  induction dsts generalizing w t acc with
  | nil =>
      exact ⟨t, [], w.aw, fun _ => [], fun _ => [], _, by rw [RetireLog.append_nil]; rfl, .refl ok,
        rfl, (List.append_nil acc).symm, rfl, .refl ok live, fun _ => rfl⟩
  | cons d dsts ih =>
      obtain ⟨later, sorted⟩ := List.pairwise_cons.mp sorted
      obtain ⟨hd, inRange⟩ := List.forall_mem_cons.mp inRange
      have outcome := insertWithScratch_spec (w := w.aw) ok live (size_of_keys live keys small hd)
        w.retireLog
      rw [chain]
      split
      · rename_i aw log result
        rw [result] at outcome
        obtain ⟨-, F, grown⟩ := outcome
        exact ⟨aw, log, F, rfl, grown⟩
      · rename_i tree aw log result
        rw [result] at outcome
        obtain ⟨t₁, logged, leak, F, hroot, rfl, done⟩ := outcome
        have first := done.replaced
        have keys₁ : ∀ x ∈ t₁.elems, x < n := fun x hx =>
          ((first.mem_elems x).mp hx).elim (keys x) fun hx => List.mem_singleton.mp hx ▸ hd
        have rest := ih (w := w.withLog aw (w.retireLog.append logged)) (t := some t₁)
          done.grown.ok first.live keys₁ sorted inRange (acc ++ [d])
        have eq : (CTree.mk (Adj.root (some t₁))) = tree := congrArg CTree.mk hroot.symm
        rw [eq] at rest
        have young : aw.youngStart = w.youngStart := done.grown.youngStart
        cases chained : (w.withLog aw (w.retireLog.append logged)).chain tree (acc ++ [d]) dsts with
        | panic w' =>
            rw [chained] at rest
            obtain ⟨aw', log', F', rfl, grown⟩ := rest
            rw [aw_withLog young] at grown
            exact ⟨aw', log', _, rfl, done.grown.trans grown⟩
        | full w' =>
            rw [chained] at rest
            obtain ⟨aw', logged', F', rfl, grown⟩ := rest
            rw [aw_withLog young] at grown
            exact ⟨aw', _, _, congrArg _ (RetireLog.append_append ..), done.grown.trans grown⟩
        | built tree' newDsts w' =>
            rw [chained] at rest
            obtain ⟨t', added, aw', logged', leak', F', rfl, grown, root, rfl, filter, r, -⟩ := rest
            rw [aw_withLog young] at grown
            refine ⟨t', d :: added, aw', _, _, _, congrArg _ (RetireLog.append_append ..),
              done.grown.trans grown, root, by simp, ?_, first.trans r, fun no => nomatch no⟩
            rw [List.filter_cons_of_pos (by simpa using done.fresh), filter]
            refine congrArg _ (List.filter_congr fun y hy => ?_)
            have differ : y ≠ d := (later y hy).ne'
            have member := first.mem_elems y
            simp only [List.mem_singleton, differ, or_false] at member
            rw [decide_eq_decide, member]
      · rename_i aw log result
        rw [result] at outcome
        obtain ⟨dup, rfl, rfl⟩ := outcome
        have rest := ih ok live keys sorted inRange acc
        rw [show w.withLog w.aw w.retireLog = w from rfl]
        have skip : (d :: dsts).filter (fun x => decide (x ∉ t.elems)) =
            dsts.filter fun x => decide (x ∉ t.elems) := List.filter_cons_of_neg (by simpa using dup)
        cases chained : w.chain ⟨t.root⟩ acc dsts with
        | panic w' =>
            rw [chained] at rest
            exact rest
        | full w' =>
            rw [chained] at rest
            exact rest
        | built tree newDsts w' =>
            rw [chained] at rest
            unfold ChainOutcome at rest ⊢
            rw [skip]
            exact rest
      · rename_i aw log result
        rw [result] at outcome
        obtain ⟨rfl, ⟨F, grown⟩, -⟩ := outcome
        exact ⟨aw, fun _ => [], F, by rw [RetireLog.append_nil], grown⟩

/-- Answer of a batch for one source and the edges it published. -/
def batchPost (T : Nat → Adj) (src : Nat) (dsts : List Nat) :
    Except InsertError Nat → List (Nat × Nat) → Prop
  | .ok k, added => added = (dsts.filter fun d => decide (d ∉ (T src).elems)).map (src, ·) ∧
      k = added.length
  | .error _, added => added = []

theorem batchPost.of_effect {s : Prop} {w w' : Writer} {T T' : Nat → Adj}
    (h : Effect s w w' T T' []) {src : Nat} {dsts : List Nat} {r : Except InsertError Nat}
    {added : List (Nat × Nat)} (post : batchPost T' src dsts r added) :
    batchPost T src dsts r ([] ++ added) := by
  cases r with
  | error e => exact post
  | ok k =>
      obtain ⟨eq, count⟩ := post
      refine ⟨eq.trans ?_, count⟩
      refine congrArg _ (List.filter_congr fun y _ => ?_)
      have member := h.added.mem_elems src y
      rw [decide_eq_decide, member]
      simp

/-- Publishing what a chain built, whatever the marks. -/
theorem finishChain_outcome {w w₁ : Writer} {T : Nat → Adj} {src : Nat}
    (hsrc : src < w.graph.numVertices) {dsts : List Nat}
    (inRange : ∀ d ∈ dsts, d < w.graph.numVertices) {tree : CTree} {newDsts : List Nat}
    (built : ChainOutcome w (T src) [] dsts (.built tree newDsts w₁)) (mark : SlotClass → Nat) :
    Outcome w T (batchPost T src dsts) (w₁.finishChain mark src tree newDsts) := by
  obtain ⟨t', _, aw, logged, leak, F, rfl, grown, root, rfl, filter, r, idle⟩ := built
  unfold finishChain
  split
  · rename_i nothing
    have nothing := List.isEmpty_iff.mp nothing
    rw [idle nothing]
    refine ⟨T, [], .refl _ w T, ⟨?_, rfl⟩, fun _ => rfl⟩
    rw [← filter, nothing, List.map_nil]
  rename_i ne
  have ne : newDsts ≠ [] := by simpa using ne
  have staged := Staged.withLog w aw (w.retireLog.append logged)
  split
  · rename_i w₂ append
    obtain ⟨staged', arena, failed⟩ := appendBatch_staged_false append
    have grows := grown.grows
    rw [show aw.arena = w₂.graph.arena from arena.symm] at grows
    have whole := (staged.trans staged').trans (.setLog w₂ (w₂.retireLog.truncate mark))
    refine ⟨T, [], effect_quiet _ T whole grows fun up => ?_, rfl, fun no => absurd rfl no⟩
    cases failed.symm.trans up
  · rename_i w₂ append
    obtain ⟨staged', arena, log, failed⟩ := appendBatch_staged_true append
    rw [show aw.arena = w₂.graph.arena from arena.symm] at r
    have keys : ∀ x ∈ newDsts, x < w.graph.numVertices := fun x hx =>
      inRange x (List.mem_filter.mp (filter ▸ hx)).1
    have published := publishBatch_effect True root (staged.trans staged') r ne hsrc keys
      w₂.retireLog fun _ => log
    rw [← w₂.publishBatch_retireLog src tree newDsts] at published
    have stamped := effect_maybeStampRetired True (w₂.publishBatch src tree newDsts)
      (Function.update T src t')
    refine ⟨_, _, (published.trans trivial stamped).weaken fun _ => trivial, ⟨?_, ?_⟩, fun _ => ?_⟩
    · rw [List.append_nil, filter]
    · rw [List.append_nil, List.length_map]
    · rw [maybeStampRetired_walFailed, publishBatch_walFailed, failed]
      rfl

/-- Both chains ran out, and the marks of the first keep entries of the second. -/
def pathCopyStale (w : Writer) (src : Nat) (dsts : List Nat) : Bool :=
  let tree := w.graph.treeFor src
  match w.chain tree [] dsts with
  | .full w₁ =>
      match (w₁.restamp w.retireLog.marks).chain tree [] dsts with
      | .full w₂ => !(w₂.retireLog.truncate w.retireLog.marks).isEmpty
      | _ => false
  | _ => false

theorem insertSortedByPathCopy_outcome {w : Writer} {T : Nat → Adj}
    (good : Core.Good w.graph.numVertices (w.core T)) {src : Nat} {dsts : List Nat}
    (hsrc : src < w.graph.numVertices) (sorted : dsts.Pairwise (· < ·))
    (inRange : ∀ d ∈ dsts, d < w.graph.numVertices) (fresh : w.pathCopyStale src dsts = false) :
    Outcome w T (batchPost T src dsts)
      (w.insertSortedByPathCopy src (w.graph.treeFor src) dsts) := by
  have forest : Forest w.graph.arena w.graph.numVertices w.graph.roots T := good.forest
  have first := chain_outcome forest.ok (forest.live src) forest.small (forest.keys src) sorted
    inRange []
  rw [← forest.treeFor src] at first
  unfold pathCopyStale at fresh
  unfold insertSortedByPathCopy
  dsimp only at fresh ⊢
  cases chained : w.chain (w.graph.treeFor src) [] dsts with
  | panic w₁ =>
      rw [chained] at first
      obtain ⟨aw, log, F, rfl, grown⟩ := first
      exact ⟨T, [], effect_quiet _ T (.withLog w aw log) grown.grows False.elim⟩
  | built tree newDsts w₁ =>
      rw [chained] at first
      exact finishChain_outcome hsrc inRange first _
  | full w₁ =>
      rw [chained] at first fresh
      obtain ⟨aw, logged, F, rfl, grown⟩ := first
      dsimp only at fresh ⊢
      have restamped : (w.withLog aw (w.retireLog.append logged)).restamp w.retireLog.marks =
          (w.withLog aw w.retireLog).stampRetired := by
        have log : (w.withLog aw (w.retireLog.append logged)).retireLog.truncate w.retireLog.marks =
            w.retireLog := RetireLog.truncate_append_marks ..
        rw [restamp, log]
        rfl
      rw [restamped] at fresh ⊢
      have idle : Effect True w (w.withLog aw w.retireLog) T T [] :=
        effect_quiet _ T (.withLog w aw _) grown.grows fun _ => rfl
      have empty := ((idle.good trivial good).retired w.youngStart w.retireStamp).2
      have stamped := idle.trans trivial (effect_stampRetired True _ T)
      have good₁ := stamped.good trivial good
      have cleared : ∀ k, (w.withLog aw w.retireLog).stampRetired.retireLog.slots k = [] := empty
      have up : (w.withLog aw w.retireLog).stampRetired.walFailed = w.walFailed := rfl
      generalize (w.withLog aw w.retireLog).stampRetired = ws at fresh stamped good₁ cleared up ⊢
      have forest₁ : Forest ws.graph.arena ws.graph.numVertices ws.graph.roots T := good₁.forest
      have nv := stamped.frame.numVertices
      have second := chain_outcome forest₁.ok (forest₁.live src) forest₁.small (forest₁.keys src)
        sorted (nv ▸ inRange) []
      have same : ws.graph.treeFor src = w.graph.treeFor src := by
        rw [forest.treeFor src, forest₁.treeFor src]
      rw [← forest₁.treeFor src, same] at second
      cases chained₁ : ws.chain (w.graph.treeFor src) [] dsts with
      | panic w₁ =>
          rw [chained₁] at second
          obtain ⟨aw', log, F', rfl, grown'⟩ := second
          have quiet : Effect False ws (ws.withLog aw' log) T T [] :=
            effect_quiet _ T (.withLog ws aw' log) grown'.grows False.elim
          exact ⟨T, _, stamped.trans trivial quiet⟩
      | built tree newDsts w₁ =>
          rw [chained₁] at second
          have finished := finishChain_outcome (nv ▸ hsrc) (nv ▸ inRange) second w.retireLog.marks
          exact stamped.outcome trivial up finished fun r added post => post.of_effect stamped
      | full w₁ =>
          rw [chained₁] at second fresh
          obtain ⟨aw', logged', F', rfl, grown'⟩ := second
          dsimp only at fresh ⊢
          set log := (ws.withLog aw' (ws.retireLog.append logged')).retireLog.truncate
            w.retireLog.marks with hlog
          have nothing : log.isEmpty = true := by simpa using fresh
          have same := RetireLog.eq_of_cleared (RetireLog.slots_of_isEmpty nothing) cleared
          have quiet : Effect True ws (ws.withLog aw' log) T T [] :=
            effect_quiet _ T (.withLog ws aw' log) grown'.grows fun _ => same
          exact ⟨T, _, (stamped.trans trivial quiet).weaken fun _ => trivial, rfl, fun _ => up⟩

/-- With the merged tree built in `aw`, the whole old tree is logged. -/
theorem finishRebuild_outcome {w : Writer} {T : Nat → Adj}
    (good : Core.Good w.graph.numVertices (w.core T)) {src : Nat}
    (hsrc : src < w.graph.numVertices) {dsts : List Nat}
    (inRange : ∀ d ∈ dsts, d < w.graph.numVertices) {aw : ArenaWriter} {newTree : CTree} {t' : Adj}
    (root : newTree.root = t'.root) {newDsts : List Nat} (ne : newDsts ≠ [])
    (filter : newDsts = dsts.filter fun d => decide (d ∉ (T src).elems))
    (shallow : ∀ t, T src = some t → t.leftDepth ≤ maxDepth)
    {F : SlotClass → List Nat} (r : Replaced w.graph.arena aw.arena (T src) t' newDsts
      (T src).slots (fun _ => []) F) :
    Outcome w T (batchPost T src dsts)
      ((w.withArena aw).finishRebuild src (w.graph.treeFor src) newTree newDsts) := by
  have forest : Forest w.graph.arena w.graph.numVertices w.graph.roots T := good.forest
  have staged := Staged.withLog w aw w.retireLog
  have keys : ∀ x ∈ newDsts, x < w.graph.numVertices := fun x hx =>
    inRange x (List.mem_filter.mp (filter ▸ hx)).1
  unfold finishRebuild
  split
  · rename_i w₁ append
    obtain ⟨staged', arena, failed⟩ := appendBatch_staged_false append
    have grows := r.grows
    rw [show aw.arena = w₁.graph.arena from arena.symm] at grows
    refine ⟨T, [], effect_quiet _ T (staged.trans staged') grows fun up => ?_, rfl,
      fun no => absurd rfl no⟩
    cases failed.symm.trans up
  rename_i w₁ append
  obtain ⟨staged', arena, log, failed⟩ := appendBatch_staged_true append
  have up : w₁.walFailed = w.walFailed := failed
  rw [show aw.arena = w₁.graph.arena from arena.symm] at r
  have published := fun sound => publishBatch_effect sound root (staged.trans staged') r ne hsrc keys
  have stamped := effect_maybeStampRetired True
  have post : batchPost T src dsts (.ok newDsts.length) (newDsts.map (src, ·) ++ []) := by
    rw [List.append_nil]
    exact ⟨by rw [filter], (List.length_map ..).symm⟩
  dsimp only
  rw [forest.treeFor src]
  split
  · rename_i empty
    have none : T src = .none := by
      cases ht : T src with
      | none => rfl
      | some t => exact absurd (ht ▸ empty) (ht ▸ forest.live src).root_ne
    have plain := published True w₁.retireLog fun _ => by
      rw [none]
      exact log.trans (RetireLog.append_nil _).symm
    rw [← w₁.publishBatch_retireLog src newTree newDsts] at plain
    refine ⟨_, _, (plain.trans trivial (stamped ..)).weaken fun _ => trivial, post, fun _ => ?_⟩
    rw [maybeStampRetired_walFailed, publishBatch_walFailed, up]
  · rename_i proper
    obtain ⟨t, ht⟩ : ∃ t, T src = some t := by
      cases ht : T src with
      | none => exact absurd (congrArg Adj.root ht) proper
      | some t => exact ⟨t, rfl⟩
    have live := (forest.live src).grows r.grows
    rw [ht] at live
    have retired := retireSubtree_stored live.1.stored live.2 live.1.below (shallow t ht)
      (w₁.publishBatch src newTree newDsts).retireLog
    have whole := published True ((w₁.publishBatch src newTree newDsts).retireLog.append t.slots)
      fun _ => by
        rw [publishBatch_retireLog, ht]
        exact congrArg (RetireLog.append · _) log
    rw [ht, show Adj.root (some t) = offset t from rfl, publishBatch_arena, retired]
    refine ⟨_, _, (whole.trans trivial (stamped ..)).weaken fun _ => trivial, post, fun _ => ?_⟩
    rw [maybeStampRetired_walFailed]
    exact (publishBatch_walFailed ..).trans up

theorem collect_some {a : Arena} {t : Adj} (live : t.Live a) {l : List Nat}
    (h : (CTree.mk t.root).collect a = some l) :
    l = t.elems ∧ ∀ s, t = some s → s.leftDepth ≤ maxDepth := by
  have shallow : ∀ s, t = some s → s.leftDepth ≤ maxDepth := by
    rintro s rfl
    have walk := visitChunks_stored live.1.stored live.2 live.1.below
    by_contra deep
    rw [if_neg deep] at walk
    rw [CTree.collect, CTree.chunks, if_neg (show (CTree.mk (Adj.root (some s))).root ≠ null from
      live.root_ne)] at h
    rw [show (CTree.mk (Adj.root (some s))).root = offset s from rfl, walk] at h
    cases h
  refine ⟨?_, shallow⟩
  rw [live.collect shallow] at h
  exact (Option.some.inj h).symm

/-- A tree built over the merged neighbours. -/
theorem fromSorted_some {w w' : ArenaWriter} (ok : w.arena.Ok) {vals : List Nat} (ne : vals ≠ [])
    (sorted : vals.Pairwise (· < ·)) (size : vals.length < 2 ^ 32) {tree : CTree}
    (h : CTree.fromSorted w vals = (some tree, w')) : ∃ t F, tree.root = offset t ∧
      Built w w' vals (offset t) t F := by
  unfold CTree.fromSorted at h
  split at h
  · rename_i empty
    exact absurd (List.isEmpty_iff.mp empty) ne
  split at h
  · cases h
  · rename_i root w₁ built
    simp only [Prod.mk.injEq, Option.some.injEq] at h
    obtain ⟨rfl, rfl⟩ := h
    obtain ⟨t, F, built⟩ := buildBalanced_some ok ne sorted size built
    exact ⟨t, F, built.root_eq, built.root_eq ▸ built⟩

theorem fromSorted_none {w w' : ArenaWriter} (ok : w.arena.Ok) {vals : List Nat} (ne : vals ≠ [])
    (sorted : vals.Pairwise (· < ·)) (size : vals.length < 2 ^ 32)
    (h : CTree.fromSorted w vals = (none, w')) : ∃ F, Grown w w' F := by
  unfold CTree.fromSorted at h
  split at h
  · rename_i empty
    exact absurd (List.isEmpty_iff.mp empty) ne
  split at h
  · rename_i w₁ failed
    obtain rfl := (Prod.mk.inj h).2
    exact buildBalanced_none ok ne sorted size failed
  · cases h

theorem replaced_of_built {w w' : ArenaWriter} {t : Adj} {t' : Tree}
    {dsts vals newDsts : List Nat} {root : Nat} {F : SlotClass → List Nat}
    (built : Built w w' vals root t' F) (merged : Merged t.elems dsts (vals, newDsts))
    (sorted : dsts.Pairwise (· < ·)) :
    Replaced w.arena w'.arena t (some t') newDsts t.slots (fun _ => []) F where
  grows := (show Grown w w' F from built.wrote).grows
  live := ⟨kept_of_built built, built.wellFormed⟩
  account k := by
    have handed := built.slots_perm k
    simp only [Adj.slots, List.append_nil]
    exact (handed.append_right _).trans List.perm_append_comm
  mem_elems x := by
    rw [show Adj.elems (some t') = vals from built.elems_eq]
    exact merged.mem_or_new x
  fresh x hx := ((merged.mem_new x).mp hx).2
  nodup_new := by
    rw [show newDsts = _ from merged.new_eq]
    exact (sorted.imp Nat.ne_of_lt).filter _

theorem insertSortedByRebuild_outcome {w : Writer} {T : Nat → Adj}
    (good : Core.Good w.graph.numVertices (w.core T)) {src : Nat} {dsts : List Nat}
    (hsrc : src < w.graph.numVertices) (sorted : dsts.Pairwise (· < ·))
    (inRange : ∀ d ∈ dsts, d < w.graph.numVertices) :
    Outcome w T (batchPost T src dsts)
      (w.insertSortedByRebuild src (w.graph.treeFor src) dsts) := by
  have forest : Forest w.graph.arena w.graph.numVertices w.graph.roots T := good.forest
  unfold insertSortedByRebuild
  split
  · exact ⟨T, [], .refl _ w T⟩
  rename_i existing collected
  rw [forest.treeFor src] at collected
  obtain ⟨rfl, shallow⟩ := collect_some (forest.live src) collected
  have merged := mergeSorted_merged (forest.live src).elems_sorted sorted
  rcases hm : mergeSorted (T src).elems dsts with ⟨vals, newDsts⟩
  rw [hm] at merged
  have filter : newDsts = dsts.filter fun d => decide (d ∉ (T src).elems) := merged.new_eq
  dsimp only
  split
  · rename_i nothing
    have nothing := List.isEmpty_iff.mp nothing
    exact ⟨T, [], .refl _ w T, ⟨by rw [← filter, nothing]; rfl, rfl⟩, fun _ => rfl⟩
  rename_i ne
  have ne : newDsts ≠ [] := by simpa using ne
  have hvals : vals ≠ [] := by
    obtain ⟨x, hx⟩ := List.exists_mem_of_ne_nil newDsts ne
    exact List.ne_nil_of_mem ((merged.mem_or_new x).mpr (.inr hx))
  have size : vals.length < 2 ^ 32 := by
    have keys : ∀ x ∈ vals, x < w.graph.numVertices := fun x hx =>
      ((merged.mem x).mp hx).elim (forest.keys src x) (inRange x)
    have := length_le_of_keys (l := vals) (merged.sorted.imp Nat.ne_of_lt) keys
    have := forest.small
    simp only [DynamicGraph.u32Max] at this
    omega
  split
  · rename_i newTree aw built
    obtain ⟨t', F, root, built⟩ := fromSorted_some forest.ok hvals merged.sorted size built
    exact finishRebuild_outcome good hsrc inRange (show _ = Adj.root (some t') from root) ne filter
      shallow (replaced_of_built built merged sorted)
  · rename_i aw failed
    obtain ⟨F, grown⟩ := fromSorted_none forest.ok hvals merged.sorted size failed
    have quiet : Effect True w (w.withArena aw) T T [] :=
      effect_quiet _ T (.withLog w aw w.retireLog) grown.grows fun _ => rfl
    have stamped := quiet.trans trivial (effect_stampRetired True (w.withArena aw) T)
    have good₁ := stamped.good trivial good
    have up : (w.withArena aw).stampRetired.walFailed = w.walFailed := rfl
    have same : (w.withArena aw).stampRetired.graph.treeFor src = w.graph.treeFor src := rfl
    generalize (w.withArena aw).stampRetired = ws at stamped good₁ up same ⊢
    have forest₁ : Forest ws.graph.arena ws.graph.numVertices ws.graph.roots T := good₁.forest
    have nv := stamped.frame.numVertices
    split
    · rename_i newTree aw' built
      obtain ⟨t', F', root, built⟩ := fromSorted_some forest₁.ok hvals merged.sorted size built
      have finished := finishRebuild_outcome good₁ (nv ▸ hsrc) (nv ▸ inRange)
        (show _ = Adj.root (some t') from root) ne filter shallow
        (replaced_of_built built merged sorted)
      rw [same] at finished
      exact stamped.outcome trivial up finished fun r added post => post.of_effect stamped
    · rename_i aw' failed
      obtain ⟨F', grown'⟩ := fromSorted_none forest₁.ok hvals merged.sorted size failed
      have quiet : Effect True ws (ws.withArena aw') T T [] :=
        effect_quiet _ T (.withLog ws aw' ws.retireLog) grown'.grows fun _ => rfl
      exact ⟨T, _, (stamped.trans trivial quiet).weaken fun _ => trivial, rfl, fun _ => up⟩

/-- The batch takes the path-copy strategy and leaves stale entries in the log. -/
def sortedStale (w : Writer) (src : Nat) (dsts : List Nat) : Bool :=
  !dsts.isEmpty && decide (src < w.graph.numVertices) &&
    dsts.all (fun d => decide (d < w.graph.numVertices)) && !w.walRefuses &&
    preferPathCopy (w.graph.degree src) dsts.length && w.pathCopyStale src dsts

theorem insertEdgesSorted_outcome {w : Writer} {T : Nat → Adj} (good : w.Sound T) {src : Nat}
    {dsts : List Nat} (sorted : dsts.Pairwise (· < ·)) (fresh : w.sortedStale src dsts = false) :
    Outcome w T (batchPost T src dsts) (w.insertEdgesSorted src dsts) := by
  unfold insertEdgesSorted
  split
  · exact ⟨T, [], .refl _ w T, ⟨rfl, rfl⟩, fun _ => rfl⟩
  rename_i first rest
  dsimp only
  split
  · exact ⟨T, [], .refl _ w T, rfl, fun _ => rfl⟩
  rename_i hsrc
  have hsrc := Nat.lt_of_not_le hsrc
  split
  · exact ⟨T, [], .refl _ w T, rfl, fun _ => rfl⟩
  rename_i inRange
  have inRange : ∀ d ∈ first :: rest, d < w.graph.numVertices := by
    simpa using List.find?_eq_none.mp inRange
  split
  · exact ⟨T, [], .refl _ w T, rfl, fun _ => rfl⟩
  rename_i up
  have good := good.good (by simpa [walRefuses] using up)
  split
  · rename_i prefers
    refine insertSortedByPathCopy_outcome good hsrc sorted inRange ?_
    have all : (first :: rest).all (fun d => decide (d < w.graph.numVertices)) = true := by
      simpa using inRange
    have chosen : preferPathCopy (w.graph.degree src) (first :: rest).length = true := prefers
    simpa only [sortedStale, hsrc, all, up, chosen, List.isEmpty_cons, Bool.not_false, decide_true,
      Bool.and_true, Bool.true_and] using fresh
  · exact insertSortedByRebuild_outcome good hsrc sorted inRange

/-- Answer of a run of batches: the edges published were asked for, and after an `ok`
all that were asked for are there. -/
def runsPost (T : Nat → Adj) (before : Nat) (runs : List (Nat × List Nat))
    (r : Except InsertError Nat) (added : List (Nat × Nat)) : Prop :=
  (∀ e ∈ added, ∃ run ∈ runs, run.1 = e.1 ∧ e.2 ∈ run.2) ∧
    ∀ k, r = .ok k → k = before + added.length ∧
      ∀ run ∈ runs, ∀ d ∈ run.2, d ∈ (T run.1).elems ∨ (run.1, d) ∈ added

/-- Some batch of the run leaves stale entries in the log. -/
def runsStale (w : Writer) : List (Nat × List Nat) → Bool
  | [] => false
  | (src, dsts) :: runs => w.sortedStale src dsts ||
      match w.insertEdgesSorted src dsts with
      | .done (.ok _) w => w.runsStale runs
      | _ => false

theorem runsPost.cons {s : Prop} {w w' : Writer} {T T' : Nat → Adj} {added : List (Nat × Nat)}
    (h : Effect s w w' T T' added) {src before k : Nat} {dsts : List Nat}
    (first : batchPost T src dsts (.ok k) added) {runs : List (Nat × List Nat)}
    {r : Except InsertError Nat} {added' : List (Nat × Nat)}
    (rest : runsPost T' (before + k) runs r added') :
    runsPost T before ((src, dsts) :: runs) r (added ++ added') := by
  obtain ⟨filter, rfl⟩ := first
  refine ⟨fun e he => ?_, fun k hk => ?_⟩
  · rcases List.mem_append.mp he with he | he
    · obtain ⟨d, hd, rfl⟩ := List.mem_map.mp (filter ▸ he)
      exact ⟨_, List.mem_cons_self, rfl, (List.mem_filter.mp hd).1⟩
    · obtain ⟨run, hrun, hit⟩ := rest.1 e he
      exact ⟨run, List.mem_cons_of_mem _ hrun, hit⟩
  · obtain ⟨count, all⟩ := rest.2 k hk
    refine ⟨by rw [count, List.length_append, Nat.add_assoc], fun run hrun d hd => ?_⟩
    rw [List.mem_append]
    rcases List.mem_cons.mp hrun with rfl | hrun
    · by_cases old : d ∈ (T src).elems
      · exact .inl old
      · refine .inr (.inl ?_)
        rw [filter]
        exact List.mem_map_of_mem (List.mem_filter.mpr ⟨hd, by simpa using old⟩)
    · rcases all run hrun d hd with here | later
      · rcases (h.added.mem_elems run.1 d).mp here with old | new
        · exact .inl old
        · exact .inr (.inl new)
      · exact .inr (.inr later)

theorem insertRuns_outcome {w : Writer} {T : Nat → Adj} (good : w.Sound T)
    (up : w.walFailed = false) {runs : List (Nat × List Nat)}
    (sorted : ∀ run ∈ runs, run.2.Pairwise (· < ·)) (fresh : w.runsStale runs = false)
    (before : Nat) : Outcome w T (runsPost T before runs) (w.insertRuns before runs) := by
  induction runs generalizing w T before with
  | nil =>
      refine ⟨T, [], .refl _ w T, ⟨List.forall_mem_nil _, fun k hk => ?_⟩, fun _ => rfl⟩
      exact ⟨(Except.ok.inj hk).symm, List.forall_mem_nil _⟩
  | cons run runs ih =>
      obtain ⟨src, dsts⟩ := run
      obtain ⟨first, sorted⟩ := List.forall_mem_cons.mp sorted
      simp only [runsStale, Bool.or_eq_false_iff] at fresh
      have outcome := insertEdgesSorted_outcome good first fresh.1
      unfold insertRuns
      cases result : w.insertEdgesSorted src dsts with
      | panic w' =>
          rw [result] at outcome
          exact outcome
      | done r w' =>
          rw [result] at outcome fresh
          obtain ⟨T', added, effect, post, failed⟩ := outcome
          cases r with
          | error e =>
              obtain rfl := post
              exact ⟨T', [], effect, ⟨List.forall_mem_nil _, fun k hk => nomatch hk⟩,
                fun ne => failed fun same => ne (Except.error.inj same ▸ rfl)⟩
          | ok k =>
              have same := failed fun no => nomatch no
              have trusted := same.trans up
              have rest := ih (effect.sound (good.good up)) trusted sorted fresh.2 (before + k)
              exact effect.outcome trusted same rest fun r added' => runsPost.cons effect post

/-- After the write-ahead log has failed, a batch inserts nothing. -/
theorem insertEdgesSorted_refused {w : Writer} (down : w.walFailed = true) (src : Nat)
    (dsts : List Nat) : ∃ r, w.insertEdgesSorted src dsts = .done r w ∧
      ∀ k, r = .ok k → k = 0 ∧ dsts = [] := by
  unfold insertEdgesSorted
  split
  · exact ⟨_, rfl, fun k hk => ⟨(Except.ok.inj hk).symm, rfl⟩⟩
  dsimp only
  split
  · exact ⟨_, rfl, by rintro _ ⟨⟩⟩
  split
  · exact ⟨_, rfl, by rintro _ ⟨⟩⟩
  · rw [if_pos (show w.walRefuses = true from down)]
    exact ⟨_, rfl, by rintro _ ⟨⟩⟩

theorem insertRuns_refused {w : Writer} (down : w.walFailed = true)
    (runs : List (Nat × List Nat)) (before : Nat) : ∃ r, w.insertRuns before runs = .done r w ∧
      ∀ k, r = .ok k → k = before ∧ ∀ run ∈ runs, run.2 = [] := by
  induction runs generalizing before with
  | nil => exact ⟨_, rfl, fun k hk => ⟨(Except.ok.inj hk).symm, List.forall_mem_nil _⟩⟩
  | cons run runs ih =>
      obtain ⟨src, dsts⟩ := run
      obtain ⟨r, result, refused⟩ := insertEdgesSorted_refused down src dsts
      unfold insertRuns
      rw [result]
      cases r with
      | error e => exact ⟨_, rfl, fun k hk => nomatch hk⟩
      | ok k =>
          obtain ⟨rfl, rfl⟩ := refused k rfl
          obtain ⟨r, rest, all⟩ := ih (before + 0)
          refine ⟨r, rest, fun k hk => ?_⟩
          obtain ⟨count, empty⟩ := all k hk
          exact ⟨count, List.forall_mem_cons.mpr ⟨rfl, empty⟩⟩

/-- Answer of `insert_edges` and the edges it published. -/
def edgesPost (T : Nat → Adj) (edges : List (Nat × Nat)) (r : Except InsertError Nat)
    (added : List (Nat × Nat)) : Prop :=
  (∀ e ∈ added, e ∈ edges) ∧
    ∀ k, r = .ok k → k = added.length ∧ ∀ e ∈ edges, e.2 ∈ (T e.1).elems ∨ e ∈ added

/-- Some source of the batch leaves stale entries in the log. -/
def batchStale (w : Writer) (edges : List (Nat × Nat)) : Bool :=
  (edges.find? fun e => decide (w.graph.numVertices ≤ e.1) || decide (w.graph.numVertices ≤ e.2)).isNone
    && w.runsStale (groupRuns edges)

theorem insertEdges_outcome {w : Writer} {T : Nat → Adj} (good : w.Sound T)
    (edges : List (Nat × Nat)) (fresh : w.batchStale edges = false) :
    Outcome w T (edgesPost T edges) (w.insertEdges edges) := by
  unfold insertEdges
  unfold batchStale at fresh
  dsimp only
  split
  · exact ⟨T, [], .refl _ w T, ⟨List.forall_mem_nil _, fun k hk => nomatch hk⟩, fun _ => rfl⟩
  rename_i inRange
  rw [inRange, Option.isNone_none, Bool.true_and] at fresh
  cases up : w.walFailed with
  | false =>
      refine (insertRuns_outcome good up (fun run => groupRuns_sorted) fresh 0).mono
        fun r added post => ⟨fun e he => mem_groupRuns.mpr (post.1 e he), fun k hk => ?_⟩
      obtain ⟨count, all⟩ := post.2 k hk
      refine ⟨by rw [count, Nat.zero_add], fun e he => ?_⟩
      obtain ⟨run, hrun, source, hit⟩ := mem_groupRuns.mp he
      have := all run hrun e.2 hit
      rwa [source] at this
  | true =>
      obtain ⟨r, result, refused⟩ := insertRuns_refused up (groupRuns edges) 0
      rw [result]
      refine ⟨T, [], .refl _ w T, ⟨List.forall_mem_nil _, fun k hk => ?_⟩, fun _ => rfl⟩
      obtain ⟨rfl, empty⟩ := refused k hk
      refine ⟨rfl, fun e he => ?_⟩
      obtain ⟨run, hrun, -, hit⟩ := mem_groupRuns.mp he
      rw [empty run hrun] at hit
      exact absurd hit List.not_mem_nil

end Writer

end AetherGraph
