import AetherGraph.SieveRefinement
import Mathlib.Data.List.Dedup

/-! Runs of a memory tier: every sequence of operations keeps the stored tier and the abstract one
together. -/

namespace AetherGraph

open Foundation

/-- An operation on a tier of rows of `dim` values. -/
inductive SieveOp (α : Type) (dim : Nat) where
  | insert (node : Nat) (features : { xs : List α // xs.length = dim })
  | get (node : Nat)
  | remove (node : Nat)
  | pin (node : Nat)
  | unpin (node : Nat)

/-- The node an operation brings in. -/
def SieveOp.arrival {α : Type} {dim : Nat} : SieveOp α dim → List Nat
  | .insert node _ => [node]
  | _ => []

/-- What an operation returns. -/
inductive SieveOut (α : Type) where
  | inserted (out : SieveCache.InsertOutcome (List α))
  | got (features : Option (List α))
  | removed (resident : Bool)
  | done
  deriving DecidableEq, Repr

variable {α : Type} {dim : Nat}

namespace SieveCache

def pin {Row : Type} (c : SieveCache Row) (node : Nat) : SieveCache Row :=
  { c with pinned := if node ∈ c.pinned then c.pinned else c.pinned ++ [node] }

def unpin {Row : Type} (c : SieveCache Row) (node : Nat) : SieveCache Row :=
  { c with pinned := c.pinned.filter fun n => decide (n ≠ node) }

def step (a : SieveCache (List α)) : SieveOp α dim → SieveOut α × SieveCache (List α)
  | .insert node features =>
      let out := a.insert node features
      (.inserted out.1, out.2)
  | .get node =>
      match a.get node with
      | some (row, a) => (.got (some row), a)
      | none => (.got none, a)
  | .remove node =>
      (.removed (decide (node ∈ a.nodes)), if node ∈ a.nodes then a.remove node else a)
  | .pin node => (.done, a.pin node)
  | .unpin node => (.done, a.unpin node)

theorem step_get (a : SieveCache (List α)) (node : Nat) :
    a.step (.get node : SieveOp α dim) =
      (.got ((a.get node).map Prod.fst), ((a.get node).map Prod.snd).getD a) := by
  rw [SieveCache.step]
  cases a.get node <;> rfl

end SieveCache

namespace LinkedSieve

variable [OfNat α 0]

def step (c : LinkedSieve α) : SieveOp α dim → Option (SieveOut α × LinkedSieve α)
  | .insert node features => (c.insert node features).map fun out => (.inserted out.1, out.2)
  | .get node => (c.get node).map fun out => (.got out.1, out.2)
  | .remove node => (c.remove node).map fun out => (.removed out.1, out.2)
  | .pin node => some (.done, c.pin node)
  | .unpin node => some (.done, c.unpin node)

def run (c : LinkedSieve α) (ops : List (SieveOp α dim)) : Option (LinkedSieve α) :=
  ops.foldlM (fun c op => (c.step op).map Prod.snd) c

variable {c : LinkedSieve α} {a : SieveCache (List α)}
  {queue older newer : List (Nat × SieveEntry (List α))} {p : Nat × SieveEntry (List α)}

omit [OfNat α 0] in
theorem Describes.entries_at (h : Describes c a (older ++ p :: newer)) :
    a.entries = older.map Prod.snd ++ p.2 :: newer.map Prod.snd := by
  rw [h.entries, List.map_append, List.map_cons]

omit [OfNat α 0] in
theorem Describes.mem_nodes (h : Describes c a (older ++ p :: newer)) : p.2.node ∈ a.nodes := by
  rw [SieveCache.nodes, h.entries_at]
  exact List.mem_map_of_mem (by simp)

omit [OfNat α 0] in
/-- A hit returns the row of the node and marks it. -/
theorem Describes.get (h : Describes c a queue) (node : Nat) :
    ∃ c' queue', c.get node = some ((a.get node).map Prod.fst, c') ∧
      Describes c' (((a.get node).map Prod.snd).getD a) queue' ∧ c'.slab.dim = c.slab.dim := by
  have lookup := h.lookup node
  unfold LinkedSieve.get SieveCache.get
  cases found : c.cache.lookup node with
  | none =>
      rw [found] at lookup
      have missing : a.find node = none := by
        rw [← Option.not_isSome_iff_eq_none, SieveCache.find_isSome]
        exact lookup
      rw [missing]
      exact ⟨c, queue, rfl, h, rfl⟩
  | some row =>
      rw [found] at lookup
      obtain ⟨older, p, newer, rfl, rfl, rfl⟩ := lookup
      have marked := h.update true h.placed.sized rfl rfl (h.stored p (by simp)).2 fun _ _ => rfl
      have entries : a.entries.map (SieveCache.setVisited p.2.node true) =
          (older ++ (p.1, ⟨p.2.node, p.2.row, true⟩) :: newer).map Prod.snd := by
        rw [List.map_append, List.map_cons]
        exact SieveCache.map_at h.entries_at h.nodup fun e => { e with visited := true }
      rw [SieveCache.find_at h.entries_at h.nodup, Option.map_some, entries]
      refine ⟨c.marked p.1 true, _, ?_, marked, rfl⟩
      show Option.bind (c.modifyLink p.1 _) _ = _
      rw [modifyLink_eq h.inside]
      show Option.bind (c.slab.row p.1) _ = _
      rw [(h.stored p (by simp)).2]
      rfl

omit [OfNat α 0] in
theorem Describes.withPinned (h : Describes c a queue) (pinned : List Nat) :
    Describes { c with pinned := pinned } { a with pinned := pinned } queue :=
  { h with
    placed := { h.placed with }
    pinned := rfl }

omit [OfNat α 0] in
/-- The hand is on the row of an entry exactly where it is on its node. -/
theorem Describes.hand_iff (h : Describes c a (older ++ p :: newer)) :
    c.hand = p.1 ↔ a.hand = some p.2.node := by
  have mem : keyOf p ∈ (older ++ p :: newer).map keyOf := List.mem_map_of_mem (by simp)
  have proper := h.placed.linked.proper
  rcases h.hand.cases with ⟨row, node⟩ | ⟨before, k, after, split, row, node⟩
  · rw [row, node]
    refine ⟨fun same => absurd (List.mem_map_of_mem mem) (same ▸ proper), nofun⟩
  · have here : k ∈ (older ++ p :: newer).map keyOf := split ▸ by simp
    rw [row, node]
    constructor
    · intro same
      obtain rfl : k = keyOf p := List.inj_on_of_nodup_map h.placed.linked.nodup here mem same
      rfl
    · intro same
      obtain rfl : k = keyOf p :=
        List.inj_on_of_nodup_map h.placed.nodup here mem (Option.some.inj same)
      rfl

omit [OfNat α 0] in
/-- Removing a resident entry. -/
theorem Describes.removeNode (h : Describes c a queue) (node : Nat) :
    ∃ c' queue', c.remove node = some (decide (node ∈ a.nodes), c') ∧
      Describes c' (if node ∈ a.nodes then a.remove node else a) queue' ∧
      c'.slab.dim = c.slab.dim := by
  have lookup := h.lookup node
  unfold LinkedSieve.remove
  cases found : c.cache.lookup node with
  | none =>
      rw [found] at lookup
      rw [if_neg lookup, decide_eq_false lookup]
      exact ⟨c, queue, rfl, h, rfl⟩
  | some row =>
      rw [found] at lookup
      obtain ⟨older, p, newer, rfl, rfl, rfl⟩ := lookup
      rw [if_pos h.mem_nodes, decide_eq_true h.mem_nodes]
      obtain ⟨link, -, -, next⟩ := h.link
      have hand : HandAt (if c.hand = p.1 then (c.linkAt p.1).next else c.hand)
          (if a.hand = some p.2.node then a.nextOf p.2.node else a.hand)
          ((older ++ newer).map keyOf) := by
        rw [next, SieveCache.nextOf_at h.entries_at h.nodup]
        by_cases here : a.hand = some p.2.node
        · rw [if_pos here, if_pos (h.hand_iff.mpr here)]
          exact handAt_around older newer
        · have at_ := h.hand
          rw [List.map_append, List.map_cons] at at_
          rw [if_neg here, if_neg fun same => here (h.hand_iff.mp same), List.map_append]
          exact at_.remove here
      obtain ⟨links, tail, head, ran, left⟩ := h.remove hand (mapRemove c.cache p.2.node)
      have entries : (a.entries.filter fun e => decide (e.node ≠ p.2.node)) =
          (older ++ newer).map Prod.snd := by
        rw [SieveCache.filter_at h.entries_at h.nodup, List.map_append]
      rw [SieveCache.remove, entries]
      refine ⟨_, older ++ newer, ?_, left, rfl⟩
      show Option.bind c.links[p.1]? _ = _
      rw [link]
      show Option.bind (LinkedSieve.unlink _ p.1) _ = _
      rw [show LinkedSieve.unlink _ p.1 = _ from ran]
      rfl

omit [OfNat α 0] in
theorem Describes.evict (h : Describes c a queue) :
    ∃ c' queue', c.evict = some (a.evict.1, c') ∧ Describes c' a.evict.2 queue' ∧
      c'.slab.dim = c.slab.dim ∧ (a.evict.1 = none → queue'.map keyOf = queue.map keyOf) ∧
      (a.evict.1 ≠ none → queue'.length < queue.length) := by
  unfold LinkedSieve.evict SieveCache.evict
  rw [h.length_eq]
  exact h.evictLoop _

/-- Placing a new node at the head of the queue. -/
theorem Describes.pushHead (h : Describes c a queue) {node : Nat} (new : node ∉ a.nodes)
    {features : List α} (fits : features.length = c.slab.dim) (room : a.entries.length < noEntry) :
    ∃ c' queue', c.place node features = some c' ∧ Describes c' (a.pushHead node features) queue' ∧
      c'.slab.dim = c.slab.dim := by
  have length : (queue.map keyOf).length < noEntry := by
    rwa [h.entries, List.length_map, ← List.length_map (f := keyOf)] at room
  obtain ⟨row, c', ran, placed, warm, written, kept, dim, hand, capacity, freq, pinned⟩ :=
    h.placed.place (h.nodes_eq ▸ new) fits length
  let newest : Nat × SieveEntry (List α) := (row, ⟨node, features, decide (node ∈ a.warmup)⟩)
  have keys : (queue ++ [newest]).map keyOf = queue.map keyOf ++ [(row, node)] := by
    rw [List.map_append]
    rfl
  refine ⟨c', queue ++ [newest], ran, ⟨keys ▸ placed, ?_, ?_, fun q hq => ?_,
      h.capacity.trans capacity.symm, h.pinned.trans pinned.symm, fun n => ?_⟩, dim⟩
  · rw [keys, hand]
    exact h.hand.concat _
  · rw [List.map_append, ← h.entries]
    rfl
  · rcases List.mem_append.mp hq with old | new
    · obtain ⟨visited, row⟩ := kept (keyOf q) (List.mem_map_of_mem old)
      exact ⟨visited.trans (h.stored q old).1, row.trans (h.stored q old).2⟩
    · obtain rfl := List.mem_singleton.mp new
      refine ⟨warm.trans ?_, written⟩
      rw [Bool.eq_iff_iff, decide_eq_true_eq, h.warmup]
  · unfold LinkedSieve.warm
    rw [freq]
    exact h.warmup n

omit [OfNat α 0] in
theorem Describes.parked (h : Describes c a queue) : a.Parked := by
  intro node hand
  rcases h.hand.cases with ⟨-, empty⟩ | ⟨before, k, after, split, -, here⟩
  · exact absurd (empty.symm.trans hand) nofun
  · obtain rfl := Option.some.inj (here.symm.trans hand)
    rw [h.nodes_eq, split]
    exact List.mem_map_of_mem (by simp)

omit [OfNat α 0] in
theorem Describes.length_le (h : Describes c a queue) : queue.length ≤ noEntry := by
  have length := h.placed.length
  have rows := h.placed.rows
  rw [List.length_map] at length
  omega

omit [OfNat α 0] in
/-- Two queues of the same keys and entries are one. -/
theorem queue_ext {queue' : List (Nat × SieveEntry (List α))}
    (keys : queue'.map keyOf = queue.map keyOf)
    (entries : queue'.map Prod.snd = queue.map Prod.snd) : queue' = queue := by
  have rows := congrArg (List.map Prod.fst) keys
  rw [List.map_map, List.map_map] at rows
  have zipped : ∀ q : List (Nat × SieveEntry (List α)),
      (q.map (Prod.fst ∘ keyOf)).zip (q.map Prod.snd) = q := fun q => by
    rw [List.zip_map']
    exact List.map_id' q
  rw [← zipped queue', rows, entries, zipped]

/-- An insert of a row of the tier's width; a new node below capacity has a row to take. -/
theorem Describes.insert (h : Describes c a queue) (node : Nat) {features : List α}
    (fits : features.length = c.slab.dim)
    (room : node ∉ a.nodes → a.entries.length < a.capacity → a.entries.length < noEntry) :
    ∃ c' queue', c.insert node features = some ((a.insert node features).1, c') ∧
      Describes c' (a.insert node features).2 queue' ∧ c'.slab.dim = c.slab.dim ∧
      ((a.insert node features).1 = .refused → queue' = queue) := by
  have lookup := h.lookup node
  unfold LinkedSieve.insert SieveCache.insert
  cases found : c.cache.lookup node with
  | some row =>
      rw [found] at lookup
      obtain ⟨older, p, newer, rfl, rfl, rfl⟩ := lookup
      obtain ⟨slab, copied, sized, here, others, rows, free, dim⟩ :=
        h.placed.sized.copyRow (h.placed.links ▸ h.inside) fits
      have written := h.update true sized rows free here others
      have entries : (a.entries.map fun e => if e.node = p.2.node then
          { e with row := features, visited := true } else e) =
          (older ++ (p.1, ⟨p.2.node, features, true⟩) :: newer).map Prod.snd := by
        rw [List.map_append, List.map_cons]
        exact SieveCache.map_at h.entries_at h.nodup fun e =>
          { e with row := features, visited := true }
      rw [SieveCache.find_at h.entries_at h.nodup, Option.isSome_some, if_pos rfl, entries]
      refine ⟨_, _, ?_, written, dim, nofun⟩
      show Option.bind (c.modifyLink p.1 _) _ = _
      rw [modifyLink_eq h.inside]
      show Option.bind (c.slab.copyRow p.1 features) _ = _
      rw [copied]
      rfl
  | none =>
      rw [found] at lookup
      have missing : ¬ (a.find node).isSome = true := SieveCache.find_isSome.not.mpr lookup
      rw [if_neg missing]
      dsimp only
      rw [h.length_eq, ← h.capacity]
      by_cases full : a.capacity ≤ a.entries.length
      · rw [if_pos full, if_pos full]
        obtain ⟨c₁, queue₁, ran, left, dim, kept, less⟩ := h.evict
        have sub := SieveCache.evict_nodes h.nodup h.parked
        have same := SieveCache.evict_none h.nodup h.parked
        rw [ran]
        generalize a.evict = evicted at left kept less sub same ⊢
        obtain ⟨out, a₁⟩ := evicted
        cases out with
        | none =>
            refine ⟨c₁, queue₁, rfl, left, dim, fun _ => ?_⟩
            exact queue_ext (kept rfl) (left.entries.symm.trans ((same rfl).trans h.entries))
        | some victim =>
            have shorter := less nofun
            have room₁ : a₁.entries.length < noEntry := by
              have length := congrArg List.length left.entries
              have limit := h.length_le
              rw [List.length_map] at length
              dsimp only at length
              omega
            obtain ⟨c', queue', placed, described, dim'⟩ :=
              left.pushHead (fun mem => lookup (sub.subset mem)) (fits.trans dim.symm) room₁
            refine ⟨c', queue', ?_, described, dim'.trans dim, nofun⟩
            show Option.bind (c₁.place node features) _ = _
            rw [placed]
            rfl
      · rw [if_neg full, if_neg full]
        obtain ⟨c', queue', ran, described, dim⟩ :=
          h.pushHead lookup fits (room lookup (Nat.lt_of_not_le full))
        refine ⟨c', queue', ?_, described, dim, nofun⟩
        rw [ran]
        rfl

/-- An operation on the stored tier is the one on the abstract tier. -/
theorem Describes.step (h : Describes c a queue) (width : c.slab.dim = dim) (op : SieveOp α dim)
    (room : ∀ node ∈ op.arrival, node ∉ a.nodes → a.entries.length < a.capacity →
      a.entries.length < noEntry) :
    ∃ c' queue', c.step op = some ((a.step op).1, c') ∧ Describes c' (a.step op).2 queue' ∧
      c'.slab.dim = dim := by
  cases op with
  | insert node features =>
      obtain ⟨c', queue', ran, described, kept, -⟩ :=
        h.insert node (features.2.trans width.symm) (room node (List.mem_singleton_self node))
      refine ⟨c', queue', ?_, described, kept.trans width⟩
      rw [LinkedSieve.step, ran]
      rfl
  | get node =>
      obtain ⟨c', queue', ran, described, kept⟩ := h.get node
      rw [SieveCache.step_get]
      refine ⟨c', queue', ?_, described, kept.trans width⟩
      rw [LinkedSieve.step, ran]
      rfl
  | remove node =>
      obtain ⟨c', queue', ran, described, kept⟩ := h.removeNode node
      refine ⟨c', queue', ?_, described, kept.trans width⟩
      rw [LinkedSieve.step, ran]
      rfl
  | pin node =>
      refine ⟨c.pin node, queue, rfl, ?_, width⟩
      have pinned := h.withPinned (c.pin node).pinned
      rw [SieveCache.step, SieveCache.pin, h.pinned]
      exact pinned
  | unpin node =>
      refine ⟨c.unpin node, queue, rfl, ?_, width⟩
      have pinned := h.withPinned (c.unpin node).pinned
      rw [SieveCache.step, SieveCache.unpin, h.pinned]
      exact pinned

/-- The nodes with a positive warmup frequency. -/
def warmNodes (freq : List (Nat × Nat)) : List Nat :=
  (freq.map Prod.fst).filter fun n => (freq.lookup n).any (0 < ·)

omit [OfNat α 0] in
theorem describes_new (capacity dim : Nat) (freq : List (Nat × Nat)) :
    Describes (LinkedSieve.new capacity dim freq : LinkedSieve α)
      (SieveCache.new capacity (warmNodes freq) []) [] where
  placed := {
    nodup := List.nodup_nil
    nodes := fun _ h => absurd h List.not_mem_nil
    map := List.Perm.refl _
    linked := linked_empty ..
    slots := List.Perm.refl _
    links := rfl
    sized := RowSlab.sized_new dim
    rows := Nat.zero_le _ }
  hand := ⟨0, rfl, rfl⟩
  entries := rfl
  stored := fun _ h => absurd h List.not_mem_nil
  capacity := rfl
  pinned := rfl
  warmup := fun node => by
    refine ⟨fun h => (List.mem_filter.mp h).2, fun h => List.mem_filter.mpr ⟨?_, h⟩⟩
    change (freq.lookup node).any _ = true at h
    cases found : freq.lookup node with
    | none =>
        rw [found] at h
        cases h
    | some f =>
        obtain ⟨before, after, same, -⟩ := List.lookup_eq_some_iff.mp found
        rw [same]
        exact List.mem_map.mpr ⟨(node, f), by simp, rfl⟩

end LinkedSieve

namespace SieveCache

/-- The node an operation places as the newest entry, or is refused. -/
def arrival (a : SieveCache (List α)) (op : SieveOp α dim) : List Nat :=
  op.arrival.filter fun node => decide (node ∉ a.nodes)

def arrivals (a : SieveCache (List α)) : List (SieveOp α dim) → List Nat
  | [] => []
  | op :: ops => a.arrival op ++ (a.step op).2.arrivals ops

def run (a : SieveCache (List α)) (ops : List (SieveOp α dim)) : SieveCache (List α) :=
  ops.foldl (fun a op => (a.step op).2) a

variable {a : SieveCache (List α)} {arrived : List Nat}

/-- Within capacity, with the nodes in the order of their last arrivals. -/
structure Within (arrived : List Nat) (a : SieveCache (List α)) : Prop where
  small : a.entries.length ≤ a.capacity
  order : a.nodes.Sublist arrived.dedup

/-- A node that arrives goes behind the others. -/
theorem sublist_dedup_concat {nodes : List Nat} (order : nodes.Sublist arrived.dedup) {node : Nat}
    (new : node ∉ nodes) : (nodes ++ [node]).Sublist (arrived ++ [node]).dedup := by
  induction arrived generalizing nodes with
  | nil =>
      obtain rfl := List.sublist_nil.mp order
      exact List.Sublist.refl _
  | cons first arrived ih =>
      by_cases again : first ∈ arrived
      · rw [List.dedup_cons_of_mem again] at order
        rw [List.cons_append, List.dedup_cons_of_mem (List.mem_append_left _ again)]
        exact ih order new
      · rw [List.dedup_cons_of_notMem again] at order
        by_cases same : first = node
        · subst same
          rw [List.cons_append, List.dedup_cons_of_mem (by simp)]
          refine ih ?_ new
          rcases List.sublist_cons_iff.mp order with later | ⟨rest, rfl, -⟩
          · exact later
          · exact absurd List.mem_cons_self new
        · rw [List.cons_append, List.dedup_cons_of_notMem (by simp [again, same])]
          rcases List.sublist_cons_iff.mp order with later | ⟨rest, rfl, later⟩
          · exact (ih later new).cons first
          · exact (ih later fun mem => new (List.mem_cons_of_mem first mem)).cons_cons first

theorem pushHead_nodes (a : SieveCache (List α)) (node : Nat) (features : List α) :
    (a.pushHead node features).nodes = a.nodes ++ [node] := by
  simp [nodes, pushHead]

theorem Within.pushHead (h : Within arrived a) (room : a.entries.length < a.capacity) {node : Nat}
    (new : node ∉ a.nodes) (features : List α) :
    Within (arrived ++ [node]) (a.pushHead node features) := by
  refine ⟨?_, ?_⟩
  · rw [SieveCache.pushHead, List.length_append]
    exact room
  · rw [pushHead_nodes]
    exact sublist_dedup_concat h.order new

theorem Within.insert (h : Within arrived a) (parked : a.Parked) (node : Nat)
    (features : { xs : List α // xs.length = dim }) :
    Within (arrived ++ a.arrival (.insert node features)) (a.insert node features).2 ∧
      (a.insert node features).2.capacity = a.capacity := by
  have nodup : a.nodes.Nodup := h.order.nodup (List.nodup_dedup arrived)
  unfold SieveCache.insert
  by_cases resident : (a.find node).isSome = true
  · have stays : a.arrival (.insert node features) = [] := by
      have here : node ∈ a.nodes := find_isSome.mp resident
      rw [arrival, SieveOp.arrival, List.filter_cons_of_neg (by simpa using here), List.filter_nil]
    rw [if_pos resident, stays, List.append_nil]
    refine ⟨⟨?_, ?_⟩, rfl⟩
    · rw [List.length_map]
      exact h.small
    · have same : (a.entries.map fun e => if e.node = node then
          { e with row := features.1, visited := true } else e).map SieveEntry.node = a.nodes := by
        rw [List.map_map]
        refine List.map_congr_left fun e _ => ?_
        show (if _ then _ else _ : SieveEntry (List α)).node = _
        split <;> rfl
      show (List.map SieveEntry.node (List.map _ _)).Sublist _
      rw [same]
      exact h.order
  · have new : node ∉ a.nodes := find_isSome.not.mp resident
    have arrives : a.arrival (.insert node features) = [node] := by
      rw [arrival, SieveOp.arrival, List.filter_cons_of_pos (by simpa using new), List.filter_nil]
    rw [if_neg resident, arrives]
    by_cases full : a.capacity ≤ a.entries.length
    · rw [if_pos full]
      have sub := evict_nodes nodup parked
      have less := evict_length nodup parked
      have same := evict_none nodup parked
      have capacity : a.evict.2.capacity = a.capacity := (evictLoop_frame _ a).1
      generalize a.evict = evicted at sub less same capacity ⊢
      obtain ⟨out, a₁⟩ := evicted
      dsimp only at sub less same capacity
      have left : a₁.nodes.Sublist arrived.dedup := sub.trans h.order
      have gone : node ∉ a₁.nodes := fun mem => new (sub.subset mem)
      cases out with
      | none =>
          refine ⟨⟨?_, (List.sublist_append_left _ _).trans (sublist_dedup_concat left gone)⟩,
            capacity⟩
          dsimp only
          rw [same rfl, capacity]
          exact h.small
      | some victim =>
          have small := h.small
          have shorter := less nofun
          have within : Within arrived a₁ := ⟨by omega, left⟩
          exact ⟨within.pushHead (by omega) gone features, capacity⟩
    · rw [if_neg full]
      exact ⟨h.pushHead (Nat.lt_of_not_le full) new features, rfl⟩

theorem Within.step (h : Within arrived a) (parked : a.Parked) (op : SieveOp α dim) :
    Within (arrived ++ a.arrival op) (a.step op).2 ∧ (a.step op).2.capacity = a.capacity := by
  cases op with
  | insert node features => exact h.insert parked node features
  | get node =>
      show Within (arrived ++ []) (a.step _).2 ∧ _
      rw [step_get, List.append_nil]
      cases found : a.find node with
      | none =>
          rw [SieveCache.get, found]
          exact ⟨h, rfl⟩
      | some e =>
          rw [SieveCache.get, found]
          refine ⟨⟨?_, ?_⟩, rfl⟩
          · show (a.entries.map _).length ≤ a.capacity
            rw [List.length_map]
            exact h.small
          · exact (nodes_mark a a.hand node true).symm ▸ h.order
  | remove node =>
      show Within (arrived ++ []) (if node ∈ a.nodes then a.remove node else a) ∧
        (if node ∈ a.nodes then a.remove node else a).capacity = _
      rw [List.append_nil]
      split
      · refine ⟨⟨?_, ?_⟩, rfl⟩
        · exact Nat.le_trans (List.length_filter_le _ _) h.small
        · exact (List.filter_sublist.map SieveEntry.node).trans h.order
      · exact ⟨h, rfl⟩
  | pin node => exact ⟨⟨h.small, (List.append_nil arrived).symm ▸ h.order⟩, rfl⟩
  | unpin node => exact ⟨⟨h.small, (List.append_nil arrived).symm ▸ h.order⟩, rfl⟩

/-- The rows of a slab are enough for the entries where the capacity is, or where the last node id
never arrives. -/
def Fits (capacity : Nat) (arriving : List Nat) : Prop :=
  capacity < 2 ^ 32 ∨ ∀ node ∈ arriving, node < noEntry

/-- A node that arrives below the capacity finds a row. -/
theorem Within.room (h : Within arrived a) {known : List Nat} (earlier : arrived ⊆ known)
    (fits : Fits a.capacity known) {node : Nat} (arrives : node ∈ known) (new : node ∉ a.nodes)
    (below : a.entries.length < a.capacity) : a.entries.length < noEntry := by
  rcases fits with small | ids
  · unfold noEntry
    omega
  · -- the resident nodes and the new one are distinct ids below the last
    have nodup : (node :: a.nodes).Nodup :=
      List.nodup_cons.mpr ⟨new, h.order.nodup (List.nodup_dedup arrived)⟩
    have sub : node :: a.nodes ⊆ List.range noEntry := by
      intro n hn
      rw [List.mem_range]
      rcases List.mem_cons.mp hn with rfl | old
      · exact ids n arrives
      · exact ids n (earlier (List.mem_dedup.mp (h.order.subset old)))
    have length := (List.subperm_of_subset nodup sub).length_le
    rw [List.length_cons, nodes, List.length_map, List.length_range] at length
    exact length

end SieveCache

namespace LinkedSieve

open SieveCache (Within Fits)

variable [OfNat α 0] {c : LinkedSieve α} {a : SieveCache (List α)}
  {queue : List (Nat × SieveEntry (List α))} {arrived : List Nat}

/-- The nodes that operations bring in. -/
def arriving (ops : List (SieveOp α dim)) : List Nat := ops.flatMap SieveOp.arrival

/-- A run of the stored tier is the run of the abstract one. -/
theorem Describes.run (h : Describes c a queue) (within : Within arrived a)
    (width : c.slab.dim = dim) {ops : List (SieveOp α dim)}
    (fits : Fits a.capacity (arrived ++ arriving ops)) :
    ∃ c' queue', c.run ops = some c' ∧ Describes c' (a.run ops) queue' ∧
      Within (arrived ++ a.arrivals ops) (a.run ops) ∧ (a.run ops).capacity = a.capacity ∧
      c'.slab.dim = dim := by
  induction ops generalizing c a queue arrived with
  | nil => exact ⟨c, queue, rfl, h, (List.append_nil arrived).symm ▸ within, rfl, width⟩
  | cons op ops ih =>
      have room : ∀ node ∈ op.arrival, node ∉ a.nodes → a.entries.length < a.capacity →
          a.entries.length < noEntry := fun node arrives =>
        within.room (List.subset_append_left _ _) fits
          (List.mem_append_right _ (List.mem_append_left _ arrives))
      obtain ⟨c₁, queue₁, ran, described, width₁⟩ := h.step width op room
      obtain ⟨within₁, capacity⟩ := within.step h.parked op
      have fits₁ : Fits (a.step op).2.capacity (arrived ++ a.arrival op ++ arriving ops) := by
        rw [capacity]
        refine fits.imp_right fun ids node mem => ids node ?_
        simp only [List.mem_append, arriving, List.flatMap_cons] at mem ⊢
        rcases mem with (old | here) | later
        · exact .inl old
        · exact .inr (.inl (List.mem_of_mem_filter here))
        · exact .inr (.inr later)
      obtain ⟨c', queue', ran', described', within', capacity', width'⟩ :=
        ih described within₁ width₁ fits₁
      refine ⟨c', queue', ?_, described', ?_, capacity'.trans capacity, width'⟩
      · rw [LinkedSieve.run, List.foldlM_cons]
        show Option.bind ((c.step op).map Prod.snd) _ = _
        rw [ran]
        exact ran'
      · rw [SieveCache.arrivals, ← List.append_assoc]
        exact within'

open SieveCache (InsertOutcome mark)

/-- An insert of a new node into a full tier: `queue` is what it had and `queue'` what it has. -/
structure Replaces (a : SieveCache (List α)) (queue : List (Nat × SieveEntry (List α)))
    (node : Nat) (features : List α) (out : InsertOutcome (List α))
    (queue' : List (Nat × SieveEntry (List α))) : Prop where
  refused : out = .refused ↔ ∀ e ∈ a.entries, e.node ∈ a.pinned
  unchanged : out = .refused → queue' = queue
  evicts : out ≠ .refused → ∃ v, a.victim = some v ∧ out = .storedEvicting v.node v.row ∧
    queue'.map Prod.snd =
      ((a.entries.map (mark a.pinned a.passed)).filter fun e => decide (e.node ≠ v.node)) ++
        [⟨node, features, decide (node ∈ a.warmup)⟩]

theorem Describes.replaces (h : Describes c a queue) {node : Nat} (new : node ∉ a.nodes)
    (full : a.capacity ≤ a.entries.length) {features : List α}
    (fits : features.length = c.slab.dim) :
    ∃ out c' queue', c.insert node features = some (out, c') ∧
      Describes c' (a.insert node features).2 queue' ∧
      Replaces a queue node features out queue' := by
  have nodup : a.nodes.Nodup := h.nodup
  obtain ⟨c', queue', ran, described, -, kept⟩ :=
    h.insert node fits fun _ below => absurd full (Nat.not_le_of_lt below)
  have full := SieveCache.insert_full nodup h.parked new full features
  refine ⟨_, c', queue', ran, described, ?_, kept, fun stored => ?_⟩
  · rw [← SieveCache.victim_eq_none_iff h.parked]
    rcases full with ⟨none, refused⟩ | ⟨v, found, stored, -⟩
    · exact iff_of_true refused none
    · rw [stored, found]
      exact iff_of_false nofun nofun
  · rw [← described.entries]
    rcases full with ⟨-, refused⟩ | ⟨v, found, evicted, entries⟩
    · exact absurd refused stored
    · exact ⟨v, found, evicted, entries⟩

end LinkedSieve

open LinkedSieve SieveCache in
/-- The tier as stored over any run: the map, the slab and the links hold one queue, the one of
the policy, and a full tier evicts what a walk from the hand finds first. -/
theorem sieve_represents [OfNat α 0] (capacity dim : Nat) (warmupFreq : List (Nat × Nat))
    (ops : List (SieveOp α dim)) (fits : Fits capacity (arriving ops)) :
    ∃ c a queue, (LinkedSieve.new capacity dim warmupFreq).run ops = some c ∧
      (SieveCache.new capacity (warmNodes warmupFreq) []).run ops = a ∧
      Describes c a queue ∧ c.cache.length ≤ capacity ∧
      a.nodes.Sublist
        ((SieveCache.new capacity (warmNodes warmupFreq) []).arrivals ops).dedup ∧
      walk noEntry c.nextOf c.cache.length c.tail = queue.map Prod.fst ∧
      walk noEntry c.prevOf c.cache.length c.head = (queue.map Prod.fst).reverse ∧
      ∀ (node : Nat) (features : { xs : List α // xs.length = dim }), node ∉ a.nodes →
        capacity ≤ c.cache.length → ∃ out c' queue', c.insert node features = some (out, c') ∧
          Describes c' (a.insert node features).2 queue' ∧
          Replaces a queue node features out queue' := by
  have start :
      Within [] (SieveCache.new capacity (warmNodes warmupFreq) [] : SieveCache (List α)) :=
    ⟨Nat.zero_le _, List.Sublist.refl _⟩
  obtain ⟨c, queue, ran, described, within, same, width⟩ :=
    (describes_new capacity dim warmupFreq).run start rfl fits
  have length : c.cache.length = (queue.map Prod.fst).length := by
    rw [described.length_eq, described.entries, List.length_map, List.length_map]
  have linked := described.placed.linked
  rw [List.map_map] at linked
  refine ⟨c, _, queue, ran, rfl, described, ?_, within.order, linked.forward length.ge,
    linked.backward length.ge, fun node features new full => ?_⟩
  · rw [described.length_eq]
    exact within.small.trans same.le
  · refine described.replaces new ?_ (features.2.trans width.symm)
    rw [same, ← described.length_eq]
    exact full

/-- Two entries, the older one read and the newer one pinned. -/
def pinnedAndRead : List (SieveOp Nat 1) :=
  [.insert 1 ⟨[10], rfl⟩, .insert 2 ⟨[20], rfl⟩, .get 1, .pin 2]

open LinkedSieve SieveCache in
theorem sieve_represents_pinned : ∃ c a queue,
    (LinkedSieve.new 2 1 []).run pinnedAndRead = some c ∧ Describes c a queue ∧
      ∃ c' queue', c.insert 3 [30] = some (.storedEvicting 1 [10], c') ∧
        Describes c' (a.insert 3 [30]).2 queue' ∧
        queue'.map (fun p => p.2.node) = [2, 3] := by
  obtain ⟨c, a, queue, ran, rfl, described, -, -, -, -, inserts⟩ :=
    sieve_represents 2 1 [] pinnedAndRead (.inl (by decide))
  have full : 2 ≤ c.cache.length := by
    rw [described.length_eq]
    decide
  obtain ⟨out, c', queue', inserted, described', replaced⟩ :=
    inserts 3 ⟨[30], rfl⟩ (by decide) full
  have stored : out ≠ .refused := fun refused =>
    absurd (replaced.refused.mp refused) (by decide)
  obtain ⟨v, found, rfl, entries⟩ := replaced.evicts stored
  obtain rfl : (⟨1, [10], false⟩ : SieveEntry (List Nat)) = v := Option.some.inj found
  have nodes := congrArg (List.map SieveEntry.node) entries
  rw [List.map_map] at nodes
  exact ⟨c, _, queue, ran, described, c', queue', inserted, described', nodes⟩

/-- Node after node. -/
def flood (n : Nat) : List (SieveOp Nat 1) :=
  (List.range n).map fun node => .insert node ⟨[0], rfl⟩

theorem flood_succ (n : Nat) : flood (n + 1) = flood n ++ [.insert n ⟨[0], rfl⟩] := by
  rw [flood, List.range_succ, List.map_append]
  rfl

theorem flood_nodes {capacity n : Nat} (inside : n ≤ capacity) :
    ((SieveCache.new capacity [] []).run (flood n)).nodes = List.range n ∧
      ((SieveCache.new capacity [] []).run (flood n)).capacity = capacity := by
  induction n with
  | zero => exact ⟨rfl, rfl⟩
  | succ n ih =>
      obtain ⟨nodes, same⟩ := ih (Nat.le_of_succ_le inside)
      have last : (SieveCache.new capacity [] []).run (flood (n + 1)) =
          (((SieveCache.new capacity [] []).run (flood n)).insert n [0]).2 := by
        rw [flood_succ, SieveCache.run, List.foldl_append]
        rfl
      rw [last]
      generalize (SieveCache.new capacity [] []).run (flood n) = a at nodes same
      have new : ¬ (a.find n).isSome = true := by
        rw [SieveCache.find_isSome, nodes]
        exact List.not_mem_range_self
      have length := congrArg List.length nodes
      rw [SieveCache.nodes, List.length_map, List.length_range] at length
      rw [SieveCache.insert, if_neg new, if_neg (by omega)]
      exact ⟨by rw [SieveCache.pushHead_nodes, nodes, List.range_succ], same⟩

namespace LinkedSieve

theorem modifyLink_cache {c c' : LinkedSieve α} {r : Nat} {f : Link → Link}
    (ran : c.modifyLink r f = some c') : c'.cache = c.cache := by
  unfold modifyLink at ran
  split at ran
  · cases ran
    rfl
  · cases ran

theorem pushHead_head {c c' : LinkedSieve α} {r : Nat} (ran : c.pushHead r = some c') :
    c'.head = r ∧ c'.cache = c.cache := by
  obtain ⟨c₁, filled, ran⟩ := Option.bind_eq_some_iff.mp ran
  obtain ⟨c₂, led, ran⟩ := Option.bind_eq_some_iff.mp ran
  cases ran
  refine ⟨rfl, Eq.trans ?_ (modifyLink_cache filled)⟩
  show c₂.cache = c₁.cache
  unfold setNext at led
  split at led
  · exact modifyLink_cache led
  · cases led
    rfl

/-- A slab of all the rows there are hands out the row that stands for no entry. -/
theorem place_last [OfNat α 0] {c c' : LinkedSieve α} {node : Nat} {features : List α}
    (free : c.slab.free = []) (rows : c.slab.rows = noEntry)
    (ran : c.place node features = some c') :
    c'.head = noEntry ∧ c'.cache = mapInsert c.cache node noEntry := by
  have out : c.slab.alloc.1 = noEntry := by
    rw [RowSlab.alloc, free]
    exact rows
  obtain ⟨slab, -, ran⟩ := Option.bind_eq_some_iff.mp ran
  obtain ⟨c₁, filled, ran⟩ := Option.bind_eq_some_iff.mp ran
  obtain ⟨c₂, pushed, ran⟩ := Option.bind_eq_some_iff.mp ran
  obtain ⟨head, cache⟩ := pushHead_head pushed
  have same := modifyLink_cache filled
  cases ran
  refine ⟨head.trans out, ?_⟩
  show mapInsert c₂.cache node c.slab.alloc.1 = _
  rw [cache, same, out]

end LinkedSieve

open LinkedSieve SieveCache in
/-- Where every id is inserted, the row of the last one ends the queue before it begins. -/
theorem sieve_full_slab : ¬ ∃ c, (LinkedSieve.new (2 ^ 32) 1 []).run (flood (2 ^ 32)) = some c ∧
    (walk noEntry c.prevOf c.cache.length c.head).Perm (c.cache.map Prod.snd) := by
  rintro ⟨c', ran, visits⟩
  have ids : ∀ node ∈ arriving (flood noEntry), node < noEntry := by
    intro node mem
    obtain ⟨op, inside, arrives⟩ := List.mem_flatMap.mp mem
    obtain ⟨n, below, rfl⟩ := List.mem_map.mp inside
    obtain rfl := List.mem_singleton.mp arrives
    exact List.mem_range.mp below
  obtain ⟨c, a, queue, before, abstract, described, -⟩ :=
    sieve_represents (2 ^ 32) 1 [] (flood noEntry) (.inr ids)
  obtain ⟨nodes, capacity⟩ := flood_nodes (show noEntry ≤ 2 ^ 32 by decide)
  rw [show SieveCache.new (2 ^ 32) [] [] = SieveCache.new (2 ^ 32) (warmNodes []) [] from rfl,
    abstract] at nodes capacity
  -- one row for each entry is every row, and none is free
  have entries : a.entries.length = noEntry := by
    rw [← List.length_map SieveEntry.node, ← SieveCache.nodes, nodes, List.length_range]
  have length := described.placed.length
  have limit := described.placed.rows
  rw [List.length_map, ← List.length_map Prod.snd, ← described.entries, entries] at length
  have free : c.slab.free = [] := List.length_eq_zero_iff.mp (by omega)
  have rows : c.slab.rows = noEntry := by omega
  have missing : c.cache.lookup noEntry = none := by
    have lookup := described.lookup noEntry
    cases found : c.cache.lookup noEntry with
    | none => rfl
    | some row =>
        rw [found] at lookup
        obtain ⟨older, p, newer, rfl, -, node⟩ := lookup
        have mem := described.mem_nodes
        rw [node, nodes] at mem
        exact absurd mem List.not_mem_range_self
  have small : ¬ c.capacity ≤ c.cache.length := by
    rw [← described.capacity, capacity, described.length_eq, entries]
    decide
  rw [show 2 ^ 32 = noEntry + 1 from by decide, flood_succ, LinkedSieve.run,
    List.foldlM_append] at ran
  obtain ⟨c₀, ran₀, ran⟩ := Option.bind_eq_some_iff.mp ran
  obtain rfl : c = c₀ := Option.some.inj (before.symm.trans ran₀)
  obtain ⟨c₁, stepped, ran⟩ := Option.bind_eq_some_iff.mp ran
  cases ran
  change ((c.insert noEntry [0]).map fun out => (SieveOut.inserted out.1, out.2)).map Prod.snd = _
    at stepped
  rw [Option.map_map] at stepped
  obtain ⟨⟨out, c₂⟩, inserted, rfl⟩ := Option.map_eq_some_iff.mp stepped
  unfold LinkedSieve.insert at inserted
  rw [missing] at inserted
  dsimp only at inserted
  rw [if_neg small] at inserted
  obtain ⟨c₃, placed, same⟩ := Option.bind_eq_some_iff.mp inserted
  cases same
  obtain ⟨head, cache⟩ := place_last free rows placed
  -- the walk from the head stops before its first entry
  dsimp only [Function.comp_apply] at visits
  rw [head, cache, walk_nil] at visits
  exact absurd visits.length_eq (by simp [mapInsert])

end AetherGraph
