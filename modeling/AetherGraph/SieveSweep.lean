import AetherGraph.SieveCache
import Mathlib.Data.List.TakeWhile

/-! Which entry SIEVE evicts: the first unpinned one with a clear bit on a walk from the hand
towards newer entries, twice around, where the second round meets the bits the first one left. -/

namespace AetherGraph

namespace SieveCache

variable {Row : Type}

def evictable (pinned : List Nat) (e : SieveEntry Row) : Bool :=
  decide (e.node ∉ pinned) && !e.visited

/-- What the hand leaves of an entry it passes. -/
def passedBy (pinned : List Nat) (e : SieveEntry Row) : SieveEntry Row :=
  if e.node ∈ pinned then e else { e with visited := false }

/-- The entries from the hand towards the newest, then from the oldest up to the hand. -/
def fromHand (c : SieveCache Row) : List (SieveEntry Row) :=
  match c.hand with
  | none => c.entries
  | some node => (c.entries.dropWhile fun e => decide (e.node ≠ node)) ++
      c.entries.takeWhile fun e => decide (e.node ≠ node)

/-- Two rounds from the hand. -/
def sweep (c : SieveCache Row) : List (SieveEntry Row) :=
  c.fromHand ++ c.fromHand.map (passedBy c.pinned)

def victim (c : SieveCache Row) : Option (SieveEntry Row) := c.sweep.find? (evictable c.pinned)

/-- The entries the hand passes before the victim. -/
def passed (c : SieveCache Row) : List (SieveEntry Row) :=
  c.sweep.takeWhile fun e => !evictable c.pinned e

def mark (pinned : List Nat) (passed : List (SieveEntry Row)) (e : SieveEntry Row) :
    SieveEntry Row :=
  if e.node ∈ passed.map SieveEntry.node then passedBy pinned e else e

@[simp] theorem passedBy_node (pinned : List Nat) (e : SieveEntry Row) :
    (passedBy pinned e).node = e.node := by
  unfold passedBy
  split <;> rfl

@[simp] theorem passedBy_passedBy (pinned : List Nat) (e : SieveEntry Row) :
    passedBy pinned (passedBy pinned e) = passedBy pinned e := by
  unfold passedBy
  by_cases known : e.node ∈ pinned
  · rw [if_pos known, if_pos known]
  · rw [if_neg known, if_neg known]

@[simp] theorem mark_node (pinned : List Nat) (passed : List (SieveEntry Row))
    (e : SieveEntry Row) : (mark pinned passed e).node = e.node := by
  unfold mark
  split <;> simp

variable {c : SieveCache Row} {older newer : List (SieveEntry Row)} {x : SieveEntry Row}

/-- The entries around one, each of another node. -/
theorem apart_of_nodup (entries : c.entries = older ++ x :: newer) (nodup : c.nodes.Nodup) :
    (∀ e ∈ older, e.node ≠ x.node) ∧ ∀ e ∈ newer, e.node ≠ x.node := by
  rw [nodes, entries, List.map_append, List.map_cons] at nodup
  obtain ⟨-, later, before⟩ := List.nodup_append.mp nodup
  refine ⟨fun e he => before _ (List.mem_map_of_mem he) _ List.mem_cons_self, fun e he same => ?_⟩
  exact (List.nodup_cons.mp later).1 (same ▸ List.mem_map_of_mem he)

theorem find_at (entries : c.entries = older ++ x :: newer) (nodup : c.nodes.Nodup) :
    c.find x.node = some x := by
  obtain ⟨before, -⟩ := apart_of_nodup entries nodup
  have none : older.find? (fun e => decide (e.node = x.node)) = none :=
    List.find?_eq_none.mpr fun e he => by simpa using before e he
  rw [find, entries, List.find?_append, none]
  simp

theorem dropWhile_at (entries : c.entries = older ++ x :: newer) (nodup : c.nodes.Nodup) :
    (c.entries.dropWhile fun e => decide (e.node ≠ x.node)) = x :: newer := by
  obtain ⟨before, -⟩ := apart_of_nodup entries nodup
  rw [entries, List.dropWhile_append_of_pos fun e he => decide_eq_true (before e he)]
  simp

theorem nextOf_at (entries : c.entries = older ++ x :: newer) (nodup : c.nodes.Nodup) :
    c.nextOf x.node = newer.head?.map SieveEntry.node := by
  rw [nextOf, dropWhile_at entries nodup]
  rfl

theorem filter_at (entries : c.entries = older ++ x :: newer) (nodup : c.nodes.Nodup) :
    (c.entries.filter fun e => decide (e.node ≠ x.node)) = older ++ newer := by
  obtain ⟨before, behind⟩ := apart_of_nodup entries nodup
  rw [entries, List.filter_append, List.filter_cons_of_neg (by simp),
    List.filter_eq_self.mpr fun e he => decide_eq_true (before e he),
    List.filter_eq_self.mpr fun e he => decide_eq_true (behind e he)]

/-- Changing the entry of one node. -/
theorem map_at (entries : c.entries = older ++ x :: newer) (nodup : c.nodes.Nodup)
    (change : SieveEntry Row → SieveEntry Row) :
    (c.entries.map fun e => if e.node = x.node then change e else e) =
      older ++ change x :: newer := by
  obtain ⟨before, behind⟩ := apart_of_nodup entries nodup
  have keep : ∀ es : List (SieveEntry Row), (∀ e ∈ es, e.node ≠ x.node) →
      (es.map fun e => if e.node = x.node then change e else e) = es := fun es h =>
    (List.map_congr_left fun e he => if_neg (h e he)).trans (List.map_id' es)
  rw [entries, List.map_append, List.map_cons, keep older before, keep newer behind, if_pos rfl]

/-- An empty hand starts from the oldest entry. -/
theorem evictLoop_wrap (budget : Nat) (free : c.hand = none) :
    c.evictLoop (budget + 1) =
      evictLoop (budget + 1) { c with hand := c.entries.head?.map SieveEntry.node } := by
  unfold evictLoop
  dsimp only
  rw [free]
  simp only [Option.none_or, Option.or_self]
  rfl

theorem evictLoop_hand (budget : Nat) (c : SieveCache Row) :
    c.evictLoop (budget + 1) = evictLoop (budget + 1)
      { c with hand := c.hand.or (c.entries.head?.map SieveEntry.node) } := by
  cases hand : c.hand with
  | none => exact evictLoop_wrap budget hand
  | some node =>
      rw [Option.some_or, ← hand]

/-- One step of the hand: it evicts the entry it is on, or passes it. -/
theorem evictLoop_at (budget : Nat) (entries : c.entries = older ++ x :: newer)
    (nodup : c.nodes.Nodup) (hand : c.hand = some x.node) :
    c.evictLoop (budget + 1) =
      if evictable c.pinned x then
        (some (x.node, x.row),
          { c with hand := newer.head?.map SieveEntry.node, entries := older ++ newer })
      else evictLoop budget { c with
        hand := newer.head?.map SieveEntry.node
        entries := older ++ passedBy c.pinned x :: newer } := by
  have found : (c.hand.or (c.entries.head?.map SieveEntry.node)).bind c.find = some x := by
    rw [hand, Option.some_or, Option.bind_some, find_at entries nodup]
  have cleared : c.entries.map (setVisited x.node false) =
      older ++ { x with visited := false } :: newer :=
    map_at entries nodup fun e => { e with visited := false }
  rw [evictLoop]
  dsimp only
  rw [found]
  dsimp only
  rw [nextOf_at entries nodup, cleared, filter_at entries nodup]
  unfold evictable passedBy
  by_cases pinned : x.node ∈ c.pinned
  · rw [if_pos pinned, if_pos pinned, ← entries]
    simp [pinned]
  · rw [if_neg pinned, if_neg pinned]
    cases visited : x.visited <;> simp [pinned]

/-- What passing an entry does to the entries is what passing the rest does after it. -/
theorem map_mark_cons (pinned : List Nat) (more : List (SieveEntry Row))
    (before : ∀ e ∈ older, e.node ≠ x.node) (behind : ∀ e ∈ newer, e.node ≠ x.node) :
    (older ++ passedBy pinned x :: newer).map (mark pinned more) =
      (older ++ x :: newer).map (mark pinned (x :: more)) := by
  have keep : ∀ es : List (SieveEntry Row), (∀ e ∈ es, e.node ≠ x.node) →
      es.map (mark pinned more) = es.map (mark pinned (x :: more)) := by
    refine fun es h => List.map_congr_left fun e he => ?_
    unfold mark
    rw [List.map_cons]
    refine if_congr ?_ rfl rfl
    rw [List.mem_cons, or_iff_right (h e he)]
  have here : mark pinned more (passedBy pinned x) = mark pinned (x :: more) x := by
    unfold mark
    rw [List.map_cons, if_pos List.mem_cons_self, passedBy_passedBy, ite_self]
  rw [List.map_append, List.map_append, List.map_cons, List.map_cons, keep older before,
    keep newer behind, here]

/-- The loop finds the hand on an entry of the queue. -/
theorem evictLoop_parked (entries : c.entries = older ++ newer)
    (hand : c.hand = newer.head?.map SieveEntry.node) (nonempty : newer ++ older ≠ []) :
    ∃ (hand' : Option Nat) (older' : List (SieveEntry Row)) (x : SieveEntry Row)
      (newer' : List (SieveEntry Row)), c.entries = older' ++ x :: newer' ∧ hand' = some x.node ∧
        x :: newer' ++ older' = newer ++ older ∧
        ∀ budget, c.evictLoop (budget + 1) = evictLoop (budget + 1) { c with hand := hand' } := by
  cases newer with
  | cons x newer => exact ⟨c.hand, older, x, newer, entries, hand, rfl, fun _ => rfl⟩
  | nil =>
      rw [List.append_nil] at entries
      cases older with
      | nil => exact absurd rfl nonempty
      | cons x older =>
          refine ⟨some x.node, [], x, older, entries, rfl, List.append_nil _, fun budget => ?_⟩
          rw [evictLoop_wrap budget hand, entries]
          rfl

theorem rounds_nonempty {pinned : List Nat} {order passed rest : List (SieveEntry Row)}
    {v : SieveEntry Row} (rounds : order ++ order.map (passedBy pinned) = passed ++ v :: rest) :
    order ≠ [] := by
  rintro rfl
  cases passed <;> cases rounds

/-- The loop runs up to the first evictable entry of the two rounds. -/
theorem evictLoop_found {v : SieveEntry Row} (passed : List (SieveEntry Row)) {budget : Nat}
    {rest : List (SieveEntry Row)} (entries : c.entries = older ++ newer) (nodup : c.nodes.Nodup)
    (hand : c.hand = newer.head?.map SieveEntry.node)
    (rounds : newer ++ older ++ (newer ++ older).map (passedBy c.pinned) = passed ++ v :: rest)
    (kept : ∀ e ∈ passed, evictable c.pinned e = false) (first : evictable c.pinned v = true)
    (enough : passed.length < budget) :
    (c.evictLoop budget).1 = some (v.node, v.row) ∧
      (c.evictLoop budget).2.entries =
        (c.entries.map (mark c.pinned passed)).filter fun e => decide (e.node ≠ v.node) := by
  induction passed generalizing c older newer budget rest with
  | nil =>
      obtain ⟨hand', older', x, newer', entries', parked, order, same⟩ :=
        evictLoop_parked entries hand (rounds_nonempty rounds)
      obtain ⟨budget, rfl⟩ : ∃ n, budget = n + 1 := Nat.exists_eq_succ_of_ne_zero (by omega)
      rw [← order] at rounds
      obtain ⟨rfl, -⟩ := List.cons.inj rounds
      have unmarked : c.entries.map (mark c.pinned []) = c.entries :=
        (List.map_congr_left fun e _ => if_neg List.not_mem_nil).trans (List.map_id' _)
      rw [same, evictLoop_at (c := { c with hand := hand' }) budget entries' nodup parked, first,
        if_pos rfl, unmarked, filter_at entries' nodup]
      exact ⟨rfl, rfl⟩
  | cons p more ih =>
      obtain ⟨hand', older', x, newer', entries', parked, order, same⟩ :=
        evictLoop_parked entries hand (rounds_nonempty rounds)
      obtain ⟨budget, rfl⟩ : ∃ n, budget = n + 1 := Nat.exists_eq_succ_of_ne_zero (by omega)
      rw [← order] at rounds
      obtain ⟨rfl, rounds⟩ := List.cons.inj rounds
      obtain ⟨keptX, kept⟩ := List.forall_mem_cons.mp kept
      obtain ⟨before, behind⟩ := apart_of_nodup entries' nodup
      rw [same, evictLoop_at (c := { c with hand := hand' }) budget entries' nodup parked, keptX,
        if_neg Bool.false_ne_true, entries', ← map_mark_cons c.pinned more before behind]
      have moved : older' ++ passedBy c.pinned x :: newer' =
          older' ++ [passedBy c.pinned x] ++ newer' := List.append_cons older' _ newer'
      have rounds' : newer' ++ (older' ++ [passedBy c.pinned x]) ++
          (newer' ++ (older' ++ [passedBy c.pinned x])).map (passedBy c.pinned) =
            more ++ v :: (rest ++ [passedBy c.pinned x]) := by
        simpa using congrArg (· ++ [passedBy c.pinned x]) rounds
      refine ih moved ?_ rfl rounds' kept first (Nat.lt_of_succ_lt_succ enough)
      · rw [nodes, entries'] at nodup
        simpa [nodes] using nodup

/-- With every entry pinned the hand goes round and leaves everything as it is. -/
theorem evictLoop_pinned (budget : Nat) (entries : c.entries = older ++ newer)
    (nodup : c.nodes.Nodup) (hand : c.hand = newer.head?.map SieveEntry.node)
    (all : ∀ e ∈ c.entries, e.node ∈ c.pinned) :
    (c.evictLoop budget).1 = none ∧ (c.evictLoop budget).2.entries = c.entries := by
  induction budget generalizing c older newer with
  | zero => exact ⟨rfl, rfl⟩
  | succ budget ih =>
      rcases eq_or_ne (newer ++ older) [] with empty | nonempty
      · obtain ⟨rfl, rfl⟩ := List.append_eq_nil_iff.mp empty
        have none : (c.hand.or (c.entries.head?.map SieveEntry.node)).bind c.find = none := by
          rw [hand, entries]
          rfl
        rw [evictLoop]
        dsimp only
        rw [none]
        exact ⟨rfl, rfl⟩
      · obtain ⟨hand', older', x, newer', entries', parked, -, same⟩ :=
          evictLoop_parked entries hand nonempty
        have pinned : x.node ∈ c.pinned :=
          all x (entries' ▸ List.mem_append_right _ List.mem_cons_self)
        have kept : evictable c.pinned x = false := by simp [evictable, pinned]
        have left : passedBy c.pinned x = x := if_pos pinned
        rw [same, evictLoop_at (c := { c with hand := hand' }) budget entries' nodup parked, kept,
          if_neg Bool.false_ne_true, left, ← entries']
        have moved : c.entries = older' ++ [x] ++ newer' :=
          entries'.trans (List.append_cons older' x newer')
        exact ih (c := { c with hand := newer'.head?.map SieveEntry.node }) moved nodup rfl all

theorem evictLoop_frame (budget : Nat) (c : SieveCache Row) :
    (c.evictLoop budget).2.capacity = c.capacity ∧ (c.evictLoop budget).2.warmup = c.warmup ∧
      (c.evictLoop budget).2.pinned = c.pinned := by
  induction budget generalizing c with
  | zero => exact ⟨rfl, rfl, rfl⟩
  | succ budget ih =>
      rw [evictLoop]
      dsimp only
      cases (c.hand.or (c.entries.head?.map SieveEntry.node)).bind c.find with
      | none => exact ⟨rfl, rfl, rfl⟩
      | some e =>
          dsimp only
          split
          · exact ih _
          · split
            · exact ih _
            · exact ⟨rfl, rfl, rfl⟩

/-- The hand is empty or on an entry. -/
def Parked (c : SieveCache Row) : Prop := ∀ node ∈ c.hand, node ∈ c.nodes

theorem Parked.split (parked : c.Parked) :
    ∃ older newer, c.entries = older ++ newer ∧ c.hand = newer.head?.map SieveEntry.node ∧
      c.fromHand = newer ++ older := by
  cases hand : c.hand with
  | none =>
      refine ⟨c.entries, [], (List.append_nil _).symm, rfl, ?_⟩
      rw [fromHand, hand]
      rfl
  | some node =>
      refine ⟨c.entries.takeWhile fun e => decide (e.node ≠ node),
        c.entries.dropWhile fun e => decide (e.node ≠ node),
        List.takeWhile_append_dropWhile.symm, ?_, ?_⟩
      · obtain ⟨e, he, rfl⟩ := List.mem_map.mp (parked node hand)
        have ne : c.entries.dropWhile (fun x => decide (x.node ≠ e.node)) ≠ [] := fun empty =>
          absurd (List.dropWhile_eq_nil_iff.mp empty e he) (by simp)
        have here := List.head_dropWhile_not
          (fun x : SieveEntry Row => decide (x.node ≠ e.node)) ne
        rw [List.head?_eq_some_head ne]
        exact congrArg some (Eq.symm (by simpa using here))
      · rw [fromHand, hand]

/-- Nothing in the two rounds is evictable exactly where every entry is pinned. -/
theorem victim_eq_none_iff (parked : c.Parked) :
    c.victim = none ↔ ∀ e ∈ c.entries, e.node ∈ c.pinned := by
  obtain ⟨older, newer, entries, -, order⟩ := parked.split
  have mem : ∀ e, e ∈ c.fromHand ↔ e ∈ c.entries := by
    intro e
    rw [order, entries, List.mem_append, List.mem_append, or_comm]
  unfold victim sweep
  rw [List.find?_eq_none]
  constructor
  · intro none e he
    by_contra unpinned
    refine none (passedBy c.pinned e) (List.mem_append_right _
      (List.mem_map_of_mem ((mem e).mpr he))) ?_
    simp [evictable, passedBy, unpinned]
  · intro all e he
    have pinned : e.node ∈ c.pinned := by
      rcases List.mem_append.mp he with he | he
      · exact all e ((mem e).mp he)
      · obtain ⟨x, hx, rfl⟩ := List.mem_map.mp he
        rw [passedBy_node]
        exact all x ((mem x).mp hx)
    simp [evictable, pinned]

/-- What an eviction does: it takes the first evictable entry of the sweep out and clears the
unpinned entries before it, or finds every entry pinned and leaves them. -/
theorem evict_sweep (nodup : c.nodes.Nodup) (parked : c.Parked) :
    c.evict.1 = c.victim.map (fun v => (v.node, v.row)) ∧
      c.evict.2.entries = match c.victim with
        | some v =>
            (c.entries.map (mark c.pinned c.passed)).filter fun e => decide (e.node ≠ v.node)
        | none => c.entries := by
  obtain ⟨older, newer, entries, hand, order⟩ := parked.split
  cases found : c.victim with
  | none =>
      exact evictLoop_pinned _ entries nodup hand ((victim_eq_none_iff parked).mp found)
  | some v =>
      obtain ⟨first, passed, rest, rounds, kept⟩ := List.find?_eq_some_iff_append.mp found
      have kept : ∀ e ∈ passed, evictable c.pinned e = false := fun e he => by
        simpa using kept e he
      have stopped : c.passed = passed := by
        unfold SieveCache.passed
        rw [rounds, List.takeWhile_append_of_pos fun e he => by simp [kept e he]]
        simp [first]
      have length := congrArg List.length rounds
      simp only [sweep, List.length_append, List.length_map, List.length_cons, order] at length
      rw [sweep, order] at rounds
      rw [stopped]
      refine evictLoop_found passed entries nodup hand rounds kept first ?_
      rw [entries, List.length_append]
      omega

/-- The entries left keep their order. -/
theorem evict_nodes (nodup : c.nodes.Nodup) (parked : c.Parked) :
    c.evict.2.nodes.Sublist c.nodes := by
  have entries := (evict_sweep nodup parked).2
  unfold nodes
  rw [entries]
  cases c.victim with
  | none => exact List.Sublist.refl _
  | some v =>
      have same : (c.entries.map (mark c.pinned c.passed)).map SieveEntry.node =
          c.entries.map SieveEntry.node := by
        rw [List.map_map]
        exact List.map_congr_left fun e _ => mark_node c.pinned c.passed e
      exact same ▸ List.filter_sublist.map SieveEntry.node

theorem victim_mem (parked : c.Parked) {v : SieveEntry Row} (found : c.victim = some v) :
    v.node ∈ c.nodes := by
  obtain ⟨older, newer, entries, -, order⟩ := parked.split
  have mem : ∀ e ∈ c.fromHand, e.node ∈ c.nodes := fun e he => by
    rw [order, List.mem_append, or_comm, ← List.mem_append, ← entries] at he
    exact List.mem_map_of_mem he
  rcases List.mem_append.mp (List.mem_of_find?_eq_some found) with here | again
  · exact mem v here
  · obtain ⟨x, hx, rfl⟩ := List.mem_map.mp again
    rw [passedBy_node]
    exact mem x hx

theorem evict_length (nodup : c.nodes.Nodup) (parked : c.Parked) (some : c.evict.1 ≠ none) :
    c.evict.2.entries.length < c.entries.length := by
  obtain ⟨out, entries⟩ := evict_sweep nodup parked
  cases found : c.victim with
  | none => exact absurd (out.trans (congrArg _ found)) some
  | some v =>
      rw [found] at entries
      obtain ⟨e, he, same⟩ := List.mem_map.mp (victim_mem parked found)
      have shorter : ((c.entries.map (mark c.pinned c.passed)).filter fun x =>
          decide (x.node ≠ v.node)).length < (c.entries.map (mark c.pinned c.passed)).length :=
        List.length_filter_lt_length_iff_exists.mpr
          ⟨mark c.pinned c.passed e, List.mem_map_of_mem he, by simp [same]⟩
      rw [List.length_map] at shorter
      rw [entries]
      exact shorter

theorem evict_none (nodup : c.nodes.Nodup) (parked : c.Parked) (none : c.evict.1 = none) :
    c.evict.2.entries = c.entries := by
  obtain ⟨out, entries⟩ := evict_sweep nodup parked
  have found : c.victim = Option.none := Option.map_eq_none_iff.mp (out.symm.trans none)
  rwa [found] at entries

/-- A new node and a full tier: the insert is refused, or takes the victim's place. -/
theorem insert_full (nodup : c.nodes.Nodup) (parked : c.Parked) {node : Nat} (new : node ∉ c.nodes)
    (full : c.capacity ≤ c.entries.length) (row : Row) :
    (c.victim = none ∧ (c.insert node row).1 = .refused) ∨
      ∃ v, c.victim = some v ∧ (c.insert node row).1 = .storedEvicting v.node v.row ∧
        (c.insert node row).2.entries =
          ((c.entries.map (mark c.pinned c.passed)).filter fun e => decide (e.node ≠ v.node)) ++
            [⟨node, row, decide (node ∈ c.warmup)⟩] := by
  obtain ⟨out, entries⟩ := evict_sweep nodup parked
  have warmup : c.evict.2.warmup = c.warmup := (evictLoop_frame _ c).2.1
  rw [insert, if_neg (find_isSome.not.mpr new), if_pos full]
  generalize c.evict = evicted at out entries warmup ⊢
  obtain ⟨gone, left⟩ := evicted
  dsimp only at out entries warmup
  cases found : c.victim with
  | none =>
      obtain rfl : gone = none := out.trans (congrArg _ found)
      exact .inl ⟨rfl, rfl⟩
  | some v =>
      obtain rfl : gone = some (v.node, v.row) := out.trans (congrArg _ found)
      rw [found] at entries
      refine .inr ⟨v, rfl, rfl, ?_⟩
      show left.entries ++ [⟨node, row, decide (node ∈ left.warmup)⟩] = _
      rw [entries, warmup]

end SieveCache

end AetherGraph
