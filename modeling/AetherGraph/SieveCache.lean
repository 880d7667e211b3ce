import Mathlib.Data.List.Nodup
import Mathlib.Data.List.Perm.Basic

/-! One in-memory tier of the feature cache: a queue in insertion order with SIEVE
eviction.  The intrusive links over slab rows are the list of entries, oldest first; the
hand is the node it is parked on. -/

namespace AetherGraph

variable {Row : Type}

structure SieveEntry (Row : Type) where
  node : Nat
  row : Row
  visited : Bool
  deriving DecidableEq, Repr

structure SieveCache (Row : Type) where
  capacity : Nat
  entries : List (SieveEntry Row)
  hand : Option Nat
  warmup : List Nat
  pinned : List Nat
  deriving DecidableEq, Repr

namespace SieveCache

/-- Outcome of a tier insert. -/
inductive InsertOutcome (Row : Type) where
  | stored
  | storedEvicting (victim : Nat) (row : Row)
  | refused
  deriving DecidableEq, Repr

/-- `warmup` lists the nodes with a positive warmup frequency. -/
def new (capacity : Nat) (warmup pinned : List Nat) : SieveCache Row :=
  ⟨capacity, [], none, warmup, pinned⟩

def find (c : SieveCache Row) (node : Nat) : Option (SieveEntry Row) :=
  c.entries.find? fun e => decide (e.node = node)

def setVisited (node : Nat) (visited : Bool) (e : SieveEntry Row) : SieveEntry Row :=
  if e.node = node then { e with visited := visited } else e

/-- The next newer entry's node. -/
def nextOf (c : SieveCache Row) (node : Nat) : Option Nat :=
  ((c.entries.dropWhile fun e => decide (e.node ≠ node)).drop 1).head?.map SieveEntry.node

/-- Shared-access hit path: the row, and the entry marked visited. -/
def get (c : SieveCache Row) (node : Nat) : Option (Row × SieveCache Row) :=
  (c.find node).map fun e => (e.row, { c with entries := c.entries.map (setVisited node true) })

/-- Advance the hand until an unvisited, unpinned entry is found, within `budget` steps. -/
def evictLoop : Nat → SieveCache Row → Option (Nat × Row) × SieveCache Row
  | 0, c => (none, c)
  | budget + 1, c =>
      let hand := c.hand.or (c.entries.head?.map SieveEntry.node)
      match hand.bind c.find with
      | none => (none, { c with hand := hand })
      | some e =>
          let next := c.nextOf e.node
          if e.node ∈ c.pinned then evictLoop budget { c with hand := next }
          else if e.visited then
            evictLoop budget { c with
              hand := next, entries := c.entries.map (setVisited e.node false) }
          else
            (some (e.node, e.row), { c with
              hand := next, entries := c.entries.filter fun x => decide (x.node ≠ e.node) })

def evict (c : SieveCache Row) : Option (Nat × Row) × SieveCache Row :=
  evictLoop (c.entries.length * 2 + 2) c

def pushHead (c : SieveCache Row) (node : Nat) (row : Row) : SieveCache Row :=
  { c with entries := c.entries ++ [⟨node, row, decide (node ∈ c.warmup)⟩] }

def insert (c : SieveCache Row) (node : Nat) (row : Row) : InsertOutcome Row × SieveCache Row :=
  if (c.find node).isSome then
    (.stored, { c with entries := c.entries.map fun e =>
      if e.node = node then { e with row := row, visited := true } else e })
  else if c.capacity ≤ c.entries.length then
    match c.evict with
    | (none, c) => (.refused, c)
    | (some (victim, old), c) => (.storedEvicting victim old, c.pushHead node row)
  else (.stored, c.pushHead node row)

/-- A hand parked on the entry steps to its neighbour first. -/
def remove (c : SieveCache Row) (node : Nat) : SieveCache Row :=
  { c with
    hand := if c.hand = some node then c.nextOf node else c.hand
    entries := c.entries.filter fun e => decide (e.node ≠ node) }

def nodes (c : SieveCache Row) : List Nat := c.entries.map SieveEntry.node

/-- One entry a node, within capacity, each with the row its node has. -/
structure Holds (rowOf : Nat → Row) (c : SieveCache Row) : Prop where
  nodup : c.nodes.Nodup
  small : c.nodes.length ≤ c.capacity
  rows : ∀ e ∈ c.entries, e.row = rowOf e.node

theorem holds_new (rowOf : Nat → Row) (capacity : Nat) (warmup pinned : List Nat) :
    (SieveCache.new capacity warmup pinned).Holds rowOf :=
  ⟨List.nodup_nil, Nat.zero_le _, fun _ h => absurd h List.not_mem_nil⟩

theorem find_some {c : SieveCache Row} {node : Nat} {e : SieveEntry Row}
    (h : c.find node = some e) : e ∈ c.entries ∧ e.node = node := by
  have same := List.find?_some h
  exact ⟨List.mem_of_find?_eq_some h, of_decide_eq_true same⟩

theorem find_isSome {c : SieveCache Row} {node : Nat} :
    (c.find node).isSome = true ↔ node ∈ c.nodes := by
  simp [find, nodes]

@[simp] theorem setVisited_node (node : Nat) (visited : Bool) (e : SieveEntry Row) :
    (setVisited node visited e).node = e.node := by
  unfold setVisited
  split <;> rfl

@[simp] theorem setVisited_row (node : Nat) (visited : Bool) (e : SieveEntry Row) :
    (setVisited node visited e).row = e.row := by
  unfold setVisited
  split <;> rfl

variable {rowOf : Nat → Row} {c : SieveCache Row}

theorem nodes_mark (c : SieveCache Row) (hand : Option Nat) (node : Nat) (visited : Bool) :
    nodes { c with hand := hand, entries := c.entries.map (setVisited node visited) } = c.nodes := by
  simp [nodes, Function.comp_def]

/-- Moving the hand and marking entries changes no row. -/
theorem Holds.mark (h : c.Holds rowOf) (hand : Option Nat) (node : Nat) (visited : Bool) :
    Holds rowOf { c with hand := hand, entries := c.entries.map (setVisited node visited) } := by
  refine ⟨?_, ?_, ?_⟩
  · rw [nodes_mark]
    exact h.nodup
  · rw [nodes_mark]
    exact h.small
  · simp only [List.forall_mem_map, setVisited_node, setVisited_row]
    exact h.rows

theorem Holds.get (h : c.Holds rowOf) {node : Nat} {row : Row} {c' : SieveCache Row}
    (hit : c.get node = some (row, c')) :
    row = rowOf node ∧ c'.Holds rowOf ∧ c'.nodes = c.nodes ∧ c'.capacity = c.capacity := by
  obtain ⟨e, found, hit⟩ := Option.map_eq_some_iff.mp hit
  obtain ⟨rfl, rfl⟩ := Prod.mk.inj hit
  obtain ⟨he, rfl⟩ := find_some found
  exact ⟨h.rows e he, h.mark c.hand _ true, nodes_mark c c.hand _ true, rfl⟩

/-- What eviction leaves: everything, or everything but the victim. -/
structure Evicted (rowOf : Nat → Row) (c : SieveCache Row) (victim : Option (Nat × Row))
    (c' : SieveCache Row) : Prop where
  capacity : c'.capacity = c.capacity
  holds : c'.Holds rowOf
  kept : victim = none → c'.nodes = c.nodes
  gone : ∀ node row, victim = some (node, row) → row = rowOf node ∧
    c.nodes.Perm (node :: c'.nodes)

theorem filter_nodes (c : SieveCache Row) (hand : Option Nat) (node : Nat) :
    nodes { c with
      hand := hand, entries := c.entries.filter fun e => decide (e.node ≠ node) } =
        c.nodes.filter fun n => decide (n ≠ node) := by
  simp only [nodes, List.filter_map, Function.comp_def]

theorem Holds.filter (h : c.Holds rowOf) (hand : Option Nat) (node : Nat) :
    Holds rowOf { c with
      hand := hand, entries := c.entries.filter fun e => decide (e.node ≠ node) } := by
  refine ⟨?_, ?_, fun e he => h.rows e (List.mem_filter.mp he).1⟩
  · rw [filter_nodes]
    exact h.nodup.filter _
  · rw [filter_nodes]
    exact Nat.le_trans (List.length_filter_le _ _) h.small

theorem evictLoop_evicted {budget : Nat} (h : c.Holds rowOf) :
    Evicted rowOf c (c.evictLoop budget).1 (c.evictLoop budget).2 := by
  induction budget generalizing c with
  | zero => exact ⟨rfl, h, fun _ => rfl, nofun⟩
  | succ budget ih =>
      unfold evictLoop
      dsimp only
      split
      · exact ⟨rfl, { h with }, fun _ => rfl, nofun⟩
      · rename_i e found
        obtain ⟨cur, -, found⟩ := Option.bind_eq_some_iff.mp found
        obtain ⟨he, rfl⟩ := find_some found
        split
        · have moved : Holds rowOf { c with hand := c.nextOf e.node } := { h with }
          have rest := ih moved
          exact ⟨rest.capacity, rest.holds, rest.kept, rest.gone⟩
        · split
          · have rest := ih (h.mark (c.nextOf e.node) e.node false)
            have same := nodes_mark c (c.nextOf e.node) e.node false
            refine ⟨rest.capacity, rest.holds, fun none => (rest.kept none).trans same,
              fun node row some => ?_⟩
            obtain ⟨row, perm⟩ := rest.gone node row some
            exact ⟨row, same ▸ perm⟩
          · refine ⟨rfl, h.filter _ _, nofun, fun node row some => ?_⟩
            obtain ⟨rfl, rfl⟩ := Prod.mk.inj (Option.some.inj some)
            refine ⟨h.rows e he, ?_⟩
            rw [filter_nodes]
            have mem : e.node ∈ c.nodes := List.mem_map_of_mem he
            have rest : (c.nodes.filter fun n => decide (n ≠ e.node)) = c.nodes.erase e.node := by
              rw [h.nodup.erase_eq_filter]
              refine List.filter_congr fun n _ => ?_
              rw [Bool.eq_iff_iff, decide_eq_true_eq, bne_iff_ne]
            rw [rest]
            exact List.perm_cons_erase mem

/-- What an insert leaves: the tier gains at most the new node, and a victim is one of its
own rows. -/
structure Inserted (rowOf : Nat → Row) (c : SieveCache Row) (node : Nat)
    (out : InsertOutcome Row) (c' : SieveCache Row) : Prop where
  capacity : c'.capacity = c.capacity
  holds : c'.Holds rowOf
  nodes : ∀ n ∈ c'.nodes, n = node ∨ n ∈ c.nodes
  victim : ∀ v row, out = .storedEvicting v row → row = rowOf v ∧ v ∈ c.nodes

theorem Holds.pushHead (h : c.Holds rowOf) {node : Nat} (new : node ∉ c.nodes)
    (room : c.nodes.length < c.capacity) : (c.pushHead node (rowOf node)).Holds rowOf := by
  have nodes : (c.pushHead node (rowOf node)).nodes = c.nodes ++ [node] := by
    simp [SieveCache.nodes, SieveCache.pushHead]
  refine ⟨?_, ?_, fun e he => ?_⟩
  · rw [nodes]
    exact List.nodup_append.mpr ⟨h.nodup, List.nodup_singleton _, fun a ha b hb same =>
      new (List.mem_singleton.mp hb ▸ same ▸ ha)⟩
  · rw [nodes, List.length_append]
    exact room
  · rcases List.mem_append.mp he with he | he
    · exact h.rows e he
    · rw [List.mem_singleton.mp he]

theorem insert_inserted (h : c.Holds rowOf) (node : Nat) :
    Inserted rowOf c node (c.insert node (rowOf node)).1 (c.insert node (rowOf node)).2 := by
  unfold insert
  split
  · rename_i resident
    have nodes : SieveCache.nodes { c with entries := c.entries.map fun e =>
        if e.node = node then { e with row := rowOf node, visited := true } else e } = c.nodes := by
      simp only [SieveCache.nodes, List.map_map]
      refine List.map_congr_left fun e _ => ?_
      simp only [Function.comp_apply]
      split <;> rfl
    refine ⟨rfl, ⟨?_, ?_, List.forall_mem_map.mpr fun e he => ?_⟩, fun n hn => .inr ?_, nofun⟩
    · rw [nodes]
      exact h.nodup
    · rw [nodes]
      exact h.small
    · split
      · rename_i same
        rw [same]
      · exact h.rows e he
    · rwa [nodes] at hn
  · rename_i absent
    rw [find_isSome] at absent
    split
    · rename_i full
      have evicted : Evicted rowOf c c.evict.1 c.evict.2 := evictLoop_evicted h
      split
      · rename_i c' out
        rw [out] at evicted
        exact ⟨evicted.capacity, evicted.holds, fun n hn => .inr (evicted.kept rfl ▸ hn), nofun⟩
      · rename_i victim old c' out
        rw [out] at evicted
        obtain ⟨old_eq, perm⟩ := evicted.gone victim old rfl
        have sub : ∀ n ∈ c'.nodes, n ∈ c.nodes := fun n hn =>
          perm.mem_iff.mpr (List.mem_cons_of_mem _ hn)
        have room : c'.nodes.length < c'.capacity := by
          have := perm.length_eq
          have := h.small
          have := evicted.capacity
          simp only [List.length_cons] at *
          omega
        refine ⟨evicted.capacity, evicted.holds.pushHead (fun hn => absent (sub node hn)) room,
          fun n hn => ?_, fun v row same => ?_⟩
        · simp only [SieveCache.nodes, SieveCache.pushHead, List.map_append, List.mem_append,
            List.map_cons, List.map_nil, List.mem_singleton] at hn
          exact hn.elim (fun hn => .inr (sub n hn)) .inl
        · obtain ⟨rfl, rfl⟩ := InsertOutcome.storedEvicting.inj same
          exact ⟨old_eq, perm.mem_iff.mpr List.mem_cons_self⟩
    · rename_i room
      have room : c.nodes.length < c.capacity := by
        simp only [SieveCache.nodes, List.length_map]
        omega
      refine ⟨rfl, h.pushHead absent room, fun n hn => ?_, nofun⟩
      simp only [SieveCache.nodes, SieveCache.pushHead, List.map_append, List.mem_append,
        List.map_cons, List.map_nil, List.mem_singleton] at hn
      exact hn.symm

theorem remove_holds (h : c.Holds rowOf) (node : Nat) : (c.remove node).Holds rowOf :=
  h.filter _ _

theorem mem_remove {node n : Nat} : n ∈ (c.remove node).nodes ↔ n ∈ c.nodes ∧ n ≠ node := by
  rw [remove, filter_nodes, List.mem_filter, decide_eq_true_eq]

end SieveCache

end AetherGraph
