import Mathlib.Algebra.GroupWithZero.Nat
import Mathlib.Data.List.GetD
import Mathlib.Data.List.Nodup
import Mathlib.Data.List.Perm.Subperm

/-! Scratch the neighbor samplers share: node dedup that resets with a generation counter,
the stamp block of Floyd's sampling, and the random generator. -/

namespace AetherGraph

/-- A seedable stream of 64-bit words. -/
class Rng (σ : Type) where
  new : Nat → σ
  nextU64 : σ → Nat × σ

/-- `WyRand`, on its 64-bit state. -/
structure WyRand where
  state : Nat
  deriving DecidableEq, Repr

def WyRand.next (r : WyRand) : Nat × WyRand :=
  let state := (r.state + 0xa0761d6478bd642f) % 2 ^ 64
  let t := state * (state ^^^ 0xe7037ed1a0b428db) % 2 ^ 128
  (((t >>> 64) ^^^ t) % 2 ^ 64, ⟨state⟩)

instance : Rng WyRand := ⟨fun seed => ⟨seed % 2 ^ 64⟩, WyRand.next⟩

section Random

variable {σ : Type} [Rng σ]

def nextU32 (r : σ) : Nat × σ := ((Rng.nextU64 r).1 % 2 ^ 32, (Rng.nextU64 r).2)

/-- Uniform integer in `[0, s)` by multiply-shift. -/
def randBelow (r : σ) (s : Nat) : Nat × σ :=
  ((nextU32 r).1 * s % 2 ^ 64 / 2 ^ 32, (nextU32 r).2)

theorem randBelow_lt (r : σ) {s : Nat} (hs : 0 < s) : (randBelow r s).1 < s := by
  have word : (nextU32 r).1 < 2 ^ 32 := Nat.mod_lt _ (by decide)
  refine (Nat.div_lt_iff_lt_mul (by decide)).mpr (Nat.lt_of_le_of_lt (Nat.mod_le _ _) ?_)
  rw [Nat.mul_comm s]
  exact Nat.mul_lt_mul_of_pos_right word hs

end Random

/-- Dense dedup table: each slot is a generation tag over a local index. -/
structure GenSlots where
  slots : List Nat
  generation : Nat
  deriving DecidableEq, Repr

namespace GenSlots

/-- Table over ids below `len`, with no pass begun yet. -/
def new (len : Nat) : GenSlots := ⟨List.replicate len 0, 0⟩

def packSlot (generation idx : Nat) : Nat := generation * 2 ^ 32 + idx

/-- Start a pass; the slots are cleared only when the generation wraps. -/
def begin (s : GenSlots) : GenSlots :=
  let generation := (s.generation + 1) % 2 ^ 32
  if generation = 0 then ⟨List.replicate s.slots.length 0, 1⟩ else ⟨s.slots, generation⟩

def probeOrInsert (s : GenSlots) (node next : Nat) : (Nat × Bool) × GenSlots :=
  let slot := s.slots.getD node 0
  if slot / 2 ^ 32 = s.generation then ((slot % 2 ^ 32, false), s)
  else ((next, true), { s with slots := s.slots.set node (packSlot s.generation next) })

def get (s : GenSlots) (node : Nat) : Option Nat :=
  s.slots[node]?.bind fun slot =>
    if slot / 2 ^ 32 = s.generation then some (slot % 2 ^ 32) else none

end GenSlots

/-- Node dedup: the dense table, or a map when the table would be too large. -/
inductive GenDedup where
  | dense (slots : GenSlots)
  | map (entries : List (Nat × Nat))
  deriving DecidableEq, Repr

namespace GenDedup

def begin : GenDedup → GenDedup
  | dense slots => dense slots.begin
  | map _ => map []

def probeOrInsert : GenDedup → Nat → Nat → (Nat × Bool) × GenDedup
  | dense slots, node, next => ((slots.probeOrInsert node next).1, dense (slots.probeOrInsert node next).2)
  | map entries, node, next =>
      match entries.lookup node with
      | some idx => ((idx, false), map entries)
      | none => ((next, true), map ((node, next) :: entries))

def get : GenDedup → Nat → Option Nat
  | dense slots, node => slots.get node
  | map entries, node => entries.lookup node

/-- A table over node ids below `numNodes` whose tags are not from a later pass. -/
def Ready (numNodes : Nat) : GenDedup → Prop
  | dense slots => slots.slots.length = numNodes ∧ slots.generation < 2 ^ 32 ∧
      ∀ slot ∈ slots.slots, slot / 2 ^ 32 ≤ slots.generation
  | map _ => True

/-- The local index of a node in discovery order. -/
def localOf (nodes : List Nat) (node : Nat) : Option Nat :=
  if node ∈ nodes then some (nodes.idxOf node) else none

/-- The table answers for the nodes recorded so far in the pass. -/
structure Indexes (numNodes : Nat) (d : GenDedup) (nodes : List Nat) : Prop where
  ready : d.Ready numNodes
  get : ∀ node, d.get node = localOf nodes node

theorem localOf_nil (node : Nat) : localOf [] node = none := if_neg List.not_mem_nil

theorem localOf_append {nodes : List Nat} {node : Nat} (new : node ∉ nodes) (x : Nat) :
    localOf (nodes ++ [node]) x = if x = node then some nodes.length else localOf nodes x := by
  unfold localOf
  by_cases old : x ∈ nodes
  · have ne : x ≠ node := fun same => new (same ▸ old)
    rw [if_pos (List.mem_append_left _ old), if_neg ne, if_pos old, List.idxOf_append_of_mem old]
  · by_cases same : x = node
    · subst same
      rw [if_pos (List.mem_append_right _ List.mem_cons_self), if_pos rfl,
        List.idxOf_append_of_notMem old, List.idxOf_cons_self, Nat.add_zero]
    · rw [if_neg (by simp [old, same]), if_neg same, if_neg old]

theorem begin_ready {numNodes : Nat} {d : GenDedup} (h : d.Ready numNodes) :
    d.begin.Indexes numNodes [] := by
  cases d with
  | map entries => exact ⟨trivial, fun node => (localOf_nil node).symm⟩
  | dense s =>
      obtain ⟨length, small, tags⟩ := h
      simp only [begin, GenSlots.begin]
      split
      · refine ⟨⟨by rw [List.length_replicate, length], Nat.one_lt_two_pow (by decide),
          fun slot hslot => ?_⟩, fun node => ?_⟩
        · rw [List.eq_of_mem_replicate hslot]
          exact Nat.zero_le 1
        · rw [localOf_nil]
          simp only [get, GenSlots.get, List.getElem?_replicate, Option.bind_eq_none_iff]
          intro slot found
          split at found
          · obtain rfl := Option.some.inj found
            rfl
          · cases found
      · rename_i wraps
        have next : (s.generation + 1) % 2 ^ 32 = s.generation + 1 := by omega
        rw [next]
        have later : s.generation + 1 < 2 ^ 32 := by omega
        refine ⟨⟨length, later, fun slot hslot => Nat.le_succ_of_le (tags slot hslot)⟩,
          fun node => ?_⟩
        rw [localOf_nil]
        simp only [get, GenSlots.get, Option.bind_eq_none_iff]
        intro slot found
        have := tags slot (List.mem_of_getElem? found)
        rw [if_neg (by omega)]

/-- Distinct ids below `numNodes` are at most `numNodes` many. -/
theorem length_le_of_nodup {nodes : List Nat} {numNodes : Nat} (nodup : nodes.Nodup)
    (inRange : ∀ n ∈ nodes, n < numNodes) : nodes.length ≤ numNodes := by
  have sub : nodes ⊆ List.range numNodes := fun n hn => List.mem_range.mpr (inRange n hn)
  have le := (List.subperm_of_subset nodup sub).length_le
  rwa [List.length_range] at le

theorem unpackSlot (generation : Nat) {idx : Nat} (small : idx < 2 ^ 32) :
    GenSlots.packSlot generation idx / 2 ^ 32 = generation ∧
      GenSlots.packSlot generation idx % 2 ^ 32 = idx := by
  unfold GenSlots.packSlot
  omega

/-- A probe returns the node's index in discovery order, and records a new node. -/
theorem Indexes.probe {numNodes : Nat} {d : GenDedup} {nodes : List Nat}
    (h : d.Indexes numNodes nodes) {node : Nat} (inRange : node < numNodes)
    (small : nodes.length < 2 ^ 32) :
    (d.probeOrInsert node nodes.length).1 = (nodes.idxOf node, decide (node ∉ nodes)) ∧
      (d.probeOrInsert node nodes.length).2.Indexes numNodes
        (if node ∈ nodes then nodes else nodes ++ [node]) := by
  have got := h.get node
  by_cases known : node ∈ nodes
  · rw [localOf, if_pos known] at got
    rw [if_pos known, decide_eq_false (not_not_intro known)]
    cases d with
    | map entries =>
        simp only [GenDedup.get] at got
        simp only [GenDedup.probeOrInsert, got]
        exact ⟨trivial, h⟩
    | dense s =>
        obtain ⟨slot, found, current⟩ := Option.bind_eq_some_iff.mp got
        have tag : slot / 2 ^ 32 = s.generation := by
          by_contra stale
          rw [if_neg stale] at current
          cases current
        rw [if_pos tag] at current
        have probed : s.probeOrInsert node nodes.length = ((nodes.idxOf node, false), s) := by
          rw [GenSlots.probeOrInsert, List.getD_eq_getElem?_getD, found, Option.getD_some]
          exact (if_pos tag).trans (by rw [Option.some.inj current])
        simp only [GenDedup.probeOrInsert, probed]
        exact ⟨trivial, h⟩
  · rw [localOf, if_neg known] at got
    rw [if_neg known, decide_eq_true known, List.idxOf_of_notMem known]
    cases d with
    | map entries =>
        simp only [GenDedup.get] at got
        simp only [GenDedup.probeOrInsert, got]
        refine ⟨trivial, trivial, fun x => ?_⟩
        rw [localOf_append known, ← h.get x]
        simp only [GenDedup.get, List.lookup_cons]
        by_cases same : x = node
        · simp [same]
        · rw [beq_false_of_ne same, if_neg same]
    | dense s =>
        obtain ⟨length, generation, tags⟩ := h.ready
        have inBounds : node < s.slots.length := length ▸ inRange
        have stale : ¬ s.slots.getD node 0 / 2 ^ 32 = s.generation := by
          intro tag
          rw [GenDedup.get, GenSlots.get, List.getElem?_eq_getElem inBounds, Option.bind_some,
            if_pos (by rwa [List.getD_eq_getElem _ _ inBounds] at tag)] at got
          cases got
        have probed : s.probeOrInsert node nodes.length = ((nodes.length, true),
            { s with slots := s.slots.set node (GenSlots.packSlot s.generation nodes.length) }) :=
          if_neg stale
        obtain ⟨tag, idx⟩ := unpackSlot s.generation small
        simp only [GenDedup.probeOrInsert, probed]
        refine ⟨trivial, ⟨by rw [List.length_set, length], generation, fun slot hslot => ?_⟩,
          fun x => ?_⟩
        · rcases List.mem_or_eq_of_mem_set hslot with old | rfl
          · exact tags slot old
          · exact Nat.le_of_eq tag
        · rw [localOf_append known, ← h.get x]
          simp only [GenDedup.get, GenSlots.get]
          by_cases same : x = node
          · subst same
            rw [List.getElem?_set_self inBounds, Option.bind_some, if_pos tag, idx, if_pos rfl]
          · rw [List.getElem?_set_ne (Ne.symm same), if_neg same]

end GenDedup

/-- Ids in discovery order, with one more. -/
theorem eraseDups_concat (ids : List Nat) (id : Nat) :
    (ids ++ [id]).eraseDups =
      if id ∈ ids.eraseDups then ids.eraseDups else ids.eraseDups ++ [id] := by
  rw [List.eraseDups_append]
  by_cases known : id ∈ ids
  · rw [if_pos (List.mem_eraseDups.mpr known)]
    simp [List.removeAll, known]
  · rw [if_neg (mt List.mem_eraseDups.mp known)]
    simp [List.removeAll, known, List.eraseDups_cons]

/-- Membership block of Floyd's sampling over degrees up to 256. -/
structure FloydStamps where
  stamp : List Nat
  generation : Nat
  deriving DecidableEq, Repr

namespace FloydStamps

def new : FloydStamps := ⟨List.replicate 256 0, 0⟩

def begin (f : FloydStamps) : FloydStamps :=
  let generation := (f.generation + 1) % 2 ^ 32
  if generation = 0 then ⟨List.replicate f.stamp.length 0, 1⟩ else ⟨f.stamp, generation⟩

/-- Whether `i` was not yet taken, and the block with it taken. -/
def testAndSet (f : FloydStamps) (i : Nat) : Bool × FloydStamps :=
  if f.stamp.getD i 0 = f.generation then (false, f)
  else (true, { f with stamp := f.stamp.set i f.generation })

/-- Between samples: no stamp is from a later one. -/
structure Ready (f : FloydStamps) : Prop where
  length : f.stamp.length = 256
  generation : f.generation < 2 ^ 32
  stamps : ∀ x ∈ f.stamp, x ≤ f.generation

/-- Within a sample: exactly the stamps of `taken` are current. -/
structure Marks (f : FloydStamps) (taken : List Nat) : Prop where
  ready : f.Ready
  marks : ∀ i < 256, f.stamp.getD i 0 = f.generation ↔ i ∈ taken

theorem new_ready : new.Ready where
  length := List.length_replicate
  generation := by decide
  stamps x hx := by rw [List.eq_of_mem_replicate hx]; exact Nat.zero_le _

theorem Ready.begin {f : FloydStamps} (h : f.Ready) : f.begin.Marks [] := by
  have small := h.generation
  simp only [FloydStamps.begin]
  split
  · refine ⟨⟨by rw [List.length_replicate, h.length], Nat.one_lt_two_pow (by decide),
      fun x hx => ?_⟩, fun i _ => ?_⟩
    · rw [List.eq_of_mem_replicate hx]
      exact Nat.zero_le 1
    · simp [List.getD_eq_getElem?_getD, List.getElem?_replicate]
      split <;> simp
  · rename_i wraps
    have next : (f.generation + 1) % 2 ^ 32 = f.generation + 1 := by omega
    rw [next]
    have later : f.generation + 1 < 2 ^ 32 := by omega
    refine ⟨⟨h.length, later, fun x hx => Nat.le_succ_of_le (h.stamps x hx)⟩, fun i hi => ?_⟩
    have inBounds : i < f.stamp.length := h.length ▸ hi
    have := h.stamps _ (List.getElem_mem inBounds)
    rw [List.getD_eq_getElem _ _ inBounds]
    simp only [List.not_mem_nil, iff_false]
    omega

theorem Marks.testAndSet {f : FloydStamps} {taken : List Nat} (h : f.Marks taken) {i : Nat}
    (hi : i < 256) :
    (f.testAndSet i).1 = decide (i ∉ taken) ∧
      (f.testAndSet i).2.Marks (if i ∈ taken then taken else taken ++ [i]) := by
  unfold FloydStamps.testAndSet
  by_cases old : i ∈ taken
  · rw [if_pos ((h.marks i hi).mpr old), if_pos old, decide_eq_false (not_not_intro old)]
    exact ⟨rfl, h⟩
  · rw [if_neg (mt (h.marks i hi).mp old), if_neg old, decide_eq_true old]
    refine ⟨rfl, ⟨?_, h.ready.generation, fun x hx => ?_⟩, fun x hx => ?_⟩
    · rw [List.length_set, h.ready.length]
    · rcases List.mem_or_eq_of_mem_set hx with hx | rfl
      · exact h.ready.stamps x hx
      · exact Nat.le_refl _
    · have inBounds : i < f.stamp.length := h.ready.length ▸ hi
      rw [List.mem_append, List.mem_singleton, ← h.marks x hx, List.getD_eq_getElem?_getD,
        List.getD_eq_getElem?_getD]
      by_cases same : x = i
      · subst same
        simp [List.getElem?_set_self inBounds]
      · rw [List.getElem?_set_ne (Ne.symm same)]
        simp [same]

end FloydStamps

end AetherGraph
