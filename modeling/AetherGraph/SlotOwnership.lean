import AetherGraph.StoredTree

/-! Who may use which slot of an arena, over every sequence of allocations, writes,
retirements and reclaims: no two owners share a slot, and no two slots share a byte. -/

namespace AetherGraph

open Arena ArenaWriter

namespace Arena

def slotSize : SlotClass → Nat
  | .chunk => chunkSlot
  | .interior => interiorSlot

/-- First byte of a slot. -/
def slotByte (a : Arena) : SlotClass → Nat → Nat
  | .chunk, idx => idx * chunkSlot
  | .interior, idx => a.interiorByte idx

/-- `a` with an owner's node written to its slot. -/
def writeChunk (a : Arena) (idx : Nat) (val : Chunk) : Arena :=
  { a with chunks := Function.update a.chunks idx val }

def writeInterior (a : Arena) (idx : Nat) (val : Interior) : Arena :=
  { a with interiors := Function.update a.interiors idx val }

end Arena

/-- The arena's write handle and the slots handed out and not retired since. -/
structure SlotUse where
  writer : ArenaWriter
  owned : SlotClass → List Nat

/-- What may happen to an arena.  `guard` takes a fresh write handle; `readers` is any change
readers and snapshots make to the gate and the pins. -/
inductive SlotCall where
  | alloc (k : SlotClass)
  | writeChunk (idx : Nat) (val : Chunk)
  | writeInterior (idx : Nat) (val : Interior)
  | retire (log : RetireLog) (stampEpoch : Nat)
  | reclaim
  | guard
  | readers (gate : ReadGate) (pins : PinRegistry)

namespace SlotUse

def start (a : Arena) : SlotUse := ⟨a.writer, fun _ => []⟩

def arena (s : SlotUse) : Arena := s.writer.arena

/-- The log holds owned slots of class `k`, each once. -/
def mayRetire (s : SlotUse) (log : RetireLog) (k : SlotClass) : Bool :=
  decide (log.slots k).Nodup && (log.slots k).all (s.owned k).contains

/-- `none` is a write to, or a retirement of, a slot that is not owned. -/
def step (s : SlotUse) : SlotCall → Option SlotUse
  | .alloc k =>
      match s.writer.alloc k with
      | (none, w) => some { s with writer := w }
      | (some idx, w) => some ⟨w, Function.update s.owned k (idx :: s.owned k)⟩
  | .writeChunk idx val =>
      if (s.owned .chunk).contains idx then
        some { s with writer := { s.writer with arena := s.arena.writeChunk idx val } }
      else none
  | .writeInterior idx val =>
      if (s.owned .interior).contains idx then
        some { s with writer := { s.writer with arena := s.arena.writeInterior idx val } }
      else none
  | .retire log stampEpoch =>
      if s.mayRetire log .chunk && s.mayRetire log .interior then
        some ⟨(s.writer.retire log stampEpoch).1,
          fun k => (s.owned k).filter fun idx => !(log.slots k).contains idx⟩
      else none
  | .reclaim => some { s with writer := s.writer.reclaim }
  | .guard => some { s with writer := s.arena.writer }
  | .readers gate pins =>
      some { s with writer := { s.writer with arena := { s.arena with gate := gate, pins := pins } } }

def run : SlotUse → List SlotCall → Option SlotUse
  | s, [] => some s
  | s, call :: calls => (s.step call).bind fun s => s.run calls

/-- Accounts in order, and every owned slot out of the arena's hands. -/
structure Sound (s : SlotUse) : Prop where
  ok : s.arena.Ok
  nodup : ∀ k, (s.owned k).Nodup
  held : ∀ k, ∀ i ∈ s.owned k, s.arena.Held k i

variable {s s' : SlotUse}

theorem Sound.start {a : Arena} (ok : a.Ok) : (SlotUse.start a).Sound :=
  ⟨ok, fun _ => List.nodup_nil, fun _ _ hi => absurd hi List.not_mem_nil⟩

theorem Sound.grown (h : s.Sound) {w' : ArenaWriter} {F : SlotClass → List Nat}
    (grows : Grows s.arena w'.arena F) : (SlotUse.mk w' s.owned).Sound :=
  ⟨grows.ok, h.nodup, fun k i hi => grows.heldOld (h.held k i hi)⟩

theorem Sound.alloc (h : s.Sound) {k : SlotClass} {idx : Nat} {w' : ArenaWriter}
    (done : s.writer.alloc k = (some idx, w')) :
    idx ∉ s.owned k ∧ (SlotUse.mk w' (Function.update s.owned k (idx :: s.owned k))).Sound := by
  obtain ⟨grows, -⟩ := alloc_some h.ok done
  have handed : idx ∈ only k [idx] k := by simp
  have fresh : idx ∉ s.owned k := fun owned =>
    grows.fresh handed (h.held k idx owned)
  refine ⟨fresh, grows.ok, fun k' => ?_, fun k' i hi => ?_⟩ <;> dsimp only at *
  · by_cases same : k' = k
    · subst same
      rw [Function.update_self]
      exact List.nodup_cons.mpr ⟨fresh, h.nodup k'⟩
    · rw [Function.update_of_ne same]
      exact h.nodup k'
  · by_cases same : k' = k
    · subst same
      rw [Function.update_self] at hi
      rcases List.mem_cons.mp hi with rfl | hi
      · exact grows.heldNew handed
      · exact grows.heldOld (h.held k' i hi)
    · rw [Function.update_of_ne same] at hi
      exact grows.heldOld (h.held k' i hi)

/-- Writing an owned slot moves no account. -/
theorem Sound.write (h : s.Sound) {k : SlotClass} {idx : Nat} (owned : idx ∈ s.owned k)
    {a' : Arena} (capacity : a'.capacity = s.arena.capacity) (pins : a'.pins = s.arena.pins)
    (low : a'.low = s.arena.low) (high : a'.high = s.arena.high)
    (recycler : a'.recycler = s.arena.recycler)
    (node : ∀ k' i, ¬ (k' = k ∧ i = idx) → SameNode s.arena a' k' i) :
    (SlotUse.mk { s.writer with arena := a' } s.owned).Sound := by
  have rewritten : Rewritten s.arena a' := by
    refine ⟨capacity, pins, low, high, recycler, fun k' i hi => (node k' i ?_).readLink⟩
    rintro ⟨rfl, rfl⟩
    exact (h.held k' i owned).2.1 hi
  exact ⟨rewritten.ok h.ok, h.nodup, fun k' i hi =>
    (rewritten.held h.ok k' i).mpr (h.held k' i hi)⟩

theorem mayRetire_spec {log : RetireLog} {k : SlotClass} (may : s.mayRetire log k = true) :
    (log.slots k).Nodup ∧ ∀ i ∈ log.slots k, i ∈ s.owned k := by
  rw [mayRetire, Bool.and_eq_true, decide_eq_true_eq, List.all_eq_true] at may
  exact ⟨may.1, fun i hi => List.contains_iff_mem.mp (may.2 i hi)⟩

theorem Sound.retire (h : s.Sound) {log : RetireLog} (may : ∀ k, s.mayRetire log k = true)
    (stampEpoch : Nat) : (SlotUse.mk (s.writer.retire log stampEpoch).1
      fun k => (s.owned k).filter fun idx => !(log.slots k).contains idx).Sound := by
  obtain ⟨retired, -⟩ := @retire_retired _ h.ok log stampEpoch
    (fun k => (mayRetire_spec (may k)).1)
    (fun k i hi => h.held k i ((mayRetire_spec (may k)).2 i hi))
  refine ⟨retired.ok, fun k => (h.nodup k).filter _, fun k i hi => ?_⟩
  obtain ⟨owned, kept⟩ := List.mem_filter.mp hi
  refine (retired.held k i).mpr ⟨h.held k i owned, fun logged => ?_⟩
  rw [List.contains_iff_mem.mpr logged] at kept
  cases kept

theorem Sound.step (h : s.Sound) {call : SlotCall} (done : s.step call = some s') : s'.Sound := by
  cases call with
  | alloc k =>
      simp only [SlotUse.step] at done
      split at done
      · rename_i w failed
        obtain rfl := Option.some.inj done
        exact h.grown (alloc_none h.ok failed).1
      · rename_i idx w found
        obtain rfl := Option.some.inj done
        exact (h.alloc found).2
  | writeChunk idx val =>
      simp only [SlotUse.step] at done
      split at done
      · rename_i owned
        obtain rfl := Option.some.inj done
        refine h.write (List.contains_iff_mem.mp owned) rfl rfl rfl rfl rfl fun k' i other => ?_
        cases k' with
        | chunk => exact Function.update_of_ne (fun same => other ⟨rfl, same⟩) _ _
        | interior => rfl
      · cases done
  | writeInterior idx val =>
      simp only [SlotUse.step] at done
      split at done
      · rename_i owned
        obtain rfl := Option.some.inj done
        refine h.write (List.contains_iff_mem.mp owned) rfl rfl rfl rfl rfl fun k' i other => ?_
        cases k' with
        | chunk => rfl
        | interior => exact Function.update_of_ne (fun same => other ⟨rfl, same⟩) _ _
      · cases done
  | retire log stampEpoch =>
      simp only [SlotUse.step] at done
      split at done
      · rename_i may
        obtain rfl := Option.some.inj done
        rw [Bool.and_eq_true] at may
        refine h.retire (fun k => ?_) stampEpoch
        cases k with
        | chunk => exact may.1
        | interior => exact may.2
      · cases done
  | reclaim =>
      obtain rfl := Option.some.inj done
      exact h.grown (reclaimReady_reclaimed h.ok).grows
  | guard =>
      obtain rfl := Option.some.inj done
      exact ⟨h.ok, h.nodup, h.held⟩
  | readers gate pins =>
      obtain rfl := Option.some.inj done
      exact ⟨{ h.ok with }, h.nodup, h.held⟩

theorem Sound.run (h : s.Sound) {calls : List SlotCall} (done : s.run calls = some s') :
    s'.Sound := by
  induction calls generalizing s with
  | nil =>
      obtain rfl := Option.some.inj done
      exact h
  | cons call calls ih =>
      obtain ⟨s₁, first, rest⟩ := Option.bind_eq_some_iff.mp done
      exact ih (h.step first) rest

/-- Owners, free lists, bytes and tags of a state. -/
structure Exclusive (s : SlotUse) : Prop where
  /-- An allocation hands out a slot nobody owns, with a tag of its own. -/
  alloc : ∀ k idx w', s.writer.alloc k = (some idx, w') → idx ∉ s.owned k ∧
    idx < w'.arena.bumped k ∧ idx.testBit 31 = false ∧ idx ≠ 0x7FFFFFFF
  nodup : ∀ k, (s.owned k).Nodup
  below : ∀ k, ∀ i ∈ s.owned k, i < s.arena.bumped k
  /-- The links from the head end, visit nothing twice, nothing owned, and as many slots as the
  counter says. -/
  free : ∀ k, ∃ slots, Threaded (s.arena.readLink k) (s.arena.recycler.freeHead k) slots ∧
    slots.Nodup ∧ slots.length = s.arena.recycler.freeCount k ∧ ∀ i ∈ slots, i ∉ s.owned k
  inside : ∀ k, ∀ i < s.arena.bumped k, s.arena.slotByte k i + slotSize k ≤ s.arena.capacity
  apart : ∀ k i k' i', i < s.arena.bumped k → i' < s.arena.bumped k' → (k, i) ≠ (k', i') →
    s.arena.slotByte k i + slotSize k ≤ s.arena.slotByte k' i' ∨
      s.arena.slotByte k' i' + slotSize k' ≤ s.arena.slotByte k i
  aligned : ∀ i < s.arena.bumped .interior, s.arena.slotByte .interior i % 16 = 0
  /-- Tagged offsets of owned slots differ from `NULL` and tell the classes apart. -/
  tags : (∀ i ∈ s.owned .chunk, i ≠ null ∧ isLeaf i = true) ∧
    ∀ i ∈ s.owned .interior, tagInterior i ≠ null ∧ isLeaf (tagInterior i) = false ∧
      stripTag (tagInterior i) = i

theorem Sound.exclusive (h : s.Sound) : s.Exclusive where
  alloc k idx w' done := by
    obtain ⟨fresh, sound⟩ := h.alloc done
    have held : w'.arena.Held k idx := sound.held k idx (by simp)
    have lt := held.lt sound.ok
    exact ⟨fresh, held.1, Nat.testBit_lt_two_pow (by omega), by omega⟩
  nodup := h.nodup
  below k i hi := (h.held k i hi).1
  free k := ⟨s.arena.freeList k, h.ok.threaded k, (List.nodup_append.mp (h.ok.nodup k)).1,
    followLinks_length .., fun i hi owned => (h.held k i owned).2.1 hi⟩
  inside k i hi := by
    have cap := h.ok.capacity_mod
    have low := h.ok.low_mod
    have high := h.ok.high_mod
    have le := h.ok.low_le_high
    have le' := h.ok.high_le
    cases k <;>
      simp only [bumped, slotByte, slotSize, interiorByte, chunkSlot, interiorSlot] at * <;> omega
  apart k i k' i' hi hi' ne := by
    have cap := h.ok.capacity_mod
    have low := h.ok.low_mod
    have high := h.ok.high_mod
    have le := h.ok.low_le_high
    have le' := h.ok.high_le
    cases k <;> cases k' <;>
      simp only [bumped, slotByte, slotSize, interiorByte, chunkSlot, interiorSlot, ne_eq,
        Prod.mk.injEq, true_and, reduceCtorEq, false_and, not_false_eq_true] at * <;> omega
  aligned i hi := by
    have cap := h.ok.capacity_mod
    simp only [slotByte, interiorByte, interiorSlot] at *
    omega
  tags := by
    refine ⟨fun i hi => ?_, fun i hi => ?_⟩
    · have lt := (h.held .chunk i hi).lt h.ok
      exact ⟨by rw [null]; omega, isLeaf_of_lt (by omega)⟩
    · have lt := (h.held .interior i hi).lt h.ok
      refine ⟨?_, isLeaf_tagInterior (by omega), stripTag_tagInterior (by omega)⟩
      rw [tagInterior_eq (by omega), null]
      omega

end SlotUse

/-- Every state of every run of an arena of any accepted capacity keeps slots exclusive. -/
theorem slots_exclusive (capacity : Nat) (a : Arena) (new : Arena.new capacity = some a)
    (calls : List SlotCall) (s : SlotUse) (ran : (SlotUse.start a).run calls = some s) :
    s.Exclusive :=
  ((SlotUse.Sound.start (Arena.new_ok new)).run ran).exclusive

/-- Three slots taken, one of each class given back and taken again. -/
def recycledCalls : List SlotCall :=
  [.alloc .chunk, .alloc .interior, .alloc .chunk, .writeChunk 1 .empty,
    .retire ⟨fun | .chunk => [0] | .interior => [0]⟩ 1, .reclaim, .alloc .chunk, .guard,
    .alloc .interior]

theorem slots_exclusive_recycled : ∃ a s, Arena.new 1000 = some a ∧
    (SlotUse.start a).run recycledCalls = some s ∧ s.owned .chunk = [0, 1] ∧
    s.owned .interior = [0] ∧ s.Exclusive := by
  have ran : (((Arena.new 1000).bind fun a => (SlotUse.start a).run recycledCalls).map
      fun s => (s.owned .chunk, s.owned .interior)) = some ([0, 1], [0]) := by decide +kernel
  obtain ⟨s, ran, owned⟩ := Option.map_eq_some_iff.mp ran
  obtain ⟨a, new, ran⟩ := Option.bind_eq_some_iff.mp ran
  obtain ⟨chunks, interiors⟩ := Prod.mk.inj owned
  exact ⟨a, s, new, ran, chunks, interiors, slots_exclusive 1000 a new _ s ran⟩

end AetherGraph
