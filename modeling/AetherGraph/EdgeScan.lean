import AetherGraph.CsrBuild
import AetherGraph.Foundation.CountingSort

/-! Building a graph from an edge list: one scan in parallel chunks validates, counts degrees
and notes whether the input is grouped by source; grouped input is copied, other input is
scattered backwards.  An index past an array is a panic, written `none`.  Here the build itself
and what its scan finds, whatever the chunks. -/

namespace AetherGraph

open Foundation

/-- The arguments of `build_csr`. -/
structure EdgeInput where
  numNodes : Nat
  numDstNodes : Nat
  numEdges : Nat
  srcAt : Nat → Nat
  dstAt : Nat → Nat
  weights : Option (List Float32)

structure CsrArrays where
  offsets : List Nat
  edges : List Nat
  weights : Option (List Float32)

/-- `out[pos] = v`. -/
def storeAt {α : Type} (out : List α) (pos : Nat) (v : α) : Option (List α) :=
  if pos < out.length then some (out.set pos v) else none

/-- The earlier of two edges, where `usize::MAX` is no edge. -/
def firstOf : Option Nat → Option Nat → Option Nat
  | none, b => b
  | some a, none => some a
  | some a, some b => some (min a b)

namespace EdgeInput

variable (input : EdgeInput)

/-- An endpoint is out of range. -/
def Bad (i : Nat) : Prop := input.numNodes ≤ input.srcAt i ∨ input.numDstNodes ≤ input.dstAt i

instance (i : Nat) : Decidable (input.Bad i) := by unfold Bad; infer_instance

/-- The loop of `scan` over `remaining` edges from `i` on: the first bad edge, and whether the
edges are grouped. -/
def scanFrom : Nat → Nat → Nat → Bool → Option Nat × Bool
  | 0, _, _, grouped => (none, grouped)
  | remaining + 1, i, prev, grouped =>
      if input.Bad i then (some i, false)
      else scanFrom remaining (i + 1) (input.srcAt i) (grouped && decide (prev ≤ input.srcAt i))

/-- The range's first edge is compared across the seam to the range before. -/
def scan (range : Nat × Nat) : Option Nat × Bool :=
  input.scanFrom (range.2 - range.1) range.1 0
    (decide (range.1 = 0) || decide (input.srcAt (range.1 - 1) ≤ input.srcAt range.1))

def merge (a b : Option Nat × Bool) : Option Nat × Bool := (firstOf a.1 b.1, a.2 && b.2)

/-- The chunks' results reduced with an associative `merge`. -/
def scanAll (split : List (Nat × Nat)) : Option Nat × Bool :=
  split.foldr (fun range rest => merge (input.scan range) rest) (none, true)

/-- Degrees one place up, summed into row ends in place; `landed` are the sources in the order
their increments arrive. -/
def rowEnds (landed : List Nat) : List Nat :=
  CountingSort.sums input.numNodes
    (landed.foldl (fun offsets s => offsets.modify (s + 1) (· + 1))
      (List.replicate (input.numNodes + 1) 0))

def storeWeight (out : Option (List Float32)) (pos i : Nat) : Option (Option (List Float32)) :=
  match out, input.weights with
  | some out, some w => do
      let v ← w[i]?
      let out ← storeAt out pos v
      some (some out)
  | out, _ => some out

/-- One edge of the backward scatter: its row's end moves down and takes it. -/
def scatterStep (acc : CsrArrays) (i : Nat) : Option CsrArrays := do
  let stop ← acc.offsets[input.srcAt i + 1]?
  if stop = 0 then none
  else
    let pos := stop - 1
    let edges ← storeAt acc.edges pos (input.dstAt i)
    let weights ← input.storeWeight acc.weights pos i
    some ⟨acc.offsets.set (input.srcAt i + 1) pos, edges, weights⟩

def scatter (offsets : List Nat) : Option CsrArrays :=
  ((List.range input.numEdges).reverse.foldlM input.scatterStep
    ⟨offsets, List.replicate input.numEdges 0,
      input.weights.map fun _ => List.replicate input.numEdges 0⟩).map fun acc =>
    -- `copy_within(1.., 0)`, then the last offset
    { acc with offsets :=
        (acc.offsets.drop 1 ++ acc.offsets.drop input.numNodes).set input.numNodes input.numEdges }

def fill (grouped : Bool) (offsets : List Nat) : Option CsrArrays :=
  if grouped then some ⟨offsets, (List.range input.numEdges).map input.dstAt, input.weights⟩
  else input.scatter offsets

def checkWeights : Except Failure Unit :=
  match input.weights with
  | none => .ok ()
  | some w => ensure (w.length = input.numEdges)
      s!"weights length {w.length} doesn't match edges length {input.numEdges}"

/-- What is said of a bad edge. -/
def complaint (i : Nat) : String :=
  if input.numNodes ≤ input.srcAt i then
    s!"source node {input.srcAt i} exceeds num_nodes {input.numNodes} (edge {i})"
  else
    s!"destination node {input.dstAt i} exceeds num_nodes {input.numDstNodes} (edge {i})"

def buildCsr (split : List (Nat × Nat)) (landed : List Nat) : Except Failure CsrArrays := do
  ensure (input.numNodes ≤ maxNodes)
    s!"num_nodes {input.numNodes} exceeds the u32 node-id limit {maxNodes}"
  ensure (input.numDstNodes ≤ maxNodes)
    s!"destination id space {input.numDstNodes} exceeds the u32 node-id limit {maxNodes}"
  input.checkWeights
  match input.scanAll split with
  | (some i, _) => .error (.error [input.complaint i])
  | (none, grouped) =>
      match input.fill grouped (input.rowEnds landed) with
      | some arrays => .ok arrays
      | none => .error .panic

section Scan

variable {input}

/-- The sources do not decrease into an edge of the range, from the one before it on. -/
def InOrder (input : EdgeInput) (a b : Nat) : Prop :=
  ∀ k, a ≤ k → k < b → input.srcAt (k - 1) ≤ input.srcAt k

/-- What a scan of a range says. -/
structure Scanned (input : EdgeInput) (a b : Nat) (result : Option Nat × Bool) : Prop where
  first : ∀ i, result.1 = some i → a ≤ i ∧ i < b ∧ input.Bad i ∧ ∀ j, a ≤ j → j < i → ¬ input.Bad j
  clean : result.1 = none → (∀ j, a ≤ j → j < b → ¬ input.Bad j) ∧
    (result.2 = true ↔ input.InOrder a b)

theorem inOrder_cons {a b : Nat} (h : a < b) :
    input.InOrder a b ↔ input.srcAt (a - 1) ≤ input.srcAt a ∧ input.InOrder (a + 1) b := by
  constructor
  · exact fun all => ⟨all a (Nat.le_refl a) h, fun k hk => all k (Nat.le_of_succ_le hk)⟩
  · rintro ⟨here, rest⟩ k hk hb
    rcases Nat.lt_or_eq_of_le hk with after | rfl
    · exact rest k after hb
    · exact here

theorem inOrder_append {a b c : Nat} (hab : a ≤ b) (hbc : b ≤ c) :
    input.InOrder a c ↔ input.InOrder a b ∧ input.InOrder b c := by
  constructor
  · exact fun all => ⟨fun k ha hb => all k ha (Nat.lt_of_lt_of_le hb hbc),
      fun k hb hc => all k (Nat.le_trans hab hb) hc⟩
  · rintro ⟨low, high⟩ k ha hc
    rcases Nat.lt_or_ge k b with before | behind
    · exact low k ha before
    · exact high k behind hc

theorem scanFrom_spec (remaining i prev : Nat) (grouped : Bool) :
    (∀ b, (input.scanFrom remaining i prev grouped).1 = some b →
      i ≤ b ∧ b < i + remaining ∧ input.Bad b ∧ ∀ j, i ≤ j → j < b → ¬ input.Bad j) ∧
    ((input.scanFrom remaining i prev grouped).1 = none →
      (∀ j, i ≤ j → j < i + remaining → ¬ input.Bad j) ∧
      ((input.scanFrom remaining i prev grouped).2 = true ↔
        grouped = true ∧ (0 < remaining → prev ≤ input.srcAt i) ∧
          input.InOrder (i + 1) (i + remaining))) := by
  induction remaining generalizing i prev grouped with
  | zero =>
      refine ⟨nofun, fun _ => ⟨fun j hj below => by omega, ?_⟩⟩
      exact ⟨fun h => ⟨h, fun none => absurd none (Nat.lt_irrefl 0), fun k hk below => by omega⟩,
        fun h => h.1⟩
  | succ remaining ih =>
      rw [scanFrom]
      by_cases bad : input.Bad i
      · rw [if_pos bad]
        refine ⟨fun b hb => ?_, nofun⟩
        obtain rfl := Option.some.inj hb
        exact ⟨Nat.le_refl i, by omega, bad, fun j hj below => by omega⟩
      rw [if_neg bad]
      obtain ⟨first, clean⟩ := ih (i + 1) (input.srcAt i)
        (grouped && decide (prev ≤ input.srcAt i))
      refine ⟨fun b hb => ?_, fun none => ?_⟩
      · obtain ⟨low, high, isBad, before⟩ := first b hb
        refine ⟨by omega, by omega, isBad, fun j hj below => ?_⟩
        rcases Nat.lt_or_eq_of_le hj with later | rfl
        · exact before j later below
        · exact bad
      · obtain ⟨good, order⟩ := clean none
        refine ⟨fun j hj below => ?_, order.trans ?_⟩
        · rcases Nat.lt_or_eq_of_le hj with later | rfl
          · exact good j later (by omega)
          · exact bad
        · rw [Bool.and_eq_true, decide_eq_true_eq, and_assoc]
          refine and_congr_right fun _ => and_congr ⟨fun h _ => h, fun h => h (by omega)⟩ ?_
          have stop : i + 1 + remaining = i + (remaining + 1) := by omega
          rw [stop]
          rcases Nat.eq_zero_or_pos remaining with none_ | more
          · exact ⟨fun _ k hk below => by omega,
              fun _ => ⟨fun h => by omega, fun k hk below => by omega⟩⟩
          · rw [inOrder_cons (show i + 1 < i + (remaining + 1) by omega)]
            exact and_congr_left fun _ => ⟨fun h => h more, fun h _ => h⟩

/-- The ranges that meet end to end. -/
def Splits : Nat → List (Nat × Nat) → Nat → Prop
  | start, [], stop => start = stop
  | start, range :: rest, stop =>
      range.1 = start ∧ (start < range.2 ∨ start = 0) ∧ Splits range.2 rest stop

theorem Splits.le {start stop : Nat} {split : List (Nat × Nat)} (h : Splits start split stop) :
    start ≤ stop := by
  induction split generalizing start with
  | nil => exact Nat.le_of_eq h
  | cons range rest ih =>
      have := ih h.2.2
      rcases h.2.1 with less | zero <;> omega

theorem scan_scanned {a b : Nat} (nonempty : a < b ∨ a = 0) :
    Scanned input a b (input.scan (a, b)) := by
  have stop : a + (b - a) = b := by omega
  have spec := @scanFrom_spec input (b - a) a 0
    (decide (a = 0) || decide (input.srcAt (a - 1) ≤ input.srcAt a))
  rw [stop] at spec
  obtain ⟨first, clean⟩ := spec
  refine ⟨first, fun none => ⟨(clean none).1, (clean none).2.trans ?_⟩⟩
  rw [Bool.or_eq_true, decide_eq_true_eq, decide_eq_true_eq]
  rcases Nat.lt_or_ge a b with some_ | empty
  · rw [inOrder_cons some_]
    constructor
    · rintro ⟨rfl | seam, -, rest⟩
      · exact ⟨Nat.le_refl _, rest⟩
      · exact ⟨seam, rest⟩
    · exact fun h => ⟨.inr h.1, fun _ => Nat.zero_le _, h.2⟩
  · exact ⟨fun _ k ha hb => by omega, fun _ => ⟨.inl (by omega), fun _ => Nat.zero_le _,
      fun k ha hb => by omega⟩⟩

theorem Scanned.merge {a b c : Nat} {front back : Option Nat × Bool} (hab : a ≤ b) (hbc : b ≤ c)
    (h : Scanned input a b front) (h' : Scanned input b c back) :
    Scanned input a c (EdgeInput.merge front back) := by
  obtain ⟨bad, grouped⟩ := front
  obtain ⟨bad', grouped'⟩ := back
  cases bad with
  | some i =>
      obtain ⟨low, high, isBad, before⟩ := h.first i rfl
      have min_eq : firstOf (some i) bad' = some i := by
        cases bad' with
        | none => rfl
        | some i' =>
            have := (h'.first i' rfl).1
            exact congrArg some (Nat.min_eq_left (by omega))
      refine ⟨fun k hk => ?_, fun none => ?_⟩
      · obtain rfl := Option.some.inj (min_eq.symm.trans hk)
        exact ⟨low, by omega, isBad, before⟩
      · rw [show (EdgeInput.merge (some i, grouped) (bad', grouped')).1 = some i from min_eq] at none
        cases none
  | none =>
      obtain ⟨good, order⟩ := h.clean rfl
      refine ⟨fun k hk => ?_, fun none => ?_⟩
      · obtain ⟨low, high, isBad, before⟩ := h'.first k hk
        refine ⟨by omega, high, isBad, fun j hj below => ?_⟩
        rcases Nat.lt_or_ge j b with early | late
        · exact good j hj early
        · exact before j late below
      · obtain ⟨good', order'⟩ := h'.clean none
        refine ⟨fun j hj below => ?_, ?_⟩
        · rcases Nat.lt_or_ge j b with early | late
          · exact good j hj early
          · exact good' j late below
        · rw [inOrder_append hab hbc, ← order, ← order']
          exact Bool.and_eq_true_iff

/-- Whatever the split, the scan finds the first bad edge of all, or none and whether the whole
input is in order. -/
theorem scanAll_scanned {start stop : Nat} {split : List (Nat × Nat)}
    (h : Splits start split stop) : Scanned input start stop (input.scanAll split) := by
  induction split generalizing start with
  | nil =>
      obtain rfl : start = stop := h
      exact ⟨nofun, fun _ => ⟨fun j hj below => by omega, fun _ k hk below => by omega,
        fun _ => rfl⟩⟩
  | cons range rest ih =>
      obtain ⟨a, b⟩ := range
      obtain ⟨rfl, nonempty, tail⟩ := h
      exact (scan_scanned nonempty).merge (by rcases nonempty with less | zero <;> omega) tail.le
        (ih tail)

end Scan

end EdgeInput

end AetherGraph
