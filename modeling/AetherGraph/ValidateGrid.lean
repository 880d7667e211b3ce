import Mathlib.Data.List.Pairwise
import AetherGraph.Foundation.FoldM
import AetherGraph.Foundation.Strided
import AetherGraph.RowValidation

/-! The validation kernel as a grid: which warp takes which row, and what it compares and stores
there word by word. A signed overflow leaves the kernel without a result. -/

namespace AetherGraph

open Foundation

/-- What a warp did with a row: whether it kept it, the words it compared, the words it stored. -/
structure RowTrace where
  ok : Bool
  compared : List Nat
  stored : List (Nat × Nat)
deriving DecidableEq, Repr

namespace RowTrace

/-- `a.x != b.x || …` reads no word past the first that differs. -/
def untilDiffers (f1 f2 : Nat → Nat) : List Nat → List Nat
  | [] => []
  | e :: es => e :: if f1 e = f2 e then untilDiffers f1 f2 es else []

/-- One round over the words each load holds: the compare, the vote, the stores. -/
def round (f1 f2 : Nat → Nat) (loads : List (List Nat)) (rest : RowTrace) : RowTrace :=
  let compared := loads.flatMap (untilDiffers f1 f2)
  if loads.any fun words => words.any fun e => decide (f1 e ≠ f2 e) then ⟨false, compared, []⟩
  else ⟨rest.ok, compared ++ rest.compared,
    loads.flatten.map (fun e => (e, f1 e)) ++ rest.stored⟩

def quad (base : Nat) : List Nat := [base, base + 1, base + 2, base + 3]

/-- Each lane's loads of the rounds in flight. -/
def groupLoads (r : Nat) : List (List Nat) :=
  (List.range 32).flatMap fun lane =>
    (List.range gatherInFlight).map fun k => quad ((r + k) * 128 + lane * 4)

def singleLoads (r : Nat) : List (List Nat) :=
  (List.range 32).map fun lane => quad (r * 128 + lane * 4)

def scalarLoads (dim base : Nat) : List (List Nat) :=
  (List.range 32).map fun lane => if base + lane < dim then [base + lane] else []

def groups (f1 f2 : Nat → Nat) (rounds r : Nat) (rest : Nat → RowTrace) : RowTrace :=
  if r + gatherInFlight ≤ rounds then
    round f1 f2 (groupLoads r) (groups f1 f2 rounds (r + gatherInFlight) rest)
  else rest r
termination_by rounds - r
decreasing_by simp only [gatherInFlight] at *; omega

def singles (f1 f2 : Nat → Nat) (rounds r : Nat) (rest : RowTrace) : RowTrace :=
  if r < rounds then round f1 f2 (singleLoads r) (singles f1 f2 rounds (r + 1) rest) else rest
termination_by rounds - r

def scalars (f1 f2 : Nat → Nat) (dim base : Nat) : RowTrace :=
  if base < dim then round f1 f2 (scalarLoads dim base) (scalars f1 f2 dim (base + 32))
  else ⟨true, [], []⟩
termination_by dim - base

/-- `warp_compare_and_compact`, word by word. -/
def compareAndCompact (f1 f2 : Nat → Nat) (dim : Nat) : RowTrace :=
  if dim % 4 = 0 then
    let rounds := dim / 128
    groups f1 f2 rounds 0 fun r => singles f1 f2 rounds r (scalars f1 f2 dim (rounds * 128))
  else scalars f1 f2 dim 0

/-- The trace of the words from `lo` up to `hi`. -/
structure Covers (f1 f2 : Nat → Nat) (lo hi : Nat) (t : RowTrace) : Prop where
  ok : t.ok = true ↔ Agree f1 f2 lo hi
  compared : t.ok = true → t.compared.Perm (List.range' lo (hi - lo))
  stored : t.ok = true → (t.stored.map Prod.fst).Perm (List.range' lo (hi - lo))
  apart : (t.stored.map Prod.fst).Nodup
  words : ∀ s ∈ t.stored, lo ≤ s.1 ∧ s.1 < hi ∧ s.2 = f1 s.1

theorem untilDiffers_eq {f1 f2 : Nat → Nat} {es : List Nat} (same : ∀ e ∈ es, f1 e = f2 e) :
    untilDiffers f1 f2 es = es := by
  induction es with
  | nil => rfl
  | cons e es ih =>
      rw [untilDiffers, if_pos (same e List.mem_cons_self),
        ih fun e' mem => same e' (List.mem_cons_of_mem e mem)]

theorem range'_append_perm {lo mid hi : Nat} (low : lo ≤ mid) (high : mid ≤ hi) {xs ys : List Nat}
    (first : xs.Perm (List.range' lo (mid - lo))) (second : ys.Perm (List.range' mid (hi - mid))) :
    (xs ++ ys).Perm (List.range' lo (hi - lo)) := by
  have split : List.range' lo (mid - lo) ++ List.range' mid (hi - mid) =
      List.range' lo (hi - lo) := by
    have := List.range'_append_1 (s := lo) (m := mid - lo) (n := hi - mid)
    rw [Nat.add_sub_cancel' low] at this
    rw [this]
    congr 1
    omega
  rw [← split]
  exact first.append second

/-- A round over the words up to `mid`, and then the rest. -/
theorem Covers.round {f1 f2 : Nat → Nat} {lo mid hi : Nat} (low : lo ≤ mid) (high : mid ≤ hi)
    {loads : List (List Nat)} (words : loads.flatten.Perm (List.range' lo (mid - lo)))
    {rest : RowTrace} (h : Covers f1 f2 mid hi rest) :
    Covers f1 f2 lo hi (round f1 f2 loads rest) := by
  have mem : ∀ e, e ∈ loads.flatten ↔ lo ≤ e ∧ e < mid := by
    intro e
    rw [words.mem_iff, List.mem_range'_1]
    omega
  have vote : (loads.any fun words => words.any fun e => decide (f1 e ≠ f2 e)) = false ↔
      Agree f1 f2 lo mid := by
    rw [← List.any_flatten, List.any_eq_false]
    constructor
    · intro none e le lt
      exact not_not.1 fun differ => none e ((mem e).2 ⟨le, lt⟩) (decide_eq_true differ)
    · intro all e found bad
      exact of_decide_eq_true bad (all e ((mem e).1 found).1 ((mem e).1 found).2)
  rw [RowTrace.round]
  cases voted : loads.any fun words => words.any fun e => decide (f1 e ≠ f2 e) with
  | true =>
      rw [if_pos rfl]
      refine ⟨⟨nofun, fun all => ?_⟩, nofun, nofun, List.nodup_nil, nofun⟩
      rw [vote.2 ((Agree.append low high).1 all).1] at voted
      cases voted
  | false =>
      have same := vote.1 voted
      have compared : loads.flatMap (untilDiffers f1 f2) = loads.flatten := by
        rw [List.flatMap_def]
        refine congrArg List.flatten
          ((List.map_congr_left fun words found => ?_).trans (List.map_id _))
        refine untilDiffers_eq fun e inside => ?_
        have bounds := (mem e).1 (List.mem_flatten.2 ⟨words, found, inside⟩)
        exact same e bounds.1 bounds.2
      have stored : (loads.flatten.map fun e => (e, f1 e)).map Prod.fst = loads.flatten := by
        rw [List.map_map]
        exact List.map_id _
      rw [if_neg Bool.false_ne_true, compared]
      refine ⟨?_, fun ok => ?_, fun ok => ?_, ?_, fun s found => ?_⟩
      · exact h.ok.trans ⟨fun rest => (Agree.append low high).2 ⟨same, rest⟩,
          fun all => ((Agree.append low high).1 all).2⟩
      · exact range'_append_perm low high words (h.compared ok)
      · rw [List.map_append, stored]
        exact range'_append_perm low high words (h.stored ok)
      · rw [List.map_append, stored]
        refine List.nodup_append.2 ⟨words.nodup_iff.2 List.nodup_range', h.apart, ?_⟩
        rintro e first e' second rfl
        obtain ⟨s, found, rfl⟩ := List.mem_map.1 second
        have := ((mem _).1 first).2
        have := (h.words s found).1
        omega
      · rcases List.mem_append.1 found with first | second
        · obtain ⟨e, inside, rfl⟩ := List.mem_map.1 first
          have bounds := (mem e).1 inside
          exact ⟨bounds.1, Nat.lt_of_lt_of_le bounds.2 high, rfl⟩
        · have bounds := h.words s second
          exact ⟨Nat.le_trans low bounds.1, bounds.2⟩

theorem Covers.nothing (f1 f2 : Nat → Nat) (lo : Nat) : Covers f1 f2 lo lo ⟨true, [], []⟩ := by
  refine ⟨⟨fun _ => .empty f1 f2 lo, fun _ => rfl⟩, fun _ => ?_, fun _ => ?_, List.nodup_nil, nofun⟩
  · rw [Nat.sub_self]
    exact List.Perm.refl []
  · rw [Nat.sub_self]
    exact List.Perm.refl []

/-- The lanes' loads of some rounds, from the first round's words on. -/
theorem shifted_perm {loads : List (List Nat)} {base count : Nat} (offsets : List (List Nat))
    (shift : loads = offsets.map fun words => words.map (base + ·))
    (whole : offsets.flatten.Perm (List.range count)) :
    loads.flatten.Perm (List.range' base count) := by
  have moved : loads.flatten = offsets.flatten.map (base + ·) := by
    rw [shift, List.map_flatten]
  have range : List.range' base count = (List.range count).map (base + ·) := by
    rw [List.range_eq_range', List.map_add_range']
    rfl
  rw [moved, range]
  exact whole.map _

theorem groupLoads_words (r : Nat) :
    (groupLoads r).flatten.Perm (List.range' (r * 128) (gatherInFlight * 128)) := by
  refine shifted_perm (groupLoads 0) ?_ (by decide +kernel)
  simp only [groupLoads, List.map_flatMap, List.map_map]
  refine congrArg List.flatten (List.map_congr_left fun lane _ => List.map_congr_left fun k _ => ?_)
  simp only [Function.comp_apply, quad, List.map_cons, List.map_nil, Nat.zero_add, Nat.add_mul,
    Nat.add_assoc]

theorem singleLoads_words (r : Nat) :
    (singleLoads r).flatten.Perm (List.range' (r * 128) 128) := by
  refine shifted_perm (singleLoads 0) ?_ (by decide +kernel)
  simp only [singleLoads, List.map_map]
  refine List.map_congr_left fun lane _ => ?_
  simp only [Function.comp_apply, quad, List.map_cons, List.map_nil, Nat.zero_mul, Nat.zero_add,
    Nat.add_assoc]

theorem scalarLoads_words {dim base : Nat} (more : base < dim) :
    (scalarLoads dim base).flatten.Perm (List.range' base (min (base + 32) dim - base)) := by
  have lanes : (scalarLoads dim base).flatten =
      ((List.range 32).filter fun lane => decide (base + lane < dim)).map (base + ·) := by
    rw [scalarLoads]
    induction List.range 32 with
    | nil => rfl
    | cons lane lanes ih =>
        rw [List.map_cons, List.flatten_cons, ih, List.filter_cons]
        by_cases inside : base + lane < dim
        · simp [inside]
        · simp [inside]
  have nodup : (scalarLoads dim base).flatten.Nodup := by
    rw [lanes]
    exact (List.nodup_range.filter _).map fun _ _ same => Nat.add_left_cancel same
  refine (List.perm_ext_iff_of_nodup nodup List.nodup_range').2 fun e => ?_
  rw [lanes, List.mem_map, List.mem_range'_1]
  constructor
  · rintro ⟨lane, mem, rfl⟩
    obtain ⟨inside, fits⟩ := List.mem_filter.1 mem
    have := List.mem_range.1 inside
    have := of_decide_eq_true fits
    omega
  · intro bounds
    exact ⟨e - base, List.mem_filter.2 ⟨List.mem_range.2 (by omega),
      decide_eq_true (by omega)⟩, by omega⟩

theorem scalars_covers (f1 f2 : Nat → Nat) {dim base : Nat} (start : base ≤ dim) :
    Covers f1 f2 base dim (scalars f1 f2 dim base) := by
  fun_induction scalars f1 f2 dim base with
  | case1 base more ih =>
      by_cases last : base + 32 ≤ dim
      · have words := scalarLoads_words more
        rw [Nat.min_eq_left last] at words
        exact Covers.round (by omega) last words (ih last)
      · have words := scalarLoads_words more
        rw [Nat.min_eq_right (by omega)] at words
        have rest : scalars f1 f2 dim (base + 32) = ⟨true, [], []⟩ := by
          rw [scalars, if_neg (by omega)]
        rw [rest]
        exact Covers.round (by omega) (Nat.le_refl _) words (.nothing f1 f2 dim)
  | case2 base done =>
      obtain rfl : base = dim := by omega
      exact .nothing f1 f2 base

theorem singles_covers {f1 f2 : Nat → Nat} {rounds r hi : Nat} {rest : RowTrace}
    (start : r ≤ rounds) (within : rounds * 128 ≤ hi) (h : Covers f1 f2 (rounds * 128) hi rest) :
    Covers f1 f2 (r * 128) hi (singles f1 f2 rounds r rest) := by
  fun_induction singles f1 f2 rounds r rest with
  | case1 r more ih =>
      have words : (singleLoads r).flatten.Perm
          (List.range' (r * 128) ((r + 1) * 128 - r * 128)) := by
        rw [Nat.succ_mul, Nat.add_sub_cancel_left]
        exact singleLoads_words r
      exact Covers.round (by omega) (by omega) words (ih more)
  | case2 r done =>
      obtain rfl : r = rounds := by omega
      exact h

theorem groups_covers {f1 f2 : Nat → Nat} {rounds r hi : Nat} {rest : Nat → RowTrace}
    (start : r ≤ rounds) (within : rounds * 128 ≤ hi)
    (h : ∀ r' ≤ rounds, Covers f1 f2 (r' * 128) hi (rest r')) :
    Covers f1 f2 (r * 128) hi (groups f1 f2 rounds r rest) := by
  fun_induction groups f1 f2 rounds r rest with
  | case1 r fits ih =>
      have words := groupLoads_words r
      rw [show gatherInFlight * 128 = (r + gatherInFlight) * 128 - r * 128 by omega] at words
      exact Covers.round (by omega) (by omega) words (ih fits)
  | case2 r done => exact h r start

/-- The three regions together are the row. -/
theorem compareAndCompact_covers (f1 f2 : Nat → Nat) (dim : Nat) :
    Covers f1 f2 0 dim (compareAndCompact f1 f2 dim) := by
  rw [compareAndCompact]
  split
  · have far : dim / 128 * 128 ≤ dim := Nat.div_mul_le_self dim 128
    have grouped := groups_covers (r := 0) (Nat.zero_le _) far fun r start =>
      singles_covers start far (scalars_covers f1 f2 far)
    rwa [Nat.zero_mul] at grouped
  · exact scalars_covers f1 f2 (Nat.zero_le dim)

end RowTrace

/-- The kernel's arguments and its grid of whole warps. -/
structure ValidateLaunch where
  staging1 : SlotBytes
  staging2 : SlotBytes
  featureDim : Nat
  batchSize : Nat
  slotSize : Nat
  gridDim : Nat
  warpsPerBlock : Nat
  grid_pos : 0 < gridDim
  block_pos : 0 < warpsPerBlock

/-- A word of the output or an entry of the retry mask. -/
inductive ValidateAddr where
  | output (index : Nat)
  | mask (row : Nat)
deriving DecidableEq

abbrev ValidateStore := ValidateAddr × Nat

namespace ValidateLaunch

variable (l : ValidateLaunch)

def blockDim : Nat := l.warpsPerBlock * 32

/-- The unsigned thread index, in warps. -/
def warpOf (blockIdx threadIdx : Nat) : Nat :=
  ((blockIdx * l.blockDim + threadIdx) % 2 ^ 32) >>> 5

def warps : Nat := ((l.gridDim * l.blockDim) % 2 ^ 32) >>> 5

/-- The number of warps the device runs. -/
def gridWarps : Nat := l.gridDim * l.warpsPerBlock

/-- `for (int idx = warp; idx < batch_size; idx += warps)`. -/
def rowsFrom (batchSize warps idx : Nat) : Option (List Nat) :=
  if idx < batchSize ∧ 0 < warps then
    if idx + warps < 2 ^ 31 then (rowsFrom batchSize warps (idx + warps)).map (idx :: ·) else none
  else some []
termination_by batchSize - idx

/-- `feature_tail_offset` in `int`. -/
def tailOffset (featureDim : Nat) : Option Nat :=
  if featureSlotHeadBytes + featureDim * 4 + 7 < 2 ^ 31 then some (featureTailOffset featureDim)
  else none

def slot1 (idx : Nat) : SlotBytes := fun o => l.staging1 (idx * l.slotSize + o)

def slot2 (idx : Nat) : SlotBytes := fun o => l.staging2 (idx * l.slotSize + o)

/-- A word of a slot's payload. -/
def word (slot : SlotBytes) (e : Nat) : Nat := readLe slot (featureSlotHeadBytes + e * 4) 4

def rowTrace (tail idx : Nat) : RowTrace :=
  let head1 := readLe (l.slot1 idx) 0 8
  let head2 := readLe (l.slot2 idx) 0 8
  let tail1 := readLe (l.slot1 idx) tail 8
  let tail2 := readLe (l.slot2 idx) tail 8
  if head1 = tail1 ∧ head1 = head2 ∧ head1 = tail2 ∧ head1 % 2 = 0 ∧ head1 ≠ 0 then
    RowTrace.compareAndCompact (word (l.slot1 idx)) (word (l.slot2 idx)) l.featureDim
  else ⟨false, [], []⟩

/-- The rows of one warp, from its lanes' common index. -/
def warpRun (tail : Nat) (w lane : Nat) : Option (List (Nat × RowTrace)) :=
  (rowsFrom l.batchSize l.warps
    (l.warpOf (w / l.warpsPerBlock) (w % l.warpsPerBlock * 32 + lane))).map fun rows =>
    rows.map fun idx => (idx, l.rowTrace tail idx)

/-- What each warp did; `none` once a signed overflow has left nothing defined. -/
def validateAndCompact : Option (List (List (Nat × RowTrace))) :=
  if l.warps = 0 then some []
  else do
    let tail ← tailOffset l.featureDim
    (List.finRange l.gridWarps).mapM fun w : Fin l.gridWarps => l.warpRun tail w 0

/-- The stores of a row: what its lanes kept, and lane 0's flag. -/
def rowStores (row : Nat × RowTrace) : List ValidateStore :=
  row.2.stored.map (fun s => (.output (row.1 * l.featureDim + s.1), s.2)) ++
    [(.mask row.1, if row.2.ok then 0 else 1)]

def stores (runs : List (List (Nat × RowTrace))) : List ValidateStore :=
  runs.flatten.flatMap l.rowStores

def retries (run : List (Nat × RowTrace)) : Nat := (run.filter fun row => !row.2.ok).length

/-- One atomic add a warp, none where nothing was torn. -/
def added (runs : List (List (Nat × RowTrace))) : List Nat :=
  (runs.map retries).filter fun n => n ≠ 0

/-- The device's memory once the stores have landed in this order. -/
def landed (order : List ValidateStore) (memory : ValidateAddr → Nat) : ValidateAddr → Nat :=
  order.foldl (fun memory s => Function.update memory s.1 s.2) memory

/-- The rows the host's rule reports. -/
def torn : List Nat :=
  tornRows l.staging1 l.staging2 l.slotSize l.featureDim (List.range l.batchSize)

/-- Every row of the batch is handled once and as the host's rule has it, in whatever order the
stores of the warps land. -/
structure Covered (runs : List (List (Nat × RowTrace))) : Prop where
  rows : (runs.flatten.map Prod.fst).Perm (List.range l.batchSize)
  mask : ∀ order, order.Perm (l.stores runs) → ∀ memory, ∀ i < l.batchSize,
    landed order memory (.mask i) = 0 ↔ i ∉ l.torn
  count : (added runs).sum = l.torn.length
  output : ∀ order, order.Perm (l.stores runs) → ∀ memory, ∀ i < l.batchSize, i ∉ l.torn →
    ∀ e < l.featureDim,
      landed order memory (.output (i * l.featureDim + e)) = word (l.slot1 i) e
  once : ∀ row ∈ runs.flatten, row.1 ∉ l.torn →
    row.2.compared.Perm (List.range l.featureDim) ∧
      (row.2.stored.map Prod.fst).Perm (List.range l.featureDim)

/-- The kernel has a result, and that covers the batch. -/
def CoversBatch : Prop := ∃ runs, l.validateAndCompact = some runs ∧ l.Covered runs

/-- The arithmetic of the launch stays within its types. -/
def Fits : Prop :=
  l.batchSize = 0 ∧ l.warps = 0 ∨
    featureSlotHeadBytes + l.featureDim * 4 + 7 < 2 ^ 31 ∧
      (l.batchSize = 0 ∨ l.gridWarps < 2 ^ 27 ∧ l.batchSize + l.gridWarps ≤ 2 ^ 31)

theorem gridWarps_pos : 0 < l.gridWarps := Nat.mul_pos l.grid_pos l.block_pos

/-- The lanes of a warp compute one number, the warp's own as far as 32 bits tell. -/
theorem warpOf_lane (w : Nat) {lane : Nat} (inside : lane < 32) :
    l.warpOf (w / l.warpsPerBlock) (w % l.warpsPerBlock * 32 + lane) = w % 2 ^ 27 := by
  have split := Nat.div_add_mod w l.warpsPerBlock
  have index : w / l.warpsPerBlock * l.blockDim + (w % l.warpsPerBlock * 32 + lane) =
      w * 32 + lane := by
    calc w / l.warpsPerBlock * l.blockDim + (w % l.warpsPerBlock * 32 + lane)
        = (l.warpsPerBlock * (w / l.warpsPerBlock) + w % l.warpsPerBlock) * 32 + lane := by
          rw [blockDim, Nat.add_mul, Nat.add_assoc, Nat.mul_left_comm, Nat.mul_assoc]
      _ = w * 32 + lane := by rw [split]
  rw [warpOf, index, Nat.shiftRight_eq_div_pow]
  omega

theorem warps_eq : l.warps = l.gridWarps % 2 ^ 27 := by
  rw [warps, blockDim, ← Nat.mul_assoc, Nat.shiftRight_eq_div_pow, gridWarps]
  omega

section Row

variable {l}

/-- A row's trace as the host's rule has it. -/
structure RowSound (l : ValidateLaunch) (idx : Nat) (t : RowTrace) : Prop where
  ok : t.ok = !tornRow (l.slot1 idx) (l.slot2 idx) l.featureDim
  compared : t.ok = true → t.compared.Perm (List.range l.featureDim)
  stored : t.ok = true → (t.stored.map Prod.fst).Perm (List.range l.featureDim)
  apart : (t.stored.map Prod.fst).Nodup
  words : ∀ s ∈ t.stored, s.1 < l.featureDim ∧ s.2 = word (l.slot1 idx) s.1

theorem agree_words (idx : Nat) :
    Agree (word (l.slot1 idx)) (word (l.slot2 idx)) 0 l.featureDim ↔
      payloadBytes (l.slot1 idx) l.featureDim = payloadBytes (l.slot2 idx) l.featureDim := by
  rw [payloadBytes_eq]
  exact ⟨fun all e lt => all e (Nat.zero_le e) lt, fun all e _ lt => all e lt⟩

theorem rowTrace_sound (l : ValidateLaunch) (idx : Nat) :
    l.RowSound idx (l.rowTrace (featureTailOffset l.featureDim) idx) := by
  have covers := RowTrace.compareAndCompact_covers (word (l.slot1 idx)) (word (l.slot2 idx))
    l.featureDim
  have rule : tornRow (l.slot1 idx) (l.slot2 idx) l.featureDim =
      !acceptSlots (l.slot1 idx) (l.slot2 idx) l.featureDim := tornRow_eq _ _ _
  rw [rowTrace]
  split
  · rename_i stable
    rw [featureTailOffset_eq] at stable
    refine ⟨?_, fun ok => ?_, fun ok => ?_, covers.apart, fun s mem => (covers.words s mem).2⟩
    · rw [rule, Bool.not_not, Bool.eq_iff_iff, covers.ok, agree_words, acceptSlots, acceptRow]
      simp only [Bool.and_eq_true, decide_eq_true_eq]
      exact ⟨fun same => ⟨stable, same⟩, And.right⟩
    · have compared := covers.compared ok
      rwa [Nat.sub_zero, ← List.range_eq_range'] at compared
    · have stored := covers.stored ok
      rwa [Nat.sub_zero, ← List.range_eq_range'] at stored
  · rename_i unstable
    rw [featureTailOffset_eq] at unstable
    refine ⟨?_, by rintro ⟨⟩, by rintro ⟨⟩, List.nodup_nil, by rintro _ ⟨⟩⟩
    rw [rule, Bool.not_not, Bool.eq_iff_iff, acceptSlots, acceptRow]
    simp only [Bool.and_eq_true, decide_eq_true_eq]
    exact ⟨by rintro ⟨⟩, fun accepted => absurd accepted.1 unstable⟩

theorem torn_eq (l : ValidateLaunch) : l.torn =
    (List.range l.batchSize).filter fun i => tornRow (l.slot1 i) (l.slot2 i) l.featureDim := rfl

theorem mem_torn {i : Nat} : i ∈ l.torn ↔
    i < l.batchSize ∧ tornRow (l.slot1 i) (l.slot2 i) l.featureDim = true := by
  rw [torn_eq, List.mem_filter, List.mem_range]

theorem landed_frame {order : List ValidateStore} {addr : ValidateAddr}
    (absent : addr ∉ order.map Prod.fst) (memory : ValidateAddr → Nat) :
    landed order memory addr = memory addr := by
  induction order generalizing memory with
  | nil => rfl
  | cons s order ih =>
      rw [List.map_cons, List.mem_cons, not_or] at absent
      rw [landed, List.foldl_cons, ← landed, ih absent.2, Function.update_of_ne absent.1]

/-- Stores to different words: each lands for good. -/
theorem landed_mem {order : List ValidateStore} (apart : (order.map Prod.fst).Nodup)
    {s : ValidateStore} (mem : s ∈ order) (memory : ValidateAddr → Nat) :
    landed order memory s.1 = s.2 := by
  induction order generalizing memory with
  | nil => exact absurd mem List.not_mem_nil
  | cons first order ih =>
      rw [List.map_cons, List.nodup_cons] at apart
      rw [landed, List.foldl_cons, ← landed]
      rcases List.mem_cons.1 mem with rfl | mem
      · rw [landed_frame apart.1, Function.update_self]
      · exact ih apart.2 mem _

theorem RowSound.stores_apart {row : Nat × RowTrace} (h : l.RowSound row.1 row.2) :
    ((l.rowStores row).map Prod.fst).Nodup := by
  rw [rowStores, List.map_append, List.map_map]
  refine List.nodup_append.2 ⟨?_, List.nodup_singleton _, ?_⟩
  · have words := h.apart.map (f := fun e => ValidateAddr.output (row.1 * l.featureDim + e))
      fun a b same => Nat.add_left_cancel (ValidateAddr.output.inj same)
    rwa [List.map_map] at words
  · rintro addr stored addr' flag rfl
    obtain ⟨s, -, eq⟩ := List.mem_map.1 stored
    rw [List.map_singleton, List.mem_singleton] at flag
    rw [flag] at eq
    cases eq

theorem RowSound.stores_addr {row : Nat × RowTrace} (h : l.RowSound row.1 row.2)
    {addr : ValidateAddr} (mem : addr ∈ (l.rowStores row).map Prod.fst) :
    addr = .mask row.1 ∨ ∃ e < l.featureDim, addr = .output (row.1 * l.featureDim + e) := by
  obtain ⟨s, found, rfl⟩ := List.mem_map.1 mem
  rcases List.mem_append.1 found with stored | flag
  · obtain ⟨kept, inside, rfl⟩ := List.mem_map.1 stored
    exact Or.inr ⟨kept.1, (h.words kept inside).1, rfl⟩
  · rw [List.mem_singleton.1 flag]
    exact Or.inl rfl

/-- Rows of one width do not share a word of the output. -/
theorem RowSound.stores_disjoint {a b : Nat × RowTrace} (ha : l.RowSound a.1 a.2)
    (hb : l.RowSound b.1 b.2) (ne : a.1 ≠ b.1) :
    List.Disjoint ((l.rowStores a).map Prod.fst) ((l.rowStores b).map Prod.fst) := by
  have row_eq : ∀ {r e}, e < l.featureDim → (r * l.featureDim + e) / l.featureDim = r :=
    fun {r e} he => by
      rw [Nat.mul_comm, Nat.mul_add_div (by omega), Nat.div_eq_of_lt he, Nat.add_zero]
  intro addr mema memb
  rcases ha.stores_addr mema with rfl | ⟨e, he, rfl⟩
  · rcases hb.stores_addr memb with same | ⟨e', he', same⟩
    · exact ne (ValidateAddr.mask.inj same)
    · cases same
  · rcases hb.stores_addr memb with same | ⟨e', he', same⟩
    · cases same
    · have rows := congrArg (· / l.featureDim) (ValidateAddr.output.inj same)
      simp only [row_eq he, row_eq he'] at rows
      exact ne rows

section Runs

variable {runs : List (List (Nat × RowTrace))}

theorem stores_apart (sound : ∀ row ∈ runs.flatten, l.RowSound row.1 row.2)
    (rows : (runs.flatten.map Prod.fst).Nodup) : ((l.stores runs).map Prod.fst).Nodup := by
  rw [stores, List.map_flatMap, List.nodup_flatMap]
  refine ⟨fun row mem => (sound row mem).stores_apart, ?_⟩
  exact (List.pairwise_map.1 rows).imp_of_mem fun ha hb ne =>
    (sound _ ha).stores_disjoint (sound _ hb) ne

theorem sum_added (runs : List (List (Nat × RowTrace))) :
    (added runs).sum = (runs.flatten.filter fun row => !row.2.ok).length := by
  rw [added]
  induction runs with
  | nil => rfl
  | cons run runs ih =>
      rw [List.map_cons, List.flatten_cons, List.filter_append, List.length_append, ← ih,
        List.filter_cons]
      split
      · rw [List.sum_cons, retries]
      · rename_i none
        have zero : retries run = 0 := by simpa using none
        rw [← retries, zero, Nat.zero_add]

/-- Runs that take each row once cover the batch. -/
theorem covered_of_rows (sound : ∀ row ∈ runs.flatten, l.RowSound row.1 row.2)
    (rows : (runs.flatten.map Prod.fst).Perm (List.range l.batchSize)) : l.Covered runs := by
  have apart := stores_apart sound (rows.nodup_iff.2 List.nodup_range)
  have taken : ∀ i < l.batchSize, ∃ row ∈ runs.flatten, row.1 = i := by
    intro i lt
    obtain ⟨row, mem, same⟩ := List.mem_map.1 (rows.mem_iff.2 (List.mem_range.2 lt))
    exact ⟨row, mem, same⟩
  have store : ∀ order, order.Perm (l.stores runs) → ∀ memory, ∀ row ∈ runs.flatten,
      ∀ s ∈ l.rowStores row, landed order memory s.1 = s.2 := by
    intro order perm memory row mem s stored
    refine landed_mem ((perm.map Prod.fst).nodup_iff.2 apart) (perm.mem_iff.2 ?_) memory
    exact List.mem_flatMap.2 ⟨row, mem, stored⟩
  have kept : ∀ row ∈ runs.flatten, row.1 ∉ l.torn → row.2.ok = true := by
    intro row mem clean
    have lt : row.1 < l.batchSize :=
      List.mem_range.1 (rows.mem_iff.1 (List.mem_map_of_mem mem))
    rw [(sound row mem).ok, Bool.not_eq_true']
    exact Bool.eq_false_iff.2 fun torn => clean (mem_torn.2 ⟨lt, torn⟩)
  refine ⟨rows, ?_, ?_, ?_, ?_⟩
  · intro order perm memory i lt
    obtain ⟨row, mem, rfl⟩ := taken i lt
    have flag := store order perm memory row mem _
      (List.mem_append_right _ (List.mem_singleton_self _))
    rw [flag, (sound row mem).ok, mem_torn]
    cases tornRow (l.slot1 row.1) (l.slot2 row.1) l.featureDim with
    | true => simp [lt]
    | false => simp
  · have counted := (rows.filter fun i => tornRow (l.slot1 i) (l.slot2 i) l.featureDim).length_eq
    rw [sum_added, torn_eq, ← counted, List.filter_map, List.length_map]
    refine congrArg List.length (List.filter_congr fun row mem => ?_)
    rw [(sound row mem).ok, Bool.not_not, Function.comp_apply]
  · intro order perm memory i lt clean e he
    obtain ⟨row, mem, rfl⟩ := taken i lt
    have words := (sound row mem).stored (kept row mem clean)
    obtain ⟨s, found, rfl⟩ := List.mem_map.1 (words.mem_iff.2 (List.mem_range.2 he))
    have value := store order perm memory row mem (.output (row.1 * l.featureDim + s.1), s.2)
      (List.mem_append_left _ (List.mem_map.2 ⟨s, found, rfl⟩))
    exact value.trans ((sound row mem).words s found).2
  · intro row mem clean
    have ok := kept row mem clean
    exact ⟨(sound row mem).compared ok, (sound row mem).stored ok⟩

end Runs

end Row

section Grid

theorem rowsFrom_eq {batchSize warps idx : Nat} (short : batchSize + warps ≤ 2 ^ 31) :
    rowsFrom batchSize warps idx = some (strided warps batchSize idx) := by
  fun_induction rowsFrom batchSize warps idx with
  | case1 idx more fits ih =>
      rw [ih, strided.eq_1 warps batchSize idx, if_pos more, Option.map_some]
  | case2 idx more wraps => omega
  | case3 idx done => rw [strided, if_neg done]

/-- A counter that comes by `j` overflows if the step after `j` does. -/
theorem rowsFrom_none {batchSize warps idx j : Nat}
    (taken : j ∈ strided warps batchSize idx) (wraps : 2 ^ 31 ≤ j + warps) :
    rowsFrom batchSize warps idx = none := by
  fun_induction rowsFrom batchSize warps idx with
  | case1 idx more fits ih =>
      rw [strided, if_pos more] at taken
      rcases List.mem_cons.1 taken with rfl | later
      · omega
      · rw [ih later, Option.map_none]
  | case2 => rfl
  | case3 idx done =>
      rw [strided, if_neg done] at taken
      exact absurd taken List.not_mem_nil

theorem rowsFrom_zero {batchSize warps : Nat} {rows : List Nat} (more : 0 < batchSize)
    (positive : 0 < warps) (ran : rowsFrom batchSize warps 0 = some rows) : 0 ∈ rows := by
  rw [rowsFrom, if_pos ⟨more, positive⟩] at ran
  split at ran
  · obtain ⟨rest, -, rfl⟩ := Option.map_eq_some_iff.1 ran
    exact List.mem_cons_self
  · cases ran

variable {l}

theorem warpRun_eq (tail : Nat) (w : Nat) : l.warpRun tail w 0 =
    (rowsFrom l.batchSize l.warps (w % 2 ^ 27)).map fun rows =>
      rows.map fun idx => (idx, l.rowTrace tail idx) := by
  rw [warpRun, warpOf_lane l w (by decide)]

theorem tailOffset_none {dim : Nat} (wraps : ¬featureSlotHeadBytes + dim * 4 + 7 < 2 ^ 31) :
    tailOffset dim = none := if_neg wraps

theorem tailOffset_some {dim : Nat} (fits : featureSlotHeadBytes + dim * 4 + 7 < 2 ^ 31) :
    tailOffset dim = some (featureTailOffset dim) := if_pos fits

/-- What a warp with these rows did. -/
def runOf (l : ValidateLaunch) (tail : Nat) (rows : List Nat) : List (Nat × RowTrace) :=
  rows.map fun idx => (idx, l.rowTrace tail idx)

theorem runOf_rows (tail : Nat) (rows : List Nat) : (l.runOf tail rows).map Prod.fst = rows := by
  rw [runOf, List.map_map]
  exact List.map_id _

theorem runOf_sound {rows : List Nat} {row : Nat × RowTrace}
    (mem : row ∈ l.runOf (featureTailOffset l.featureDim) rows) : l.RowSound row.1 row.2 := by
  obtain ⟨idx, -, same⟩ := List.mem_map.1 mem
  have sound := rowTrace_sound l idx
  generalize l.rowTrace (featureTailOffset l.featureDim) idx = t at same sound
  subst same
  exact sound

theorem flatten_rows (tail : Nat) (rows : Fin l.gridWarps → List Nat) :
    ((List.finRange l.gridWarps).map fun w => l.runOf tail (rows w)).flatten.map Prod.fst =
      (List.finRange l.gridWarps).flatMap rows := by
  rw [List.map_flatten, List.map_map, List.flatMap_def]
  refine congrArg List.flatten (List.map_congr_left fun w _ => ?_)
  rw [Function.comp_apply, runOf_rows]

/-- The grid's runs are those of the rows its warps' numbers lead to. -/
theorem validateAndCompact_runs {runs : List (List (Nat × RowTrace))} (nonzero : l.warps ≠ 0)
    (ran : l.validateAndCompact = some runs) :
    ∃ rows : Fin l.gridWarps → List Nat,
      (∀ w : Fin l.gridWarps,
        rowsFrom l.batchSize l.warps (w % 2 ^ 27) = some (rows w)) ∧
      (runs.flatten.map Prod.fst) = (List.finRange l.gridWarps).flatMap rows := by
  rw [validateAndCompact, if_neg nonzero] at ran
  obtain ⟨tail, -, ran⟩ := Option.bind_eq_some_iff.1 ran
  have each : ∀ w : Fin l.gridWarps, ∃ rows,
      rowsFrom l.batchSize l.warps (w % 2 ^ 27) = some rows := by
    intro w
    cases found : rowsFrom l.batchSize l.warps (w % 2 ^ 27) with
    | some rows => exact ⟨rows, rfl⟩
    | none =>
        have stuck : l.warpRun tail w 0 = none := by rw [warpRun_eq, found, Option.map_none]
        rw [mapM_none (List.mem_finRange w) stuck] at ran
        cases ran
  choose rows taken using each
  have runs_eq : (List.finRange l.gridWarps).mapM (fun w : Fin l.gridWarps => l.warpRun tail w 0) =
      some ((List.finRange l.gridWarps).map fun w => l.runOf tail (rows w)) :=
    mapM_some fun w _ => by rw [warpRun_eq, taken, Option.map_some, runOf]
  refine ⟨rows, taken, ?_⟩
  rw [← Option.some.inj (runs_eq.symm.trans ran), flatten_rows]

theorem covered_of_dealt (rows : Fin l.gridWarps → List Nat) (nonzero : l.warps ≠ 0)
    (fits : featureSlotHeadBytes + l.featureDim * 4 + 7 < 2 ^ 31)
    (each : ∀ w : Fin l.gridWarps, rowsFrom l.batchSize l.warps (w % 2 ^ 27) = some (rows w))
    (dealt : ((List.finRange l.gridWarps).flatMap rows).Perm (List.range l.batchSize)) :
    l.CoversBatch := by
  have ran : l.validateAndCompact = some ((List.finRange l.gridWarps).map fun w =>
      l.runOf (featureTailOffset l.featureDim) (rows w)) := by
    rw [validateAndCompact, if_neg nonzero, tailOffset_some fits]
    refine mapM_some fun w _ => ?_
    rw [warpRun_eq, each w, Option.map_some, runOf]
  refine ⟨_, ran, covered_of_rows (fun row mem => ?_) ?_⟩
  · obtain ⟨run, inside, mem⟩ := List.mem_flatten.1 mem
    obtain ⟨w, -, rfl⟩ := List.mem_map.1 inside
    exact runOf_sound mem
  · rwa [flatten_rows]

theorem covers_of_fits (fits : l.Fits) : l.CoversBatch := by
  by_cases idle : l.warps = 0
  · have empty : l.batchSize = 0 := by
      rcases fits with ⟨empty, -⟩ | ⟨-, empty | ⟨few, -⟩⟩
      · exact empty
      · exact empty
      · rw [warps_eq, Nat.mod_eq_of_lt few] at idle
        exact absurd idle l.gridWarps_pos.ne'
    refine ⟨[], by rw [validateAndCompact, if_pos idle], covered_of_rows nofun ?_⟩
    rw [empty]
    exact List.Perm.refl []
  · obtain ⟨tail, rest⟩ := fits.resolve_left fun none => idle none.2
    by_cases empty : l.batchSize = 0
    · refine covered_of_dealt (fun _ => []) idle tail (fun w => ?_) ?_
      · rw [empty, rowsFrom, if_neg fun more => Nat.not_lt_zero _ more.1]
      · rw [empty, List.flatMap_eq_nil_iff.2 fun _ _ => rfl]
        exact List.Perm.refl []
    · obtain ⟨few, short⟩ := rest.resolve_left empty
      have all : l.warps = l.gridWarps := by rw [warps_eq, Nat.mod_eq_of_lt few]
      have dealt := lanes_strided l.gridWarps_pos l.batchSize 0
      rw [Nat.sub_zero, ← List.range_eq_range'] at dealt
      refine covered_of_dealt _ idle tail (fun w => ?_) dealt
      rw [Nat.mod_eq_of_lt (Nat.lt_trans w.isLt few), all, rowsFrom_eq short, Nat.zero_add]

/-- Past `2 ^ 27` warps the numbers repeat, and two warps take row 0. -/
theorem not_covered_of_many {runs : List (List (Nat × RowTrace))} (more : 0 < l.batchSize)
    (nonzero : l.warps ≠ 0) (many : 2 ^ 27 < l.gridWarps)
    (ran : l.validateAndCompact = some runs) : ¬l.Covered runs := by
  intro covered
  obtain ⟨rows, taken, dealt⟩ := validateAndCompact_runs nonzero ran
  have nodup := covered.rows.nodup_iff.2 List.nodup_range
  rw [dealt, List.nodup_flatMap] at nodup
  have zero : ∀ w : Fin l.gridWarps, (w : Nat) % 2 ^ 27 = 0 → 0 ∈ rows w := by
    intro w same
    have ran := taken w
    rw [same] at ran
    exact rowsFrom_zero more (Nat.pos_of_ne_zero nonzero) ran
  let first : Fin l.gridWarps := ⟨0, by omega⟩
  let second : Fin l.gridWarps := ⟨2 ^ 27, many⟩
  have symmetric : Std.Symm (Function.onFun List.Disjoint rows) := 
    ⟨fun a b (h : List.Disjoint (rows a) (rows b)) _ hb ha => h ha hb⟩
  have apart := nodup.2.forall (List.mem_finRange first) (List.mem_finRange second)
    fun same => absurd (congrArg Fin.val same) (show ¬(0 : Nat) = 2 ^ 27 by decide)
  exact apart (zero first (Nat.zero_mod _)) (zero second (Nat.mod_self _))

theorem fits_of_covers (covers : l.CoversBatch) : l.Fits := by
  obtain ⟨runs, ran, covered⟩ := covers
  by_cases idle : l.warps = 0
  · rw [validateAndCompact, if_pos idle] at ran
    obtain rfl := Option.some.inj ran
    have none := covered.rows.length_eq
    rw [List.length_range] at none
    exact Or.inl ⟨none.symm, idle⟩
  · by_cases tail : featureSlotHeadBytes + l.featureDim * 4 + 7 < 2 ^ 31
    · refine Or.inr ⟨tail, ?_⟩
      by_cases empty : l.batchSize = 0
      · exact Or.inl empty
      · have more : 0 < l.batchSize := Nat.pos_of_ne_zero empty
        have few : l.gridWarps < 2 ^ 27 := by
          by_contra many
          rcases Nat.lt_or_eq_of_le (Nat.le_of_not_lt many) with past | exact
          · exact not_covered_of_many more idle past ran covered
          · rw [warps_eq, ← exact] at idle
            exact idle (by decide)
        refine Or.inr ⟨few, ?_⟩
        by_contra wraps
        have all : l.warps = l.gridWarps := by rw [warps_eq, Nat.mod_eq_of_lt few]
        obtain ⟨rows, taken, -⟩ := validateAndCompact_runs idle ran
        obtain ⟨w, last, -⟩ := existsUnique_lane
          (Nat.sub_one_lt empty) l.gridWarps_pos
        have ran := taken w
        rw [Nat.mod_eq_of_lt (Nat.lt_trans w.isLt few), all,
          rowsFrom_none last (by omega)] at ran
        cases ran
    · rw [validateAndCompact, if_neg idle, tailOffset_none tail] at ran
      cases ran

/-- The kernel covers the batch exactly when the launch's arithmetic stays within its types. -/
theorem coversBatch_iff (l : ValidateLaunch) : l.CoversBatch ↔ l.Fits :=
  ⟨fits_of_covers, covers_of_fits⟩

end Grid

/-- A batch as long as `int` allows overflows the row counter of the warp that takes its last row,
on any grid. -/
theorem coversBatch_fails : ¬∀ l : ValidateLaunch, l.CoversBatch := by
  intro always
  let l : ValidateLaunch :=
    ⟨fun _ => 0, fun _ => 0, 4, 2 ^ 31 - 1, 64, 4096, 8, by decide, by decide⟩
  have grid : l.gridWarps = 32768 := by decide
  have fits := fits_of_covers (always l)
  rw [Fits, grid] at fits
  rcases fits with ⟨empty, -⟩ | ⟨-, empty | ⟨-, short⟩⟩
  · exact absurd empty (by decide)
  · exact absurd empty (by decide)
  · exact absurd short (by decide)

end ValidateLaunch

end AetherGraph
