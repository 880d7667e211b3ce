import AetherGraph.ByteReader
import Mathlib.Data.List.Nodup
import Mathlib.Data.List.Pairwise
import Mathlib.Data.List.Perm.Subperm

/-! How a batch of feature rows lands: the distinct rows in ascending order, back to back, those of
consecutive nodes in one read. -/

namespace AetherGraph

/-- Largest single read a coalesced run may issue. -/
def maxRunBytes : Nat := 2 ^ 20

/-- `rows` rows from node `first` on, at landing position `at_`. -/
structure RowRun where
  first : Nat
  at_ : Nat
  rows : Nat
  deriving DecidableEq, Repr

/-- Each row of the run with its landing position. -/
def RowRun.places (run : RowRun) : List (Nat × Nat) :=
  (List.range run.rows).map fun k => (run.first + k, run.at_ + k)

/-- The nodes whose rows the run reads. -/
def RowRun.nodes (run : RowRun) : List Nat := (List.range run.rows).map (run.first + ·)

/-- Where each requested row lands, and the reads that land them. -/
structure LandingPlan where
  slotOf : List Nat
  runs : List RowRun
  rows : Nat
  deriving DecidableEq, Repr

/-- The loop's state; the newest run comes first, and `rows` is a `u32`. -/
structure Landing where
  slotOf : List Nat
  runs : List RowRun
  rows : Nat
  prev : Option Nat

namespace Landing

/-- The newest run grows by the row, or a run begins. -/
def extend (maxRunRows : Nat) (s : Landing) (node : Nat) : List RowRun :=
  match s.runs with
  | run :: older =>
      if run.rows < maxRunRows ∧ run.first + run.rows = node then
        { run with rows := run.rows + 1 } :: older
      else ⟨node, s.rows, 1⟩ :: run :: older
  | [] => [⟨node, s.rows, 1⟩]

def row (maxRunRows : Nat) (s : Landing) (node : Nat) : Landing :=
  if s.prev = some node then s
  else
    { s with
      runs := s.extend maxRunRows node
      rows := (s.rows + 1) % 2 ^ 32
      prev := some node }

/-- One turn of the loop, on a request's node and its place in the batch. -/
def take (maxRunRows : Nat) (s : Landing) (entry : Nat × Nat) : Landing :=
  let s := s.row maxRunRows entry.1
  { s with slotOf := s.slotOf.set entry.2 ((s.rows + (2 ^ 32 - 1)) % 2 ^ 32) }

end Landing

/-- The node in the high half, the place in the batch below it: a `u64` each. -/
def packRow (node : U32) (i : Nat) : Nat := (node.toNat <<< 32) ||| (i % 2 ^ 64)

/-- The node is the `u32` of the high half. -/
def unpackRow (packed : Nat) : Nat × Nat := ((packed >>> 32) % 2 ^ 32, packed % 2 ^ 32)

/-- The requests in the order the loop sees them. -/
def rowOrder (nodes : List U32) : List (Nat × Nat) :=
  ((nodes.zipIdx.map fun entry => packRow entry.1 entry.2).mergeSort fun a b => decide (a ≤ b)).map
    unpackRow

def landRows (maxRunRows : Nat) (nodes : List U32) : LandingPlan :=
  let s := (rowOrder nodes).foldl (Landing.take maxRunRows)
    ⟨List.replicate nodes.length 0, [], 0, none⟩
  ⟨s.slotOf, s.runs.reverse, s.rows⟩

namespace LandingPlan

/-- A row of no bytes is a division by zero. -/
def new (nodes : List U32) (featureSize : Nat) : Option LandingPlan :=
  if featureSize = 0 then none else some (landRows (max (maxRunBytes / featureSize) 1) nodes)

/-- The rows land exactly in request order. -/
def isIdentity (plan : LandingPlan) : Bool :=
  decide (plan.rows = plan.slotOf.length) &&
    plan.slotOf.zipIdx.all fun slot => decide (slot.1 = slot.2)

end LandingPlan

namespace Landing

variable {maxRunRows : Nat} {nodes rows : List Nat} {done : List (Nat × Nat)} {s : Landing}

/-- The rows landed after a loop over `nodes`. -/
structure Laid (maxRunRows : Nat) (nodes : List Nat) (s : Landing) (rows : List Nat) : Prop where
  ascending : rows.Pairwise (· < ·)
  members : ∀ v, v ∈ rows ↔ v ∈ nodes
  count : s.rows = rows.length % 2 ^ 32
  prev : s.prev = rows.getLast?
  places : s.runs.reverse.flatMap RowRun.places = rows.zipIdx
  lengths : ∀ run ∈ s.runs, 0 < run.rows ∧ (run.rows ≤ maxRunRows ∨ run.rows = 1)

/-- The loop after the entries `done`. -/
structure Tracks (maxRunRows : Nat) (done : List (Nat × Nat)) (s : Landing) (rows : List Nat) :
    Prop where
  laid : Laid maxRunRows (done.map Prod.fst) s rows
  bounded : ∀ slot ∈ s.slotOf, slot = 0 ∨ slot < rows.length
  slots : (done.map Prod.snd).Nodup → ∀ e ∈ done, e.2 < s.slotOf.length →
    ∃ slot, s.slotOf[e.2]? = some slot ∧ rows[slot]? = some e.1

/-- A strictly ascending list below a bound is no longer than it. -/
theorem ascending_length_le {n : Nat} (ascending : rows.Pairwise (· < ·))
    (below : ∀ v ∈ rows, v < n) : rows.length ≤ n := by
  have sub : rows ⊆ List.range n := fun v mem => List.mem_range.mpr (below v mem)
  have nodup : rows.Nodup := ascending.imp fun lt => Nat.ne_of_lt lt
  have shorter := (List.Nodup.subperm nodup sub).length_le
  rwa [List.length_range] at shorter

theorem tracks_nil (n : Nat) :
    Tracks maxRunRows [] ⟨List.replicate n 0, [], 0, none⟩ [] where
  laid :=
    { ascending := List.Pairwise.nil
      members := fun _ => Iff.rfl
      count := rfl
      prev := rfl
      places := rfl
      lengths := fun _ mem => absurd mem List.not_mem_nil }
  bounded := fun _ mem => .inl (List.eq_of_mem_replicate mem)
  slots := fun _ _ mem => absurd mem List.not_mem_nil

/-- The newest run ends at the last row. -/
theorem Laid.newest (h : Laid maxRunRows nodes s rows) {run : RowRun} {older : List RowRun}
    (runs : s.runs = run :: older) : run.at_ + run.rows = rows.length := by
  have positive := (h.lengths run (runs ▸ List.mem_cons_self)).1
  obtain ⟨k, count⟩ := Nat.exists_eq_succ_of_ne_zero (Nat.ne_of_gt positive)
  have places := h.places
  rw [runs, List.reverse_cons, List.flatMap_append, List.flatMap_singleton] at places
  have last := congrArg List.getLast? places
  have here : run.places.getLast? = some (run.first + k, run.at_ + k) := by
    rw [RowRun.places, count, List.range_succ, List.map_append, List.map_singleton,
      List.getLast?_concat]
  rw [List.getLast?_append, here] at last
  have ends : rows.zipIdx.getLast? = rows.getLast?.map fun v => (v, rows.length - 1) := by
    rcases List.eq_nil_or_concat rows with rfl | ⟨front, v, rfl⟩
    · rfl
    · rw [List.concat_eq_append, List.zipIdx_append, List.getLast?_append]
      simp
  rw [ends] at last
  obtain ⟨v, found, same⟩ := Option.map_eq_some_iff.mp last.symm
  have nonempty : rows.length ≠ 0 := fun empty => by
    rw [List.length_eq_zero_iff.mp empty] at found
    cases found
  have place := congrArg Prod.snd same
  dsimp only at place
  omega

/-- A new row at the end of the landing. -/
theorem Laid.places_row (h : Laid maxRunRows nodes s rows) {node : Nat}
    (room : rows.length < 2 ^ 32) :
    (s.extend maxRunRows node).reverse.flatMap RowRun.places = (rows ++ [node]).zipIdx := by
  have count : s.rows = rows.length := by rw [h.count, Nat.mod_eq_of_lt room]
  have fresh : RowRun.places ⟨node, s.rows, 1⟩ = [(node, rows.length)] := by
    rw [RowRun.places, count]
    rfl
  have grown : (rows ++ [node]).zipIdx = rows.zipIdx ++ [(node, rows.length)] := by
    rw [List.zipIdx_append]
    simp
  have places := h.places
  rw [grown, ← places]
  unfold extend
  cases runs : s.runs with
  | nil =>
      rw [List.reverse_singleton, List.flatMap_singleton, fresh]
      rfl
  | cons run older =>
      dsimp only
      split_ifs with joins
      · have more : RowRun.places { run with rows := run.rows + 1 } =
            run.places ++ [(node, rows.length)] := by
          rw [RowRun.places, List.range_succ, List.map_append, List.map_singleton, joins.2,
            h.newest runs]
          rfl
        rw [List.reverse_cons, List.reverse_cons, List.flatMap_append, List.flatMap_append,
          List.flatMap_singleton, List.flatMap_singleton, more, List.append_assoc]
      · rw [List.reverse_cons, List.flatMap_append, List.flatMap_singleton, fresh]

theorem Laid.lengths_row (h : Laid maxRunRows nodes s rows) (node : Nat) :
    ∀ run ∈ s.extend maxRunRows node, 0 < run.rows ∧ (run.rows ≤ maxRunRows ∨ run.rows = 1) := by
  have fresh : ∀ runs : List RowRun, (∀ run ∈ runs, run ∈ s.runs) →
      ∀ run ∈ (⟨node, s.rows, 1⟩ : RowRun) :: runs,
        0 < run.rows ∧ (run.rows ≤ maxRunRows ∨ run.rows = 1) := fun runs old =>
    List.forall_mem_cons.mpr ⟨⟨Nat.one_pos, .inr rfl⟩, fun run mem => h.lengths run (old run mem)⟩
  unfold extend
  cases runs : s.runs with
  | nil => exact fresh [] fun _ mem => absurd mem List.not_mem_nil
  | cons run older =>
      dsimp only
      split_ifs with joins
      · refine List.forall_mem_cons.mpr ⟨⟨Nat.succ_pos _, .inl joins.1⟩, fun run mem => ?_⟩
        exact h.lengths run (runs ▸ List.mem_cons_of_mem _ mem)
      · exact fresh (run :: older) fun _ mem => runs ▸ mem

/-- A node that is not the last row, and no row is above it, is above them all. -/
theorem Laid.below (h : Laid maxRunRows nodes s rows) {node : Nat} (after : ∀ v ∈ nodes, v ≤ node)
    (fresh : ¬s.prev = some node) : ∀ v ∈ rows, v < node := by
  rw [h.prev] at fresh
  rcases List.eq_nil_or_concat rows with rfl | ⟨front, last, rfl⟩
  · exact fun v mem => absurd mem List.not_mem_nil
  · have ascending := h.ascending
    have members := h.members
    rw [List.concat_eq_append] at fresh ascending members ⊢
    rw [List.getLast?_concat] at fresh
    have top : last < node := by
      have here := after last ((members last).mp (List.mem_append_right _ List.mem_cons_self))
      exact Nat.lt_of_le_of_ne here fun eq => fresh (congrArg some eq)
    intro v mem
    rcases List.mem_append.mp mem with early | late
    · have order := (List.pairwise_append.mp ascending).2.2 v early last List.mem_cons_self
      omega
    · exact List.mem_singleton.mp late ▸ top

/-- A node at or above those before it. -/
theorem Laid.row (h : Laid maxRunRows nodes s rows) {node : Nat} (after : ∀ v ∈ nodes, v ≤ node)
    (narrow : node < 2 ^ 32) :
    ∃ rows', Laid maxRunRows (nodes ++ [node]) (s.row maxRunRows node) rows' ∧ rows <+: rows' ∧
      rows'.getLast? = some node := by
  by_cases same : s.prev = some node
  · have last : rows.getLast? = some node := h.prev ▸ same
    refine ⟨rows, ?_, List.prefix_refl rows, last⟩
    rw [Landing.row, if_pos same]
    refine ⟨h.ascending, fun v => ?_, h.count, h.prev, h.places, h.lengths⟩
    rw [List.mem_append, List.mem_singleton, ← h.members]
    exact ⟨.inl, fun either => either.elim id fun eq => eq ▸ List.mem_of_getLast? last⟩
  · have below := h.below after same
    have ascending : (rows ++ [node]).Pairwise (· < ·) :=
      List.pairwise_append.mpr ⟨h.ascending, List.pairwise_singleton _ _, fun v mem w here =>
        List.mem_singleton.mp here ▸ below v mem⟩
    have room : rows.length < 2 ^ 32 :=
      Nat.lt_of_le_of_lt (ascending_length_le h.ascending below) narrow
    refine ⟨rows ++ [node], ?_, List.prefix_append _ _, List.getLast?_concat ..⟩
    rw [Landing.row, if_neg same]
    refine ⟨ascending, fun v => ?_, ?_, (List.getLast?_concat ..).symm, h.places_row room,
      h.lengths_row node⟩
    · rw [List.mem_append, List.mem_append, h.members]
    · show (s.rows + 1) % 2 ^ 32 = (rows ++ [node]).length % 2 ^ 32
      rw [h.count, List.length_append, List.length_singleton, Nat.mod_add_mod]

theorem row_slotOf (s : Landing) (node : Nat) : (s.row maxRunRows node).slotOf = s.slotOf := by
  unfold row
  split_ifs <;> rfl

/-- The entry of a node at or above those before it. -/
theorem Tracks.take (h : Tracks maxRunRows done s rows) {entry : Nat × Nat}
    (after : ∀ e ∈ done, e.1 ≤ entry.1) (narrow : ∀ e ∈ done ++ [entry], e.1 < 2 ^ 32) :
    ∃ rows', Tracks maxRunRows (done ++ [entry]) (s.take maxRunRows entry) rows' := by
  obtain ⟨node, idx⟩ := entry
  obtain ⟨rows', laid, kept, last⟩ : ∃ rows', Laid maxRunRows _ _ rows' ∧ rows <+: rows' ∧
      rows'.getLast? = some node := h.laid.row (List.forall_mem_map.mpr after)
    (narrow _ (List.mem_append_right _ List.mem_cons_self))
  rw [← List.map_singleton (f := Prod.fst) (a := (node, idx)), ← List.map_append] at laid
  have small : rows'.length ≤ 2 ^ 32 := ascending_length_le laid.ascending fun v mem => by
    obtain ⟨e, here, rfl⟩ := List.mem_map.mp ((laid.members v).mp mem)
    exact narrow e here
  have positive : 0 < rows'.length := List.length_pos_of_mem (List.mem_of_getLast? last)
  have slot : ((s.row maxRunRows node).rows + (2 ^ 32 - 1)) % 2 ^ 32 = rows'.length - 1 := by
    rw [laid.count]
    omega
  have lastAt : rows'[rows'.length - 1]? = some node := by
    rw [← List.getLast?_eq_getElem?, last]
  have taken : s.take maxRunRows (node, idx) = { s.row maxRunRows node with
      slotOf := s.slotOf.set idx (rows'.length - 1) } := by
    rw [Landing.take, slot, row_slotOf]
  rw [taken]
  refine ⟨rows', ⟨laid.ascending, laid.members, laid.count, laid.prev, laid.places, laid.lengths⟩,
    fun value mem => ?_, fun nodup e mem inRange => ?_⟩
  · rcases List.mem_or_eq_of_mem_set mem with old | rfl
    · exact (h.bounded value old).imp_right fun lt => Nat.lt_of_lt_of_le lt kept.length_le
    · exact .inr (by omega)
  · rw [List.map_append, List.map_singleton, List.nodup_append] at nodup
    dsimp only at inRange ⊢
    rw [List.length_set] at inRange
    rcases List.mem_append.mp mem with early | late
    · have other : idx ≠ e.2 := fun eq =>
        nodup.2.2 e.2 (List.mem_map_of_mem early) idx List.mem_cons_self eq.symm
      obtain ⟨pos, here, found⟩ := h.slots nodup.1 e early inRange
      rw [List.getElem?_set_ne other]
      refine ⟨pos, here, ?_⟩
      obtain ⟨within, value⟩ := List.getElem?_eq_some_iff.mp found
      rw [← value]
      exact List.prefix_iff_getElem?.mp kept pos within
    · obtain rfl := List.mem_singleton.mp late
      rw [List.getElem?_set_self inRange]
      exact ⟨_, rfl, lastAt⟩

/-- Entries in ascending order of their nodes. -/
theorem Tracks.foldl {entries : List (Nat × Nat)} (h : Tracks maxRunRows done s rows)
    (sorted : (done ++ entries).Pairwise fun a b => a.1 ≤ b.1)
    (narrow : ∀ e ∈ done ++ entries, e.1 < 2 ^ 32) :
    ∃ rows', Tracks maxRunRows (done ++ entries) (entries.foldl (Landing.take maxRunRows) s)
      rows' := by
  induction entries generalizing done s rows with
  | nil => exact ⟨rows, (List.append_nil done).symm ▸ h⟩
  | cons entry entries ih =>
      have split : done ++ entry :: entries = done ++ [entry] ++ entries := by simp
      obtain ⟨rows', next⟩ := h.take
        (fun e mem => (List.pairwise_append.mp sorted).2.2 e mem entry List.mem_cons_self)
        fun e mem => narrow e (split ▸ List.mem_append_left _ mem)
      rw [split] at sorted narrow ⊢
      exact ih next sorted narrow

theorem foldl_slotOf_length (maxRunRows : Nat) (s : Landing) (entries : List (Nat × Nat)) :
    (entries.foldl (Landing.take maxRunRows) s).slotOf.length = s.slotOf.length := by
  induction entries generalizing s with
  | nil => rfl
  | cons entry entries ih =>
      rw [List.foldl_cons, ih, Landing.take, List.length_set, row_slotOf]

end Landing

section RowOrder

variable {nodes : List U32}

theorem packRow_lt (node : U32) (i : Nat) : packRow node i < 2 ^ 64 := by
  refine Nat.or_lt_two_pow ?_ (Nat.mod_lt _ (by decide))
  rw [Nat.shiftLeft_eq]
  have small := node.isLt
  omega

theorem unpackRow_packRow (node : U32) {i : Nat} (short : i < 2 ^ 32) :
    unpackRow (packRow node i) = (node.toNat, i) := by
  unfold packRow unpackRow
  have small := node.isLt
  rw [Nat.mod_eq_of_lt (show i < 2 ^ 64 by omega), Nat.shiftLeft_eq, Nat.mul_comm,
    ← Nat.two_pow_add_eq_or_of_lt short, Nat.shiftRight_eq_div_pow]
  exact Prod.ext (by dsimp only; omega) (by dsimp only; omega)

theorem mergeSort_ascending (xs : List Nat) :
    (xs.mergeSort fun a b => decide (a ≤ b)).Pairwise (· ≤ ·) := by
  have trans : ∀ a b c : Nat, decide (a ≤ b) → decide (b ≤ c) → decide (a ≤ c) :=
    fun _ _ _ ab bc =>
      decide_eq_true (Nat.le_trans (of_decide_eq_true ab) (of_decide_eq_true bc))
  have total : ∀ a b : Nat, decide (a ≤ b) || decide (b ≤ a) := fun a b => by
    simpa using Nat.le_total a b
  exact (List.pairwise_mergeSort trans total xs).imp fun le => of_decide_eq_true le

theorem rowOrder_sorted (nodes : List U32) : (rowOrder nodes).Pairwise fun a b => a.1 ≤ b.1 := by
  unfold rowOrder
  have packed : ∀ p ∈ nodes.zipIdx.map fun entry => packRow entry.1 entry.2, p < 2 ^ 64 :=
    List.forall_mem_map.mpr fun entry _ => packRow_lt entry.1 entry.2
  rw [List.pairwise_map]
  refine (mergeSort_ascending _).imp_of_mem fun {a b} memA memB le => ?_
  have ltA := packed a (List.mem_mergeSort.mp memA)
  have ltB := packed b (List.mem_mergeSort.mp memB)
  unfold unpackRow
  dsimp only
  rw [Nat.shiftRight_eq_div_pow, Nat.shiftRight_eq_div_pow]
  omega

theorem rowOrder_length (nodes : List U32) : (rowOrder nodes).length = nodes.length := by
  rw [rowOrder, List.length_map, List.length_mergeSort, List.length_map, List.length_zipIdx]

theorem rowOrder_narrow (nodes : List U32) : ∀ e ∈ rowOrder nodes, e.1 < 2 ^ 32 :=
  List.forall_mem_map.mpr fun _ _ => Nat.mod_lt _ (by decide)

theorem rowOrder_perm (short : nodes.length ≤ 2 ^ 32) :
    (rowOrder nodes).Perm (nodes.zipIdx.map fun entry => (entry.1.toNat, entry.2)) := by
  unfold rowOrder
  refine ((List.mergeSort_perm _ _).map unpackRow).trans (List.Perm.of_eq ?_)
  rw [List.map_map]
  refine List.map_congr_left fun entry mem => ?_
  have inside := List.snd_lt_of_mem_zipIdx mem
  exact unpackRow_packRow entry.1 (by omega)

end RowOrder

namespace LandingPlan

/-- A plan that lands `rows`, in ascending order. -/
structure Covers (maxRunRows : Nat) (plan : LandingPlan) (rows : List Nat) : Prop where
  ascending : rows.Pairwise (· < ·)
  count : plan.rows = rows.length % 2 ^ 32
  places : plan.runs.flatMap RowRun.places = rows.zipIdx
  lengths : ∀ run ∈ plan.runs, 0 < run.rows ∧ (run.rows ≤ maxRunRows ∨ run.rows = 1)

/-- A plan whose slots lead each request to its own row. -/
structure Serves (plan : LandingPlan) (nodes : List U32) (rows : List Nat) : Prop where
  members : ∀ v, v ∈ rows ↔ v ∈ nodes.map BitVec.toNat
  slots : ∀ (i : Nat) (n : U32), nodes[i]? = some n →
    ∃ slot, plan.slotOf[i]? = some slot ∧ rows[slot]? = some n.toNat

theorem landRows_covers (maxRunRows : Nat) (nodes : List U32) :
    ∃ rows, Covers maxRunRows (landRows maxRunRows nodes) rows ∧
      (∀ v, v ∈ rows ↔ v ∈ (rowOrder nodes).map Prod.fst) ∧
      (landRows maxRunRows nodes).slotOf.length = nodes.length ∧
      (∀ slot ∈ (landRows maxRunRows nodes).slotOf, slot = 0 ∨ slot < rows.length) ∧
      (nodes.length ≤ 2 ^ 32 → Serves (landRows maxRunRows nodes) nodes rows) := by
  have start : Landing.Tracks maxRunRows [] ⟨List.replicate nodes.length 0, [], 0, none⟩ [] :=
    Landing.tracks_nil nodes.length
  have sorted : (([] : List (Nat × Nat)) ++ rowOrder nodes).Pairwise fun a b => a.1 ≤ b.1 :=
    rowOrder_sorted nodes
  obtain ⟨rows, tracks⟩ := start.foldl sorted (rowOrder_narrow nodes)
  have length : (landRows maxRunRows nodes).slotOf.length = nodes.length := by
    show ((rowOrder nodes).foldl (Landing.take maxRunRows) _).slotOf.length = _
    rw [Landing.foldl_slotOf_length, List.length_replicate]
  rw [List.nil_append] at tracks
  have laid := tracks.laid
  refine ⟨rows, ⟨laid.ascending, laid.count, laid.places, fun run mem => ?_⟩, laid.members, length,
    tracks.bounded, fun short => ⟨fun v => ?_, fun i n at_ => ?_⟩⟩
  · exact laid.lengths run (List.mem_reverse.mp mem)
  · rw [laid.members, ((rowOrder_perm short).map Prod.fst).mem_iff, List.map_map]
    show v ∈ nodes.zipIdx.map (BitVec.toNat ∘ Prod.fst) ↔ _
    rw [← List.map_map, List.zipIdx_map_fst]
  · have places : (rowOrder nodes).map Prod.snd |>.Nodup := by
      rw [((rowOrder_perm short).map Prod.snd).nodup_iff, List.map_map]
      show (nodes.zipIdx.map Prod.snd).Nodup
      rw [List.zipIdx_map_snd]
      exact List.nodup_range'
    have mem : (n.toNat, i) ∈ rowOrder nodes := by
      rw [(rowOrder_perm short).mem_iff, List.mem_map]
      exact ⟨(n, i), List.mem_zipIdx_iff_getElem?.mpr at_, rfl⟩
    have inside : i < (landRows maxRunRows nodes).slotOf.length := by
      rw [length]
      exact (List.getElem?_eq_some_iff.mp at_).1
    exact tracks.slots places (n.toNat, i) mem inside

variable {maxRunRows : Nat} {plan : LandingPlan} {rows : List Nat}

namespace Covers

/-- A run's rows stand behind each other in the landing. -/
theorem row_at (h : Covers maxRunRows plan rows) {run : RowRun} (mem : run ∈ plan.runs) {k : Nat}
    (inside : k < run.rows) : rows[run.at_ + k]? = some (run.first + k) := by
  have place : (run.first + k, run.at_ + k) ∈ rows.zipIdx := by
    rw [← h.places, List.mem_flatMap]
    exact ⟨run, mem, List.mem_map.mpr ⟨k, List.mem_range.mpr inside, rfl⟩⟩
  exact List.mem_zipIdx_iff_getElem?.mp place

/-- Every row is in a run. -/
theorem run_of (h : Covers maxRunRows plan rows) {pos : Nat} (inside : pos < rows.length) :
    ∃ run ∈ plan.runs, ∃ k < run.rows, run.at_ + k = pos := by
  have place : (rows[pos], pos) ∈ plan.runs.flatMap RowRun.places := by
    rw [h.places]
    exact List.mem_zipIdx_iff_getElem?.mpr (List.getElem?_eq_getElem inside)
  obtain ⟨run, mem, place⟩ := List.mem_flatMap.mp place
  obtain ⟨k, within, same⟩ := List.mem_map.mp place
  exact ⟨run, mem, k, List.mem_range.mp within, congrArg Prod.snd same⟩

theorem run_inside (h : Covers maxRunRows plan rows) {run : RowRun} (mem : run ∈ plan.runs) :
    run.at_ + run.rows ≤ rows.length := by
  have positive := (h.lengths run mem).1
  have last := h.row_at mem (show run.rows - 1 < run.rows by omega)
  have inside := (List.getElem?_eq_some_iff.mp last).1
  omega

/-- The runs are apart in the file and in the landing. -/
theorem apart (h : Covers maxRunRows plan rows) :
    plan.runs.Pairwise fun a b => a.first + a.rows ≤ b.first ∧ a.at_ + a.rows ≤ b.at_ := by
  have ordered : rows.zipIdx.Pairwise fun x y => x.1 < y.1 ∧ x.2 < y.2 := by
    rw [List.pairwise_iff_getElem]
    intro i j hi hj lt
    rw [List.length_zipIdx] at hi hj
    rw [List.getElem_zipIdx, List.getElem_zipIdx]
    exact ⟨List.pairwise_iff_getElem.mp h.ascending i j hi hj lt, by omega⟩
  rw [← h.places, List.pairwise_flatMap] at ordered
  refine ordered.2.imp_of_mem fun {a b} memA memB before => ?_
  have positiveA := (h.lengths a memA).1
  have positiveB := (h.lengths b memB).1
  have lastA : (a.first + (a.rows - 1), a.at_ + (a.rows - 1)) ∈ a.places :=
    List.mem_map.mpr ⟨a.rows - 1, List.mem_range.mpr (by omega), rfl⟩
  have firstB : (b.first + 0, b.at_ + 0) ∈ b.places :=
    List.mem_map.mpr ⟨0, List.mem_range.mpr positiveB, rfl⟩
  obtain ⟨nodes, slots⟩ := before _ lastA _ firstB
  dsimp only at nodes slots
  omega

/-- The runs together read each row once. -/
theorem runs_nodes (h : Covers maxRunRows plan rows) : plan.runs.flatMap RowRun.nodes = rows := by
  have nodes : ∀ run : RowRun, run.nodes = run.places.map Prod.fst := fun run => by
    rw [RowRun.places, RowRun.nodes, List.map_map]
    rfl
  rw [List.flatMap_congr fun run _ => nodes run, ← List.map_flatMap, h.places,
    List.zipIdx_map_fst]

/-- A run of several rows keeps the read limit. -/
theorem run_bytes {featureSize : Nat}
    (h : Covers (max (maxRunBytes / featureSize) 1) plan rows) {run : RowRun}
    (mem : run ∈ plan.runs) (several : 1 < run.rows) : run.rows * featureSize ≤ maxRunBytes := by
  have within : run.rows ≤ maxRunBytes / featureSize := by
    rcases (h.lengths run mem).2 with le | single <;> omega
  exact Nat.le_trans (Nat.mul_le_mul_right _ within) (Nat.div_mul_le_self _ _)

end Covers

/-- Rows in request order: each request's slot is its own place. -/
theorem slotOf_of_identity (identity : plan.isIdentity = true) :
    plan.slotOf = List.range plan.rows := by
  unfold isIdentity at identity
  rw [Bool.and_eq_true, decide_eq_true_eq, List.all_eq_true] at identity
  obtain ⟨whole, same⟩ := identity
  rw [whole]
  refine List.ext_getElem? fun i => ?_
  rcases Nat.lt_or_ge i plan.slotOf.length with inside | outside
  · have at_ := List.getElem?_eq_getElem inside
    have eq := same (plan.slotOf[i], i) (List.mem_zipIdx_iff_getElem?.mpr at_)
    rw [decide_eq_true_eq] at eq
    rw [List.getElem?_range inside, at_]
    exact congrArg some eq
  · rw [List.getElem?_eq_none outside, List.getElem?_eq_none]
    rwa [List.length_range]

end LandingPlan

end AetherGraph
