import AetherGraph.Foundation.RangeRuns
import Mathlib.Algebra.GroupWithZero.Nat
import Mathlib.Data.List.AList
import Mathlib.Data.List.Induction

/-! The zone-append log's state on the host: completions come in any order, and the durable mark
advances over the contiguous prefix of the completed block ranges. -/

namespace AetherGraph

open Foundation

/-- One completed append; `nlb` is one less than its blocks. -/
structure ZoneAppendCompletion where
  commandId : Nat
  assignedLba : Nat
  nlb : Nat

/-- `pending` holds completed ranges by their start. -/
structure ZoneAppendWal where
  nsid : Nat
  zoneStartLba : Nat
  nextCid : Nat
  highWater : Nat
  pending : AList fun _ : Nat => Nat

namespace ZoneAppendWal

def new (nsid zoneStartLba : Nat) : ZoneAppendWal :=
  { nsid := nsid
    zoneStartLba := zoneStartLba
    nextCid := 1
    highWater := zoneStartLba
    pending := ∅ }

variable (wal : ZoneAppendWal)

theorem erase_length_lt {pending : AList fun _ : Nat => Nat} {hw nextEnd : Nat}
    (found : pending.lookup hw = some nextEnd) :
    (pending.keys.erase hw).length < pending.keys.length := by
  have mem : hw ∈ pending.keys := AList.mem_keys.mp (AList.lookup_isSome.mp (by rw [found]; rfl))
  rw [List.length_erase_of_mem mem]
  exact Nat.sub_lt (List.length_pos_of_mem mem) Nat.one_pos

/-- The mark moves while the range that starts at it is parked. -/
def advance (hw : Nat) (pending : AList fun _ : Nat => Nat) :
    Nat × AList fun _ : Nat => Nat :=
  match found : pending.lookup hw with
  | some nextEnd =>
      have := erase_length_lt found
      advance nextEnd (pending.erase hw)
  | none => (hw, pending)
termination_by pending.keys.length

def saturatingAdd (a b : Nat) : Nat := min (a + b) (2 ^ 64 - 1)

def complete (cqe : ZoneAppendCompletion) : ZoneAppendWal :=
  let start := cqe.assignedLba
  let end_ := saturatingAdd cqe.assignedLba (cqe.nlb + 1)
  let (hw, pending) := advance wal.highWater (wal.pending.insert start end_)
  { wal with
    highWater := hw
    pending := pending }

def durableHighWater : Nat := wal.highWater

/-- The calls of `complete` in order. -/
def completeAll (cqes : List ZoneAppendCompletion) : ZoneAppendWal := cqes.foldl complete wal

end ZoneAppendWal

/-- The blocks of a completion. -/
def ZoneAppendCompletion.range (cqe : ZoneAppendCompletion) : Nat × Nat :=
  (cqe.assignedLba, cqe.assignedLba + cqe.nlb + 1)

/-- Completions of pairwise disjoint ranges in the zone, below the last block. -/
structure ZoneCompletions (zoneStartLba : Nat) (cqes : List ZoneAppendCompletion) : Prop where
  apart : (cqes.map ZoneAppendCompletion.range).Pairwise Apart
  above : ∀ cqe ∈ cqes, zoneStartLba ≤ cqe.assignedLba
  below : ∀ cqe ∈ cqes, cqe.assignedLba + cqe.nlb + 1 < 2 ^ 64

theorem ZoneCompletions.sublist {zoneStartLba : Nat} {cqes cqes' : List ZoneAppendCompletion}
    (h : ZoneCompletions zoneStartLba cqes) (sub : cqes'.Sublist cqes) :
    ZoneCompletions zoneStartLba cqes' where
  apart := h.apart.sublist (sub.map _)
  above := fun cqe mem => h.above cqe (sub.subset mem)
  below := fun cqe mem => h.below cqe (sub.subset mem)

theorem range_forward {cqes : List ZoneAppendCompletion} :
    ∀ r ∈ cqes.map ZoneAppendCompletion.range, r.1 < r.2 := by
  intro r mem
  obtain ⟨cqe, _, rfl⟩ := List.mem_map.mp mem
  exact Nat.lt_succ_of_le (Nat.le_add_right _ _)

namespace ZoneAppendWal

section Tracking

variable {done : List (Nat × Nat)} {start hw : Nat} {pending : AList fun _ : Nat => Nat}

/-- The mark ends a run of the completed ranges, and those from the mark on are parked. -/
structure Tracks (done : List (Nat × Nat)) (start hw : Nat) (pending : AList fun _ : Nat => Nat) :
    Prop where
  run : RunEnd done start hw
  parked : ∀ s e, pending.lookup s = some e ↔ (s, e) ∈ done ∧ hw ≤ s

theorem Tracks.advance (forward : ∀ r ∈ done, r.1 < r.2) (apart : done.Pairwise Apart)
    (h : Tracks done start hw pending) :
    Tracks done start (advance hw pending).1 (advance hw pending).2 ∧
      (ZoneAppendWal.advance hw pending).2.lookup (ZoneAppendWal.advance hw pending).1 = none := by
  fun_induction ZoneAppendWal.advance hw pending with
  | case1 hw pending nextEnd found shorter ih =>
      obtain ⟨mem, _⟩ := (h.parked hw nextEnd).mp found
      refine ih ⟨h.run.next mem, fun s e => ?_⟩
      by_cases here : s = hw
      · subst here
        rw [AList.lookup_erase]
        refine iff_of_false nofun fun ⟨_, past⟩ => ?_
        exact absurd (forward _ mem) (Nat.not_lt_of_le past)
      · rw [AList.lookup_erase_ne here, h.parked]
        refine and_congr_right fun other => ⟨fun at_ => ?_, fun past => ?_⟩
        · have ne : (s, e) ≠ (hw, nextEnd) := fun same => here (Prod.mk.inj same).1
          refine (apart.forall other mem ne).resolve_left fun before => ?_
          exact absurd (Nat.lt_of_lt_of_le (forward _ other) before) (Nat.not_lt_of_le at_)
        · exact Nat.le_trans (Nat.le_of_lt (forward _ mem)) past
  | case2 hw pending none_ => exact ⟨h, none_⟩

/-- Parking a range of its own, which no run has passed. -/
theorem Tracks.insert {s e : Nat} (forward : ∀ r ∈ (s, e) :: done, r.1 < r.2)
    (apart : ((s, e) :: done).Pairwise Apart) (above : start ≤ s)
    (h : Tracks done start hw pending) : Tracks ((s, e) :: done) start hw (pending.insert s e) where
  run := h.run.mono (List.subset_cons_self _ _)
  parked := fun s' e' => by
    have fresh : ∀ r ∈ done, Apart (s, e) r := (List.pairwise_cons.mp apart).1
    have ahead := forward _ List.mem_cons_self
    have behind := fun r mem => forward r (List.mem_cons_of_mem _ mem)
    by_cases here : s' = s
    · subst here
      rw [AList.lookup_insert, Option.some.injEq, List.mem_cons, Prod.mk.injEq]
      constructor
      · rintro rfl
        refine ⟨.inl ⟨rfl, rfl⟩, Nat.le_of_not_lt fun passed => ?_⟩
        obtain ⟨r, mem, lower, upper, _⟩ := h.run.covers behind above passed
        rcases fresh r mem with before | after <;> omega
      · rintro ⟨⟨_, rfl⟩ | mem, _⟩
        · rfl
        · have later := behind _ mem
          rcases fresh _ mem with before | after <;> omega
    · rw [AList.lookup_insert_ne here, h.parked, List.mem_cons, Prod.mk.injEq]
      exact and_congr_left fun _ => (or_iff_right fun same => here same.1).symm

end Tracking

theorem completeAll_concat (wal : ZoneAppendWal) (cqes : List ZoneAppendCompletion)
    (cqe : ZoneAppendCompletion) :
    wal.completeAll (cqes ++ [cqe]) = (wal.completeAll cqes).complete cqe := by
  rw [completeAll, List.foldl_append]
  rfl

/-- After every call the mark is at rest at the end of the longest run. -/
theorem completeAll_tracks (nsid zoneStartLba : Nat) {cqes : List ZoneAppendCompletion}
    (ok : ZoneCompletions zoneStartLba cqes) :
    let wal := (new nsid zoneStartLba).completeAll cqes
    Tracks (cqes.map ZoneAppendCompletion.range) zoneStartLba wal.highWater wal.pending ∧
      wal.pending.lookup wal.highWater = none := by
  induction cqes using List.reverseRecOn with
  | nil =>
      exact ⟨⟨.start, fun s e => ⟨nofun, fun mem => absurd mem.1 List.not_mem_nil⟩⟩, rfl⟩
  | append_singleton cqes cqe ih =>
      have before := ih (ok.sublist (List.sublist_append_left _ _))
      have order : ((cqes ++ [cqe]).map ZoneAppendCompletion.range).Perm
          (cqe.range :: cqes.map ZoneAppendCompletion.range) := by
        rw [List.map_append]
        exact List.perm_append_singleton _ _
      have forward : ∀ r ∈ cqe.range :: cqes.map ZoneAppendCompletion.range, r.1 < r.2 :=
        fun r mem => range_forward r (order.mem_iff.mpr mem)
      have apart : (cqe.range :: cqes.map ZoneAppendCompletion.range).Pairwise Apart :=
        ok.apart.perm order fun h => Or.symm h
      have last := List.mem_append_right cqes (List.mem_singleton.mpr (Eq.refl cqe))
      have parked := before.1.insert forward apart (ok.above cqe last)
      obtain ⟨tracks, rest⟩ := parked.advance forward apart
      have whole : saturatingAdd cqe.assignedLba (cqe.nlb + 1) = cqe.range.2 :=
        Nat.min_eq_left (Nat.le_sub_one_of_lt (ok.below cqe last))
      rw [completeAll_concat]
      unfold complete
      dsimp only
      rw [whole]
      refine ⟨⟨tracks.run.mono fun r mem => order.mem_iff.mpr mem, fun s e => ?_⟩, rest⟩
      rw [order.mem_iff]
      exact tracks.parked s e

theorem completeAll_longest (nsid zoneStartLba : Nat) {cqes : List ZoneAppendCompletion}
    (ok : ZoneCompletions zoneStartLba cqes) :
    LongestRun (cqes.map ZoneAppendCompletion.range) zoneStartLba
      ((new nsid zoneStartLba).completeAll cqes).durableHighWater := by
  obtain ⟨tracks, rest⟩ := completeAll_tracks nsid zoneStartLba ok
  refine tracks.run.longestRun range_forward ok.apart fun e mem => ?_
  cases rest.symm.trans ((tracks.parked _ e).mpr ⟨mem, Nat.le_refl _⟩)

/-- In every order of the calls, the mark is after each call the end of the longest contiguous run
of completed ranges, so it never falls, covers completed blocks only and ends at the same block. -/
theorem durable_prefix (nsid zoneStartLba : Nat) (cqes : List ZoneAppendCompletion)
    (ok : ZoneCompletions zoneStartLba cqes) :
    let mark := fun called => ((new nsid zoneStartLba).completeAll called).durableHighWater
    (∀ called, called <+: cqes →
      LongestRun (called.map ZoneAppendCompletion.range) zoneStartLba (mark called)) ∧
    (∀ called later, later <+: cqes → called <+: later → mark called ≤ mark later) ∧
    (∀ called, called <+: cqes → ∀ lba, zoneStartLba ≤ lba → lba < mark called →
      ∃ cqe ∈ called, cqe.range.1 ≤ lba ∧ lba < cqe.range.2) ∧
    ∀ order, order.Perm cqes → mark order = mark cqes := by
  have longest : ∀ called, called <+: cqes → LongestRun (called.map ZoneAppendCompletion.range)
      zoneStartLba ((new nsid zoneStartLba).completeAll called).durableHighWater :=
    fun called before => completeAll_longest nsid zoneStartLba (ok.sublist before.sublist)
  refine ⟨longest, fun called later before sooner => ?_, fun called before lba low high => ?_,
    fun order perm => ?_⟩
  · exact (longest called (sooner.trans before)).le (longest later before)
      (sooner.sublist.map ZoneAppendCompletion.range).subset
  · obtain ⟨r, mem, lower, upper, _⟩ := (longest called before).run.covers range_forward low high
    obtain ⟨cqe, done, rfl⟩ := List.mem_map.mp mem
    exact ⟨cqe, done, lower, upper⟩
  · have reordered : ZoneCompletions zoneStartLba order :=
      ⟨ok.apart.perm (perm.symm.map _) fun h => Or.symm h,
        fun cqe mem => ok.above cqe (perm.mem_iff.mp mem),
        fun cqe mem => ok.below cqe (perm.mem_iff.mp mem)⟩
    exact (completeAll_longest nsid zoneStartLba reordered).unique
      (completeAll_longest nsid zoneStartLba ok) fun r => (perm.map _).mem_iff

theorem durable_prefix_outOfOrder :
    let mark := fun called => ((new 1 100).completeAll called).durableHighWater
    let later : ZoneAppendCompletion := ⟨2, 104, 0⟩
    let first : ZoneAppendCompletion := ⟨1, 100, 3⟩
    ZoneCompletions 100 [later, first] ∧ mark [later] ≤ mark [later, first] ∧
      mark [first, later] = mark [later, first] := by
  have ok : ZoneCompletions 100 [⟨2, 104, 0⟩, ⟨1, 100, 3⟩] :=
    ⟨by simp [Apart, ZoneAppendCompletion.range], by simp, by simp⟩
  obtain ⟨_, rising, _, same⟩ := durable_prefix 1 100 [⟨2, 104, 0⟩, ⟨1, 100, 3⟩] ok
  exact ⟨ok, rising [⟨2, 104, 0⟩] _ (List.prefix_refl _) ⟨[⟨1, 100, 3⟩], rfl⟩,
    same _ (.swap ..)⟩

end ZoneAppendWal

end AetherGraph
