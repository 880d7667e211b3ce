import AetherGraph.SlotGeometry
import Mathlib.Data.BitVec

/-! The degree lookup of a sampling frontier, scalar and four lanes at a time. -/

namespace AetherGraph

section Scalar

/-- Low 32 bits of the saturating difference. -/
def degreeOf (start stop : U64) : U32 := BitVec.ofNat 32 (stop.toNat - start.toNat)

def gatherDegreeScalar (offsets : List U64) (node : U32) : U32 :=
  match offsets[node.toNat]?, offsets[node.toNat + 1]? with
  | some start, some stop => degreeOf start stop
  | _, _ => 0

def gatherDegreesScalar (offsets : List U64) (nodes : List U32) : List U32 :=
  nodes.map (gatherDegreeScalar offsets)

end Scalar

section Vector

/-- A lane of `vpgatherdq` from `base + shift`; its index is signed.  `none` reads outside. -/
def gatherEpi64 (offsets : List U64) (shift : Nat) (idx : U32) : Option U64 :=
  let at_ := idx.toInt + shift
  if 0 ≤ at_ then offsets[at_.toNat]? else none

/-- `max(0)` on the wrapped difference, then its low half. -/
def clampedDegree (start stop : U64) : U32 := BitVec.ofInt 32 (max (stop - start).toInt 0)

def degreeLane (offsets : List U64) (idx : U32) : Option U32 := do
  let start ← gatherEpi64 offsets 0 idx
  let stop ← gatherEpi64 offsets 1 idx
  some (clampedDegree start stop)

/-- Nodes at or above this bound take the scalar path. -/
def vectorMax (offsets : List U64) : Nat := min (offsets.length - 1) i32Max

/-- A chunk with any node at the bound goes scalar. -/
def gatherChunk (offsets : List U64) (chunk : List U32) : Option (List U32) :=
  if chunk.any fun n => decide (vectorMax offsets ≤ n.toNat) then
    some (gatherDegreesScalar offsets chunk)
  else chunk.mapM (degreeLane offsets)

/-- The loop over chunks of four, and the scalar tail. -/
def gatherChunks (offsets : List U64) : List U32 → Option (List U32)
  | a :: b :: c :: d :: rest => do
      let here ← gatherChunk offsets [a, b, c, d]
      let more ← gatherChunks offsets rest
      some (here ++ more)
  | rest => some (gatherDegreesScalar offsets rest)

def gatherDegreesAvx2 (offsets : List U64) (nodes : List U32) : Option (List U32) :=
  if offsets = [] then some (List.replicate nodes.length 0)
  else gatherChunks offsets nodes

end Vector

/-- Two offsets whose signed distance is their distance, or whose low halves agree. -/
def SignedApart (start stop : U64) : Prop :=
  start.toNat % 2 ^ 32 = stop.toNat % 2 ^ 32 ∨
    (start.toNat ≤ stop.toNat ∧ stop.toNat < start.toNat + 2 ^ 63) ∨
    (stop.toNat < start.toNat ∧ start.toNat ≤ stop.toNat + 2 ^ 63)

/-- A full chunk of nodes below the vector bound has both offsets of each node close enough. -/
def ChunkApart (offsets : List U64) (chunk : List U32) : Prop :=
  (∀ n ∈ chunk, n.toNat < vectorMax offsets) →
    ∀ n ∈ chunk, ∀ start stop, offsets[n.toNat]? = some start → offsets[n.toNat + 1]? = some stop →
      SignedApart start stop

def LanesApart (offsets : List U64) (nodes : List U32) : Prop :=
  ∀ j, 4 * j + 4 ≤ nodes.length → ChunkApart offsets ((nodes.drop (4 * j)).take 4)

section Lanes

variable {offsets : List U64} {node : U32}

/-- The signed clamp is the saturating difference exactly for such offsets. -/
theorem clampedDegree_eq_iff (start stop : U64) :
    clampedDegree start stop = degreeOf start stop ↔ SignedApart start stop := by
  have low : start.toNat < 2 ^ 64 := start.isLt
  have high : stop.toNat < 2 ^ 64 := stop.isLt
  unfold clampedDegree degreeOf SignedApart
  rw [← BitVec.toNat_inj, BitVec.toNat_ofInt, BitVec.toNat_ofNat, BitVec.toInt_eq_toNat_cond,
    BitVec.toNat_sub]
  split_ifs with positive <;> omega

/-- Below the vector bound both gathers of a lane read inside `offsets`. -/
theorem degreeLane_eq (small : node.toNat < vectorMax offsets) :
    ∃ start stop, offsets[node.toNat]? = some start ∧ offsets[node.toNat + 1]? = some stop ∧
      degreeLane offsets node = some (clampedDegree start stop) := by
  have inside : node.toNat + 1 < offsets.length := by
    unfold vectorMax at small
    omega
  have signed : node.toInt = node.toNat := by
    unfold vectorMax i32Max at small
    rw [BitVec.toInt_eq_toNat_of_lt (by omega)]
  have gather : ∀ shift, gatherEpi64 offsets shift node = offsets[node.toNat + shift]? := by
    intro shift
    unfold gatherEpi64
    rw [signed, ← Int.natCast_add, if_pos (Int.natCast_nonneg _), Int.toNat_natCast]
  refine ⟨_, _, List.getElem?_eq_getElem (by omega), List.getElem?_eq_getElem inside, ?_⟩
  unfold degreeLane
  rw [gather, gather, Nat.add_zero, List.getElem?_eq_getElem (by omega),
    List.getElem?_eq_getElem inside]
  rfl

theorem gatherDegreeScalar_eq {start stop : U64} (at_start : offsets[node.toNat]? = some start)
    (at_stop : offsets[node.toNat + 1]? = some stop) :
    gatherDegreeScalar offsets node = degreeOf start stop := by
  unfold gatherDegreeScalar
  rw [at_start, at_stop]

/-- The lanes of a chunk are the scalar degrees exactly when its offsets are close enough. -/
theorem mapM_degreeLane {chunk : List U32} (small : ∀ n ∈ chunk, n.toNat < vectorMax offsets) :
    ∃ lanes, chunk.mapM (degreeLane offsets) = some lanes ∧ lanes.length = chunk.length ∧
      (lanes = gatherDegreesScalar offsets chunk ↔ ∀ n ∈ chunk, ∀ start stop,
        offsets[n.toNat]? = some start → offsets[n.toNat + 1]? = some stop →
          SignedApart start stop) := by
  induction chunk with
  | nil => exact ⟨[], rfl, rfl, fun _ _ mem => absurd mem List.not_mem_nil, fun _ => rfl⟩
  | cons n chunk ih =>
      obtain ⟨here, small⟩ := List.forall_mem_cons.mp small
      obtain ⟨start, stop, at_start, at_stop, lane⟩ := degreeLane_eq here
      obtain ⟨lanes, ran, length, same⟩ := ih small
      refine ⟨clampedDegree start stop :: lanes, ?_, congrArg (· + 1) length, ?_⟩
      · rw [List.mapM_cons, lane, ran]
        rfl
      · rw [List.forall_mem_cons, ← same]
        show _ :: lanes = gatherDegreeScalar offsets n :: gatherDegreesScalar offsets chunk ↔ _
        rw [List.cons.injEq, gatherDegreeScalar_eq at_start at_stop, clampedDegree_eq_iff]
        refine and_congr_left fun _ => ⟨fun apart start' stop' at_start' at_stop' => ?_, fun all =>
          all start stop at_start at_stop⟩
        obtain rfl := Option.some.inj (at_start.symm.trans at_start')
        obtain rfl := Option.some.inj (at_stop.symm.trans at_stop')
        exact apart

end Lanes

section Chunks

variable {offsets : List U64}

theorem gatherDegreesScalar_append (xs ys : List U32) :
    gatherDegreesScalar offsets (xs ++ ys) =
      gatherDegreesScalar offsets xs ++ gatherDegreesScalar offsets ys := List.map_append

theorem lanesApart_cons {a b c d : U32} {rest : List U32} :
    LanesApart offsets (a :: b :: c :: d :: rest) ↔
      ChunkApart offsets [a, b, c, d] ∧ LanesApart offsets rest := by
  constructor
  · refine fun apart => ⟨apart 0 (by simp), fun j full => ?_⟩
    exact apart (j + 1) (by simp only [List.length_cons]; omega)
  · rintro ⟨here, apart⟩ j full
    cases j with
    | zero => exact here
    | succ j => exact apart j (by simp only [List.length_cons] at full; omega)

theorem gatherChunk_eq_iff (offsets : List U64) (chunk : List U32) :
    ∃ out, gatherChunk offsets chunk = some out ∧
    out.length = chunk.length ∧
      (out = gatherDegreesScalar offsets chunk ↔ ChunkApart offsets chunk) := by
  unfold gatherChunk
  split_ifs with large
  · obtain ⟨n, mem, above⟩ := List.any_eq_true.mp large
    refine ⟨_, rfl, List.length_map _, fun _ small => ?_, fun _ => rfl⟩
    exact absurd (small n mem) (Nat.not_lt_of_le (of_decide_eq_true above))
  · have small : ∀ n ∈ chunk, n.toNat < vectorMax offsets := fun n mem =>
      Nat.lt_of_not_le fun above => large (List.any_eq_true.mpr ⟨n, mem, decide_eq_true above⟩)
    obtain ⟨lanes, mapped, length, agree⟩ := mapM_degreeLane small
    exact ⟨lanes, mapped, length, fun eq _ => agree.mp eq, fun apart => agree.mpr (apart small)⟩

theorem gatherChunks_eq_iff (offsets : List U64) (nodes : List U32) :
    ∃ out, gatherChunks offsets nodes = some out ∧
      (out = gatherDegreesScalar offsets nodes ↔ LanesApart offsets nodes) := by
  induction nodes using gatherChunks.induct with
  | case1 a b c d rest ih =>
      obtain ⟨more, ran, same⟩ := ih
      obtain ⟨here, chunk, length, agree⟩ := gatherChunk_eq_iff offsets [a, b, c, d]
      have whole : gatherDegreesScalar offsets (a :: b :: c :: d :: rest) =
          gatherDegreesScalar offsets [a, b, c, d] ++ gatherDegreesScalar offsets rest :=
        gatherDegreesScalar_append [a, b, c, d] rest
      rw [gatherChunks, ran, chunk, lanesApart_cons, whole, ← agree, ← same]
      refine ⟨here ++ more, rfl, fun eq => ?_, fun both => both.1 ▸ both.2 ▸ rfl⟩
      exact List.append_inj eq (length.trans (List.length_map _).symm)
  | case2 rest short =>
      refine ⟨_, gatherChunks.eq_2 offsets rest short, fun _ j full => ?_, fun _ => rfl⟩
      match rest, short with
      | [], _ => exact absurd full (by simp)
      | [_], _ => exact absurd full (by simp)
      | [_, _], _ => exact absurd full (by simp)
      | [_, _, _], _ => exact absurd full (by simp)
      | a :: b :: c :: d :: rest, short => exact (short a b c d rest rfl).elim

end Chunks

/-- The vector path writes the scalar path's degrees exactly when, in every full chunk it does not
hand to the scalar path, the signed distance of each node's offsets is their distance. -/
theorem gatherDegreesAvx2_eq_iff (offsets : List U64) (nodes : List U32) :
    gatherDegreesAvx2 offsets nodes = some (gatherDegreesScalar offsets nodes) ↔
      LanesApart offsets nodes := by
  unfold gatherDegreesAvx2
  split_ifs with empty
  · subst empty
    refine ⟨fun _ j _ small n mem => ?_, fun _ => congrArg some ?_⟩
    · exact absurd (small n mem) (Nat.not_lt_zero _)
    · exact List.map_const'.symm
  · obtain ⟨out, ran, same⟩ := gatherChunks_eq_iff offsets nodes
    rw [ran, Option.some.injEq, same]

/-- Five plus 2 ^ 63 edges: the clamp takes the difference for a negative one. -/
theorem gatherDegreesAvx2_clamps :
    gatherDegreesAvx2 [0, 2 ^ 63 + 5] [0, 0, 0, 0] ≠
      some (gatherDegreesScalar [0, 2 ^ 63 + 5] [0, 0, 0, 0]) := by decide +kernel

end AetherGraph
