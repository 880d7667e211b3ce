import AetherGraph.Foundation.PieceWrites
import Mathlib.Algebra.GroupWithZero.Nat
import Mathlib.Data.Fintype.Card
import Mathlib.Data.List.AList

/-! The embedding cache of one layer. Rows live in one reserved matrix and are handed out in
order, one for each node ever written; a slot's generation of zero takes its row out of service. -/

namespace AetherGraph

open Foundation

variable {α : Type}

namespace EmbeddingCache

structure Slot where
  row : Nat
  generation : Nat
deriving DecidableEq, Repr

/-- The reserved matrix, `stride` cells a row. -/
structure RowStore (α : Type) where
  cells : List α
  stride : Nat
deriving DecidableEq, Repr

/-- At least one page of four-byte cells is mapped, and it reads as zero. -/
def RowStore.new (zero : α) (numRows stride : Nat) : RowStore α :=
  ⟨List.replicate (max (numRows * stride) 1024) zero, stride⟩

def RowStore.row (store : RowStore α) (r dim : Nat) : List α :=
  (store.cells.drop (r * store.stride)).take dim

def RowStore.copyRow (store : RowStore α) (r : Nat) (embedding : List α) : RowStore α :=
  { store with cells := writeAt store.cells (r * store.stride) embedding }

end EmbeddingCache

open EmbeddingCache

structure EmbeddingCache (α : Type) where
  store : RowStore α
  rows : Nat
  slots : AList fun _ : UInt32 => Slot
  dim : Nat
  numNodes : Nat
  generation : Nat

namespace EmbeddingCache

def nextMultipleOf (n k : Nat) : Nat := (n + k - 1) / k * k

def new (zero : α) (numNodes dim : Nat) : Option (EmbeddingCache α) :=
  if 0 < dim then
    some ⟨.new zero (max numNodes 1) (nextMultipleOf dim 16), 0, ∅, dim, numNodes, 1⟩
  else none

def getIfComputed (c : EmbeddingCache α) (node : UInt32) : Option (List α) :=
  match c.slots.lookup node with
  | none => none
  | some slot => if slot.generation = 0 then none else some (c.store.row slot.row c.dim)

/-- `none` is a panic. -/
def update (c : EmbeddingCache α) (node : UInt32) (embedding : List α) :
    Option (EmbeddingCache α) :=
  if embedding.length ≠ c.dim ∨ c.numNodes ≤ node.toNat then none
  else
    match c.slots.lookup node with
    | some slot =>
        some { c with
          slots := c.slots.insert node { slot with generation := c.generation }
          store := c.store.copyRow slot.row embedding }
    | none =>
        if c.rows ≤ 2 ^ 32 - 1 then
          some { c with
            rows := c.rows + 1
            slots := c.slots.insert node ⟨c.rows, c.generation⟩
            store := c.store.copyRow c.rows embedding }
        else none

def invalidate (c : EmbeddingCache α) (node : UInt32) : EmbeddingCache α :=
  match c.slots.lookup node with
  | some slot => { c with slots := c.slots.insert node { slot with generation := 0 } }
  | none => c

def advanceEpoch (c : EmbeddingCache α) : EmbeddingCache α :=
  { c with generation := c.generation + 1 }

/-- Every slot has a row of its own among those handed out, and one row at most is handed out for
each node. -/
structure Housed (c : EmbeddingCache α) : Prop where
  rows : c.rows = c.slots.keys.length
  inside : ∀ node ∈ c.slots, node.toNat < c.numNodes
  row_lt : ∀ node slot, c.slots.lookup node = some slot → slot.row < c.rows
  own : ∀ node slot node' slot', c.slots.lookup node = some slot →
    c.slots.lookup node' = some slot' → slot.row = slot'.row → node = node'
  room : c.numNodes * c.store.stride ≤ c.store.cells.length
  padded : c.dim ≤ c.store.stride
  current : 0 < c.generation

theorem nextMultipleOf_ge {n k : Nat} (positive : 0 < k) : n ≤ nextMultipleOf n k := by
  have rounded := Nat.div_add_mod (n + k - 1) k
  have small := Nat.mod_lt (n + k - 1) positive
  rw [nextMultipleOf, Nat.mul_comm]
  omega

theorem Housed.new {zero : α} {numNodes dim : Nat} {c : EmbeddingCache α}
    (made : EmbeddingCache.new zero numNodes dim = some c) : Housed c := by
  rw [EmbeddingCache.new] at made
  split at made
  · obtain rfl := Option.some.inj made
    refine ⟨rfl, fun node mem => absurd mem (AList.notMem_empty node), ?_, ?_, ?_,
      nextMultipleOf_ge (by decide), Nat.one_pos⟩
    · intro node slot found
      rw [AList.lookup_empty] at found
      contradiction
    · intro node slot node' slot' found
      rw [AList.lookup_empty] at found
      contradiction
    · simp only [RowStore.new, List.length_replicate]
      exact Nat.le_trans (Nat.mul_le_mul_right _ (Nat.le_max_left _ _)) (Nat.le_max_left _ _)
  · contradiction

theorem new_served {zero : α} {numNodes dim : Nat} {c : EmbeddingCache α}
    (made : EmbeddingCache.new zero numNodes dim = some c) (node : UInt32) :
    c.getIfComputed node = none := by
  rw [EmbeddingCache.new] at made
  split at made
  · obtain rfl := Option.some.inj made
    rw [getIfComputed, AList.lookup_empty]
  · contradiction

/-- Distinct nodes below the node count number no more than it. -/
theorem length_le_of_nodup {nodes : List UInt32} {bound : Nat} (nodup : nodes.Nodup)
    (below : ∀ node ∈ nodes, node.toNat < bound) : nodes.length ≤ bound := by
  have distinct : (nodes.map UInt32.toNat).Nodup := nodup.map fun _ _ => UInt32.toNat.inj
  have inside : nodes.map UInt32.toNat ⊆ List.range bound := by
    intro x mem
    obtain ⟨node, found, rfl⟩ := List.mem_map.1 mem
    exact List.mem_range.2 (below node found)
  have counted := (List.subperm_of_subset distinct inside).length_le
  rwa [List.length_map, List.length_range] at counted

/-- A node that is not in the map yet finds a row within the reservation and within `u32`. -/
theorem Housed.rows_lt {c : EmbeddingCache α} (h : Housed c) {node : UInt32}
    (fresh : c.slots.lookup node = none) {bound : Nat} (below : node.toNat < bound)
    (all : ∀ other ∈ c.slots, other.toNat < bound) : c.rows < bound := by
  have absent : node ∉ c.slots.keys := fun mem =>
    AList.lookup_eq_none.1 fresh (AList.mem_keys.2 mem)
  rw [h.rows]
  have nodup : (node :: c.slots.keys).Nodup := List.nodup_cons.2 ⟨absent, c.slots.keys_nodup⟩
  refine length_le_of_nodup nodup fun other mem => ?_
  rcases List.mem_cons.1 mem with rfl | mem
  · exact below
  · exact all other (AList.mem_keys.1 mem)

theorem RowStore.getElem?_row (store : RowStore α) (r dim i : Nat) :
    (store.row r dim)[i]? = if i < dim then store.cells[r * store.stride + i]? else none := by
  rw [RowStore.row]
  split
  · rename_i inside
    rw [List.getElem?_take_of_lt inside, List.getElem?_drop]
  · rename_i outside
    exact List.getElem?_take_eq_none (Nat.le_of_not_lt outside)

/-- Rows as wide as their stride allows do not overlap. -/
theorem RowStore.row_copyRow {store : RowStore α} {r : Nat} {embedding : List α}
    (room : r * store.stride + embedding.length ≤ store.cells.length)
    (padded : embedding.length ≤ store.stride) (r' : Nat) :
    (store.copyRow r embedding).row r' embedding.length =
      if r' = r then embedding else store.row r' embedding.length := by
  refine List.ext_getElem? fun i => ?_
  rw [getElem?_row]
  by_cases inside : i < embedding.length
  · rw [if_pos inside]
    by_cases same : r' = r
    · subst same
      rw [if_pos rfl]
      exact writeAt_inside room inside
    · rw [if_neg same, getElem?_row, if_pos inside]
      refine writeAt_outside room ?_
      show r' * store.stride + i < r * store.stride ∨
        r * store.stride + embedding.length ≤ r' * store.stride + i
      rcases Nat.lt_or_gt_of_ne same with before | after
      · have : (r' + 1) * store.stride ≤ r * store.stride := Nat.mul_le_mul_right _ before
        rw [Nat.succ_mul] at this
        omega
      · have : (r + 1) * store.stride ≤ r' * store.stride := Nat.mul_le_mul_right _ after
        rw [Nat.succ_mul] at this
        omega
  · rw [if_neg inside]
    split
    · exact (List.getElem?_eq_none (Nat.le_of_not_lt inside)).symm
    · rw [getElem?_row, if_neg inside]

theorem Housed.room_row {c : EmbeddingCache α} (h : Housed c) {r : Nat} (within : r < c.numNodes) :
    r * c.store.stride + c.dim ≤ c.store.cells.length := by
  have : (r + 1) * c.store.stride ≤ c.numNodes * c.store.stride := Nat.mul_le_mul_right _ within
  rw [Nat.succ_mul] at this
  have := h.room
  have := h.padded
  omega

theorem Housed.copyRow_length {c : EmbeddingCache α} (h : Housed c) {embedding : List α}
    (width : embedding.length = c.dim) {row : Nat} (within : row < c.numNodes) :
    (c.store.copyRow row embedding).cells.length = c.store.cells.length := by
  have room := h.room_row within
  rw [← width] at room
  exact writeAt_length room

theorem Housed.rows_le {c : EmbeddingCache α} (h : Housed c) : c.rows ≤ c.numNodes := by
  rw [h.rows]
  exact length_le_of_nodup c.slots.keys_nodup fun node mem => h.inside node (AList.mem_keys.1 mem)

/-- What an update leaves, whichever way its row was found. -/
structure Updated (c : EmbeddingCache α) (node : UInt32) (embedding : List α)
    (c' : EmbeddingCache α) : Prop where
  housed : Housed c'
  served : ∀ other, c'.getIfComputed other =
    if other = node then some embedding else c.getIfComputed other
  dim : c'.dim = c.dim
  numNodes : c'.numNodes = c.numNodes

theorem getIfComputed_insert {c : EmbeddingCache α} (h : Housed c) {node : UInt32}
    {embedding : List α} (width : embedding.length = c.dim) {row : Nat}
    (within : row < c.numNodes)
    (alone : ∀ other slot, c.slots.lookup other = some slot → other ≠ node → slot.row ≠ row)
    (rows : Nat) (other : UInt32) :
    getIfComputed { c with
      rows := rows
      slots := c.slots.insert node ⟨row, c.generation⟩
      store := c.store.copyRow row embedding } other =
      if other = node then some embedding else c.getIfComputed other := by
  have room := h.room_row within
  rw [← width] at room
  have rowOf := RowStore.row_copyRow room (width ▸ h.padded)
  rw [width] at rowOf
  by_cases same : other = node
  · subst same
    have served := h.current.ne'
    simp only [getIfComputed, AList.lookup_insert, if_pos, rowOf, if_neg served]
  · simp only [getIfComputed, AList.lookup_insert_ne same, if_neg same]
    cases found : c.slots.lookup other with
    | none => rfl
    | some slot =>
        simp only [rowOf, if_neg (alone other slot found same)]

theorem Housed.insert {c : EmbeddingCache α} (h : Housed c) {node : UInt32}
    (below : node.toNat < c.numNodes) (slot : Slot) {rows : Nat} {store : RowStore α}
    (stride : store.stride = c.store.stride)
    (cells : store.cells.length = c.store.cells.length) (row_lt : slot.row < rows)
    (more : c.rows ≤ rows) (counted : rows = (c.slots.insert node slot).keys.length)
    (alone : ∀ other s, c.slots.lookup other = some s → other ≠ node → s.row ≠ slot.row) :
    Housed { c with rows := rows, slots := c.slots.insert node slot, store := store } where
  rows := counted
  inside := by
    intro other mem
    rcases (AList.mem_insert _).1 mem with rfl | mem
    · exact below
    · exact h.inside other mem
  row_lt := by
    intro other s found
    by_cases same : other = node
    · subst same
      rw [AList.lookup_insert] at found
      obtain rfl := Option.some.inj found
      exact row_lt
    · rw [AList.lookup_insert_ne same] at found
      exact Nat.lt_of_lt_of_le (h.row_lt other s found) more
  own := by
    intro a s b s' foundA foundB rowsEq
    by_cases sameA : a = node <;> by_cases sameB : b = node
    · rw [sameA, sameB]
    · subst sameA
      rw [AList.lookup_insert] at foundA
      rw [AList.lookup_insert_ne sameB] at foundB
      obtain rfl := Option.some.inj foundA
      exact absurd rowsEq.symm (alone b s' foundB sameB)
    · subst sameB
      rw [AList.lookup_insert] at foundB
      rw [AList.lookup_insert_ne sameA] at foundA
      obtain rfl := Option.some.inj foundB
      exact absurd rowsEq (alone a s foundA sameA)
    · rw [AList.lookup_insert_ne sameA] at foundA
      rw [AList.lookup_insert_ne sameB] at foundB
      exact h.own a s b s' foundA foundB rowsEq
  room := by
    show c.numNodes * store.stride ≤ store.cells.length
    rw [stride, cells]
    exact h.room
  padded := by
    show c.dim ≤ store.stride
    rw [stride]
    exact h.padded
  current := h.current

theorem length_keys_insert_of_mem {slots : AList fun _ : UInt32 => Slot} {node : UInt32}
    (mem : node ∈ slots) (slot : Slot) :
    (slots.insert node slot).keys.length = slots.keys.length := by
  rw [AList.keys_insert, List.length_cons, List.length_erase_of_mem (AList.mem_keys.1 mem)]
  exact Nat.sub_add_cancel (List.length_pos_of_mem (AList.mem_keys.1 mem))

theorem length_keys_insert_of_notMem {slots : AList fun _ : UInt32 => Slot} {node : UInt32}
    (absent : node ∉ slots) (slot : Slot) :
    (slots.insert node slot).keys.length = slots.keys.length + 1 := by
  rw [AList.keys_insert, List.length_cons,
    List.erase_of_not_mem fun mem => absent (AList.mem_keys.2 mem)]

/-- A node below the node count is always updated: the row counter stays within `u32`. -/
theorem update_spec {c : EmbeddingCache α} (h : Housed c) {node : UInt32} {embedding : List α}
    (width : embedding.length = c.dim) (below : node.toNat < c.numNodes) :
    ∃ c', c.update node embedding = some c' ∧ Updated c node embedding c' := by
  rw [update, if_neg (by omega)]
  cases found : c.slots.lookup node with
  | some slot =>
      have row_lt := h.row_lt node slot found
      have within : slot.row < c.numNodes := Nat.lt_of_lt_of_le row_lt h.rows_le
      have mem : node ∈ c.slots := AList.lookup_isSome.1 (by rw [found]; rfl)
      have alone : ∀ other s, c.slots.lookup other = some s → other ≠ node → s.row ≠ slot.row :=
        fun other s seen other_ne rowsEq => other_ne (h.own other s node slot seen found rowsEq)
      refine ⟨_, rfl, ?_, getIfComputed_insert h width within alone c.rows, rfl, rfl⟩
      exact h.insert below ⟨slot.row, c.generation⟩ rfl (h.copyRow_length width within) row_lt
        (Nat.le_refl _) (by rw [length_keys_insert_of_mem mem, h.rows]) alone
  | none =>
      have within : c.rows < c.numNodes := h.rows_lt found below h.inside
      have fits : c.rows < 2 ^ 32 := h.rows_lt found node.toNat_lt fun other _ => other.toNat_lt
      have absent : node ∉ c.slots := AList.lookup_eq_none.1 found
      have alone : ∀ other s, c.slots.lookup other = some s → other ≠ node → s.row ≠ c.rows :=
        fun other s seen _ => Nat.ne_of_lt (h.row_lt other s seen)
      simp only [if_pos (Nat.le_sub_one_of_lt fits)]
      refine ⟨_, rfl, ?_, getIfComputed_insert h width within alone (c.rows + 1), rfl, rfl⟩
      exact h.insert below ⟨c.rows, c.generation⟩ rfl (h.copyRow_length width within)
        (Nat.lt_succ_self _) (Nat.le_succ _)
        (by rw [length_keys_insert_of_notMem absent, h.rows]) alone

theorem invalidate_served (c : EmbeddingCache α) (node other : UInt32) :
    (c.invalidate node).getIfComputed other =
      if other = node then none else c.getIfComputed other := by
  rw [invalidate]
  cases found : c.slots.lookup node with
  | none =>
      by_cases same : other = node
      · rw [if_pos same, same, getIfComputed, found]
      · rw [if_neg same]
  | some slot =>
      by_cases same : other = node
      · subst same
        simp only [getIfComputed, AList.lookup_insert, if_pos]
      · simp only [getIfComputed, AList.lookup_insert_ne same, if_neg same]

theorem Housed.invalidate {c : EmbeddingCache α} (h : Housed c) (node : UInt32) :
    Housed (c.invalidate node) := by
  rw [EmbeddingCache.invalidate]
  cases found : c.slots.lookup node with
  | none => exact h
  | some slot =>
      have mem : node ∈ c.slots := AList.lookup_isSome.1 (by rw [found]; rfl)
      exact h.insert (h.inside node mem) ⟨slot.row, 0⟩ rfl rfl (h.row_lt node slot found)
        (Nat.le_refl _) (by rw [length_keys_insert_of_mem mem, h.rows])
        fun other s seen other_ne rowsEq => other_ne (h.own other s node slot seen found rowsEq)

@[simp] theorem invalidate_dim (c : EmbeddingCache α) (node : UInt32) :
    (c.invalidate node).dim = c.dim := by
  rw [EmbeddingCache.invalidate]
  split <;> rfl

@[simp] theorem invalidate_numNodes (c : EmbeddingCache α) (node : UInt32) :
    (c.invalidate node).numNodes = c.numNodes := by
  rw [EmbeddingCache.invalidate]
  split <;> rfl

theorem Housed.advanceEpoch {c : EmbeddingCache α} (h : Housed c) : Housed c.advanceEpoch :=
  ⟨h.rows, h.inside, h.row_lt, h.own, h.room, h.padded, Nat.succ_pos _⟩

end EmbeddingCache

end AetherGraph
