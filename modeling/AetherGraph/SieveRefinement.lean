import AetherGraph.LinkedSieve
import Mathlib.Data.List.GetD

/-! The stored tier keeps the queue of the abstract one: each operation runs without an index out
of bounds and does to the map, the slab, the links and the hand what the abstract operation does
to the entries. -/

namespace AetherGraph

open Foundation

namespace RowSlab

variable {α : Type}

/-- Blocks for the rows handed out so far, each of full width. -/
structure Sized (s : RowSlab α) : Prop where
  count : s.blocks.length = (s.rows + (slabBlockRows - 1)) / slabBlockRows
  width : ∀ b ∈ s.blocks, b.length = slabBlockRows * s.dim

theorem sized_new (dim : Nat) : (RowSlab.new dim : RowSlab α).Sized :=
  ⟨by simp [RowSlab.new, slabBlockRows], fun _ h => absurd h List.not_mem_nil⟩

section Splice

variable {xs ys : List α} {start width : Nat}

theorem splice_length (fits : ys.length = width) (inside : start + width ≤ xs.length) :
    (xs.take start ++ ys ++ xs.drop (start + width)).length = xs.length := by
  simp only [List.length_append, List.length_take, List.length_drop]
  omega

/-- A stretch written over leaves the others. -/
theorem splice_elsewhere (fits : ys.length = width) (inside : start + width ≤ xs.length)
    {b d : Nat} (apart : b + d ≤ start ∨ start + width ≤ b) :
    ((xs.take start ++ ys ++ xs.drop (start + width)).drop b).take d = (xs.drop b).take d := by
  refine List.ext_getElem? fun i => ?_
  rw [List.getElem?_take, List.getElem?_take]
  split
  · rw [List.getElem?_drop, List.getElem?_drop, List.append_assoc, List.getElem?_append,
      List.getElem?_append, List.getElem?_take, List.getElem?_drop, List.length_take]
    rcases apart with before | after
    · rw [if_pos (by omega), if_pos (by omega)]
    · rw [if_neg (by omega), if_neg (by omega)]
      congr 1
      omega
  · rfl

theorem splice_here (fits : ys.length = width) (inside : start + width ≤ xs.length) :
    ((xs.take start ++ ys ++ xs.drop (start + width)).drop start).take width = ys := by
  have first : (xs.take start).length = start := by
    rw [List.length_take]
    omega
  rw [List.append_assoc, List.drop_left' first, ← fits, List.take_left]

end Splice

variable {s : RowSlab α}

theorem Sized.block (h : s.Sized) {r : Nat} (inside : r < s.rows) :
    ∃ block, s.blocks[r / slabBlockRows]? = some block ∧ block ∈ s.blocks ∧
      r % slabBlockRows * s.dim + s.dim ≤ block.length := by
  have stored : r / slabBlockRows < s.blocks.length := by
    rw [h.count]
    unfold slabBlockRows
    omega
  refine ⟨_, List.getElem?_eq_getElem stored, List.getElem_mem stored, ?_⟩
  rw [h.width _ (List.getElem_mem stored), ← Nat.succ_mul]
  exact Nat.mul_le_mul_right _ (Nat.mod_lt r (by decide))

/-- Rows of one block do not overlap. -/
theorem places_apart {r r' : Nat} (dim : Nat) (block : r' / slabBlockRows = r / slabBlockRows)
    (ne : r' ≠ r) : r' % slabBlockRows * dim + dim ≤ r % slabBlockRows * dim ∨
      r % slabBlockRows * dim + dim ≤ r' % slabBlockRows * dim := by
  have places : r' % slabBlockRows ≠ r % slabBlockRows := fun same => ne (by
    rw [← Nat.div_add_mod r slabBlockRows, ← Nat.div_add_mod r' slabBlockRows, block, same])
  rw [← Nat.succ_mul, ← Nat.succ_mul]
  exact (Nat.lt_or_gt_of_ne places).imp (Nat.mul_le_mul_right dim) (Nat.mul_le_mul_right dim)

/-- Writing a row leaves the others. -/
theorem Sized.copyRow (h : s.Sized) {r : Nat} (inside : r < s.rows) {features : List α}
    (fits : features.length = s.dim) :
    ∃ s', s.copyRow r features = some s' ∧ s'.Sized ∧ s'.row r = some features ∧
      (∀ r', r' ≠ r → s'.row r' = s.row r') ∧ s'.rows = s.rows ∧ s'.free = s.free ∧
      s'.dim = s.dim := by
  obtain ⟨block, found, mem, room⟩ := h.block inside
  have stored := (List.getElem?_eq_some_iff.mp found).1
  obtain ⟨written, ran, length, here, elsewhere⟩ : ∃ written,
      s.copyRow r features =
        some { s with blocks := s.blocks.set (r / slabBlockRows) written } ∧
      written.length = block.length ∧
      (written.drop (r % slabBlockRows * s.dim)).take s.dim = features ∧
      ∀ b, b + s.dim ≤ r % slabBlockRows * s.dim ∨ r % slabBlockRows * s.dim + s.dim ≤ b →
        (written.drop b).take s.dim = (block.drop b).take s.dim := by
    refine ⟨_, ?_, splice_length fits room, splice_here fits room,
      fun b => splice_elsewhere fits room⟩
    unfold RowSlab.copyRow
    rw [found]
    exact if_pos ⟨room, fits⟩
  refine ⟨_, ran, ⟨?_, fun b hb => ?_⟩, ?_, fun r' ne => ?_, rfl, rfl, rfl⟩
  · rw [List.length_set]
    exact h.count
  · rcases List.mem_or_eq_of_mem_set hb with old | rfl
    · exact h.width b old
    · exact length.trans (h.width block mem)
  · unfold row
    dsimp only
    rw [List.getElem?_set_self stored]
    show (if _ then some _ else none) = _
    rw [length, if_pos room, here]
  · unfold row
    dsimp only
    rcases eq_or_ne (r' / slabBlockRows) (r / slabBlockRows) with same | other
    · rw [same, List.getElem?_set_self stored, found]
      show (if _ then some _ else none) = (if _ then some _ else none)
      rw [length, elsewhere _ (places_apart s.dim same ne)]
    · rw [List.getElem?_set_ne (Ne.symm other)]

variable [OfNat α 0]

/-- The row handed out is one that no entry has: a released one, or the next one. -/
theorem Sized.alloc (h : s.Sized) {slots : List Nat}
    (rows : (slots ++ s.free).Perm (List.range s.rows))
    (room : s.free ≠ [] ∨ s.rows < 2 ^ 32 - 1) :
    s.alloc.1 ∉ slots ∧ s.alloc.2.Sized ∧
      (slots ++ [s.alloc.1] ++ s.alloc.2.free).Perm (List.range s.alloc.2.rows) ∧
      (∀ r < s.rows, s.alloc.2.row r = s.row r) ∧ s.alloc.2.dim = s.dim ∧
      (s.alloc.1 < s.rows ∧ s.alloc.2.rows = s.rows ∨
        s.alloc.1 = s.rows ∧ s.alloc.2.rows = s.rows + 1 ∧ s.rows < 2 ^ 32 - 1) := by
  have nodup := rows.nodup_iff.mpr List.nodup_range
  unfold RowSlab.alloc
  rcases List.eq_nil_or_concat s.free with empty | ⟨free, r, last⟩
  · have small := room.resolve_left fun ne => ne empty
    have next : (s.rows + 1) % 2 ^ 32 = s.rows + 1 := Nat.mod_eq_of_lt (by omega)
    rw [empty, List.append_nil] at rows
    rw [empty, List.getLast?_nil]
    dsimp only
    rw [next]
    refine ⟨fun mem => ?_, ⟨?_, ?_⟩, ?_, fun r inside => ?_, rfl, .inr ⟨rfl, rfl, small⟩⟩
    · exact absurd (List.mem_range.mp (rows.mem_iff.mp mem)) (Nat.lt_irrefl _)
    · have count := h.count
      unfold slabBlockRows at *
      dsimp only
      split
      · rw [List.length_append, List.length_singleton]
        omega
      · omega
    · intro b hb
      dsimp only at hb ⊢
      split at hb
      · rcases List.mem_append.mp hb with old | new
        · exact h.width b old
        · rw [List.mem_singleton.mp new, List.length_replicate]
      · exact h.width b hb
    · rw [List.append_nil, List.range_succ]
      exact rows.append_right [s.rows]
    · obtain ⟨block, found, -, -⟩ := h.block inside
      have stored := (List.getElem?_eq_some_iff.mp found).1
      unfold row
      dsimp only
      split
      · rw [List.getElem?_append_left stored]
      · rfl
  · rw [List.concat_eq_append] at last
    rw [last, List.getLast?_concat, List.dropLast_concat]
    dsimp only
    rw [last] at rows nodup
    have mem : r ∈ slots ++ (free ++ [r]) := by simp
    refine ⟨fun mem => ?_, ⟨h.count, h.width⟩, ?_, fun _ _ => rfl, rfl,
      .inl ⟨List.mem_range.mp (rows.mem_iff.mp mem), rfl⟩⟩
    · exact (List.nodup_append.mp nodup).2.2 r mem r (by simp) rfl
    · rw [List.append_assoc]
      exact (List.perm_append_comm.append_left slots).trans rows

end RowSlab

namespace LinkedSieve

variable {α : Type}

/-- The link of a row. -/
def linkAt (c : LinkedSieve α) (r : Nat) : Link := c.links.getD r Link.vacant

def prevOf (c : LinkedSieve α) (r : Nat) : Nat := (c.linkAt r).prev

def nextOf (c : LinkedSieve α) (r : Nat) : Nat := (c.linkAt r).next

section Links

variable {c : LinkedSieve α} {r : Nat}

theorem modifyLink_eq (inside : r < c.links.length) (f : Link → Link) :
    c.modifyLink r f = some { c with links := c.links.modify r f } := if_pos inside

theorem linkAt_modify (inside : r < c.links.length) (f : Link → Link) (j : Nat) :
    linkAt { c with links := c.links.modify r f } j =
      if j = r then f (c.linkAt j) else c.linkAt j := by
  unfold linkAt
  rw [List.getD_eq_getElem?_getD, List.getD_eq_getElem?_getD, List.getElem?_modify]
  by_cases same : r = j
  · subst same
    rw [if_pos rfl, List.getElem?_eq_getElem inside]
    simp
  · rw [if_neg (Ne.symm same)]
    simp [same]

/-- The neighbour towards the tail, or the tail, is led to `n`. -/
theorem setNext_eq (c : LinkedSieve α) {p : Nat} (n : Nat)
    (inside : p ≠ noEntry → p < c.links.length) :
    ∃ links, c.setNext p n =
        some { c with links := links, tail := if p = noEntry then n else c.tail } ∧
      links.length = c.links.length ∧ ∀ j, links.getD j Link.vacant =
        if j = p ∧ p ≠ noEntry then { c.linkAt j with next := n } else c.linkAt j := by
  unfold setNext
  by_cases ends : p = noEntry
  · refine ⟨c.links, by rw [if_neg (not_not.mpr ends), if_pos ends], rfl, fun j => ?_⟩
    rw [if_neg fun same => same.2 ends]
    rfl
  · refine ⟨c.links.modify p fun l => { l with next := n }, ?_, List.length_modify .., fun j => ?_⟩
    · rw [if_pos ends, if_neg ends, modifyLink_eq (inside ends)]
    · simp only [ends, ne_eq, not_false_eq_true, and_true]
      exact linkAt_modify (inside ends) (fun l => { l with next := n }) j

/-- The neighbour towards the head, or the head, is led to `n`. -/
theorem setPrev_eq (c : LinkedSieve α) {p : Nat} (n : Nat)
    (inside : p ≠ noEntry → p < c.links.length) :
    ∃ links, c.setPrev p n =
        some { c with links := links, head := if p = noEntry then n else c.head } ∧
      links.length = c.links.length ∧ ∀ j, links.getD j Link.vacant =
        if j = p ∧ p ≠ noEntry then { c.linkAt j with prev := n } else c.linkAt j := by
  unfold setPrev
  by_cases ends : p = noEntry
  · refine ⟨c.links, by rw [if_neg (not_not.mpr ends), if_pos ends], rfl, fun j => ?_⟩
    rw [if_neg fun same => same.2 ends]
    rfl
  · refine ⟨c.links.modify p fun l => { l with prev := n }, ?_, List.length_modify .., fun j => ?_⟩
    · rw [if_pos ends, if_neg ends, modifyLink_eq (inside ends)]
    · simp only [ends, ne_eq, not_false_eq_true, and_true]
      exact linkAt_modify (inside ends) (fun l => { l with prev := n }) j

/-- A neighbour is a row of the queue. -/
theorem end_mem {xs : List Nat} {x : Nat} (ends : x = xs.head?.getD noEntry)
    (ne : x ≠ noEntry) : x ∈ xs := by
  cases xs with
  | nil => exact absurd ends ne
  | cons y ys => exact ends ▸ List.mem_cons_self

theorem last_mem {xs : List Nat} {x : Nat} (ends : x = xs.getLast?.getD noEntry)
    (ne : x ≠ noEntry) : x ∈ xs := by
  rcases eq_or_ne xs [] with rfl | nonempty
  · exact absurd ends ne
  · exact ends ▸ getLast_mem nonempty noEntry

/-- `unlink` takes a row out of the queue and keeps every node and visited bit. -/
theorem unlink_linked {xs ys : List Nat}
    (linked : Linked noEntry c.prevOf c.nextOf c.tail c.head (xs ++ r :: ys))
    (inside : ∀ x ∈ xs ++ r :: ys, x < c.links.length) :
    ∃ links tail head, c.unlink r = some { c with links := links, tail := tail, head := head } ∧
      links.length = c.links.length ∧
      Linked noEntry (prevOf { c with links := links }) (nextOf { c with links := links }) tail head
        (xs ++ ys) ∧
      ∀ j, (linkAt { c with links := links } j).node = (c.linkAt j).node ∧
        (linkAt { c with links := links } j).visited = (c.linkAt j).visited := by
  obtain ⟨older, newer⟩ := linked.neighbours
  have here : r < c.links.length := inside r (by simp)
  have found : c.links[r]? = some (c.linkAt r) := by
    rw [linkAt, List.getD_eq_getElem _ _ here, List.getElem?_eq_getElem here]
  obtain ⟨links₁, ran₁, length₁, patched₁⟩ := setNext_eq c (c.nextOf r) fun ne =>
    inside (c.prevOf r) (List.mem_append_left _ (last_mem older ne))
  obtain ⟨links₂, ran₂, length₂, patched₂⟩ := setPrev_eq
    { c with links := links₁, tail := if c.prevOf r = noEntry then c.nextOf r else c.tail }
    (c.prevOf r) fun ne => length₁ ▸ inside (c.nextOf r) (List.mem_append_right _
      (List.mem_cons_of_mem r (end_mem newer ne)))
  have here₂ : r < links₂.length := by
    rw [length₂, length₁]
    exact here
  have ran : c.unlink r = some { c with
      links := links₂.modify r fun l => { l with prev := noEntry, next := noEntry }
      tail := if c.prevOf r = noEntry then c.nextOf r else c.tail
      head := if c.nextOf r = noEntry then c.prevOf r else c.head } := by
    unfold unlink
    rw [found]
    show Option.bind (c.setNext (c.prevOf r) (c.nextOf r)) _ = _
    rw [ran₁]
    show Option.bind (setPrev _ (c.nextOf r) (c.prevOf r)) _ = _
    rw [ran₂]
    exact modifyLink_eq here₂ _
  have link : ∀ j, linkAt { c with
      links := links₂.modify r fun l => { l with prev := noEntry, next := noEntry } } j =
      if j = r then { links₂.getD j Link.vacant with prev := noEntry, next := noEntry }
      else links₂.getD j Link.vacant :=
    fun j => linkAt_modify (c := { c with links := links₂ }) here₂
      (fun l => { l with prev := noEntry, next := noEntry }) j
  have link₁ : ∀ j, linkAt { c with
      links := links₁, tail := if c.prevOf r = noEntry then c.nextOf r else c.tail } j =
      links₁.getD j Link.vacant := fun _ => rfl
  have proper : ∀ x ∈ xs ++ ys, x ≠ r ∧ x ≠ noEntry := fun x hx => by
    have mem : x ∈ xs ++ r :: ys := by
      simp only [List.mem_append, List.mem_cons] at hx ⊢
      tauto
    refine ⟨fun same => ?_, fun same => linked.proper (same ▸ mem)⟩
    have := linked.nodup
    rw [List.nodup_middle] at this
    exact (List.nodup_cons.mp this).1 (same ▸ hx)
  refine ⟨_, _, _, ran, ?_, linked.unlink (fun x hx => ?_) (fun x hx => ?_), fun j => ?_⟩
  · rw [List.length_modify, length₂, length₁]
  · obtain ⟨apart, ne⟩ := proper x hx
    have guard : x = c.nextOf r ∧ c.nextOf r ≠ noEntry ↔ x = c.nextOf r :=
      and_iff_left_of_imp fun same => same ▸ ne
    show (linkAt _ x).prev = _
    rw [link, if_neg apart, patched₂, link₁, patched₁, if_congr guard rfl rfl]
    split_ifs <;> rfl
  · obtain ⟨apart, ne⟩ := proper x hx
    have guard : x = c.prevOf r ∧ c.prevOf r ≠ noEntry ↔ x = c.prevOf r :=
      and_iff_left_of_imp fun same => same ▸ ne
    show (linkAt _ x).next = _
    rw [link, if_neg apart, patched₂, link₁, patched₁, if_congr guard rfl rfl]
    split_ifs <;> rfl
  · rw [link, patched₂, link₁, patched₁]
    split_ifs <;> exact ⟨rfl, rfl⟩

/-- `push_head` makes a row the newest of the queue and keeps every node and visited bit. -/
theorem pushHead_linked {xs : List Nat}
    (linked : Linked noEntry c.prevOf c.nextOf c.tail c.head xs) (new : r ∉ xs)
    (here : r < c.links.length) (proper : r ≠ noEntry) (inside : ∀ x ∈ xs, x < c.links.length) :
    ∃ links tail, c.pushHead r = some { c with links := links, tail := tail, head := r } ∧
      links.length = c.links.length ∧
      Linked noEntry (prevOf { c with links := links }) (nextOf { c with links := links }) tail r
        (xs ++ [r]) ∧
      ∀ j, (linkAt { c with links := links } j).node = (c.linkAt j).node ∧
        (linkAt { c with links := links } j).visited = (c.linkAt j).visited := by
  have link₁ := linkAt_modify here fun l => { l with prev := c.head, next := noEntry }
  obtain ⟨links, ran, length, patched⟩ := setNext_eq (p := c.head) { c with
      links := c.links.modify r fun l => { l with prev := c.head, next := noEntry } } r fun ne => by
    rw [List.length_modify]
    exact inside c.head (last_mem linked.head ne)
  have ran : c.pushHead r = some { c with
      links := links, tail := if c.head = noEntry then r else c.tail, head := r } := by
    unfold pushHead
    show Option.bind (c.modifyLink r _) _ = _
    rw [modifyLink_eq here]
    show Option.bind (setNext _ c.head r) _ = _
    rw [ran]
    rfl
  have link : ∀ j, linkAt { c with links := links } j = links.getD j Link.vacant := fun _ => rfl
  have notHead : r ≠ c.head ∨ c.head = noEntry := by
    by_cases ends : c.head = noEntry
    · exact .inr ends
    · exact .inl fun same => new (same ▸ last_mem linked.head ends)
  refine ⟨_, _, ran, ?_, linked.push new proper ?_ ?_ (fun x hx => ?_) (fun x hx => ?_),
    fun j => ?_⟩
  · rw [length, List.length_modify]
  · show (linkAt _ r).prev = _
    rw [link, patched, link₁, if_pos rfl]
    split_ifs <;> rfl
  · show (linkAt _ r).next = _
    rw [link, patched, link₁, if_pos rfl, if_neg fun h => notHead.elim (fun ne => ne h.1) h.2]
  · show (linkAt _ x).prev = _
    rw [link, patched, link₁, if_neg fun (same : x = r) => new (same ▸ hx)]
    split_ifs <;> rfl
  · have guard : x = c.head ∧ c.head ≠ noEntry ↔ x = c.head :=
      and_iff_left_of_imp fun same ends => linked.proper (ends ▸ same ▸ hx)
    show (linkAt _ x).next = _
    rw [link, patched, link₁, if_neg fun (same : x = r) => new (same ▸ hx),
      if_congr guard rfl rfl]
    split_ifs <;> rfl
  · rw [link, patched, link₁]
    split_ifs <;> exact ⟨rfl, rfl⟩

end Links

/-- The rows and nodes of a stored tier's queue, oldest first: the links run through the rows both
ways, the map has the same entries, and the free list has the other rows. -/
structure Placed (c : LinkedSieve α) (keys : List (Nat × Nat)) : Prop where
  nodup : (keys.map Prod.snd).Nodup
  nodes : ∀ k ∈ keys, (c.linkAt k.1).node = k.2
  map : c.cache.Perm (keys.map Prod.swap)
  linked : Linked noEntry c.prevOf c.nextOf c.tail c.head (keys.map Prod.fst)
  slots : (keys.map Prod.fst ++ c.slab.free).Perm (List.range c.slab.rows)
  links : c.links.length = c.slab.rows
  sized : c.slab.Sized
  rows : c.slab.rows ≤ noEntry

/-- A hand on a row of the queue and on its node, or on neither. -/
def HandAt (row : Nat) (node : Option Nat) (keys : List (Nat × Nat)) : Prop :=
  ∃ i : Nat, row = (keys[i]?.map Prod.fst).getD noEntry ∧ node = keys[i]?.map Prod.snd

def keyOf (p : Nat × SieveEntry (List α)) : Nat × Nat := (p.1, p.2.node)

/-- The queue of a stored tier, each entry with its row, is the one of the abstract tier. -/
structure Describes (c : LinkedSieve α) (a : SieveCache (List α))
    (queue : List (Nat × SieveEntry (List α))) : Prop where
  placed : Placed c (queue.map keyOf)
  hand : HandAt c.hand a.hand (queue.map keyOf)
  entries : a.entries = queue.map Prod.snd
  stored : ∀ p ∈ queue, (c.linkAt p.1).visited = p.2.visited ∧ c.slab.row p.1 = some p.2.row
  capacity : a.capacity = c.capacity
  pinned : a.pinned = c.pinned
  warmup : ∀ node, node ∈ a.warmup ↔ c.warm node = true

section Placed

variable {c : LinkedSieve α} {keys older newer : List (Nat × Nat)} {k : Nat × Nat}

theorem Placed.inside (h : Placed c keys) : ∀ x ∈ keys.map Prod.fst, x < c.links.length :=
  fun _ hx => h.links ▸ List.mem_range.mp (h.slots.mem_iff.mp (List.mem_append_left _ hx))

theorem Placed.length (h : Placed c keys) :
    keys.length + c.slab.free.length = c.slab.rows := by
  have length := h.slots.length_eq
  rwa [List.length_append, List.length_map, List.length_range] at length

theorem Placed.congr (h : Placed c keys) {c' : LinkedSieve α}
    (same : ∀ j, (c'.linkAt j).node = (c.linkAt j).node ∧ c'.prevOf j = c.prevOf j ∧
      c'.nextOf j = c.nextOf j)
    (length : c'.links.length = c.links.length) (cache : c'.cache = c.cache)
    (head : c'.head = c.head) (tail : c'.tail = c.tail) (sized : c'.slab.Sized)
    (rows : c'.slab.rows = c.slab.rows) (free : c'.slab.free = c.slab.free) : Placed c' keys := by
  have prevs : c'.prevOf = c.prevOf := funext fun j => (same j).2.1
  have nexts : c'.nextOf = c.nextOf := funext fun j => (same j).2.2
  refine ⟨h.nodup, fun k hk => (same k.1).1.trans (h.nodes k hk), cache ▸ h.map, ?_, ?_, ?_, sized,
    rows ▸ h.rows⟩
  · rw [prevs, nexts, head, tail]
    exact h.linked
  · rw [rows, free]
    exact h.slots
  · rw [length, rows]
    exact h.links

/-- The tier with the visited bit of a row set to a value. -/
def marked (c : LinkedSieve α) (r : Nat) (visited : Bool) : LinkedSieve α :=
  { c with links := c.links.modify r fun l => { l with visited := visited } }

theorem linkAt_marked {r : Nat} (inside : r < c.links.length) (visited : Bool) (j : Nat) :
    (c.marked r visited).linkAt j =
      if j = r then { c.linkAt j with visited := visited } else c.linkAt j :=
  linkAt_modify inside _ j

/-- Marking a row and writing it moves nothing. -/
theorem Placed.mark (h : Placed c keys) {r : Nat} (inside : r < c.links.length) (visited : Bool)
    {slab : RowSlab α} (sized : slab.Sized) (rows : slab.rows = c.slab.rows)
    (free : slab.free = c.slab.free) : Placed { c.marked r visited with slab := slab } keys := by
  refine h.congr (fun j => ?_) (List.length_modify ..) rfl rfl rfl sized rows free
  have link : linkAt { c.marked r visited with slab := slab } j =
      if j = r then { c.linkAt j with visited := visited } else c.linkAt j :=
    linkAt_marked inside visited j
  unfold prevOf nextOf
  rw [link]
  split <;> exact ⟨rfl, rfl, rfl⟩

theorem nodup_around {before after : List Nat} {x : Nat} (nodup : (before ++ x :: after).Nodup) :
    (∀ y ∈ before, y ≠ x) ∧ (∀ y ∈ after, y ≠ x) ∧ (before ++ after).Nodup := by
  obtain ⟨out, rest⟩ := List.nodup_cons.mp (List.nodup_middle.mp nodup)
  exact ⟨fun y hy same => out (same ▸ List.mem_append_left _ hy),
    fun y hy same => out (same ▸ List.mem_append_right _ hy), rest⟩

theorem mapRemove_perm {cache : List (Nat × Nat)}
    (map : cache.Perm ((older ++ k :: newer).map Prod.swap))
    (nodup : ((older ++ k :: newer).map Prod.snd).Nodup) :
    (mapRemove cache k.2).Perm ((older ++ newer).map Prod.swap) := by
  rw [List.map_append, List.map_cons] at nodup
  obtain ⟨before, after, -⟩ := nodup_around nodup
  refine (map.filter _).trans (List.Perm.of_eq ?_)
  rw [List.map_append, List.map_cons, List.filter_append, List.filter_cons_of_neg (by simp),
    List.map_append]
  congr 1
  · refine List.filter_eq_self.mpr fun entry hentry => ?_
    obtain ⟨k', hk', rfl⟩ := List.mem_map.mp hentry
    exact decide_eq_true (before k'.2 (List.mem_map_of_mem hk'))
  · refine List.filter_eq_self.mpr fun entry hentry => ?_
    obtain ⟨k', hk', rfl⟩ := List.mem_map.mp hentry
    exact decide_eq_true (after k'.2 (List.mem_map_of_mem hk'))

/-- Taking a row out of the links, the map and the slab takes it out of the queue. -/
theorem Placed.unlink (h : Placed c (older ++ k :: newer)) (hand : Nat)
    (cache : List (Nat × Nat)) :
    ∃ links tail head,
      LinkedSieve.unlink { c with hand := hand, cache := cache } k.1 = some { c with
        hand := hand, cache := cache, links := links, tail := tail, head := head } ∧
      Placed { c with
        hand := hand, cache := mapRemove c.cache k.2, links := links, tail := tail, head := head
        slab := c.slab.release k.1 } (older ++ newer) ∧
      ∀ j, (links.getD j Link.vacant).visited = (c.linkAt j).visited := by
  have rows : (older ++ k :: newer).map Prod.fst =
      older.map Prod.fst ++ k.1 :: newer.map Prod.fst := by
    rw [List.map_append, List.map_cons]
  have nodes : (older ++ k :: newer).map Prod.snd =
      older.map Prod.snd ++ k.2 :: newer.map Prod.snd := by
    rw [List.map_append, List.map_cons]
  have linked := h.linked
  have inside := h.inside
  rw [rows] at linked inside
  obtain ⟨links, tail, head, ran, length, linked, kept⟩ :=
    unlink_linked (c := { c with hand := hand, cache := cache }) linked inside
  refine ⟨links, tail, head, ran, ⟨?_, fun k' hk' => ?_, mapRemove_perm h.map h.nodup, ?_, ?_, ?_,
    ⟨h.sized.count, h.sized.width⟩, h.rows⟩, fun j => (kept j).2⟩
  · have nodup := h.nodup
    rw [nodes] at nodup
    rw [List.map_append]
    exact (nodup_around nodup).2.2
  · refine (kept k'.1).1.trans (h.nodes k' ?_)
    rw [List.mem_append] at hk' ⊢
    exact hk'.imp_right (List.mem_cons_of_mem k)
  · rw [List.map_append]
    exact linked
  · refine List.Perm.trans ?_ h.slots
    rw [rows, List.map_append]
    have back : (newer.map Prod.fst ++ (c.slab.free ++ [k.1])).Perm
        (k.1 :: newer.map Prod.fst ++ c.slab.free) :=
      ((List.perm_append_singleton k.1 c.slab.free).append_left _).trans List.perm_middle
    rw [List.append_assoc, List.append_assoc]
    exact back.append_left _
  · exact length.trans h.links

variable [OfNat α 0]

/-- Placing a new node gives it a row of its own at the head of the queue. -/
theorem Placed.place (h : Placed c keys) {node : Nat} (new : node ∉ keys.map Prod.snd)
    {features : List α} (fits : features.length = c.slab.dim) (room : keys.length < noEntry) :
    ∃ row c', c.place node features = some c' ∧ Placed c' (keys ++ [(row, node)]) ∧
      (c'.linkAt row).visited = c.warm node ∧ c'.slab.row row = some features ∧
      (∀ k ∈ keys, (c'.linkAt k.1).visited = (c.linkAt k.1).visited ∧
        c'.slab.row k.1 = c.slab.row k.1) ∧
      c'.slab.dim = c.slab.dim ∧ c'.hand = c.hand ∧ c'.capacity = c.capacity ∧
      c'.warmupFreq = c.warmupFreq ∧ c'.pinned = c.pinned := by
  have free : c.slab.free ≠ [] ∨ c.slab.rows < 2 ^ 32 - 1 := by
    by_cases empty : c.slab.free = []
    · have length := h.length
      rw [empty] at length
      exact .inr (length ▸ room)
    · exact .inl empty
  obtain ⟨out, sized, slots, rows, dim, taken⟩ := h.sized.alloc h.slots free
  have inside : c.slab.alloc.1 < c.slab.alloc.2.rows := by omega
  have limit : c.slab.alloc.2.rows ≤ noEntry := by
    have := h.rows
    unfold noEntry at *
    omega
  obtain ⟨slab, copied, sized', here, others, rows', free', dim'⟩ :=
    sized.copyRow inside (fits.trans dim.symm)
  -- growing the links with vacant ones changes no link
  obtain ⟨links, grown, length, vacant⟩ : ∃ links,
      links = (if c.links.length ≤ c.slab.alloc.1 then c.links ++
        List.replicate (c.slab.alloc.1 + 1 - c.links.length) Link.vacant else c.links) ∧
      links.length = c.slab.alloc.2.rows ∧ ∀ j, links.getD j Link.vacant = c.linkAt j := by
    refine ⟨_, rfl, ?_, fun j => ?_⟩
    · have := h.links
      split
      · rw [List.length_append, List.length_replicate]
        omega
      · omega
    · split
      · unfold linkAt
        rcases Nat.lt_or_ge j c.links.length with old | past
        · rw [List.getD_append _ _ _ _ old]
        · rw [List.getD_append_right _ _ _ _ past, List.getD_eq_default _ _ past,
            List.getD_eq_getElem?_getD, List.getElem?_replicate]
          split <;> rfl
      · rfl
  have insideLinks : c.slab.alloc.1 < links.length := length ▸ inside
  let fill : Link → Link := fun l => { l with node := node, visited := c.warm node }
  have filled : ∀ j, linkAt { c with slab := slab, links := links.modify c.slab.alloc.1 fill } j =
      if j = c.slab.alloc.1 then fill (c.linkAt j) else c.linkAt j := fun j => by
    rw [linkAt_modify (c := { c with slab := slab, links := links }) insideLinks fill j]
    show (if _ then fill (links.getD j Link.vacant) else links.getD j Link.vacant) = _
    rw [vacant]
  have prevs : prevOf { c with slab := slab, links := links.modify c.slab.alloc.1 fill } =
      c.prevOf := funext fun j => by
    unfold prevOf
    rw [filled]
    split <;> rfl
  have nexts : nextOf { c with slab := slab, links := links.modify c.slab.alloc.1 fill } =
      c.nextOf := funext fun j => by
    unfold nextOf
    rw [filled]
    split <;> rfl
  have linked := h.linked
  rw [← prevs, ← nexts] at linked
  have insideAll : ∀ x ∈ keys.map Prod.fst, x < (links.modify c.slab.alloc.1 fill).length := by
    intro x hx
    have old := List.mem_range.mp (h.slots.mem_iff.mp (List.mem_append_left _ hx))
    rw [List.length_modify, length]
    omega
  obtain ⟨links', tail, ran, length', linked', kept⟩ :=
    pushHead_linked (c := { c with slab := slab, links := links.modify c.slab.alloc.1 fill })
      (r := c.slab.alloc.1) linked out (by rwa [List.length_modify]) (by omega) insideAll
  have absent : mapRemove c.cache node = c.cache :=
    List.filter_eq_self.mpr fun entry hentry => decide_eq_true fun same => by
      obtain ⟨k, hk, rfl⟩ := List.mem_map.mp (h.map.mem_iff.mp hentry)
      exact new (same ▸ List.mem_map_of_mem hk)
  have placed : c.place node features = some { c with
      slab := slab, links := links', tail := tail, head := c.slab.alloc.1
      cache := mapInsert c.cache node c.slab.alloc.1 } := by
    unfold LinkedSieve.place
    show Option.bind (c.slab.alloc.2.copyRow c.slab.alloc.1 features) _ = _
    rw [copied]
    show Option.bind (modifyLink { c with
      slab := slab
      links := if c.links.length ≤ c.slab.alloc.1 then c.links ++
        List.replicate (c.slab.alloc.1 + 1 - c.links.length) Link.vacant else c.links }
      c.slab.alloc.1 fill) _ = _
    rw [← grown, modifyLink_eq insideLinks]
    show Option.bind (pushHead _ c.slab.alloc.1) _ = _
    rw [ran]
    rfl
  refine ⟨c.slab.alloc.1, _, placed, ⟨?_, ?_, ?_, ?_, ?_, ?_, sized', rows' ▸ limit⟩, ?_, here, ?_,
    dim'.trans dim, rfl, rfl, rfl, rfl⟩
  · rw [List.map_append, List.map_singleton]
    refine List.nodup_append.mpr ⟨h.nodup, List.nodup_singleton _, fun n hn m hm same => ?_⟩
    obtain rfl := List.mem_singleton.mp hm
    exact new (same ▸ hn)
  · refine List.forall_mem_append.mpr ⟨fun k hk => ?_, fun k hk => ?_⟩
    · have ne : k.1 ≠ c.slab.alloc.1 := fun same => out (same ▸ List.mem_map_of_mem hk)
      refine (kept k.1).1.trans ?_
      rw [filled, if_neg ne]
      exact h.nodes k hk
    · obtain rfl := List.mem_singleton.mp hk
      refine (kept _).1.trans ?_
      rw [filled, if_pos rfl]
  · unfold mapInsert
    rw [absent, List.map_append]
    exact (h.map.cons _).trans (List.perm_append_singleton _ _).symm
  · rw [List.map_append]
    exact linked'
  · rw [List.map_append, rows', free']
    exact slots
  · rw [length', List.length_modify, length, rows']
  · refine (kept _).2.trans ?_
    rw [filled, if_pos rfl]
  · intro k hk
    have mem : k.1 ∈ keys.map Prod.fst := List.mem_map_of_mem hk
    have ne : k.1 ≠ c.slab.alloc.1 := fun same => out (same ▸ mem)
    have old : k.1 < c.slab.rows :=
      List.mem_range.mp (h.slots.mem_iff.mp (List.mem_append_left _ mem))
    refine ⟨(kept k.1).2.trans ?_, (others k.1 ne).trans (rows k.1 old)⟩
    rw [filled, if_neg ne]

end Placed

section Hand

variable {c : LinkedSieve α} {keys older newer : List (Nat × Nat)} {k : Nat × Nat} {row : Nat}
  {node : Option Nat}

theorem handAt_split (older newer : List (Nat × Nat)) :
    HandAt ((newer.head?.map Prod.fst).getD noEntry) (newer.head?.map Prod.snd)
      (older ++ newer) := by
  refine ⟨older.length, ?_⟩
  rw [List.getElem?_append_right (Nat.le_refl _), Nat.sub_self, List.head?_eq_getElem?]
  exact ⟨rfl, rfl⟩

/-- The row and the node of the hand name one place of the queue, or both are empty. -/
theorem HandAt.cases (h : HandAt row node keys) :
    (row = noEntry ∧ node = none) ∨ ∃ older k newer, keys = older ++ k :: newer ∧ row = k.1 ∧
      node = some k.2 := by
  obtain ⟨i, rfl, rfl⟩ := h
  cases found : keys[i]? with
  | none => exact .inl ⟨rfl, rfl⟩
  | some k =>
      obtain ⟨older, newer, same⟩ := List.append_of_mem (List.mem_of_getElem? found)
      exact .inr ⟨older, k, newer, same, rfl, rfl⟩

theorem HandAt.concat (h : HandAt row node keys) (k : Nat × Nat) :
    HandAt row node (keys ++ [k]) := by
  obtain ⟨i, rfl, rfl⟩ := h
  rcases Nat.lt_or_ge i keys.length with inside | past
  · refine ⟨i, ?_⟩
    rw [List.getElem?_append_left inside]
    exact ⟨rfl, rfl⟩
  · refine ⟨keys.length + 1, ?_⟩
    rw [List.getElem?_eq_none past, List.getElem?_eq_none (by simp)]
    exact ⟨rfl, rfl⟩

/-- A hand elsewhere stays when an entry leaves. -/
theorem HandAt.remove (h : HandAt row node (older ++ k :: newer)) (apart : node ≠ some k.2) :
    HandAt row node (older ++ newer) := by
  obtain ⟨i, rfl, rfl⟩ := h
  rcases Nat.lt_trichotomy i older.length with before | rfl | after
  · refine ⟨i, ?_⟩
    rw [List.getElem?_append_left before, List.getElem?_append_left before]
    exact ⟨rfl, rfl⟩
  · rw [List.getElem?_append_right (Nat.le_refl _), Nat.sub_self] at apart
    exact absurd rfl apart
  · refine ⟨i - 1, ?_⟩
    rw [List.getElem?_append_right (by omega), List.getElem?_append_right (by omega),
      List.getElem?_cons, if_neg (by omega), Nat.sub_right_comm]
    exact ⟨rfl, rfl⟩

end Hand

section Operations

variable {c : LinkedSieve α} {a : SieveCache (List α)}
  {queue older newer : List (Nat × SieveEntry (List α))} {p : Nat × SieveEntry (List α)}

theorem Describes.nodes_eq (h : Describes c a queue) :
    a.nodes = (queue.map keyOf).map Prod.snd := by
  rw [SieveCache.nodes, h.entries, List.map_map, List.map_map]
  rfl

theorem Describes.nodup (h : Describes c a queue) : a.nodes.Nodup :=
  h.nodes_eq ▸ h.placed.nodup

theorem Describes.length_eq (h : Describes c a queue) : c.cache.length = a.entries.length := by
  rw [h.placed.map.length_eq, h.entries]
  simp

/-- The map finds the row of a resident node, and nothing else. -/
theorem Describes.lookup (h : Describes c a queue) (node : Nat) :
    match c.cache.lookup node with
    | some row => ∃ older p newer, queue = older ++ p :: newer ∧ p.1 = row ∧ p.2.node = node
    | none => node ∉ a.nodes := by
  cases found : c.cache.lookup node with
  | some row =>
      obtain ⟨before, after, same, -⟩ := List.lookup_eq_some_iff.mp found
      have mem : (node, row) ∈ c.cache := same ▸ List.mem_append_right _ List.mem_cons_self
      obtain ⟨k, hk, swapped⟩ := List.mem_map.mp (h.placed.map.mem_iff.mp mem)
      obtain ⟨p, hp, rfl⟩ := List.mem_map.mp hk
      obtain ⟨older, newer, split⟩ := List.append_of_mem hp
      exact ⟨older, p, newer, split, congrArg Prod.snd swapped, congrArg Prod.fst swapped⟩
  | none =>
      intro mem
      rw [h.nodes_eq] at mem
      obtain ⟨k, hk, rfl⟩ := List.mem_map.mp mem
      have absent := List.lookup_eq_none_iff.mp found k.swap
        (h.placed.map.mem_iff.mpr (List.mem_map_of_mem hk))
      simp at absent

theorem Describes.inside (h : Describes c a (older ++ p :: newer)) : p.1 < c.links.length :=
  h.placed.inside p.1 (List.mem_map.mpr ⟨keyOf p, List.mem_map_of_mem (by simp), rfl⟩)

/-- The other entries are on other rows. -/
theorem Describes.apart (h : Describes c a (older ++ p :: newer)) :
    ∀ q ∈ older ++ newer, q.1 ≠ p.1 := by
  have nodup := h.placed.linked.nodup
  rw [List.map_map, List.map_append, List.map_cons] at nodup
  obtain ⟨before, after, -⟩ := nodup_around nodup
  exact List.forall_mem_append.mpr ⟨fun q hq => before q.1 (List.mem_map_of_mem hq),
    fun q hq => after q.1 (List.mem_map_of_mem hq)⟩

theorem Describes.withHand (h : Describes c a queue) {row : Nat} {node : Option Nat}
    (hand : HandAt row node (queue.map keyOf)) :
    Describes { c with hand := row } { a with hand := node } queue :=
  { h with
    placed := { h.placed with }
    hand := hand }

/-- Marking an entry and writing its row. -/
theorem Describes.update (h : Describes c a (older ++ p :: newer)) (visited : Bool)
    {slab : RowSlab α} (sized : slab.Sized) (rows : slab.rows = c.slab.rows)
    (free : slab.free = c.slab.free) {row : List α} (here : slab.row p.1 = some row)
    (others : ∀ r, r ≠ p.1 → slab.row r = c.slab.row r) :
    Describes { c.marked p.1 visited with slab := slab }
      { a with entries := (older ++ (p.1, ⟨p.2.node, row, visited⟩) :: newer).map Prod.snd }
      (older ++ (p.1, ⟨p.2.node, row, visited⟩) :: newer) := by
  have keys : (older ++ (p.1, ⟨p.2.node, row, visited⟩) :: newer).map keyOf =
      (older ++ p :: newer).map keyOf := by
    simp [keyOf]
  have link : ∀ j, linkAt { c.marked p.1 visited with slab := slab } j =
      if j = p.1 then { c.linkAt j with visited := visited } else c.linkAt j :=
    linkAt_marked h.inside visited
  have apart := h.apart
  refine ⟨?_, ?_, rfl, fun q hq => ?_, h.capacity, h.pinned, h.warmup⟩
  · rw [keys]
    exact h.placed.mark h.inside visited sized rows free
  · rw [keys]
    exact h.hand
  · have place : q ∈ older ++ newer ∨ q = (p.1, ⟨p.2.node, row, visited⟩) := by
      simp only [List.mem_append, List.mem_cons] at hq ⊢
      tauto
    rcases place with other | rfl
    · have stored : q ∈ older ++ p :: newer := by
        simp only [List.mem_append, List.mem_cons] at other ⊢
        tauto
      rw [link, if_neg (apart q other)]
      exact ⟨(h.stored q stored).1, (others q.1 (apart q other)).trans (h.stored q stored).2⟩
    · rw [link, if_pos rfl]
      exact ⟨rfl, here⟩

/-- Taking an entry out, with the hand at a place of the queue left. -/
theorem Describes.remove (h : Describes c a (older ++ p :: newer)) {row : Nat}
    {node : Option Nat} (hand : HandAt row node ((older ++ newer).map keyOf))
    (cache : List (Nat × Nat)) :
    ∃ links tail head,
      LinkedSieve.unlink { c with hand := row, cache := cache } p.1 = some { c with
        hand := row, cache := cache, links := links, tail := tail, head := head } ∧
      Describes { c with
        hand := row, cache := mapRemove c.cache p.2.node, links := links, tail := tail
        head := head, slab := c.slab.release p.1 }
        { a with hand := node, entries := (older ++ newer).map Prod.snd } (older ++ newer) := by
  have placed := h.placed
  rw [List.map_append, List.map_cons] at placed
  obtain ⟨links, tail, head, ran, left, kept⟩ := placed.unlink row cache
  refine ⟨links, tail, head, ran, ?_, hand, rfl, fun q hq => ?_, h.capacity, h.pinned, h.warmup⟩
  · rw [List.map_append]
    exact left
  · have stored : q ∈ older ++ p :: newer := by
      simp only [List.mem_append, List.mem_cons] at hq ⊢
      tauto
    exact ⟨(kept q.1).trans (h.stored q stored).1, (h.stored q stored).2⟩

/-- The hand of the eviction loop: the tail's entry where the hand is empty. -/
theorem Describes.atHand (h : Describes c a queue) :
    HandAt (if c.hand = noEntry then c.tail else c.hand)
      (a.hand.or (a.entries.head?.map SieveEntry.node)) (queue.map keyOf) := by
  rcases h.hand.cases with ⟨row, node⟩ | ⟨older, k, newer, split, row, node⟩
  · have first := handAt_split [] (queue.map keyOf)
    rw [if_pos row, node, Option.none_or, h.placed.linked.tail, h.entries, List.head?_map,
      List.head?_map, List.head?_map, Option.map_map, Option.map_map]
    rw [List.head?_map, Option.map_map, Option.map_map] at first
    exact first
  · have proper : c.hand ≠ noEntry := fun same => h.placed.linked.proper
      (same ▸ row ▸ List.mem_map_of_mem (split ▸ List.mem_append_right _ List.mem_cons_self))
    rw [if_neg proper, node, Option.some_or, ← node]
    exact h.hand

/-- The queue around the hand. -/
theorem split_at {k : Nat × Nat} {before after : List (Nat × Nat)}
    (split : queue.map keyOf = before ++ k :: after) :
    ∃ older p newer, queue = older ++ p :: newer ∧ keyOf p = k := by
  obtain ⟨older, rest, rfl, -, rest_eq⟩ := List.map_eq_append_iff.mp split
  obtain ⟨p, newer, rfl, at_, -⟩ := List.map_eq_cons_iff.mp rest_eq
  exact ⟨older, p, newer, rfl, at_⟩

/-- What the stored tier reads at an entry of the queue. -/
theorem Describes.link (h : Describes c a (older ++ p :: newer)) :
    c.links[p.1]? = some (c.linkAt p.1) ∧ (c.linkAt p.1).node = p.2.node ∧
      (c.linkAt p.1).visited = p.2.visited ∧
      (c.linkAt p.1).next = (newer.head?.map Prod.fst).getD noEntry := by
  refine ⟨?_, ?_, (h.stored p (by simp)).1, ?_⟩
  · rw [linkAt, List.getD_eq_getElem _ _ h.inside, List.getElem?_eq_getElem h.inside]
  · exact h.placed.nodes (keyOf p) (List.mem_map_of_mem (by simp))
  · have linked := h.placed.linked
    rw [List.map_map, List.map_append, List.map_cons] at linked
    refine linked.neighbours.2.trans ?_
    rw [List.head?_map]
    rfl

/-- The hand on the oldest of the newer entries. -/
theorem handAt_around (older newer : List (Nat × SieveEntry (List α))) :
    HandAt ((newer.head?.map Prod.fst).getD noEntry)
      ((newer.map Prod.snd).head?.map SieveEntry.node) ((older ++ newer).map keyOf) := by
  have at_ := handAt_split (older.map keyOf) (newer.map keyOf)
  rw [List.head?_map, Option.map_map, Option.map_map] at at_
  rw [List.head?_map, Option.map_map, List.map_append]
  exact at_

/-- Evicting an entry the hand has moved off. -/
theorem Describes.evictEntry (h : Describes c a (older ++ p :: newer)) {row : Nat}
    {node : Option Nat} (hand : HandAt row node ((older ++ newer).map keyOf)) :
    ∃ c', LinkedSieve.evictEntry { c with hand := row } p.1 p.2.node =
        some (some (p.2.node, p.2.row), c') ∧
      Describes c' { a with
        hand := node, entries := older.map Prod.snd ++ newer.map Prod.snd } (older ++ newer) ∧
      c'.slab.dim = c.slab.dim := by
  obtain ⟨links, tail, head, ran, left⟩ := h.remove hand c.cache
  rw [List.map_append] at left
  refine ⟨_, ?_, left, rfl⟩
  have read : c.slab.row p.1 = some p.2.row := (h.stored p (by simp)).2
  unfold LinkedSieve.evictEntry
  show Option.bind (LinkedSieve.unlink { c with hand := row } p.1) _ = _
  rw [show LinkedSieve.unlink { c with hand := row } p.1 = _ from ran]
  show Option.bind (c.slab.row p.1) _ = _
  rw [read]
  rfl

/-- One step of the stored hand. -/
theorem Describes.evictLoop_step (h : Describes c a (older ++ p :: newer)) (budget : Nat)
    (row : (if c.hand = noEntry then c.tail else c.hand) = p.1) :
    c.evictLoop (budget + 1) =
      if p.2.node ∈ c.pinned then
        LinkedSieve.evictLoop budget { c with hand := (newer.head?.map Prod.fst).getD noEntry }
      else if p.2.visited then LinkedSieve.evictLoop budget { c.marked p.1 false with
        hand := (newer.head?.map Prod.fst).getD noEntry }
      else LinkedSieve.evictEntry { c with hand := (newer.head?.map Prod.fst).getD noEntry } p.1
        p.2.node := by
  obtain ⟨found, linkNode, linkVisited, linkNext⟩ := h.link
  have proper : p.1 ≠ noEntry := fun same => h.placed.linked.proper
    (same ▸ List.mem_map.mpr ⟨keyOf p, List.mem_map_of_mem (by simp), rfl⟩)
  rw [LinkedSieve.evictLoop]
  dsimp only
  rw [row, if_neg proper, found, ← linkNode, ← linkVisited, ← linkNext]
  show (if _ then _ else if _ then _ else _) = _
  rw [modifyLink_eq (c := { c with hand := p.1 }) h.inside]
  rfl

theorem Describes.evictLoop (h : Describes c a queue) (budget : Nat) :
    ∃ c' queue', c.evictLoop budget = some ((a.evictLoop budget).1, c') ∧
      Describes c' (a.evictLoop budget).2 queue' ∧ c'.slab.dim = c.slab.dim ∧
      ((a.evictLoop budget).1 = none → queue'.map keyOf = queue.map keyOf) ∧
      ((a.evictLoop budget).1 ≠ none → queue'.length < queue.length) := by
  induction budget generalizing c a queue with
  | zero => exact ⟨c, queue, rfl, h, rfl, fun _ => rfl, fun some => absurd rfl some⟩
  | succ budget ih =>
      have hand := h.atHand
      rcases hand.cases with ⟨row, node⟩ | ⟨before, k, after, split, row, node⟩
      · have stopped : a.evictLoop (budget + 1) = (none, { a with
            hand := a.hand.or (a.entries.head?.map SieveEntry.node) }) := by
          rw [SieveCache.evictLoop]
          dsimp only
          rw [node]
          rfl
        rw [stopped]
        refine ⟨_, queue, ?_, h.withHand hand, rfl, fun _ => rfl, fun some => absurd rfl some⟩
        unfold LinkedSieve.evictLoop
        exact if_pos row
      · rw [SieveCache.evictLoop_hand]
        obtain ⟨older, p, newer, rfl, rfl⟩ := split_at split
        obtain ⟨found, linkNode, linkVisited, linkNext⟩ := h.link
        have entries : a.entries = older.map Prod.snd ++ p.2 :: newer.map Prod.snd := by
          rw [h.entries, List.map_append, List.map_cons]
        have next := handAt_around (older ++ [p]) newer
        rw [List.append_assoc, List.singleton_append] at next
        have step := SieveCache.evictLoop_at (c := { a with
          hand := a.hand.or (a.entries.head?.map SieveEntry.node) }) budget entries h.nodup node
        rw [step]
        have advanced := h.withHand next
        rw [h.evictLoop_step budget row]
        by_cases pinned : p.2.node ∈ c.pinned
        · have kept : SieveCache.evictable a.pinned p.2 = false := by
            simp [SieveCache.evictable, h.pinned, pinned]
          have left : SieveCache.passedBy a.pinned p.2 = p.2 := if_pos (h.pinned ▸ pinned)
          rw [if_pos pinned, kept, if_neg Bool.false_ne_true, left, ← entries]
          exact ih advanced
        · rw [if_neg pinned]
          cases visited : p.2.visited with
          | true =>
              have kept : SieveCache.evictable a.pinned p.2 = false := by
                simp [SieveCache.evictable, visited]
              have left : SieveCache.passedBy a.pinned p.2 = ⟨p.2.node, p.2.row, false⟩ :=
                if_neg (h.pinned ▸ pinned)
              have cleared := h.update false h.placed.sized rfl rfl (h.stored p (by simp)).2
                fun _ _ => rfl
              have keys : (older ++ (p.1, ⟨p.2.node, p.2.row, false⟩) :: newer).map keyOf =
                  (older ++ p :: newer).map keyOf := by
                simp [keyOf]
              have left' : (older ++ (p.1, ⟨p.2.node, p.2.row, false⟩) :: newer).map Prod.snd =
                  older.map Prod.snd ++ ⟨p.2.node, p.2.row, false⟩ :: newer.map Prod.snd := by
                rw [List.map_append, List.map_cons]
              have length : (older ++ (p.1, ⟨p.2.node, p.2.row, false⟩) :: newer).length =
                  (older ++ p :: newer).length := by
                rw [List.length_append, List.length_append, List.length_cons, List.length_cons]
              have ran := ih (cleared.withHand (keys ▸ next))
              rw [keys, left', length] at ran
              rw [if_pos rfl, kept, if_neg Bool.false_ne_true, left]
              exact ran
          | false =>
              have evicted : SieveCache.evictable a.pinned p.2 = true := by
                simp [SieveCache.evictable, h.pinned, pinned, visited]
              rw [if_neg Bool.false_ne_true, evicted, if_pos rfl]
              obtain ⟨c', ran, described, dim⟩ := h.evictEntry (handAt_around older newer)
              exact ⟨c', older ++ newer, ran, described, dim, by rintro ⟨⟩, fun _ => by simp⟩

end Operations

end LinkedSieve

end AetherGraph
