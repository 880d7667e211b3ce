import AetherGraph.Foundation.RingWindow

/-! Single-producer single-consumer queues over a ring with published indices.  Each side reads
the other's index, works on, and publishes its own index later; what it read stays usable. -/

namespace Foundation

/-- The ring and its two published indices, which wrap at a word size.  `pushed` lists the entries
written, `published` of them visible to the consumer and `popped` given back. -/
structure Spsc (α : Type) where
  mem : Nat → α
  head : Nat
  tail : Nat
  pushed : List α
  published : Nat
  popped : Nat

namespace Spsc

variable {α : Type}

/-- An empty queue whose indices start at `base`. -/
def startAt [Inhabited α] (size : Nat) (mem : Nat → α) (base : Nat) : Spsc α :=
  ⟨mem, base % size, base % size, List.replicate base default, base, base⟩

/-- Write an entry without publishing it. -/
def write (q : Spsc α) (slot : Nat) (a : α) : Spsc α :=
  { q with mem := Function.update q.mem slot a, pushed := q.pushed ++ [a] }

/-- Store a tail that shows `n` more entries. -/
def publish (q : Spsc α) (tail n : Nat) : Spsc α :=
  { q with tail := tail, published := q.published + n }

/-- Store a head that gives `n` entries back. -/
def advance (q : Spsc α) (head n : Nat) : Spsc α :=
  { q with head := head, popped := q.popped + n }

structure Ok (size depth : Nat) (q : Spsc α) : Prop where
  depth_lt : depth < size
  window : RingWindow depth q.mem q.pushed q.popped
  popped_le : q.popped ≤ q.published
  published_le : q.published ≤ q.pushed.length
  head_eq : q.head = q.popped % size
  tail_eq : q.tail = q.published % size

/-- `h` is a head the producer may have read since its last write. -/
def Room (size depth : Nat) (q : Spsc α) (h : Nat) : Prop :=
  ∃ n, h = n % size ∧ n ≤ q.popped ∧ q.pushed.length ≤ n + depth

/-- `t` is a tail the consumer may have read since it last gave entries back. -/
def Seen (size : Nat) (q : Spsc α) (t : Nat) : Prop :=
  ∃ n, t = n % size ∧ q.popped ≤ n ∧ n ≤ q.published

/-- The producer has published all it wrote. -/
def Settled (q : Spsc α) : Prop := q.published = q.pushed.length

/-- `q'` is `q` after moves of its producer. -/
structure Grew (q q' : Spsc α) : Prop where
  popped_eq : q'.popped = q.popped
  published_le : q.published ≤ q'.published
  pushed_le : q.pushed <+: q'.pushed

/-- `q'` is `q` after moves of its consumer. -/
structure Freed (q q' : Spsc α) : Prop where
  pushed_eq : q'.pushed = q.pushed
  published_eq : q'.published = q.published
  popped_le : q.popped ≤ q'.popped

theorem startAt_ok [Inhabited α] {size depth : Nat} (lt : depth < size) (mem : Nat → α)
    (base : Nat) : Ok size depth (startAt size mem base) where
  depth_lt := lt
  window := by
    have length : (List.replicate base (default : α)).length = base := List.length_replicate
    refine ⟨length.ge, length.le.trans (Nat.le_add_right _ _), fun i hi a at_ => ?_⟩
    rw [startAt, List.getElem?_eq_none (by rw [length]; exact hi)] at at_
    cases at_
  popped_le := Nat.le_refl _
  published_le := by
    rw [startAt, List.length_replicate]
  head_eq := rfl
  tail_eq := rfl

namespace Ok

variable {size depth : Nat} {q : Spsc α}

theorem write (h : Ok size depth q) (room : q.pushed.length < q.popped + depth) {slot : Nat}
    (next : slot = q.pushed.length % depth) (a : α) : Ok size depth (q.write slot a) where
  depth_lt := h.depth_lt
  window := next ▸ h.window.push room a
  popped_le := h.popped_le
  published_le := by
    dsimp only [Spsc.write]
    rw [List.length_append]
    exact h.published_le.trans (Nat.le_add_right _ _)
  head_eq := h.head_eq
  tail_eq := h.tail_eq

theorem publish (h : Ok size depth q) {tail n : Nat} (le : q.published + n ≤ q.pushed.length)
    (eq : tail = (q.published + n) % size) : Ok size depth (q.publish tail n) where
  depth_lt := h.depth_lt
  window := h.window
  popped_le := h.popped_le.trans (Nat.le_add_right _ _)
  published_le := le
  head_eq := h.head_eq
  tail_eq := eq

theorem advance (h : Ok size depth q) {head n : Nat} (le : q.popped + n ≤ q.published)
    (eq : head = (q.popped + n) % size) : Ok size depth (q.advance head n) where
  depth_lt := h.depth_lt
  window := by
    have within := le.trans h.published_le
    clear le eq
    induction n with
    | zero => exact h.window
    | succ n ih => exact (ih (Nat.le_of_succ_le within)).pop within
  popped_le := le
  published_le := h.published_le
  head_eq := eq
  tail_eq := h.tail_eq

/-- An entry published and not given back is in its slot. -/
theorem read (h : Ok size depth q) {i : Nat} (more : q.popped + i < q.published) :
    q.pushed[q.popped + i]? = some (q.mem ((q.popped + i) % depth)) := by
  obtain ⟨a, at_⟩ : ∃ a, q.pushed[q.popped + i]? = some a :=
    ⟨_, List.getElem?_eq_getElem (Nat.lt_of_lt_of_le more h.published_le)⟩
  rw [at_, h.window.holds _ (Nat.le_add_right _ _) a at_]

theorem length_le (h : Ok size depth q) : q.published ≤ q.popped + depth :=
  h.published_le.trans h.window.fits

theorem room_head (h : Ok size depth q) : Room size depth q q.head :=
  ⟨q.popped, h.head_eq, Nat.le_refl _, h.window.fits⟩

theorem seen_tail (h : Ok size depth q) : Seen size q q.tail :=
  ⟨q.published, h.tail_eq, h.popped_le, Nat.le_refl _⟩

/-- The free slots a head read leaves, as the producer counts them. -/
theorem free_of_room (h : Ok size depth q) {head : Nat} (room : Room size depth q head) :
    q.pushed.length - q.popped ≤ wrapSub size (q.pushed.length % size) head ∧
      wrapSub size (q.pushed.length % size) head ≤ depth := by
  obtain ⟨n, rfl, old, fits⟩ := room
  have le : n ≤ q.pushed.length := old.trans (h.popped_le.trans h.published_le)
  have := h.depth_lt
  rw [wrapSub_mod le (by omega)]
  omega

/-- With the current head the count is exact. -/
theorem used_eq (h : Ok size depth q) :
    wrapSub size (q.pushed.length % size) q.head = q.pushed.length - q.popped := by
  have le : q.popped ≤ q.pushed.length := h.popped_le.trans h.published_le
  have := h.depth_lt
  have := h.window.fits
  rw [h.head_eq, wrapSub_mod le (by omega)]

/-- The current tail equals the consumer's own index only when the queue is empty. -/
theorem empty_of_tail (h : Ok size depth q) (same : q.tail = q.popped % size) :
    q.published = q.popped := by
  have := h.depth_lt
  have near := h.length_le
  have le := h.popped_le
  rw [h.tail_eq] at same
  exact eq_of_slot_eq (by omega) (by omega) same

end Ok

theorem Grew.refl (q : Spsc α) : Grew q q := ⟨rfl, Nat.le_refl _, List.prefix_refl _⟩

theorem Freed.refl (q : Spsc α) : Freed q q := ⟨rfl, rfl, Nat.le_refl _⟩

theorem grew_write (q : Spsc α) (slot : Nat) (a : α) : Grew q (q.write slot a) :=
  ⟨rfl, Nat.le_refl _, List.prefix_append _ _⟩

theorem grew_publish (q : Spsc α) (tail n : Nat) : Grew q (q.publish tail n) :=
  ⟨rfl, Nat.le_add_right _ _, List.prefix_refl _⟩

theorem freed_advance (q : Spsc α) (head n : Nat) : Freed q (q.advance head n) :=
  ⟨rfl, rfl, Nat.le_add_right _ _⟩

theorem Room.freed {size depth : Nat} {q q' : Spsc α} {h : Nat} (room : Room size depth q h)
    (freed : Freed q q') : Room size depth q' h := by
  obtain ⟨m, eq, old, fits⟩ := room
  exact ⟨m, eq, old.trans freed.popped_le, freed.pushed_eq ▸ fits⟩

theorem Seen.grew {size : Nat} {q q' : Spsc α} {t : Nat} (seen : Seen size q t)
    (grew : Grew q q') : Seen size q' t := by
  obtain ⟨m, eq, ge, le⟩ := seen
  exact ⟨m, eq, grew.popped_eq ▸ ge, le.trans grew.published_le⟩

theorem Settled.freed {q q' : Spsc α} (settled : Settled q) (freed : Freed q q') : Settled q' := by
  rw [Settled, freed.published_eq, freed.pushed_eq, settled]

/-- A tail read that differs from the consumer's own index shows an entry. -/
theorem Seen.more {size : Nat} {q : Spsc α} {t : Nat} (seen : Seen size q t)
    (differ : t ≠ q.popped % size) : q.popped < q.published := by
  obtain ⟨n, rfl, ge, le⟩ := seen
  refine Nat.lt_of_lt_of_le (Nat.lt_of_le_of_ne ge fun same => differ ?_) le
  rw [same]

end Spsc

end Foundation
