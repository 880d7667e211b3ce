import Mathlib.Data.List.Sort

/-! Remote reads of a feature-table slot: two snapshots whose loads happen in any order,
and the rule by which clients accept a row from them. -/

namespace AetherGraph

/-- The acceptance rule: one even published version four times, and equal payloads. -/
def acceptRow (head1 tail1 head2 tail2 : Nat) (samePayload : Bool) : Bool :=
  decide (head1 = tail1 ∧ head1 = head2 ∧ head1 = tail2 ∧ head1 % 2 = 0 ∧ head1 ≠ 0) && samePayload

/-- One 8-byte location of the slot. -/
inductive Cell where
  | head
  | tail
  | word (j : Nat)
  deriving DecidableEq, Repr

/-- What a READ has landed so far. -/
structure RowSnapshot where
  head : Option Nat
  tail : Option Nat
  words : List (Option Nat)
  deriving DecidableEq, Repr

namespace RowSnapshot

def empty (n : Nat) : RowSnapshot := ⟨none, none, List.replicate n none⟩

def complete (s : RowSnapshot) : Bool :=
  s.head.isSome && s.tail.isSome && s.words.all Option.isSome

end RowSnapshot

/-- The writer that holds the odd head. -/
structure OpenWrite where
  payload : List Nat
  stored : List Nat
  tailed : Bool
  deriving DecidableEq, Repr

/-- The slot as its writers and one remote reader use it, and the payloads of completed
writes in version order. -/
structure RemoteSlot where
  head : Nat
  tail : Nat
  words : List Nat
  writer : Option OpenWrite
  completed : List (List Nat)
  first : RowSnapshot
  second : RowSnapshot
  deriving DecidableEq, Repr

inductive RemoteEvent where
  | beginWrite (payload : List Nat)
  | storeWord (j : Nat)
  | storeTail
  | storeHead
  | restart
  | loadFirst (cell : Cell)
  | loadSecond (cell : Cell)
  deriving DecidableEq, Repr

namespace RemoteSlot

/-- A zeroed slot of `n` payload words. -/
def fresh (n : Nat) : RemoteSlot :=
  ⟨0, 0, List.replicate n 0, none, [], .empty n, .empty n⟩

/-- One load into a snapshot that has not got the location yet. -/
def load (s : RemoteSlot) (r : RowSnapshot) : Cell → Option RowSnapshot
  | .head => if r.head = none then some { r with head := some s.head } else none
  | .tail => if r.tail = none then some { r with tail := some s.tail } else none
  | .word j =>
      if r.words[j]? = some none then some { r with words := r.words.set j s.words[j]? } else none

/-- `none` is an event that cannot happen now.  Writers exclude each other by the exchange
on an even head; payload words are stored in any order. -/
def step (s : RemoteSlot) : RemoteEvent → Option RemoteSlot
  | .beginWrite payload =>
      if s.head % 2 = 0 ∧ payload.length = s.words.length then
        some { s with head := s.head + 1, writer := some ⟨payload, [], false⟩ }
      else none
  | .storeWord j =>
      s.writer.bind fun w =>
        if w.tailed = false ∧ j < s.words.length then
          some { s with
            words := s.words.set j (w.payload.getD j 0)
            writer := some { w with stored := j :: w.stored } }
        else none
  | .storeTail =>
      s.writer.bind fun w =>
        if (List.range s.words.length).all w.stored.contains then
          some { s with tail := s.head + 1, writer := some { w with tailed := true } }
        else none
  | .storeHead =>
      s.writer.bind fun w =>
        if w.tailed then
          some { s with
            head := s.head + 1, writer := none, completed := s.completed ++ [w.payload] }
        else none
  | .restart =>
      some { s with first := .empty s.words.length, second := .empty s.words.length }
  | .loadFirst cell => (s.load s.first cell).map fun r => { s with first := r }
  -- the second READ is posted when the first has completed
  | .loadSecond cell =>
      if s.first.complete then (s.load s.second cell).map fun r => { s with second := r } else none

def run : RemoteSlot → List RemoteEvent → Option RemoteSlot
  | s, [] => some s
  | s, e :: es => (s.step e).bind fun s => s.run es

/-- The reader has both snapshots and the rule accepts them. -/
def accepted (s : RemoteSlot) : Bool :=
  s.first.complete && s.second.complete &&
    acceptRow (s.first.head.getD 0) (s.first.tail.getD 0) (s.second.head.getD 0)
      (s.second.tail.getD 0) (decide (s.first.words = s.second.words))

/-- An accepted row is the payload of one completed write. -/
def TwoSnapshotSafe (s : RemoteSlot) : Prop :=
  s.accepted = true → ∃ row ∈ s.completed, s.first.words = row.map some

/-- The store puts a value back that the first snapshot has from this word and that has
been overwritten since. -/
def reuses (s : RemoteSlot) : RemoteEvent → Bool
  | .storeWord j => match s.writer with
      | some w => decide (s.first.words[j]? = some (some (w.payload.getD j 0)) ∧
          s.words[j]? ≠ some (w.payload.getD j 0))
      | none => false
  | _ => false

/-- No event of the run puts a value back under a reader. -/
def steady : RemoteSlot → List RemoteEvent → Bool
  | _, [] => true
  | s, e :: es => !s.reuses e && ((s.step e).map fun s => s.steady es).getD true

/-- Word `j` of the row that version `v` published. -/
def rowAt (s : RemoteSlot) (v j : Nat) : Option Nat := s.completed[v / 2 - 1]?.bind (·[j]?)

/-- What the first snapshot's word `x` is worth, with version `v` loaded beside it: it is
version `v`'s word, or that word no longer holds it, or version `v` is over for the second
snapshot. -/
def Settled (s : RemoteSlot) (v j x : Nat) : Prop :=
  s.rowAt v j = some x ∨ s.words[j]? ≠ some x ∨
    v < s.head ∧ ∀ u, s.second.head = some u → v < u

structure Inv (s : RemoteSlot) : Prop where
  version : s.head = 2 * s.completed.length + if s.writer.isSome then 1 else 0
  rows : ∀ row ∈ s.completed, row.length = s.words.length
  landed : s.first.words.length = s.words.length
  payload : ∀ w, s.writer = some w → w.payload.length = s.words.length ∧
    (∀ j ∈ w.stored, s.words[j]? = w.payload[j]?) ∧
    (w.tailed = true → ∀ j < s.words.length, j ∈ w.stored)
  quiet : s.writer = none → ∀ row, s.completed.getLast? = some row → s.words = row
  order : s.first.complete = false → s.second.head = none ∧
    ∀ (j : Nat) y, s.second.words[j]? ≠ some (some y)
  past : ∀ v, s.first.head = some v → v ≤ s.head
  first : ∀ v (j : Nat) x, s.first.head = some v → v % 2 = 0 → v ≠ 0 →
    s.first.words[j]? = some (some x) → s.Settled v j x
  second : ∀ v (j : Nat) x y, s.first.head = some v → v % 2 = 0 → v ≠ 0 →
    s.first.words[j]? = some (some x) → s.second.words[j]? = some (some y) →
    s.rowAt v j = some x ∨ y ≠ x ∨ v < s.head ∧ ∀ u, s.second.head = some u → v < u

theorem empty_words (n j : Nat) (y : Nat) :
    (RowSnapshot.empty n).words[j]? ≠ some (some y) := by
  intro h
  simp only [RowSnapshot.empty, List.getElem?_replicate] at h
  split at h <;> cases h

theorem fresh_inv (n : Nat) : (fresh n).Inv where
  version := rfl
  rows := fun row h => absurd h List.not_mem_nil
  landed := by simp [fresh, RowSnapshot.empty]
  payload := fun w h => by cases h
  quiet := fun _ row h => by cases h
  order := fun _ => ⟨rfl, empty_words n⟩
  past := fun v h => by cases h
  first := fun v j x h => by cases h
  second := fun v j x y h => by cases h

/-- While version `v` stands, memory is its row. -/
theorem Inv.rowAt_head {s : RemoteSlot} (h : s.Inv) (even : s.head % 2 = 0) (written : s.head ≠ 0)
    (j : Nat) : s.rowAt s.head j = s.words[j]? := by
  have idle : s.writer = none := by
    cases hw : s.writer with
    | none => rfl
    | some w =>
        have := h.version
        rw [hw] at this
        simp only [Option.isSome_some, if_true] at this
        omega
  have version := h.version
  rw [idle] at version
  simp only [Option.isSome_none, Bool.false_eq_true, if_false] at version
  obtain ⟨row, last⟩ : ∃ row, s.completed.getLast? = some row := by
    cases hl : s.completed.getLast? with
    | none =>
        rw [List.getLast?_eq_none_iff] at hl
        rw [hl] at version
        exact absurd version written
    | some row => exact ⟨row, rfl⟩
  rw [rowAt, h.quiet idle row last]
  have index : s.head / 2 - 1 = s.completed.length - 1 := by omega
  rw [List.getLast?_eq_getElem?] at last
  rw [index, last]
  rfl

theorem Settled.mono {s s' : RemoteSlot} {v j x : Nat} (h : s.Settled v j x)
    (row : s.rowAt v j = some x → s'.rowAt v j = some x)
    (word : s.words[j]? ≠ some x → s'.words[j]? ≠ some x) (head : s.head ≤ s'.head)
    (second : s'.second.head = s.second.head) : s'.Settled v j x :=
  h.imp row (Or.imp word fun closed => ⟨closed.1.trans_le head, second.symm ▸ closed.2⟩)

theorem rowAt_append {s s' : RemoteSlot} {row : List Nat}
    (completed : s'.completed = s.completed ++ [row]) {v j x : Nat} (h : s.rowAt v j = some x) :
    s'.rowAt v j = some x := by
  obtain ⟨old, at_, word⟩ := Option.bind_eq_some_iff.mp h
  rw [rowAt, completed, List.getElem?_append_left (List.getElem?_eq_some_iff.mp at_).1, at_]
  exact word

section Steps

variable {s : RemoteSlot}

theorem Inv.writer_none (h : s.Inv) (even : s.head % 2 = 0) : s.writer = none := by
  cases hw : s.writer with
  | none => rfl
  | some w =>
      have := h.version
      rw [hw] at this
      simp only [Option.isSome_some, if_true] at this
      omega

theorem Inv.beginWrite (h : s.Inv) {payload : List Nat} (even : s.head % 2 = 0)
    (length : payload.length = s.words.length) :
    Inv { s with head := s.head + 1, writer := some ⟨payload, [], false⟩ } where
  version := by
    have := h.version
    rw [h.writer_none even] at this
    simpa using this
  rows := h.rows
  landed := h.landed
  payload := fun w hw => by
    obtain rfl := Option.some.inj hw
    exact ⟨length, fun j hj => absurd hj List.not_mem_nil, nofun⟩
  quiet := nofun
  order := h.order
  past := fun v hv => (h.past v hv).trans (Nat.le_succ _)
  first := fun v j x hv even' written here =>
    (h.first v j x hv even' written here).mono id id (Nat.le_succ _) rfl
  second := fun v j x y hv even' written here there =>
    (h.second v j x y hv even' written here there).imp_right
      (Or.imp_right fun closed => ⟨closed.1.trans (Nat.lt_succ_self _), closed.2⟩)

theorem Inv.storeWord (h : s.Inv) {w : OpenWrite} (open_ : s.writer = some w) {j : Nat}
    (more : j < s.words.length) (early : w.tailed = false)
    (steady : ¬ (s.first.words[j]? = some (some (w.payload.getD j 0)) ∧
      s.words[j]? ≠ some (w.payload.getD j 0))) :
    Inv { s with
      words := s.words.set j (w.payload.getD j 0)
      writer := some { w with stored := j :: w.stored } } := by
  obtain ⟨length, stored, -⟩ := h.payload w open_
  have same : (s.words.set j (w.payload.getD j 0)).length = s.words.length := List.length_set
  have value : w.payload[j]? = some (w.payload.getD j 0) := by
    rw [List.getD_eq_getElem?_getD, List.getElem?_eq_getElem (length ▸ more)]
    rfl
  refine
    { version := ?_
      rows := fun row hr => (h.rows row hr).trans same.symm
      landed := h.landed.trans same.symm
      payload := fun w' hw => ?_
      quiet := nofun
      order := h.order
      past := h.past
      first := fun v k x hv even written here => ?_
      second := fun v k x y hv even written here there =>
        h.second v k x y hv even written here there }
  · have := h.version
    rwa [open_] at this
  · obtain rfl := Option.some.inj hw
    refine ⟨length.trans same.symm, List.forall_mem_cons.mpr ⟨?_, fun k hk => ?_⟩, fun late => ?_⟩
    · exact (List.getElem?_set_self more).trans value.symm
    · by_cases hkj : k = j
      · subst hkj
        exact (List.getElem?_set_self more).trans value.symm
      · exact (List.getElem?_set_ne (Ne.symm hkj)).trans (stored k hk)
    · rw [early] at late
      cases late
  · refine (h.first v k x hv even written here).mono id (fun changed => ?_) (Nat.le_refl _) rfl
    by_cases hkj : k = j
    · subst hkj
      rw [List.getElem?_set_self more]
      rintro ⟨rfl⟩
      exact steady ⟨here, changed⟩
    · rw [List.getElem?_set_ne (Ne.symm hkj)]
      exact changed

theorem Inv.storeTail (h : s.Inv) {w : OpenWrite} (open_ : s.writer = some w)
    (all : ∀ j < s.words.length, j ∈ w.stored) :
    Inv { s with tail := s.head + 1, writer := some { w with tailed := true } } := by
  obtain ⟨length, stored, -⟩ := h.payload w open_
  refine { h with
    version := ?_
    payload := fun w' hw => ?_
    quiet := nofun
    first := fun v j x hv even written here => h.first v j x hv even written here
    second := fun v j x y hv even written here there =>
      h.second v j x y hv even written here there }
  · have := h.version
    rwa [open_] at this
  · obtain rfl := Option.some.inj hw
    exact ⟨length, stored, fun _ => all⟩

theorem Inv.storeHead (h : s.Inv) {w : OpenWrite} (open_ : s.writer = some w)
    (tailed : w.tailed = true) :
    Inv { s with head := s.head + 1, writer := none, completed := s.completed ++ [w.payload] } := by
  obtain ⟨length, stored, all⟩ := h.payload w open_
  have words : s.words = w.payload := by
    apply List.ext_getElem? fun j => ?_
    by_cases hj : j < s.words.length
    · exact stored j (all tailed j hj)
    · rw [List.getElem?_eq_none (by omega), List.getElem?_eq_none (by omega)]
  refine
    { version := ?_
      rows := List.forall_mem_append.mpr ⟨h.rows, List.forall_mem_singleton.mpr length⟩
      landed := h.landed
      payload := nofun
      quiet := fun _ row last => ?_
      order := h.order
      past := fun v hv => (h.past v hv).trans (Nat.le_succ _)
      first := fun v j x hv even written here =>
        (h.first v j x hv even written here).mono (rowAt_append rfl) id (Nat.le_succ _) rfl
      second := fun v j x y hv even written here there =>
        (h.second v j x y hv even written here there).imp (rowAt_append rfl)
          (Or.imp_right fun closed => ⟨closed.1.trans (Nat.lt_succ_self _), closed.2⟩) }
  · have := h.version
    rw [open_] at this
    simp only [Option.isSome_some, if_true] at this
    simp only [List.length_append, List.length_singleton, Option.isSome_none, Bool.false_eq_true,
      if_false]
    omega
  · rw [List.getLast?_append_cons, List.getLast?_singleton] at last
    obtain rfl := Option.some.inj last
    exact words

theorem Inv.restart (h : s.Inv) :
    Inv { s with first := .empty s.words.length, second := .empty s.words.length } where
  version := h.version
  rows := h.rows
  landed := by simp [RowSnapshot.empty]
  payload := h.payload
  quiet := h.quiet
  order := fun _ => ⟨rfl, empty_words _⟩
  past := nofun
  first := nofun
  second := nofun

/-- A location lands once, so nothing lands in a complete snapshot. -/
theorem load_complete {r r' : RowSnapshot} {cell : Cell} (done : s.load r cell = some r') :
    r.complete = false := by
  cases cell with
  | head =>
      simp only [load, Option.ite_none_right_eq_some] at done
      simp [RowSnapshot.complete, done.1]
  | tail =>
      simp only [load, Option.ite_none_right_eq_some] at done
      simp [RowSnapshot.complete, done.1]
  | word j =>
      simp only [load, Option.ite_none_right_eq_some] at done
      by_contra complete
      simp only [RowSnapshot.complete, Bool.not_eq_false, Bool.and_eq_true] at complete
      have landed := List.all_eq_true.mp complete.2 none (List.mem_of_getElem? done.1)
      cases landed

theorem Inv.loadFirst (h : s.Inv) {cell : Cell} {r : RowSnapshot}
    (done : s.load s.first cell = some r) : Inv { s with first := r } := by
  obtain ⟨unread, blank⟩ := h.order (load_complete done)
  cases cell with
  | head =>
      simp only [load, Option.ite_none_right_eq_some, Option.some.injEq] at done
      obtain ⟨-, rfl⟩ := done
      refine { h with
        order := fun _ => ⟨unread, blank⟩
        past := fun v hv => (Option.some.inj hv).symm.le
        first := fun v j x hv even written here => ?_
        second := fun v j x y hv even written here there => absurd there (blank j y) }
      obtain rfl := Option.some.inj hv
      by_cases holds : s.words[j]? = some x
      · exact .inl ((h.rowAt_head even written j).trans holds)
      · exact .inr (.inl holds)
  | tail =>
      simp only [load, Option.ite_none_right_eq_some, Option.some.injEq] at done
      obtain ⟨-, rfl⟩ := done
      exact { h with
        order := fun _ => ⟨unread, blank⟩
        first := fun v j x hv even written here => h.first v j x hv even written here
        second := fun v j x y hv even written here there => absurd there (blank j y) }
  | word j =>
      simp only [load, Option.ite_none_right_eq_some, Option.some.injEq] at done
      obtain ⟨missing, rfl⟩ := done
      refine { h with
        landed := List.length_set.trans h.landed
        order := fun _ => ⟨unread, blank⟩
        first := fun v k x hv even written here => ?_
        second := fun v k x y hv even written here there => absurd there (blank k y) }
      by_cases hkj : k = j
      · subst hkj
        rw [List.getElem?_set_self (List.getElem?_eq_some_iff.mp missing).1] at here
        have value := Option.some.inj here
        rcases (h.past v hv).lt_or_eq with closed | rfl
        · exact .inr (.inr ⟨closed, fun u hu => by rw [unread] at hu; cases hu⟩)
        · exact .inl ((h.rowAt_head even written k).trans value)
      · rw [List.getElem?_set_ne (Ne.symm hkj)] at here
        exact h.first v k x hv even written here

theorem Inv.loadSecond (h : s.Inv) (complete : s.first.complete = true) {cell : Cell}
    {r : RowSnapshot} (done : s.load s.second cell = some r) : Inv { s with second := r } := by
  have order : s.first.complete = false → r.head = none ∧ ∀ (j : Nat) y, r.words[j]? ≠ some (some y) :=
    fun missing => by
      rw [complete] at missing
      cases missing
  cases cell with
  | head =>
      simp only [load, Option.ite_none_right_eq_some, Option.some.injEq] at done
      obtain ⟨unread, rfl⟩ := done
      have closed : ∀ {v}, v < s.head → ∀ u, some s.head = some u → v < u := fun later u hu =>
        Option.some.inj hu ▸ later
      exact { h with
        order := order
        first := fun v j x hv even written here =>
          (h.first v j x hv even written here).imp_right
            (Or.imp_right fun past => ⟨past.1, closed past.1⟩)
        second := fun v j x y hv even written here there =>
          (h.second v j x y hv even written here there).imp_right
            (Or.imp_right fun past => ⟨past.1, closed past.1⟩) }
  | tail =>
      simp only [load, Option.ite_none_right_eq_some, Option.some.injEq] at done
      obtain ⟨-, rfl⟩ := done
      exact { h with
        order := order
        first := fun v j x hv even written here => h.first v j x hv even written here
        second := fun v j x y hv even written here there =>
          h.second v j x y hv even written here there }
  | word j =>
      simp only [load, Option.ite_none_right_eq_some, Option.some.injEq] at done
      obtain ⟨missing, rfl⟩ := done
      refine { h with
        order := order
        first := fun v k x hv even written here => h.first v k x hv even written here
        second := fun v k x y hv even written here there => ?_ }
      by_cases hkj : k = j
      · subst hkj
        rw [List.getElem?_set_self (List.getElem?_eq_some_iff.mp missing).1] at there
        have value := Option.some.inj there
        refine (h.first v k x hv even written here).imp_right (Or.imp_left fun changed => ?_)
        rintro rfl
        exact changed value
      · rw [List.getElem?_set_ne (Ne.symm hkj)] at there
        exact h.second v k x y hv even written here there

theorem Inv.step (h : s.Inv) {s' : RemoteSlot} {e : RemoteEvent} (steady : s.reuses e = false)
    (done : s.step e = some s') : s'.Inv := by
  cases e with
  | beginWrite payload =>
      simp only [RemoteSlot.step, Option.ite_none_right_eq_some, Option.some.injEq] at done
      obtain ⟨⟨even, length⟩, rfl⟩ := done
      exact h.beginWrite even length
  | storeWord j =>
      obtain ⟨w, open_, done⟩ := Option.bind_eq_some_iff.mp done
      simp only [Option.ite_none_right_eq_some, Option.some.injEq] at done
      obtain ⟨⟨early, more⟩, rfl⟩ := done
      simp only [reuses, open_, decide_eq_false_iff_not] at steady
      exact h.storeWord open_ more early steady
  | storeTail =>
      obtain ⟨w, open_, done⟩ := Option.bind_eq_some_iff.mp done
      simp only [Option.ite_none_right_eq_some, Option.some.injEq, List.all_eq_true,
        List.mem_range, List.contains_iff_mem] at done
      obtain ⟨all, rfl⟩ := done
      exact h.storeTail open_ all
  | storeHead =>
      obtain ⟨w, open_, done⟩ := Option.bind_eq_some_iff.mp done
      simp only [Option.ite_none_right_eq_some, Option.some.injEq] at done
      obtain ⟨tailed, rfl⟩ := done
      exact h.storeHead open_ tailed
  | restart =>
      obtain rfl := Option.some.inj done
      exact h.restart
  | loadFirst cell =>
      obtain ⟨r, landed, rfl⟩ := Option.map_eq_some_iff.mp done
      exact h.loadFirst landed
  | loadSecond cell =>
      simp only [RemoteSlot.step, Option.ite_none_right_eq_some] at done
      obtain ⟨complete, done⟩ := done
      obtain ⟨r, landed, rfl⟩ := Option.map_eq_some_iff.mp done
      exact h.loadSecond complete landed

end Steps

theorem Inv.run {s s' : RemoteSlot} (h : s.Inv) {es : List RemoteEvent}
    (steady : s.steady es = true) (done : s.run es = some s') : s'.Inv := by
  induction es generalizing s with
  | nil =>
      obtain rfl := Option.some.inj done
      exact h
  | cons e es ih =>
      obtain ⟨s₁, first, rest⟩ := Option.bind_eq_some_iff.mp done
      simp only [RemoteSlot.steady, first, Option.map_some, Option.getD_some, Bool.and_eq_true,
        Bool.not_eq_true'] at steady
      exact ih (h.step steady.1 first) steady.2 rest

theorem Inv.safe {s : RemoteSlot} (h : s.Inv) : s.TwoSnapshotSafe := by
  intro accepted
  simp only [RemoteSlot.accepted, acceptRow, Bool.and_eq_true, decide_eq_true_eq] at accepted
  obtain ⟨⟨complete, complete₂⟩, ⟨-, heads, -, even, written⟩, payload⟩ := accepted
  simp only [RowSnapshot.complete, Bool.and_eq_true, List.all_eq_true] at complete complete₂
  obtain ⟨v, hv⟩ := Option.isSome_iff_exists.mp complete.1.1
  obtain ⟨u, hu⟩ := Option.isSome_iff_exists.mp complete₂.1.1
  rw [hv, hu, Option.getD_some, Option.getD_some] at heads
  rw [hv, Option.getD_some] at even written
  subst heads
  -- every word of the first snapshot is a word of version `v`
  have words : ∀ (j : Nat) x, s.first.words[j]? = some (some x) → s.rowAt v j = some x := by
    intro j x here
    rcases h.second v j x x hv even written here (payload ▸ here) with row | differ | closed
    · exact row
    · exact absurd rfl differ
    · exact absurd (closed.2 v hu) (Nat.lt_irrefl v)
  have version := h.version
  have past := h.past v hv
  have index : v / 2 - 1 < s.completed.length := by split at version <;> omega
  refine ⟨s.completed[v / 2 - 1], List.getElem_mem index, List.ext_getElem? fun j => ?_⟩
  have length := h.rows _ (List.getElem_mem index)
  rw [List.getElem?_map]
  cases here : s.first.words[j]? with
  | none =>
      have past := List.getElem?_eq_none_iff.mp here
      rw [h.landed] at past
      rw [List.getElem?_eq_none (length.le.trans past)]
      rfl
  | some x =>
      obtain ⟨x, rfl⟩ := Option.isSome_iff_exists.mp (complete.2 x (List.mem_of_getElem? here))
      have row := words j x here
      rw [rowAt, List.getElem?_eq_getElem index] at row
      exact (congrArg (Option.map some) row).symm

end RemoteSlot

end AetherGraph
