import Mathlib.Algebra.GroupWithZero.Nat
import Mathlib.Data.List.Basic

/-! Local seqlock of one feature-table slot: a head and a tail version around a payload
that writers and readers access one word at a time. -/

namespace AetherGraph

/-- Payload words of a feature row: two lanes a word, and a single lane at the end of an
odd row. -/
def packPayload : List UInt32 → List Nat
  | [] => []
  | [x] => [x.toNat]
  | x :: y :: rest => (x.toNat + y.toNat * 2 ^ 32) :: packPayload rest

/-- The row of `dim` lanes that `volatile_load_payload` makes of the words. -/
def unpackPayload : Nat → List Nat → List UInt32
  | 0, _ => []
  | _, [] => []
  | 1, w :: _ => [UInt32.ofNat w]
  | dim + 2, w :: words =>
      UInt32.ofNat w :: UInt32.ofNat (w / 2 ^ 32) :: unpackPayload dim words

/-- Where a `write_node` call is. -/
inductive WriterPc where
  | loading
  | loaded (prev : Nat)
  | storing (target index : Nat)
  | tailed (target : Nat)
  | unwinding
  | unwound
  | done
  deriving DecidableEq, Repr

structure WriteCall where
  features : List UInt32
  pc : WriterPc
  deriving DecidableEq, Repr

/-- Between the exchange that makes the head odd and the store that makes it even. -/
def WriterPc.inWindow : WriterPc → Bool
  | .storing _ _ => true
  | .tailed _ => true
  | .unwinding => true
  | .unwound => true
  | _ => false

/-- Where a `read_node` call is. -/
inductive ReaderPc where
  | loading
  | copying (h1 : Nat) (out : List Nat)
  | checking (h1 : Nat) (out : List Nat) (tail : Nat)
  | done
  deriving DecidableEq, Repr

/-- The slot, the calls on it, and what has happened: rows of completed writes, results of
reads that returned (each with `poisoned` at that time), and whether the last write to end
unwound. -/
structure SeqSlot where
  dim : Nat
  head : Nat
  tail : Nat
  words : List Nat
  writes : List WriteCall
  reads : List ReaderPc
  completed : List (List UInt32)
  returns : List (Bool × Option (List UInt32))
  poisoned : Bool
  deriving DecidableEq, Repr

inductive SlotEvent where
  | startWrite (features : List UInt32)
  | write (i : Nat)
  | spurious (i : Nat)
  | panic (i : Nat)
  | startRead
  | read (i : Nat)
  deriving DecidableEq, Repr

namespace SeqSlot

/-- A zeroed slot. -/
def fresh (dim : Nat) : SeqSlot :=
  ⟨dim, 0, 0, List.replicate ((dim + 1) / 2) 0, [], [], [], [], false⟩

/-- Next access of a `write_node` call. -/
def writeStep (s : SeqSlot) (c : WriteCall) : Option (SeqSlot × WriterPc) :=
  match c.pc with
  | .loading => some (s, .loaded s.head)
  | .loaded prev =>
      -- spin on an odd head, else try to make it odd
      if prev % 2 = 1 then some (s, .loaded s.head)
      else if s.head = prev then some ({ s with head := prev + 1 }, .storing (prev + 2) 0)
      else some (s, .loaded s.head)
  | .storing target i =>
      if i < s.words.length then
        some ({ s with words := s.words.set i ((packPayload c.features).getD i 0) },
          .storing target (i + 1))
      else some ({ s with tail := target }, .tailed target)
  | .tailed target =>
      some ({ s with
        head := target, completed := s.completed ++ [c.features], poisoned := false }, .done)
  -- the guard's drop
  | .unwinding => some ({ s with tail := 0 }, .unwound)
  | .unwound => some ({ s with head := 0, poisoned := true }, .done)
  | .done => none

/-- Next access of a `read_node` call. -/
def readStep (s : SeqSlot) : ReaderPc → Option (SeqSlot × ReaderPc)
  | .loading =>
      if s.head = 0 then some ({ s with returns := s.returns ++ [(s.poisoned, none)] }, .done)
      else if s.head % 2 = 1 then some (s, .loading)
      else some (s, .copying s.head [])
  | .copying h1 out =>
      if out.length < s.words.length then
        some (s, .copying h1 (out ++ [s.words.getD out.length 0]))
      else some (s, .checking h1 out s.tail)
  | .checking h1 out t =>
      if h1 = t ∧ h1 = s.head then
        some ({ s with returns := s.returns ++ [(s.poisoned, some (unpackPayload s.dim out))] },
          .done)
      else some (s, .loading)
  | .done => none

/-- `none` is an event that cannot happen now, such as a call whose row has another length. -/
def step (s : SeqSlot) : SlotEvent → Option SeqSlot
  | .startWrite features =>
      if features.length = s.dim then some { s with writes := s.writes ++ [⟨features, .loading⟩] }
      else none
  | .write i =>
      s.writes[i]?.bind fun c => (s.writeStep c).map fun r =>
        { r.1 with writes := s.writes.set i { c with pc := r.2 } }
  | .spurious i =>
      s.writes[i]?.bind fun c => match c.pc with
        | .loaded _ => some { s with writes := s.writes.set i { c with pc := .loaded s.head } }
        | _ => none
  | .panic i =>
      s.writes[i]?.bind fun c => match c.pc with
        | .storing _ _ => some { s with writes := s.writes.set i { c with pc := .unwinding } }
        | .tailed _ => some { s with writes := s.writes.set i { c with pc := .unwinding } }
        | _ => none
  | .startRead => some { s with reads := s.reads ++ [.loading] }
  | .read i =>
      s.reads[i]?.bind fun r => (s.readStep r).map fun r =>
        { r.1 with reads := s.reads.set i r.2 }

def run : SeqSlot → List SlotEvent → Option SeqSlot
  | s, [] => some s
  | s, e :: es => (s.step e).bind fun s => s.run es

/-- The read relies on version `h1`, and what it has copied is not the beginning of `words`. -/
def tornBy (h1 : Nat) (words : List Nat) : ReaderPc → Bool
  | .copying h out => decide (h = h1) && !out.isPrefixOf words
  | .checking h out _ => decide (h = h1) && !out.isPrefixOf words
  | _ => false

/-- The event publishes again a version that a read in its copy has loaded, over words that
the read has copied with other contents. -/
def reuses (s : SeqSlot) : SlotEvent → Bool
  | .write i => match s.writes[i]? with
      | some ⟨features, .tailed target⟩ => s.reads.any (tornBy target (packPayload features))
      | _ => false
  | _ => false

/-- No event of the run reuses a version under a read. -/
def steady : SeqSlot → List SlotEvent → Bool
  | _, [] => true
  | s, e :: es => !s.reuses e && ((s.step e).map fun s => s.steady es).getD true

/-- Every row read is the row of one completed write, a poisoned slot reads as
uninitialized, and one writer at most is in its window. -/
structure SeqlockSafe (s : SeqSlot) : Prop where
  whole : ∀ p row, (p, some row) ∈ s.returns → row ∈ s.completed
  poisoned : ∀ result, (true, result) ∈ s.returns → result = none
  single : ∀ (i j : Nat) c d, s.writes[i]? = some c → s.writes[j]? = some d →
    c.pc.inWindow = true → d.pc.inWindow = true → i = j

end SeqSlot

theorem packPayload_length (features : List UInt32) :
    (packPayload features).length = (features.length + 1) / 2 := by
  induction features using packPayload.induct with
  | case1 => rfl
  | case2 x => simp [packPayload]
  | case3 x y rest ih =>
      simp only [packPayload, List.length_cons, ih]
      omega

theorem unpackPayload_packPayload (features : List UInt32) :
    unpackPayload features.length (packPayload features) = features := by
  induction features using packPayload.induct with
  | case1 => rfl
  | case2 x => simp [packPayload, unpackPayload]
  | case3 x y rest ih =>
      have low : UInt32.ofNat (x.toNat + y.toNat * 2 ^ 32) = x := by
        apply UInt32.toNat_inj.mp
        simp
      have high : UInt32.ofNat ((x.toNat + y.toNat * 2 ^ 32) / 2 ^ 32) = y := by
        apply UInt32.toNat_inj.mp
        have := x.toNat_lt
        have := y.toNat_lt
        simp
        omega
      rw [packPayload, List.length_cons, List.length_cons, unpackPayload, low, high, ih]

namespace SeqSlot

/-- What holds of a `write_node` call: inside its window the head is odd. -/
structure WriteGood (s : SeqSlot) (c : WriteCall) : Prop where
  dim : c.features.length = s.dim
  odd : c.pc.inWindow = true → s.head % 2 = 1
  storing : ∀ target i, c.pc = .storing target i → target = s.head + 1 ∧
    i ≤ s.words.length ∧ s.words.take i = (packPayload c.features).take i
  tailed : ∀ target, c.pc = .tailed target → target = s.head + 1 ∧
    s.words = packPayload c.features

/-- What holds of a `read_node` call: while its version stands, it copies what is there. -/
structure ReadGood (s : SeqSlot) (h1 : Nat) (out : List Nat) : Prop where
  even : h1 % 2 = 0
  written : h1 ≠ 0
  copied : s.head = h1 → out <+: s.words

def ReaderGood (s : SeqSlot) : ReaderPc → Prop
  | .copying h1 out => s.ReadGood h1 out
  | .checking h1 out _ => s.ReadGood h1 out ∧ s.words.length ≤ out.length
  | _ => True

structure Inv (s : SeqSlot) : Prop extends s.SeqlockSafe where
  length : s.words.length = (s.dim + 1) / 2
  writes : ∀ (i : Nat) c, s.writes[i]? = some c → s.WriteGood c
  reads : ∀ r ∈ s.reads, s.ReaderGood r
  published : s.head % 2 = 0 → s.head ≠ 0 → ∃ row ∈ s.completed, row.length = s.dim ∧
    s.words = packPayload row
  restarted : s.poisoned = true → s.head ≤ 1

theorem fresh_inv (dim : Nat) : (fresh dim).Inv where
  whole := fun p row h => absurd h List.not_mem_nil
  poisoned := fun result h => absurd h List.not_mem_nil
  single := fun i j c d hc => by simp [fresh] at hc
  length := List.length_replicate
  writes := fun i c h => by simp [fresh] at h
  reads := fun r h => absurd h List.not_mem_nil
  published := fun _ h => absurd rfl h
  restarted := fun h => by simp [fresh] at h

theorem WriteGood.closed {m : SeqSlot} {c : WriteCall} (dim : c.features.length = m.dim)
    (outside : c.pc.inWindow = false) : m.WriteGood c where
  dim := dim
  odd := fun inside => by rw [outside] at inside; cases inside
  storing := fun target i at_ => by rw [at_] at outside; cases outside
  tailed := fun target at_ => by rw [at_] at outside; cases outside

section Writes

variable {s m : SeqSlot} {i : Nat} {c : WriteCall} {pc : WriterPc}

/-- A call's slot in the list after that call has moved. -/
theorem getElem?_moved {writes : List WriteCall} {e : WriteCall} {j : Nat} {d : WriteCall}
    (hd : (writes.set i e)[j]? = some d) : j = i ∧ d = e ∨ j ≠ i ∧ writes[j]? = some d := by
  rw [List.getElem?_set] at hd
  split at hd
  · rename_i same
    split at hd
    · exact .inl ⟨same.symm, (Option.some.inj hd).symm⟩
    · cases hd
  · rename_i other
    exact .inr ⟨Ne.symm other, hd⟩

/-- A call takes a step while no other is in its window. -/
theorem Inv.moveWrite (h : s.Inv) (rest : { m with writes := [] }.Inv) (dim : m.dim = s.dim)
    (closed : ∀ (j : Nat) d, j ≠ i → s.writes[j]? = some d → d.pc.inWindow = false)
    (mine : m.WriteGood { c with pc := pc }) :
    Inv { m with writes := s.writes.set i { c with pc := pc } } where
  whole := rest.whole
  poisoned := rest.poisoned
  single := by
    intro j k d e hd he open_ open'
    rcases getElem?_moved hd with ⟨rfl, -⟩ | ⟨other, hd⟩
    · rcases getElem?_moved he with ⟨rfl, -⟩ | ⟨other, he⟩
      · rfl
      · rw [closed k e other he] at open'
        cases open'
    · rw [closed j d other hd] at open_
      cases open_
  length := rest.length
  writes := fun j d hd => by
    rcases getElem?_moved hd with ⟨-, rfl⟩ | ⟨other, hd⟩
    · exact { mine with }
    · exact .closed ((h.writes j d hd).dim.trans dim.symm) (closed j d other hd)
  reads := fun r hr => by
    have good := rest.reads r hr
    cases r with
    | copying h1 out => exact { good with }
    | checking h1 out t => exact ⟨{ good.1 with }, good.2⟩
    | _ => trivial
  published := rest.published
  restarted := rest.restarted

/-- A call loads the head outside its window. -/
theorem Inv.pause (h : s.Inv) (at_ : s.writes[i]? = some c) (outside : pc.inWindow = false) :
    Inv { s with writes := s.writes.set i { c with pc := pc } } where
  whole := h.whole
  poisoned := h.poisoned
  single := by
    intro j k d e hd he open_ open'
    rcases getElem?_moved hd with ⟨rfl, rfl⟩ | ⟨-, hd⟩
    · rw [outside] at open_
      cases open_
    · rcases getElem?_moved he with ⟨rfl, rfl⟩ | ⟨-, he⟩
      · rw [outside] at open'
        cases open'
      · exact h.single j k d e hd he open_ open'
  length := h.length
  writes := fun j d hd => by
    rcases getElem?_moved hd with ⟨rfl, rfl⟩ | ⟨-, hd⟩
    · exact .closed (h.writes j c at_).dim outside
    · exact { h.writes j d hd with }
  reads := fun r hr => by
    have good := h.reads r hr
    cases r with
    | copying h1 out => exact { good with }
    | checking h1 out t => exact ⟨{ good.1 with }, good.2⟩
    | _ => trivial
  published := h.published
  restarted := h.restarted

/-- A read keeps what it knows when an odd head hides the slot from it. -/
theorem ReaderGood.hidden {r : ReaderPc} (h : s.ReaderGood r) (odd : m.head % 2 = 1)
    (length : m.words.length = s.words.length) : m.ReaderGood r := by
  have hidden : ∀ {h1 out}, s.ReadGood h1 out → m.ReadGood h1 out := fun good =>
    ⟨good.even, good.written, fun here => by
      rw [here, good.even] at odd
      cases odd⟩
  cases r with
  | copying h1 out => exact hidden h
  | checking h1 out t => exact ⟨hidden h.1, length ▸ h.2⟩
  | _ => trivial

/-- Memory behind an odd head, whatever its words and tail. -/
theorem Inv.behind (h : s.Inv) (tail : Nat) {words : List Nat} {head : Nat} (odd : head % 2 = 1)
    (length : words.length = s.words.length) (poisoned : s.poisoned = true → head ≤ 1) :
    Inv { s with head := head, tail := tail, words := words, writes := [] } where
  whole := h.whole
  poisoned := h.poisoned
  single := fun j k d e hd => by simp at hd
  length := length.trans h.length
  writes := fun j d hd => by simp at hd
  reads := fun r hr => (h.reads r hr).hidden odd length
  published := fun even => by
    rw [odd] at even
    cases even
  restarted := poisoned

/-- The others are outside while call `i` is in its window. -/
theorem Inv.closed (h : s.Inv) (at_ : s.writes[i]? = some c) (inside : c.pc.inWindow = true)
    (j : Nat) (d : WriteCall) (other : j ≠ i) (hd : s.writes[j]? = some d) :
    d.pc.inWindow = false := by
  by_contra open_
  exact other (h.single j i d c hd at_ (by simpa using open_) inside)

theorem take_stored {words payload : List Nat} {k : Nat} (more : k < words.length)
    (same : payload.length = words.length) (stored : words.take k = payload.take k) :
    (words.set k (payload.getD k 0)).take (k + 1) = payload.take (k + 1) := by
  have here : k < payload.length := same ▸ more
  rw [List.take_add_one, List.take_add_one, List.take_set_of_le (Nat.le_refl k), stored,
    List.getElem?_set_self more, List.getD_eq_getElem?_getD, List.getElem?_eq_getElem here]
  rfl

theorem Inv.store (h : s.Inv) (at_ : s.writes[i]? = some c) {target k : Nat}
    (storing : c.pc = .storing target k) (more : k < s.words.length) :
    Inv { s with
      words := s.words.set k ((packPayload c.features).getD k 0)
      writes := s.writes.set i { c with pc := .storing target (k + 1) } } := by
  have inside : c.pc.inWindow = true := by rw [storing]; rfl
  have good := h.writes i c at_
  have odd := good.odd inside
  obtain ⟨next, -, stored⟩ := good.storing target k storing
  have length : (s.words.set k ((packPayload c.features).getD k 0)).length = s.words.length :=
    List.length_set
  have same : (packPayload c.features).length = s.words.length := by
    rw [packPayload_length, good.dim, h.length]
  refine h.moveWrite (m := { s with words := s.words.set k ((packPayload c.features).getD k 0) })
    (h.behind s.tail odd length h.restarted) rfl
    (h.closed at_ inside) ⟨good.dim, fun _ => odd, fun target' k' at_' => ?_, fun target' => nofun⟩
  obtain ⟨rfl, rfl⟩ := WriterPc.storing.inj at_'
  exact ⟨next, length ▸ more, take_stored more same stored⟩

/-- The exchange that makes an even head odd. -/
theorem Inv.open (h : s.Inv) (at_ : s.writes[i]? = some c) (even : s.head % 2 = 0) :
    Inv { s with
      head := s.head + 1
      writes := s.writes.set i { c with pc := .storing (s.head + 2) 0 } } := by
  have odd : (s.head + 1) % 2 = 1 := by omega
  have closed : ∀ (j : Nat) d, j ≠ i → s.writes[j]? = some d → d.pc.inWindow = false := by
    intro j d _ hd
    by_contra inside
    have := (h.writes j d hd).odd (by simpa using inside)
    omega
  have rest := h.behind s.tail odd rfl fun poisoned => by
    have := h.restarted poisoned
    omega
  refine h.moveWrite (m := { s with head := s.head + 1 }) rest rfl closed
    ⟨(h.writes i c at_).dim, fun _ => odd, fun target k at_ => ?_, fun target => nofun⟩
  obtain ⟨rfl, rfl⟩ := WriterPc.storing.inj at_
  exact ⟨rfl, Nat.zero_le _, rfl⟩

theorem Inv.storeTail (h : s.Inv) (at_ : s.writes[i]? = some c) {target k : Nat}
    (storing : c.pc = .storing target k) (full : ¬ k < s.words.length) :
    Inv { s with tail := target, writes := s.writes.set i { c with pc := .tailed target } } := by
  have inside : c.pc.inWindow = true := by rw [storing]; rfl
  have good := h.writes i c at_
  have odd := good.odd inside
  obtain ⟨next, within, stored⟩ := good.storing target k storing
  have same : (packPayload c.features).length = s.words.length := by
    rw [packPayload_length, good.dim, h.length]
  refine h.moveWrite (m := { s with tail := target }) (h.behind target odd rfl h.restarted) rfl
    (h.closed at_ inside) ⟨good.dim, fun _ => odd, fun target' k' => nofun, fun target' at_' => ?_⟩
  obtain rfl := WriterPc.tailed.inj at_'
  have all : k = s.words.length := by omega
  rw [all, List.take_length, ← same, List.take_length] at stored
  exact ⟨next, stored⟩

/-- The guard of a panicking write runs its two stores. -/
theorem Inv.unwind (h : s.Inv) (at_ : s.writes[i]? = some c) (inside : c.pc.inWindow = true)
    (tail : Nat) (outside : pc = .unwinding ∨ pc = .unwound) :
    Inv { s with tail := tail, writes := s.writes.set i { c with pc := pc } } := by
  have good := h.writes i c at_
  have odd := good.odd inside
  refine h.moveWrite (m := { s with tail := tail }) (h.behind tail odd rfl h.restarted) rfl
    (h.closed at_ inside) ⟨good.dim, fun _ => odd, fun target k at_ => ?_, fun target at_ => ?_⟩
  · rcases outside with rfl | rfl <;> cases at_
  · rcases outside with rfl | rfl <;> cases at_

theorem Inv.poison (h : s.Inv) (at_ : s.writes[i]? = some c) (inside : c.pc.inWindow = true) :
    Inv { s with
      head := 0, poisoned := true, writes := s.writes.set i { c with pc := .done } } := by
  have good := h.writes i c at_
  have hidden : ∀ {h1 out}, s.ReadGood h1 out →
      ReadGood { s with head := 0, poisoned := true, writes := [] } h1 out := fun good =>
    ⟨good.even, good.written, fun here => absurd here.symm good.written⟩
  refine h.moveWrite (m := { s with head := 0, poisoned := true })
    { h with
      single := fun j k d e hd => by simp at hd
      writes := fun j d hd => by simp at hd
      reads := fun r hr => ?_
      published := fun _ written => absurd rfl written
      restarted := fun _ => Nat.zero_le 1 } rfl (h.closed at_ inside) (.closed good.dim rfl)
  have good := h.reads r hr
  cases r with
  | copying h1 out => exact hidden good
  | checking h1 out t => exact ⟨hidden good.1, good.2⟩
  | _ => trivial

/-- Publishing a version no read in its copy relies on, or one it has copied rightly. -/
theorem Inv.publish (h : s.Inv) (at_ : s.writes[i]? = some c) {target : Nat}
    (tailed : c.pc = .tailed target)
    (steady : ∀ r ∈ s.reads, tornBy target (packPayload c.features) r = false) :
    Inv { s with
      head := target, completed := s.completed ++ [c.features], poisoned := false
      writes := s.writes.set i { c with pc := .done } } := by
  have inside : c.pc.inWindow = true := by rw [tailed]; rfl
  have good := h.writes i c at_
  obtain ⟨next, words⟩ := good.tailed target tailed
  have shown : ∀ {h1 out}, s.ReadGood h1 out →
      (h1 = target → (!out.isPrefixOf (packPayload c.features)) = false) →
      ReadGood { s with
        head := target, completed := s.completed ++ [c.features], poisoned := false
        writes := [] } h1 out := fun good whole =>
    ⟨good.even, good.written, fun here => by
      have whole := whole here.symm
      rw [Bool.not_eq_false', List.isPrefixOf_iff_prefix] at whole
      exact words ▸ whole⟩
  refine h.moveWrite (m := { s with
      head := target, completed := s.completed ++ [c.features], poisoned := false })
    { h with
      whole := fun p row hr => List.mem_append_left _ (h.whole p row hr)
      single := fun j k d e hd => by simp at hd
      writes := fun j d hd => by simp at hd
      reads := fun r hr => ?_
      published := fun _ _ => ⟨c.features, List.mem_append_right _ List.mem_cons_self, good.dim,
        words⟩
      restarted := nofun } rfl (h.closed at_ inside) (.closed good.dim rfl)
  have good := h.reads r hr
  have steady := steady r hr
  cases r with
  | copying h1 out =>
      refine shown good fun same => ?_
      simpa [tornBy, same] using steady
  | checking h1 out t =>
      refine ⟨shown good.1 fun same => ?_, good.2⟩
      simpa [tornBy, same] using steady
  | _ => trivial

theorem Inv.writeStep (h : s.Inv) (at_ : s.writes[i]? = some c) {r : SeqSlot × WriterPc}
    (done : s.writeStep c = some r)
    (steady : ∀ target, c.pc = .tailed target →
      ∀ r ∈ s.reads, tornBy target (packPayload c.features) r = false) :
    Inv { r.1 with writes := s.writes.set i { c with pc := r.2 } } := by
  unfold SeqSlot.writeStep at done
  split at done
  case h_1 =>
      obtain rfl := Option.some.inj done
      exact h.pause at_ rfl
  case h_2 prev _ =>
      split at done
      · obtain rfl := Option.some.inj done
        exact h.pause at_ rfl
      · split at done
        · rename_i same
          obtain rfl := Option.some.inj done
          subst same
          exact h.open at_ (by omega)
        · obtain rfl := Option.some.inj done
          exact h.pause at_ rfl
  case h_3 target k storing =>
      split at done
      · rename_i more
        obtain rfl := Option.some.inj done
        exact h.store at_ storing more
      · rename_i full
        obtain rfl := Option.some.inj done
        exact h.storeTail at_ storing full
  case h_4 target tailed =>
      obtain rfl := Option.some.inj done
      exact h.publish at_ tailed (steady target tailed)
  case h_5 unwinding =>
      obtain rfl := Option.some.inj done
      exact h.unwind at_ (by rw [unwinding]; rfl) 0 (.inr rfl)
  case h_6 unwound =>
      obtain rfl := Option.some.inj done
      exact h.poison at_ (by rw [unwound]; rfl)
  case h_7 => cases done

end Writes

section Reads

variable {s : SeqSlot} {i : Nat} {r r' : ReaderPc}

/-- A read moves on. -/
theorem Inv.moveRead (h : s.Inv) {returns : List (Bool × Option (List UInt32))}
    (whole : ∀ p row, (p, some row) ∈ returns → row ∈ s.completed)
    (poisoned : ∀ result, (true, result) ∈ returns → result = none) (good : s.ReaderGood r') :
    Inv { s with returns := returns, reads := s.reads.set i r' } where
  whole := whole
  poisoned := poisoned
  single := h.single
  length := h.length
  writes := fun j d hd => { h.writes j d hd with }
  reads := fun r hr => by
    have good : s.ReaderGood r := by
      rcases List.mem_or_eq_of_mem_set hr with hr | rfl
      · exact h.reads r hr
      · exact good
    cases r with
    | copying h1 out => exact { good with }
    | checking h1 out t => exact ⟨{ good.1 with }, good.2⟩
    | _ => trivial
  published := h.published
  restarted := h.restarted

theorem prefix_snoc {words out : List Nat} (h : out <+: words) (more : out.length < words.length) :
    out ++ [words.getD out.length 0] <+: words := by
  obtain ⟨rest, rfl⟩ := h
  cases rest with
  | nil => simp at more
  | cons x rest =>
      refine ⟨rest, ?_⟩
      simp

theorem Inv.readStep (h : s.Inv) (at_ : s.reads[i]? = some r) {q : SeqSlot × ReaderPc}
    (done : s.readStep r = some q) : Inv { q.1 with reads := s.reads.set i q.2 } := by
  have good := h.reads r (List.mem_of_getElem? at_)
  unfold SeqSlot.readStep at done
  split at done
  case h_1 =>
      split at done
      · obtain rfl := Option.some.inj done
        refine h.moveRead (fun p row hr => ?_) (fun result hr => ?_) trivial
        · rcases List.mem_append.mp hr with hr | hr
          · exact h.whole p row hr
          · cases (Prod.mk.inj (List.mem_singleton.mp hr)).2
        · rcases List.mem_append.mp hr with hr | hr
          · exact h.poisoned result hr
          · exact (Prod.mk.inj (List.mem_singleton.mp hr)).2
      · rename_i written
        split at done
        · obtain rfl := Option.some.inj done
          exact h.moveRead h.whole h.poisoned trivial
        · obtain rfl := Option.some.inj done
          exact h.moveRead h.whole h.poisoned ⟨by omega, written, fun _ => List.nil_prefix⟩
  case h_2 h1 out =>
      split at done
      · rename_i more
        obtain rfl := Option.some.inj done
        exact h.moveRead h.whole h.poisoned
          ⟨good.even, good.written, fun here => prefix_snoc (good.copied here) more⟩
      · rename_i full
        obtain rfl := Option.some.inj done
        exact h.moveRead h.whole h.poisoned ⟨good, Nat.le_of_not_lt full⟩
  case h_3 h1 out t =>
      split at done
      · rename_i stands
        obtain rfl := Option.some.inj done
        have here : s.head = h1 := stands.2.symm
        have copied : out = s.words := (good.1.copied here).eq_of_length_le good.2
        obtain ⟨row, hrow, dim, packed⟩ :=
          h.published (here ▸ good.1.even) (here ▸ good.1.written)
        have result : unpackPayload s.dim out = row := by
          rw [copied, packed, ← dim, unpackPayload_packPayload]
        have clean : s.poisoned = false := by
          by_contra poisoned
          have := h.restarted (by simpa using poisoned)
          have := good.1.even
          have := good.1.written
          omega
        refine h.moveRead (fun p row' hr => ?_) (fun result' hr => ?_) trivial
        · rcases List.mem_append.mp hr with hr | hr
          · exact h.whole p row' hr
          · obtain rfl := Option.some.inj (Prod.mk.inj (List.mem_singleton.mp hr)).2
            exact result ▸ hrow
        · rcases List.mem_append.mp hr with hr | hr
          · exact h.poisoned result' hr
          · have := (Prod.mk.inj (List.mem_singleton.mp hr)).1
            rw [clean] at this
            cases this
      · obtain rfl := Option.some.inj done
        exact h.moveRead h.whole h.poisoned trivial
  case h_4 => cases done

end Reads

theorem Inv.startWrite {s : SeqSlot} (h : s.Inv) {features : List UInt32}
    (dim : features.length = s.dim) :
    Inv { s with writes := s.writes ++ [⟨features, .loading⟩] } := by
  have old : ∀ {j : Nat} {d : WriteCall}, (s.writes ++ [⟨features, .loading⟩])[j]? = some d →
      s.writes[j]? = some d ∨ d = ⟨features, .loading⟩ := by
    intro j d hd
    rw [List.getElem?_append] at hd
    split at hd
    · exact .inl hd
    · exact .inr (List.mem_singleton.mp (List.mem_of_getElem? hd))
  refine { h with
    single := fun j k d e hd he open_ open' => ?_
    writes := fun j d hd => ?_
    reads := fun r hr => ?_ }
  · rcases old hd with hd | rfl
    · rcases old he with he | rfl
      · exact h.single j k d e hd he open_ open'
      · cases open'
    · cases open_
  · rcases old hd with hd | rfl
    · exact { h.writes j d hd with }
    · exact .closed dim rfl
  · have good := h.reads r hr
    cases r with
    | copying h1 out => exact { good with }
    | checking h1 out t => exact ⟨{ good.1 with }, good.2⟩
    | _ => trivial

theorem Inv.startRead {s : SeqSlot} (h : s.Inv) :
    Inv { s with reads := s.reads ++ [.loading] } := by
  refine { h with writes := fun j d hd => { h.writes j d hd with }, reads := fun r hr => ?_ }
  rcases List.mem_append.mp hr with hr | hr
  · have good := h.reads r hr
    cases r with
    | copying h1 out => exact { good with }
    | checking h1 out t => exact ⟨{ good.1 with }, good.2⟩
    | _ => trivial
  · obtain rfl := List.mem_singleton.mp hr
    trivial

theorem Inv.step {s s' : SeqSlot} (h : s.Inv) {e : SlotEvent} (steady : s.reuses e = false)
    (done : s.step e = some s') : s'.Inv := by
  cases e with
  | startWrite features =>
      simp only [SeqSlot.step] at done
      split at done
      · rename_i dim
        obtain rfl := Option.some.inj done
        exact h.startWrite dim
      · cases done
  | write i =>
      obtain ⟨c, at_, done⟩ := Option.bind_eq_some_iff.mp done
      obtain ⟨r, moved, rfl⟩ := Option.map_eq_some_iff.mp done
      refine h.writeStep at_ moved fun target tailed => ?_
      obtain ⟨features, pc⟩ := c
      obtain rfl : pc = .tailed target := tailed
      simpa only [reuses, at_, List.any_eq_false, Bool.not_eq_true] using steady
  | spurious i =>
      obtain ⟨c, at_, done⟩ := Option.bind_eq_some_iff.mp done
      split at done
      · obtain rfl := Option.some.inj done
        exact h.pause at_ rfl
      · cases done
  | panic i =>
      obtain ⟨c, at_, done⟩ := Option.bind_eq_some_iff.mp done
      split at done
      · rename_i inside
        obtain rfl := Option.some.inj done
        exact h.unwind at_ (by rw [inside]; rfl) s.tail (.inl rfl)
      · rename_i inside
        obtain rfl := Option.some.inj done
        exact h.unwind at_ (by rw [inside]; rfl) s.tail (.inl rfl)
      · cases done
  | startRead =>
      obtain rfl := Option.some.inj done
      exact h.startRead
  | read i =>
      obtain ⟨r, at_, done⟩ := Option.bind_eq_some_iff.mp done
      obtain ⟨q, moved, rfl⟩ := Option.map_eq_some_iff.mp done
      exact h.readStep at_ moved

theorem Inv.run {s s' : SeqSlot} (h : s.Inv) {es : List SlotEvent} (steady : s.steady es = true)
    (done : s.run es = some s') : s'.Inv := by
  induction es generalizing s with
  | nil =>
      obtain rfl := Option.some.inj done
      exact h
  | cons e es ih =>
      obtain ⟨s₁, first, rest⟩ := Option.bind_eq_some_iff.mp done
      simp only [SeqSlot.steady, first, Option.map_some, Option.getD_some, Bool.and_eq_true,
        Bool.not_eq_true'] at steady
      exact ih (h.step steady.1 first) steady.2 rest

end SeqSlot

def writeAll (i steps : Nat) : List SlotEvent := List.replicate steps (.write i)

/-- A read has copied the first word of version 2 when a second write panics.  The version
counter restarts, and a third write publishes version 2 again before the read goes on. -/
def restartEvents : List SlotEvent :=
  [.startWrite [1, 0, 1]] ++ writeAll 0 6 ++ [.startRead, .read 0, .read 0] ++
  [.startWrite [2, 0, 2]] ++ writeAll 1 2 ++ [.panic 1] ++ writeAll 1 2 ++
  [.startWrite [3, 0, 3]] ++ writeAll 2 6 ++ [.read 0, .read 0, .read 0]

theorem restartEvents_torn : ((SeqSlot.fresh 3).run restartEvents).map (fun s =>
    (s.returns, s.completed)) =
      some ([(false, some [1, 0, 3])], [[1, 0, 1], [3, 0, 3]]) := by decide +kernel

end AetherGraph
