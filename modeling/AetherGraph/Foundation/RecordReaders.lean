import AetherGraph.Foundation.ByteFormat

/-! Readers that keep their items: two that agree on all inputs up to a length, and records of a
fixed size, which no short input stops once a whole table of them fits. -/

namespace Foundation

variable {α β γ ε : Type}

/-- The reader leaves the items it reads from. -/
def Keeps (read : Reader ε β α) : Prop :=
  ∀ s a s', read.run s = .ok (a, s') → s'.items = s.items

section Keeps

theorem Keeps.pure (a : α) : Keeps (Pure.pure a : Reader ε β α) := fun s a' s' ran => by
  obtain ⟨-, rfl⟩ := Prod.mk.inj (Except.ok.inj ran)
  rfl

theorem Keeps.bind {read : Reader ε β α} {next : α → Reader ε β γ} (first : Keeps read)
    (second : ∀ a, Keeps (next a)) : Keeps (read >>= next) := fun s c s' ran => by
  obtain ⟨a, mid, one, two⟩ := run_bind_ok ran
  exact (second a mid c s' two).trans (first s a mid one)

theorem Keeps.check {check : Except ε α} {next : α → Reader ε β γ}
    (rest : ∀ a, check = .ok a → Keeps (next a)) : Keeps (StateT.lift check >>= next) :=
  fun s c s' ran => by
    obtain ⟨a, passed, ran⟩ := run_check_ok ran
    exact rest a passed s c s' ran

theorem Keeps.many {read : Reader ε β α} (each : Keeps read) (n : Nat) :
    Keeps (readMany read n) := by
  induction n with
  | zero => exact .pure []
  | succ n ih => exact each.bind fun a => ih.bind fun rest => .pure (a :: rest)

end Keeps

/-- Equal results on every input of at most `bound` items. -/
def Agrees (bound : Nat) (read read' : Reader ε β α) : Prop :=
  ∀ s, s.items.length ≤ bound → read.run s = read'.run s

section Agrees

variable {bound : Nat}

theorem Agrees.refl (read : Reader ε β α) : Agrees bound read read := fun _ _ => rfl

theorem Agrees.bind {read read' : Reader ε β α} {next next' : α → Reader ε β γ}
    (first : Agrees bound read read') (keeps : Keeps read')
    (second : ∀ a, Agrees bound (next a) (next' a)) :
    Agrees bound (read >>= next) (read' >>= next') := fun s small => by
  rw [StateT.run_bind, StateT.run_bind, first s small]
  cases ran : read'.run s with
  | error e => rfl
  | ok entry =>
      refine second entry.1 entry.2 ?_
      rwa [keeps s entry.1 entry.2 ran]

theorem Agrees.check {check : Except ε α} {next next' : α → Reader ε β γ}
    (rest : ∀ a, check = .ok a → Agrees bound (next a) (next' a)) :
    Agrees bound (StateT.lift check >>= next) (StateT.lift check >>= next') := fun s small => by
  cases passed : check with
  | error e => rfl
  | ok a => exact rest a passed s small

theorem Agrees.many {read read' : Reader ε β α} (each : Agrees bound read read')
    (keeps : Keeps read') (n : Nat) : Agrees bound (readMany read n) (readMany read' n) := by
  induction n with
  | zero => exact .refl _
  | succ n ih =>
      exact each.bind keeps fun a => ih.bind (keeps.many n) fun rest => .refl _

theorem Agrees.mapM {δ : Type} {read read' : δ → Reader ε β α}
    (each : ∀ d, Agrees bound (read d) (read' d)) (keeps : ∀ d, Keeps (read' d)) (ds : List δ) :
    Agrees bound (ds.mapM read) (ds.mapM read') ∧ Keeps (ds.mapM read') := by
  induction ds with
  | nil => exact ⟨.refl _, .pure []⟩
  | cons d ds ih =>
      rw [List.mapM_cons, List.mapM_cons]
      exact ⟨(each d).bind (keeps d) fun a => ih.1.bind ih.2 fun rest => .refl _,
        (keeps d).bind fun a => ih.2.bind fun rest => .pure _⟩

end Agrees

/-- Records of `size` items: the reader moves by that much, and does not stop with `bad` while as
much is left. -/
structure Record (bad : ε) (size : Nat) (read : Reader ε β α) : Prop where
  avoids : ∀ s, s.pos + size ≤ s.items.length → read.run s ≠ .error bad
  moves : ∀ s a s', read.run s = .ok (a, s') → s'.items = s.items ∧ s'.pos = s.pos + size

section Record

variable {bad : ε} {size : Nat} {read : Reader ε β α}

theorem Record.keeps (h : Record bad size read) : Keeps read := fun s a s' ran =>
  (h.moves s a s' ran).1

theorem Record.bind {next : α → Reader ε β γ} {rest : Nat} (first : Record bad size read)
    (second : ∀ a, Record bad rest (next a)) : Record bad (size + rest) (read >>= next) where
  avoids := fun s fits => by
    rw [StateT.run_bind]
    cases ran : read.run s with
    | error e =>
        intro stopped
        rw [show e = bad from Except.error.inj stopped] at ran
        exact first.avoids s (by omega) ran
    | ok entry =>
        obtain ⟨same, moved⟩ := first.moves s entry.1 entry.2 ran
        refine (second entry.1).avoids entry.2 ?_
        rw [same, moved]
        omega
  moves := fun s c s' ran => by
    obtain ⟨a, mid, one, two⟩ := run_bind_ok ran
    obtain ⟨same, moved⟩ := first.moves s a mid one
    obtain ⟨same', moved'⟩ := (second a).moves mid c s' two
    exact ⟨same'.trans same, by omega⟩

/-- A reader that takes nothing behind one of `size` items. -/
theorem Record.last {next : α → Reader ε β γ} (first : Record bad size read)
    (second : ∀ a, Record bad 0 (next a)) : Record bad size (read >>= next) := first.bind second

theorem Record.pure (a : α) : Record bad 0 (Pure.pure a : Reader ε β α) where
  avoids := fun _ _ => nofun
  moves := fun s a' s' ran => by
    obtain ⟨-, rfl⟩ := Prod.mk.inj (Except.ok.inj ran)
    exact ⟨rfl, rfl⟩

theorem Record.check {check : Except ε α} {next : α → Reader ε β γ} (fails : check ≠ .error bad)
    (rest : ∀ a, check = .ok a → Record bad size (next a)) :
    Record bad size (StateT.lift check >>= next) where
  avoids := fun s fits => by
    cases passed : check with
    | error e =>
        intro stopped
        rw [show e = bad from Except.error.inj stopped] at passed
        exact fails passed
    | ok a => exact (rest a passed).avoids s fits
  moves := fun s c s' ran => by
    obtain ⟨a, passed, ran⟩ := run_check_ok ran
    exact (rest a passed).moves s c s' ran

theorem Record.many (each : Record bad size read) (n : Nat) :
    Record bad (n * size) (readMany read n) := by
  induction n with
  | zero =>
      rw [Nat.zero_mul]
      exact .pure []
  | succ n ih =>
      rw [Nat.succ_mul, Nat.add_comm]
      have rest : ∀ a, Record bad (n * size) (readMany read n >>= fun as => Pure.pure (a :: as)) :=
        fun a => ih.bind fun _ => .pure _
      exact each.bind rest

end Record

theorem Avoids.mapM {bad : ε} {δ : Type} {read : δ → Reader ε β α} (each : ∀ d, Avoids bad (read d))
    (ds : List δ) : Avoids bad (ds.mapM read) := by
  induction ds with
  | nil => exact .pure []
  | cons d ds ih =>
      rw [List.mapM_cons]
      exact (each d).bind fun a => ih.bind fun rest => .pure _

end Foundation
