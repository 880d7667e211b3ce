import Mathlib.Data.List.Basic

/-! A set with one writer and many versions.  A batch joins the set when it commits; a version
named once keeps its members whatever commits later. -/

namespace Foundation

inductive WriterPhase where
  | idle
  | writing
  | stopped
  deriving DecidableEq, Repr

/-- `commits` lists what each version added, oldest first; `batch` is what the open one has. -/
structure Versions (α : Type) where
  now : Nat
  phase : WriterPhase
  commits : List (Nat × List α)
  batch : List α
  deriving DecidableEq, Repr

namespace Versions

variable {α : Type}

def start (now : Nat) : Versions α := ⟨now, .idle, [], []⟩

def committed (V : Versions α) : List α := V.commits.flatMap Prod.snd

/-- What the writer itself sees. -/
def visible (V : Versions α) : List α := V.committed ++ V.batch

/-- The members of version `t`. -/
def asOf (V : Versions α) (t : Nat) : List α :=
  (V.commits.filter fun c => decide (c.1 ≤ t)).flatMap Prod.snd

def begin (V : Versions α) : Versions α := { V with phase := .writing }

def add (V : Versions α) (new : List α) : Versions α := { V with batch := V.batch ++ new }

def commit (V : Versions α) : Versions α where
  now := V.now + 1
  phase := .idle
  commits := V.commits ++ [(V.now + 1, V.batch)]
  batch := []

def abandon (V : Versions α) : Versions α := { V with phase := .stopped }

def advance (V : Versions α) (d : Nat) : Versions α := { V with now := V.now + d }

/-- No commit is younger than the clock. -/
def Dated (V : Versions α) : Prop := ∀ c ∈ V.commits, c.1 ≤ V.now

variable {V V' V'' : Versions α} {t : Nat}

theorem committed_commit (V : Versions α) : V.commit.committed = V.visible := by
  rw [committed, commit, List.flatMap_append, List.flatMap_singleton]
  rfl

theorem visible_add (V : Versions α) (new : List α) : (V.add new).visible = V.visible ++ new :=
  (List.append_assoc ..).symm

theorem add_add (V : Versions α) (new more : List α) :
    (V.add new).add more = V.add (new ++ more) := by
  rw [add, add, add, List.append_assoc]

theorem add_nil (V : Versions α) : V.add [] = V := by
  rw [add, List.append_nil]

theorem asOf_eq_committed (h : V.Dated) (late : V.now ≤ t) : V.asOf t = V.committed := by
  rw [asOf, List.filter_eq_self.mpr fun c hc => decide_eq_true (Nat.le_trans (h c hc) late)]
  rfl

theorem asOf_commit (early : t ≤ V.now) : V.commit.asOf t = V.asOf t := by
  have young : decide (V.now + 1 ≤ t) = false := decide_eq_false (Nat.not_le_of_lt (by omega))
  rw [asOf, commit, List.filter_append, List.filter_singleton, young, cond_false, List.append_nil]
  rfl

/-- A commit without members changes no version. -/
theorem asOf_commit_nil (empty : V.batch = []) : V.commit.asOf t = V.asOf t := by
  rw [asOf, commit, List.filter_append, List.flatMap_append, empty, List.filter_singleton]
  cases decide (V.now + 1 ≤ t) <;> exact List.append_nil _

theorem Dated.commit (h : V.Dated) : V.commit.Dated := by
  intro c hc
  rcases List.mem_append.mp hc with hc | hc
  · exact Nat.le_trans (h c hc) (Nat.le_succ _)
  · rw [List.mem_singleton.mp hc]
    exact Nat.le_refl _

theorem Dated.advance (h : V.Dated) (d : Nat) : (V.advance d).Dated := fun c hc =>
  Nat.le_trans (h c hc) (Nat.le_add_right _ _)

/-- `V'` comes after `V`: no version named by then has changed. -/
structure Later (V V' : Versions α) : Prop where
  now : V.now ≤ V'.now
  asOf : ∀ t ≤ V.now, V'.asOf t = V.asOf t

theorem Later.refl (V : Versions α) : Later V V := ⟨Nat.le_refl _, fun _ _ => rfl⟩

theorem Later.trans (h : Later V V') (h' : Later V' V'') : Later V V'' :=
  ⟨Nat.le_trans h.now h'.now,
    fun t ht => (h'.asOf t (Nat.le_trans ht h.now)).trans (h.asOf t ht)⟩

theorem Later.committed_subset (h : Later V V') (dated : V.Dated) :
    V.committed ⊆ V'.committed := by
  rw [← asOf_eq_committed dated (Nat.le_refl _), ← h.asOf _ (Nat.le_refl _)]
  intro e he
  obtain ⟨c, hc, he⟩ := List.mem_flatMap.mp he
  exact List.mem_flatMap.mpr ⟨c, List.mem_of_mem_filter hc, he⟩

theorem later_commit (V : Versions α) : Later V V.commit :=
  ⟨Nat.le_succ _, fun _ ht => asOf_commit ht⟩

theorem later_advance (V : Versions α) (d : Nat) : Later V (V.advance d) :=
  ⟨Nat.le_add_right _ _, fun _ _ => rfl⟩

end Versions

end Foundation
