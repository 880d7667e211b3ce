import Mathlib.Data.List.Basic

/-! Induction over folds that may fail: what each step keeps, a fold that returns keeps. -/

namespace Foundation

variable {α β : Type}

theorem foldlM_except {ε : Type} {f : β → α → Except ε β} {P : β → Prop}
    (step : ∀ b a b', P b → f b a = .ok b' → P b') {as : List α} {b b' : β} (h : P b)
    (ran : as.foldlM f b = .ok b') : P b' := by
  induction as generalizing b with
  | nil =>
      cases ran
      exact h
  | cons a as ih =>
      rw [List.foldlM_cons] at ran
      cases next : f b a with
      | error e =>
          rw [next] at ran
          cases ran
      | ok mid =>
          rw [next] at ran
          exact ih (step b a mid h next) ran

/-- A fold looks at its function on the list's items only. -/
theorem foldlM_congr_mem {ε : Type} {f g : β → α → Except ε β} {as : List α}
    (same : ∀ b, ∀ a ∈ as, f b a = g b a) (b : β) : as.foldlM f b = as.foldlM g b := by
  induction as generalizing b with
  | nil => rfl
  | cons a as ih =>
      rw [List.foldlM_cons, List.foldlM_cons, same b a List.mem_cons_self]
      exact congrArg _ (funext fun b => ih (fun b c mem => same b c (List.mem_cons_of_mem a mem)) b)

theorem mapM_congr_mem {ε : Type} {f g : α → Except ε β} {as : List α}
    (same : ∀ a ∈ as, f a = g a) : as.mapM f = as.mapM g := by
  induction as with
  | nil => rfl
  | cons a as ih =>
      rw [List.mapM_cons, List.mapM_cons, same a List.mem_cons_self,
        ih fun c mem => same c (List.mem_cons_of_mem a mem)]

/-- `P` may depend on what the fold has taken. -/
theorem foldlM_taken {ε : Type} {f : β → α → Except ε β} {P : List α → β → Prop}
    (step : ∀ done b a b', P done b → f b a = .ok b' → P (done ++ [a]) b') {as : List α}
    {b b' : β} (h : P [] b) (ran : as.foldlM f b = .ok b') : P as b' := by
  have from_ : ∀ (rest done : List α) (b : β), P done b → rest.foldlM f b = .ok b' →
      P (done ++ rest) b' := by
    intro rest
    induction rest with
    | nil =>
        intro done b h ran
        cases ran
        rwa [List.append_nil]
    | cons a rest ih =>
        intro done b h ran
        rw [List.foldlM_cons] at ran
        cases next : f b a with
        | error e =>
            rw [next] at ran
            cases ran
        | ok mid =>
            rw [next] at ran
            have there := ih (done ++ [a]) mid (step done b a mid h next) ran
            rwa [List.append_assoc] at there
  exact from_ as [] b h ran

/-- `P` may depend on what is left of the list. -/
theorem foldlM_option {f : β → α → Option β} {P : List α → β → Prop}
    (step : ∀ a rest b b', P (a :: rest) b → f b a = some b' → P rest b') {as : List α} {b b' : β}
    (h : P as b) (ran : as.foldlM f b = some b') : P [] b' := by
  induction as generalizing b with
  | nil =>
      cases ran
      exact h
  | cons a as ih =>
      rw [List.foldlM_cons] at ran
      cases next : f b a with
      | none =>
          rw [next] at ran
          cases ran
      | some mid =>
          rw [next] at ran
          exact ih (step a as b mid h next) ran

/-- A fold whose steps all return returns, and `P` holds at its end. -/
theorem foldlM_isSome {f : β → α → Option β} {P : List α → β → Prop}
    (step : ∀ a rest b, P (a :: rest) b → ∃ b', f b a = some b' ∧ P rest b') {l : List α} {b : β}
    (h : P l b) : ∃ b', l.foldlM f b = some b' ∧ P [] b' := by
  induction l generalizing b with
  | nil => exact ⟨b, rfl, h⟩
  | cons a l ih =>
      obtain ⟨mid, next, rest⟩ := step a l b h
      rw [List.foldlM_cons, next]
      exact ih rest

/-- A loop over a list with its indices, by the number of elements already taken. -/
theorem foldlM_zipIdx {f : β → α × Nat → Option β} {P : Nat → β → Prop} {as : List α}
    (step : ∀ n a b, as[n]? = some a → P n b → ∃ b', f b (a, n) = some b' ∧ P (n + 1) b') {b : β}
    (h : P 0 b) : ∃ b', as.zipIdx.foldlM f b = some b' ∧ P as.length b' := by
  have from_ : ∀ (rest : List α) (n : Nat) (b : β), as.drop n = rest → n ≤ as.length → P n b →
      ∃ b', (rest.zipIdx n).foldlM f b = some b' ∧ P as.length b' := by
    intro rest
    induction rest with
    | nil =>
        intro n b done inside hn
        obtain rfl := Nat.le_antisymm inside (List.drop_eq_nil_iff.mp done)
        exact ⟨b, rfl, hn⟩
    | cons a rest ih =>
        intro n b suffix _ hn
        have at_ : as[n]? = some a := by
          rw [← List.head?_drop, suffix]
          rfl
        have next : as.drop (n + 1) = rest := by
          rw [← List.tail_drop, suffix]
          rfl
        obtain ⟨inside, -⟩ := List.getElem?_eq_some_iff.mp at_
        obtain ⟨mid, ran, hmid⟩ := step n a b at_ hn
        obtain ⟨b', rest_, hb'⟩ := ih (n + 1) mid next inside hmid
        refine ⟨b', ?_, hb'⟩
        rw [List.zipIdx_cons, List.foldlM_cons, ran]
        exact rest_
  exact from_ as 0 b rfl (Nat.zero_le _) h

/-- A fold that appends to its state appends the pieces in order. -/
theorem foldlM_append {f : List β → α → Option (List β)} {piece : α → List β} {as : List α}
    (step : ∀ a ∈ as, ∀ b, f b a = some (b ++ piece a)) (b : List β) :
    as.foldlM f b = some (b ++ as.flatMap piece) := by
  induction as generalizing b with
  | nil => rw [List.flatMap_nil, List.append_nil]; rfl
  | cons a as ih =>
      rw [List.foldlM_cons, step a List.mem_cons_self, List.flatMap_cons, ← List.append_assoc]
      exact ih (fun a ha => step a (List.mem_cons_of_mem _ ha)) _

theorem mapM_some {f : α → Option β} {g : α → β} {as : List α}
    (all : ∀ a ∈ as, f a = some (g a)) : as.mapM f = some (as.map g) := by
  induction as with
  | nil => rfl
  | cons a as ih =>
      rw [List.mapM_cons, all a List.mem_cons_self,
        ih fun b hb => all b (List.mem_cons_of_mem _ hb)]
      rfl

theorem mapM_ok {ε : Type} {f : α → Except ε β} {g : α → β} {as : List α}
    (all : ∀ a ∈ as, f a = .ok (g a)) : as.mapM f = .ok (as.map g) := by
  induction as with
  | nil => rfl
  | cons a as ih =>
      rw [List.mapM_cons, all a List.mem_cons_self,
        ih fun b hb => all b (List.mem_cons_of_mem _ hb)]
      rfl

theorem mapM_each {ε : Type} {f : α → Except ε β} {as : List α} {bs : List β}
    (ran : as.mapM f = .ok bs) : List.Forall₂ (fun a b => f a = .ok b) as bs := by
  induction as generalizing bs with
  | nil =>
      cases ran
      exact .nil
  | cons a as ih =>
      rw [List.mapM_cons] at ran
      cases here : f a with
      | error e =>
          rw [here] at ran
          cases ran
      | ok b =>
          rw [here] at ran
          cases rest : as.mapM f with
          | error e =>
              rw [rest] at ran
              cases ran
          | ok bs' =>
              rw [rest] at ran
              cases ran
              exact .cons here (ih rest)

theorem mapM_every {ε : Type} {f : α → Except ε β} {as : List α} {bs : List β}
    (ran : as.mapM f = .ok bs) : ∀ a ∈ as, ∃ b, f a = .ok b := by
  have each := mapM_each ran
  clear ran
  induction each with
  | nil => exact fun _ mem => absurd mem List.not_mem_nil
  | cons here _ ih => exact List.forall_mem_cons.mpr ⟨⟨_, here⟩, ih⟩

/-- A run over the places of a list. -/
theorem mapM_range_ok {ε : Type} {f : Nat → Except ε β} {g : α → β} {as : List α}
    (all : ∀ i a, as[i]? = some a → f i = .ok (g a)) :
    (List.range as.length).mapM f = .ok (as.map g) := by
  have from_ : ∀ (rest : List α) (n : Nat), as.drop n = rest →
      (List.range' n rest.length).mapM f = .ok (rest.map g) := by
    intro rest
    induction rest with
    | nil => exact fun _ _ => rfl
    | cons a rest ih =>
        intro n suffix
        have here : as[n]? = some a := by
          rw [← List.head?_drop, suffix]
          rfl
        have next : as.drop (n + 1) = rest := by
          rw [← List.tail_drop, suffix]
          rfl
        rw [List.length_cons, List.range'_succ, List.mapM_cons, all n a here, ih (n + 1) next]
        rfl
  rw [List.range_eq_range']
  exact from_ as 0 rfl

/-- Where every failure is the same, one of them is the outcome. -/
theorem mapM_error {ε : Type} {f : α → Except ε β} {e : ε} {as : List α}
    (all : ∀ a ∈ as, (∃ b, f a = .ok b) ∨ f a = .error e) (one : ∃ a ∈ as, f a = .error e) :
    as.mapM f = .error e := by
  induction as with
  | nil => exact absurd one (by simp)
  | cons a as ih =>
      rw [List.mapM_cons]
      rcases all a List.mem_cons_self with ⟨b, here⟩ | here
      · obtain ⟨c, mem, stuck⟩ := one
        rcases List.mem_cons.mp mem with rfl | later
        · rw [here] at stuck
          cases stuck
        · rw [here, ih (fun c hc => all c (List.mem_cons_of_mem _ hc)) ⟨c, later, stuck⟩]
          rfl
      · rw [here]
        rfl

/-- A failure is one step's. -/
theorem mapM_failed {ε : Type} {f : α → Except ε β} {e : ε} {as : List α}
    (h : as.mapM f = .error e) : ∃ a ∈ as, f a = .error e := by
  induction as with
  | nil => cases h
  | cons a as ih =>
      rw [List.mapM_cons] at h
      cases here : f a with
      | error e' =>
          rw [here] at h
          cases h
          exact ⟨a, List.mem_cons_self, here⟩
      | ok b =>
          rw [here] at h
          cases rest : as.mapM f with
          | error e' =>
              rw [rest] at h
              cases h
              obtain ⟨c, mem, failed⟩ := ih rest
              exact ⟨c, List.mem_cons_of_mem a mem, failed⟩
          | ok bs =>
              rw [rest] at h
              cases h

theorem mapM_none {f : α → Option β} {as : List α} {a : α} (mem : a ∈ as)
    (stuck : f a = none) : as.mapM f = none := by
  induction as with
  | nil => cases mem
  | cons b as ih =>
      rw [List.mapM_cons]
      rcases List.mem_cons.mp mem with rfl | mem
      · rw [stuck]
        rfl
      · rw [ih mem]
        cases f b <;> rfl

/-- One step that never returns fails the fold. -/
theorem foldlM_none {f : β → α → Option β} {as : List α} {a : α} (mem : a ∈ as)
    (stuck : ∀ b, f b a = none) (b : β) : as.foldlM f b = none := by
  induction as generalizing b with
  | nil => cases mem
  | cons c as ih =>
      rw [List.foldlM_cons]
      rcases List.mem_cons.mp mem with rfl | mem
      · rw [stuck]
        rfl
      · cases f b c with
        | none => rfl
        | some b => exact ih mem b

end Foundation
