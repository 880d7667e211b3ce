import Mathlib.Data.List.Basic

/-! Runs over a state that leave a log and may not return, and such runs on the parts of a state. -/

namespace Foundation

variable {σ ε α β κ : Type}

/-- What a run returns, the state it leaves and the events it logs. -/
def Logged (σ ε α : Type) : Type := σ → Option (α × σ × List ε)

namespace Logged

instance : Monad (Logged σ ε) where
  pure a := fun s => some (a, s, [])
  bind m f := fun s => (m s).bind fun r =>
    (f r.1 r.2.1).map fun r' => (r'.1, r'.2.1, r.2.2 ++ r'.2.2)

theorem pure_ran {a b : α} {s s' : σ} {es : List ε} :
    (pure a : Logged σ ε α) s = some (b, s', es) ↔ a = b ∧ s = s' ∧ [] = es := by
  show some (a, s, ([] : List ε)) = some (b, s', es) ↔ _
  rw [Option.some.injEq, Prod.mk.injEq, Prod.mk.injEq]

theorem bind_ran {m : Logged σ ε α} {f : α → Logged σ ε β} {s s'' : σ} {b : β} {es : List ε}
    (ran : (m >>= f) s = some (b, s'', es)) :
    ∃ a s' es₁ es₂, m s = some (a, s', es₁) ∧ f a s' = some (b, s'', es₂) ∧ es = es₁ ++ es₂ := by
  obtain ⟨⟨a, s', es₁⟩, first, rest⟩ := Option.bind_eq_some_iff.mp ran
  obtain ⟨⟨b', t, es₂⟩, second, eq⟩ := Option.map_eq_some_iff.mp rest
  obtain ⟨rfl, rfl, rfl⟩ : b' = b ∧ t = s'' ∧ es₁ ++ es₂ = es := by
    simpa only [Prod.mk.injEq] using eq
  exact ⟨a, s', es₁, es₂, first, second, rfl⟩

/-- The runs of `f` on a list's entries in order. -/
def each (f : α → Logged σ ε β) : List α → Logged σ ε (List β)
  | [] => pure []
  | a :: as => do
      let b ← f a
      let bs ← each f as
      pure (b :: bs)

/-- What every run keeps of a state and its log, all of them keep. -/
theorem each_keeps {f : α → Logged σ ε β} {I : σ → List ε → Prop}
    (keeps : ∀ a b s log s' es, I s log → f a s = some (b, s', es) → I s' (log ++ es))
    {as : List α} {bs : List β} {s s' : σ} {log es : List ε} (h : I s log)
    (ran : each f as s = some (bs, s', es)) : I s' (log ++ es) := by
  induction as generalizing s log bs es with
  | nil =>
      obtain ⟨rfl, rfl, rfl⟩ := pure_ran.mp ran
      rwa [List.append_nil]
  | cons a as ih =>
      obtain ⟨b, mid, es₁, _, first, rest, rfl⟩ := bind_ran ran
      obtain ⟨bs', last, es₂, _, others, done, rfl⟩ := bind_ran rest
      obtain ⟨rfl, rfl, rfl⟩ := pure_ran.mp done
      rw [List.append_nil, ← List.append_assoc]
      exact ih (keeps a b s log mid es₁ h first) others

section Parts

variable [DecidableEq κ]

/-- A run on the part `k`. -/
def on (k : κ) (m : Logged σ ε α) : Logged (κ → σ) (κ × ε) α := fun parts =>
  (m (parts k)).map fun r => (r.1, Function.update parts k r.2.1, r.2.2.map (Prod.mk k))

/-- One run on each of the parts `ks` in order, with what each returned. -/
def onEach (f : κ → Logged σ ε α) : List κ → (κ → α) → Logged (κ → σ) (κ × ε) (κ → α)
  | [], returned => pure returned
  | k :: ks, returned => do
      let a ← on k (f k)
      onEach f ks (Function.update returned k a)

/-- The events of one part. -/
def eventsOf (k : κ) (es : List (κ × ε)) : List ε :=
  es.filterMap fun e => if e.1 = k then some e.2 else none

theorem mem_eventsOf {k : κ} {es : List (κ × ε)} {e : ε} : e ∈ eventsOf k es ↔ (k, e) ∈ es := by
  rw [eventsOf, List.mem_filterMap]
  constructor
  · rintro ⟨⟨k', e'⟩, mem, eq⟩
    split_ifs at eq with same
    obtain rfl := Option.some.inj eq
    obtain rfl : k' = k := same
    exact mem
  · exact fun mem => ⟨(k, e), mem, if_pos rfl⟩

theorem eventsOf_append (k : κ) (es es' : List (κ × ε)) :
    eventsOf k (es ++ es') = eventsOf k es ++ eventsOf k es' := List.filterMap_append

theorem eventsOf_map_self (k : κ) (es : List ε) : eventsOf k (es.map (Prod.mk k)) = es := by
  rw [eventsOf, List.filterMap_map]
  exact (List.filterMap_congr fun e _ => if_pos rfl).trans List.filterMap_some

theorem eventsOf_map_other {k k' : κ} (other : k' ≠ k) (es : List ε) :
    eventsOf k (es.map (Prod.mk k')) = [] := by
  rw [eventsOf, List.filterMap_map]
  exact List.filterMap_eq_nil_iff.mpr fun e _ => if_neg other

theorem on_ran {k : κ} {m : Logged σ ε α} {parts parts' : κ → σ} {a : α} {es : List (κ × ε)}
    (ran : on k m parts = some (a, parts', es)) :
    m (parts k) = some (a, parts' k, eventsOf k es) ∧
      ∀ k', k' ≠ k → parts' k' = parts k' ∧ eventsOf k' es = [] := by
  obtain ⟨⟨b, s', es'⟩, inner, eq⟩ := Option.map_eq_some_iff.mp ran
  obtain ⟨rfl, rfl, rfl⟩ : b = a ∧ Function.update parts k s' = parts' ∧
      es'.map (Prod.mk k) = es := by
    simpa only [Prod.mk.injEq] using eq
  refine ⟨?_, fun k' other => ⟨Function.update_of_ne other _ _, eventsOf_map_other other.symm _⟩⟩
  rw [Function.update_self, eventsOf_map_self]
  exact inner

/-- Each part has had its own run and no other. -/
theorem onEach_ran {f : κ → Logged σ ε α} {ks : List κ} (nodup : ks.Nodup)
    {returned returned' : κ → α} {parts parts' : κ → σ} {es : List (κ × ε)}
    (ran : onEach f ks returned parts = some (returned', parts', es)) :
    (∀ k ∈ ks, f k (parts k) = some (returned' k, parts' k, eventsOf k es)) ∧
      ∀ k, k ∉ ks → returned' k = returned k ∧ parts' k = parts k ∧ eventsOf k es = [] := by
  induction ks generalizing returned parts es with
  | nil =>
      obtain ⟨rfl, rfl, rfl⟩ := pure_ran.mp ran
      exact ⟨fun k mem => absurd mem List.not_mem_nil, fun k _ => ⟨rfl, rfl, rfl⟩⟩
  | cons k ks ih =>
      obtain ⟨fresh, nodup⟩ := List.nodup_cons.mp nodup
      obtain ⟨a, mid, es₁, es₂, first, rest, rfl⟩ := bind_ran ran
      obtain ⟨here, others⟩ := on_ran first
      obtain ⟨each, outside⟩ := ih nodup rest
      obtain ⟨value, part, none_⟩ := outside k fresh
      rw [Function.update_self] at value
      refine ⟨List.forall_mem_cons.mpr ⟨?_, fun k' mem => ?_⟩, fun k' out => ?_⟩
      · rw [value, part, eventsOf_append, none_, List.append_nil]
        exact here
      · have other : k' ≠ k := fun same => fresh (same ▸ mem)
        obtain ⟨same, quiet⟩ := others k' other
        have ran' := each k' mem
        rw [same] at ran'
        rw [eventsOf_append, quiet, List.nil_append]
        exact ran'
      · obtain ⟨other, out⟩ := not_or.mp (fun mem => out (List.mem_cons.mpr mem))
        obtain ⟨same, quiet⟩ := others k' other
        obtain ⟨value', part', none'⟩ := outside k' out
        refine ⟨?_, part'.trans same, ?_⟩
        · rw [value', Function.update_of_ne other]
        · rw [eventsOf_append, quiet, none']
          rfl

end Parts

end Logged

end Foundation
