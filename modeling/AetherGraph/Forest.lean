import AetherGraph.SetInsert
import AetherGraph.Writer

/-! Live trees, the retire log and the arena together: what a writer call does to them
is a sequence of three moves, and the account of slots survives each. -/

namespace AetherGraph

open Foundation Foundation.LeafTree Arena ArenaWriter Tree DynamicGraph

theorem Adj.Live.nodup {a : Arena} {t : Adj} (h : t.Live a) (k : SlotClass) :
    (t.slots k).Nodup := by
  cases t with
  | none => exact List.nodup_nil
  | some t => exact h.1.stored.slots_nodup h.2 k

theorem Adj.Live.grows {a a' : Arena} {t : Adj} (h : t.Live a) {F : SlotClass → List Nat}
    (g : Grows a a' F) : t.Live a' := by
  cases t with
  | none => trivial
  | some t => exact ⟨h.1.grows g, h.2⟩

theorem Adj.Live.root_ne {a : Arena} {t : Tree} (h : Adj.Live a (some t)) :
    Adj.root (some t) ≠ null := h.1.stored.offset_lt.ne

/-- The trees behind the published roots of a graph with `n` vertices. -/
structure Forest (a : Arena) (n : Nat) (roots : List Nat) (trees : Nat → Adj) : Prop where
  ok : a.Ok
  length_eq : roots.length = n
  small : n ≤ DynamicGraph.u32Max
  root_eq : ∀ v, roots.getD v null = (trees v).root
  live : ∀ v, (trees v).Live a
  keys : ∀ v, ∀ x ∈ (trees v).elems, x < n
  apart : ∀ u v, u ≠ v → ∀ k, ∀ i ∈ (trees u).slots k, i ∉ (trees v).slots k

/-- Logged slots are held, logged once, and in no published tree. -/
structure LogOk (a : Arena) (trees : Nat → Adj) (log : RetireLog) : Prop where
  nodup : ∀ k, (log.slots k).Nodup
  held : ∀ k, ∀ i ∈ log.slots k, a.Held k i
  off : ∀ v k, ∀ i ∈ log.slots k, i ∉ (trees v).slots k

theorem LogOk.empty (a : Arena) (trees : Nat → Adj) {log : RetireLog}
    (h : ∀ k, log.slots k = []) : LogOk a trees log where
  nodup k := by rw [h]; exact List.nodup_nil
  held k i hi := by rw [h] at hi; exact absurd hi List.not_mem_nil
  off v k i hi := by rw [h] at hi; exact absurd hi List.not_mem_nil

/-- `t'` takes over from `t`: it holds the keys of `t` and `new`, and every slot of `t`
or handed out meanwhile is in `t'`, logged, or leaked. -/
structure Replaced (a a' : Arena) (t t' : Adj) (new : List Nat)
    (logged leak F : SlotClass → List Nat) : Prop where
  grows : Grows a a' F
  live : t'.Live a'
  account : ∀ k, (t'.slots k ++ (logged k ++ leak k)).Perm (t.slots k ++ F k)
  mem_elems : ∀ x, x ∈ t'.elems ↔ x ∈ t.elems ∨ x ∈ new
  fresh : ∀ x ∈ new, x ∉ t.elems
  nodup_new : new.Nodup

theorem Replaced.refl {a : Arena} (ok : a.Ok) {t : Adj} (live : t.Live a) :
    Replaced a a t t [] (fun _ => []) (fun _ => []) fun _ => [] where
  grows := .refl ok
  live := live
  account k := by simp
  mem_elems x := by simp
  fresh x hx := absurd hx List.not_mem_nil
  nodup_new := List.nodup_nil

theorem Replaced.trans {a b c : Arena} {t u v : Adj} {new new' : List Nat}
    {l l' k k' F F' : SlotClass → List Nat} (h : Replaced a b t u new l k F)
    (h' : Replaced b c u v new' l' k' F') :
    Replaced a c t v (new ++ new') (fun s => l s ++ l' s) (fun s => k s ++ k' s)
      fun s => F s ++ F' s where
  grows := h.grows.trans h'.grows
  live := h'.live
  account s := by
    refine List.perm_iff_count.mpr fun x => ?_
    have h₁ := List.perm_iff_count.mp (h.account s) x
    have h₂ := List.perm_iff_count.mp (h'.account s) x
    simp only [List.count_append] at h₁ h₂ ⊢
    omega
  mem_elems x := by rw [h'.mem_elems, h.mem_elems, List.mem_append, or_assoc]
  fresh x hx := by
    rcases List.mem_append.mp hx with hx | hx
    · exact h.fresh x hx
    · exact fun old => h'.fresh x hx ((h.mem_elems x).mpr (.inl old))
  nodup_new := by
    refine List.nodup_append.mpr ⟨h.nodup_new, h'.nodup_new, fun x hx y hy same => ?_⟩
    subst same
    exact h'.fresh x hy ((h.mem_elems x).mpr (.inr hx))

theorem Inserted.replaced {w w' : ArenaWriter} {t : Adj} {v : Nat} {t' : Tree}
    {logged leak F : SlotClass → List Nat} (h : Inserted w w' t v t' logged leak F) :
    Replaced w.arena w'.arena t (some t') [v] logged leak F where
  grows := h.grown.grows
  live := ⟨h.kept, h.wellFormed⟩
  account := h.account
  mem_elems x := by
    change x ∈ t'.elems ↔ _
    rw [h.elems_eq, List.mem_orderedInsert, List.mem_singleton, or_comm]
  fresh x hx := by
    rw [List.mem_singleton.mp hx]
    exact h.fresh
  nodup_new := List.nodup_singleton v

/-- Arena, roots, log and touched leaves of a guard, with the trees. -/
structure Core where
  arena : Arena
  roots : List Nat
  log : RetireLog
  touched : List Nat
  trees : Nat → Adj

structure Core.Good (n : Nat) (c : Core) : Prop where
  forest : Forest c.arena n c.roots c.trees
  log : LogOk c.arena c.trees c.log

/-- One move of a guard: allocate, publish a replacement, or stamp the log.  The list
holds the edges it published. -/
inductive Move (n : Nat) (young : SlotClass → Nat) (stamp : Nat) :
    Core → Core → List (Nat × Nat) → Prop where
  | grow {c : Core} {a' : Arena} {F : SlotClass → List Nat} :
      Grows c.arena a' F → Move n young stamp c { c with arena := a' } []
  | publish {c : Core} {a' : Arena} {src : Nat} {t' : Adj} {new touched : List Nat}
      {logged leak F : SlotClass → List Nat} :
      src < n → Replaced c.arena a' (c.trees src) t' new logged leak F →
      (∀ x ∈ new, x < n) → (∀ l, l ∈ touched ↔ l ∈ c.touched ∨ l = src / leafLen) →
      Move n young stamp c ⟨a', c.roots.set src t'.root, c.log.append logged, touched,
        Function.update c.trees src t'⟩ (new.map (src, ·))
  | stamp {c : Core} :
      Move n young stamp c { c with
        arena := ((ArenaWriter.mk c.arena young).retire c.log stamp).1.arena
        log := ((ArenaWriter.mk c.arena young).retire c.log stamp).2 } []

theorem Core.Good.grow {n : Nat} {c : Core} (h : c.Good n) {a' : Arena}
    {F : SlotClass → List Nat} (g : Grows c.arena a' F) : Core.Good n { c with arena := a' } where
  forest := { h.forest with
    ok := g.ok
    live := fun v => (h.forest.live v).grows g }
  log := { h.log with held := fun k i hi => g.heldOld (h.log.held k i hi) }

/-- Slots of a replacement come from the tree replaced or were fresh. -/
theorem Replaced.mem_or {a a' : Arena} {t t' : Adj} {new : List Nat}
    {logged leak F : SlotClass → List Nat} (h : Replaced a a' t t' new logged leak F)
    {k : SlotClass} {i : Nat} (hi : i ∈ t'.slots k ++ (logged k ++ leak k)) :
    i ∈ t.slots k ∨ i ∈ F k := List.mem_append.mp ((h.account k).mem_iff.mp hi)

theorem Replaced.nodup {a a' : Arena} {t t' : Adj} {new : List Nat}
    {logged leak F : SlotClass → List Nat} (h : Replaced a a' t t' new logged leak F)
    (live : t.Live a) (k : SlotClass) : (t'.slots k ++ (logged k ++ leak k)).Nodup := by
  refine List.Nodup.perm ?_ (h.account k).symm
  refine List.nodup_append.mpr ⟨live.nodup k, h.grows.nodup k, fun i hi j hj same => ?_⟩
  subst same
  exact h.grows.fresh hj (live.held k i hi)

theorem Core.Good.publish {n : Nat} {c : Core} (h : c.Good n) {a' : Arena} {src : Nat} {t' : Adj}
    {new touched : List Nat} {logged leak F : SlotClass → List Nat} (hsrc : src < n)
    (r : Replaced c.arena a' (c.trees src) t' new logged leak F) (keys : ∀ x ∈ new, x < n) :
    Core.Good n ⟨a', c.roots.set src t'.root, c.log.append logged, touched,
      Function.update c.trees src t'⟩ := by
  obtain ⟨forest, log⟩ := h
  have nodup := r.nodup (forest.live src)
  have elsewhere : ∀ v, v ≠ src → ∀ k, ∀ i ∈ t'.slots k ++ (logged k ++ leak k),
      i ∉ (c.trees v).slots k := by
    intro v hv k i hi
    rcases r.mem_or hi with hi | hi
    · exact forest.apart src v hv.symm k i hi
    · exact fun old => r.grows.fresh hi ((forest.live v).held k i old)
  have unlogged : ∀ k, ∀ i ∈ t'.slots k ++ (logged k ++ leak k), i ∉ c.log.slots k := by
    intro k i hi old
    rcases r.mem_or hi with hi | hi
    · exact log.off src k i old hi
    · exact r.grows.fresh hi (log.held k i old)
  refine ⟨⟨r.grows.ok, ?_, forest.small, fun v => ?_, fun v => ?_, fun v x hx => ?_,
    fun u v huv k i hu hv => ?_⟩, ⟨fun k => ?_, fun k i hi => ?_, fun v k i hi hv => ?_⟩⟩
  · rw [List.length_set]
    exact forest.length_eq
  · dsimp only
    by_cases hv : v = src
    · subst hv
      rw [Function.update_self, List.getD_eq_getElem?_getD,
        List.getElem?_set_self (by rw [forest.length_eq]; exact hsrc), Option.getD_some]
    · rw [Function.update_of_ne hv, List.getD_eq_getElem?_getD,
        List.getElem?_set_ne (Ne.symm hv), ← List.getD_eq_getElem?_getD]
      exact forest.root_eq v
  · by_cases hv : v = src
    · subst hv
      simpa only [Function.update_self] using r.live
    · simpa only [Function.update_of_ne hv] using (forest.live v).grows r.grows
  · by_cases hv : v = src
    · subst hv
      simp only [Function.update_self] at hx
      exact ((r.mem_elems x).mp hx).elim (forest.keys v x) (keys x)
    · simp only [Function.update_of_ne hv] at hx
      exact forest.keys v x hx
  · by_cases hu' : u = src
    · subst hu'
      simp only [Function.update_self, Function.update_of_ne (Ne.symm huv)] at hu hv
      exact elsewhere v (Ne.symm huv) k i (List.mem_append_left _ hu) hv
    · by_cases hv' : v = src
      · subst hv'
        simp only [Function.update_self, Function.update_of_ne huv] at hu hv
        exact elsewhere u huv k i (List.mem_append_left _ hv) hu
      · simp only [Function.update_of_ne hu', Function.update_of_ne hv'] at hu hv
        exact forest.apart u v huv k i hu hv
  · refine List.nodup_append.mpr ⟨log.nodup k, ?_, fun i hi j hj same => ?_⟩
    · exact (List.nodup_append.mp (List.nodup_append.mp (nodup k)).2.1).1
    · subst same
      exact unlogged k i (List.mem_append_right _ (List.mem_append_left _ hj)) hi
  · rcases List.mem_append.mp hi with hi | hi
    · exact r.grows.heldOld (log.held k i hi)
    · rcases r.mem_or (List.mem_append_right _ (List.mem_append_left _ hi)) with hi | hi
      · exact r.grows.heldOld ((forest.live src).held k i hi)
      · exact r.grows.heldNew hi
  · by_cases hv' : v = src
    · subst hv'
      simp only [Function.update_self] at hv
      rcases List.mem_append.mp hi with hi | hi
      · exact unlogged k i (List.mem_append_left _ hv) hi
      · exact (List.nodup_append.mp (nodup k)).2.2 i hv i (List.mem_append_left _ hi) rfl
    · simp only [Function.update_of_ne hv'] at hv
      rcases List.mem_append.mp hi with hi | hi
      · exact log.off v k i hi hv
      · exact elsewhere v hv' k i (List.mem_append_right _ (List.mem_append_left _ hi)) hv

/-- A held slot off the log is neither given up nor rewritten by stamping. -/
theorem ArenaWriter.Retired.node {w w' : ArenaWriter} {log : RetireLog} {stamp : Nat}
    (h : Retired w log stamp w') {k : SlotClass} {i : Nat} (held : w.arena.Held k i)
    (off : i ∉ log.slots k) : SameNode w.arena w'.arena k i :=
  (h.shields _ le_rfl k i (held.shields _) fun hi => absurd hi off).2

theorem Adj.Live.retired {w w' : ArenaWriter} {log : RetireLog} {stamp : Nat} {t : Adj}
    (live : t.Live w.arena) (h : Retired w log stamp w')
    (off : ∀ k, ∀ i ∈ log.slots k, i ∉ t.slots k) : t.Live w'.arena := by
  cases t with
  | none => trivial
  | some t =>
      have out : ∀ k, ∀ i ∈ slots t k, i ∉ log.slots k := fun k i hi hl => off k i hl hi
      refine ⟨⟨live.1.stored.congr fun k i hi => h.node (live.1.held k i hi) (out k i hi),
        fun k i hi => ?_⟩, live.2⟩
      exact (h.held k i).mpr ⟨live.1.held k i hi, out k i hi⟩

theorem Core.Good.retired {n : Nat} {c : Core} (h : c.Good n) (young : SlotClass → Nat)
    (stamp : Nat) :
    Retired ⟨c.arena, young⟩ c.log stamp ((ArenaWriter.mk c.arena young).retire c.log stamp).1 ∧
      ∀ k, ((ArenaWriter.mk c.arena young).retire c.log stamp).2.slots k = [] :=
  retire_retired (w := ⟨c.arena, young⟩) h.forest.ok h.log.nodup h.log.held

theorem Core.Good.stamp {n : Nat} {c : Core} (h : c.Good n) (young : SlotClass → Nat)
    (stamp : Nat) :
    Core.Good n { c with
      arena := ((ArenaWriter.mk c.arena young).retire c.log stamp).1.arena
      log := ((ArenaWriter.mk c.arena young).retire c.log stamp).2 } := by
  obtain ⟨retired, empty⟩ := h.retired young stamp
  refine ⟨{ h.forest with
    ok := retired.ok
    live := fun v => (h.forest.live v).retired retired (h.log.off v) }, .empty _ _ empty⟩

theorem Adj.Live.setPins {a : Arena} {t : Adj} (h : t.Live a) (gate : ReadGate)
    (pins : PinRegistry) : t.Live { a with gate := gate, pins := pins } := by
  cases t with
  | none => trivial
  | some t =>
      obtain ⟨⟨stored, held⟩, wf⟩ := h
      exact ⟨⟨stored.congr fun k i _ => by cases k <;> rfl, held⟩, wf⟩

/-- Readers move the gate and snapshots the pins; neither touches a slot. -/
theorem Core.Good.setPins {n : Nat} {c : Core} (h : c.Good n) (gate : ReadGate)
    (pins : PinRegistry) :
    Core.Good n { c with arena := { c.arena with gate := gate, pins := pins } } where
  forest := { h.forest with
    ok := { h.forest.ok with }
    live := fun v => (h.forest.live v).setPins gate pins }
  log := { h.log with }

theorem Core.Good.reclaim {n : Nat} {c : Core} (h : c.Good n) :
    Core.Good n { c with arena := c.arena.reclaimReady } :=
  h.grow (reclaimReady_reclaimed h.forest.ok).grows

theorem Move.good {n stamp : Nat} {young : SlotClass → Nat} {added : List (Nat × Nat)}
    {c c' : Core} (m : Move n young stamp c c' added) (h : c.Good n) : c'.Good n := by
  cases m with
  | grow g => exact h.grow g
  | publish hsrc r keys touched => exact h.publish hsrc r keys
  | stamp => exact h.stamp young stamp

/-- Any number of moves. -/
inductive Moves (n : Nat) (young : SlotClass → Nat) (stamp : Nat) (c : Core) :
    Core → List (Nat × Nat) → Prop where
  | refl : Moves n young stamp c c []
  | step {c' c'' added new} : Moves n young stamp c c' added → Move n young stamp c' c'' new →
      Moves n young stamp c c'' (added ++ new)

section

variable {n stamp : Nat} {young : SlotClass → Nat} {added added' : List (Nat × Nat)}
  {c c' c'' : Core}

theorem Moves.one (m : Move n young stamp c c' added) : Moves n young stamp c c' added :=
  .step .refl m

theorem Moves.trans (h : Moves n young stamp c c' added) (h' : Moves n young stamp c' c'' added') :
    Moves n young stamp c c'' (added ++ added') := by
  induction h' with
  | refl => rwa [List.append_nil]
  | step _ m ih =>
      rw [← List.append_assoc]
      exact .step ih m

theorem Moves.good (h : Moves n young stamp c c' added) (good : c.Good n) : c'.Good n := by
  induction h with
  | refl => exact good
  | step _ m ih => exact m.good ih

end

/-- `added` are the edges that `T'` has over `T`, none of them twice. -/
structure Added (n : Nat) (T T' : Nat → Adj) (added : List (Nat × Nat)) : Prop where
  mem_elems : ∀ v x, x ∈ (T' v).elems ↔ x ∈ (T v).elems ∨ (v, x) ∈ added
  fresh : ∀ e ∈ added, e.2 ∉ (T e.1).elems
  nodup : added.Nodup
  lt : ∀ e ∈ added, e.1 < n ∧ e.2 < n

theorem Added.refl (n : Nat) (T : Nat → Adj) : Added n T T [] where
  mem_elems v x := by simp
  fresh e he := absurd he List.not_mem_nil
  nodup := List.nodup_nil
  lt e he := absurd he List.not_mem_nil

theorem Added.trans {n : Nat} {T T' T'' : Nat → Adj} {added added' : List (Nat × Nat)}
    (h : Added n T T' added) (h' : Added n T' T'' added') : Added n T T'' (added ++ added') where
  mem_elems v x := by rw [h'.mem_elems, h.mem_elems, List.mem_append, or_assoc]
  fresh e he := by
    rcases List.mem_append.mp he with he | he
    · exact h.fresh e he
    · exact fun old => h'.fresh e he ((h.mem_elems ..).mpr (.inl old))
  nodup := by
    refine List.nodup_append.mpr ⟨h.nodup, h'.nodup, fun e he e' he' same => ?_⟩
    subst same
    exact h'.fresh e he' ((h.mem_elems ..).mpr (.inr he))
  lt e he := (List.mem_append.mp he).elim (h.lt e) (h'.lt e)

theorem Move.added {n stamp : Nat} {young : SlotClass → Nat} {added : List (Nat × Nat)}
    {c c' : Core} (m : Move n young stamp c c' added) : Added n c.trees c'.trees added := by
  cases m with
  | grow g => exact .refl n _
  | stamp => exact .refl n _
  | @publish a' src t' new touched logged leak F hsrc r keys _ =>
      refine ⟨fun v x => ?_, fun e he => ?_, ?_, fun e he => ?_⟩
      · by_cases hv : v = src
        · subst hv
          simp only [Function.update_self, r.mem_elems, List.mem_map, Prod.mk.injEq, true_and,
            exists_eq_right]
        · simp only [Function.update_of_ne hv, List.mem_map, Prod.mk.injEq, Ne.symm hv, false_and,
            and_false, exists_false, or_false]
      · obtain ⟨x, hx, rfl⟩ := List.mem_map.mp he
        exact r.fresh x hx
      · exact r.nodup_new.map fun x y same => (Prod.mk.inj same).2
      · obtain ⟨x, hx, rfl⟩ := List.mem_map.mp he
        exact ⟨hsrc, keys x hx⟩

theorem Moves.added {n stamp : Nat} {young : SlotClass → Nat} {added : List (Nat × Nat)}
    {c c' : Core} (h : Moves n young stamp c c' added) : Added n c.trees c'.trees added := by
  induction h with
  | refl => exact .refl n _
  | step _ m ih => exact ih.trans m.added

end AetherGraph
