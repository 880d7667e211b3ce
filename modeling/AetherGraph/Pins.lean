import AetherGraph.Arena

/-! The pin registry as a multiset of epochs: it lists each pinned epoch once, in order,
with its number of holders, and its cached minimum is below every one of them. -/

namespace AetherGraph

namespace PinRegistry

/-- `r` counts the epochs of `held`. -/
structure Tracks (r : PinRegistry) (held : List Nat) : Prop where
  pins : ∃ epochs : List Nat, epochs.Pairwise (· < ·) ∧ (∀ e, e ∈ epochs ↔ e ∈ held) ∧
    r.pins = epochs.map fun e => (e, held.count e)
  min : r.min = (r.pins.head?.map Prod.fst).getD u64Max

theorem tracks_new : Tracks .new [] := ⟨⟨[], List.Pairwise.nil, fun _ => Iff.rfl, rfl⟩, rfl⟩

theorem Tracks.min_le {r : PinRegistry} {held : List Nat} (h : r.Tracks held) {e : Nat}
    (he : e ∈ held) : r.min ≤ e := by
  obtain ⟨epochs, sorted, mem, pins⟩ := h.pins
  rw [h.min, pins]
  cases epochs with
  | nil => exact absurd ((mem e).mpr he) List.not_mem_nil
  | cons first rest =>
      rcases List.mem_cons.mp ((mem e).mpr he) with rfl | later
      · exact Nat.le_refl e
      · exact Nat.le_of_lt ((List.pairwise_cons.mp sorted).1 e later)

theorem Tracks.perm {r : PinRegistry} {held held' : List Nat} (h : r.Tracks held)
    (p : held.Perm held') : r.Tracks held' := by
  obtain ⟨epochs, sorted, mem, pins⟩ := h.pins
  refine ⟨⟨epochs, sorted, fun e => (mem e).trans p.mem_iff, pins.trans ?_⟩, h.min⟩
  exact List.map_congr_left fun e _ => congrArg (Prod.mk e) (p.count_eq e)

/-- Registering raises one count, putting a new epoch in its place. -/
theorem pinsRegister_map {f g : Nat → Nat} {x : Nat} (hx : g x = f x + 1)
    (other : ∀ e, e ≠ x → g e = f e) {epochs : List Nat} (sorted : epochs.Pairwise (· < ·))
    (absent : x ∉ epochs → f x = 0) :
    ∃ epochs' : List Nat, epochs'.Pairwise (· < ·) ∧ (∀ e, e ∈ epochs' ↔ e = x ∨ e ∈ epochs) ∧
      pinsRegister x (epochs.map fun e => (e, f e)) = epochs'.map fun e => (e, g e) := by
  induction epochs with
  | nil =>
      refine ⟨[x], List.pairwise_singleton _ x, fun e => by simp, ?_⟩
      simp only [List.map_nil, pinsRegister, List.map_cons, hx, absent List.not_mem_nil]
  | cons first rest ih =>
      obtain ⟨later, sorted'⟩ := List.pairwise_cons.mp sorted
      simp only [List.map_cons, pinsRegister]
      have tail : ∀ l : List Nat, (∀ e ∈ l, e ≠ x) →
          (l.map fun e => (e, f e)) = l.map fun e => (e, g e) := fun l hl =>
        List.map_congr_left fun e he => congrArg (Prod.mk e) (other e (hl e he)).symm
      split
      · rename_i same
        subst same
        refine ⟨first :: rest, sorted, fun e => by simp, ?_⟩
        rw [tail rest fun e he => (later e he).ne', List.map_cons, hx]
      · rename_i differ
        split
        · rename_i before
          have above : ∀ e ∈ first :: rest, x < e := List.forall_mem_cons.mpr
            ⟨before, fun e he => before.trans (later e he)⟩
          refine ⟨x :: first :: rest, List.pairwise_cons.mpr ⟨above, sorted⟩, fun e => by simp, ?_⟩
          have none : f x = 0 := absent fun he => (above x he).false
          have same := tail (first :: rest) fun e he => (above e he).ne'
          rw [List.map_cons] at same
          rw [same, List.map_cons (l := first :: rest), hx, none]
        · rename_i after
          obtain ⟨epochs', inOrder, mem, eq⟩ := ih sorted' fun he => absent fun hx =>
            (List.mem_cons.mp hx).elim (fun same => differ same.symm) he
          refine ⟨first :: epochs', List.pairwise_cons.mpr ⟨fun e he => ?_, inOrder⟩,
            fun e => ?_, ?_⟩
          · rcases (mem e).mp he with rfl | he
            · omega
            · exact later e he
          · rw [List.mem_cons, mem, List.mem_cons, or_left_comm]
          · rw [eq, List.map_cons, other first differ]

theorem Tracks.register {r : PinRegistry} {held : List Nat} (h : r.Tracks held) (x : Nat) :
    (r.register x).Tracks (x :: held) := by
  obtain ⟨epochs, sorted, mem, pins⟩ := h.pins
  obtain ⟨epochs', inOrder, mem', eq⟩ := pinsRegister_map (f := held.count)
    (g := (x :: held).count) (x := x) List.count_cons_self
    (fun e differ => List.count_cons_of_ne differ.symm) sorted
    fun absent => List.count_eq_zero.mpr fun hx => absent ((mem x).mpr hx)
  refine ⟨⟨epochs', inOrder, fun e => ?_, ?_⟩, rfl⟩
  · rw [mem', mem, List.mem_cons]
  · rw [← eq, ← pins]
    rfl

/-- Releasing lowers one count and drops an epoch nobody holds any longer. -/
theorem pinsRelease_map {f g : Nat → Nat} {x : Nat} (hx : f x = g x + 1)
    (other : ∀ e, e ≠ x → g e = f e) {epochs : List Nat} (sorted : epochs.Pairwise (· < ·))
    (present : x ∈ epochs) :
    ∃ epochs' : List Nat, epochs'.Pairwise (· < ·) ∧
      (∀ e, e ∈ epochs' ↔ e ∈ epochs ∧ (e = x → 0 < g x)) ∧
      pinsRelease x (epochs.map fun e => (e, f e)) = some (epochs'.map fun e => (e, g e)) := by
  induction epochs with
  | nil => exact absurd present List.not_mem_nil
  | cons first rest ih =>
      obtain ⟨later, sorted'⟩ := List.pairwise_cons.mp sorted
      simp only [List.map_cons, pinsRelease]
      split
      · rename_i same
        subst same
        have tail : (rest.map fun e => (e, f e)) = rest.map fun e => (e, g e) :=
          List.map_congr_left fun e he => congrArg (Prod.mk e) (other e (later e he).ne').symm
        rw [hx, Nat.add_sub_cancel, tail]
        split
        · rename_i none
          refine ⟨rest, sorted', fun e => ⟨fun he => ?_, fun he => ?_⟩, rfl⟩
          · exact ⟨List.mem_cons_of_mem _ he, fun same => absurd (same ▸ he) fun he =>
              (later first he).false⟩
          · rcases List.mem_cons.mp he.1 with rfl | he'
            · have := he.2 rfl
              omega
            · exact he'
        · rename_i held
          refine ⟨first :: rest, sorted, fun e => ⟨fun he => ⟨he, fun _ => by omega⟩, And.left⟩,
            rfl⟩
      · rename_i differ
        have present := (List.mem_cons.mp present).resolve_left fun same => differ same.symm
        obtain ⟨epochs', inOrder, mem, eq⟩ := ih sorted' present
        refine ⟨first :: epochs', List.pairwise_cons.mpr ⟨fun e he => ?_, inOrder⟩, fun e => ?_, ?_⟩
        · exact later e ((mem e).mp he).1
        · rw [List.mem_cons, mem, List.mem_cons]
          constructor
          · rintro (rfl | ⟨he, held⟩)
            · exact ⟨.inl rfl, fun same => absurd same differ⟩
            · exact ⟨.inr he, held⟩
          · rintro ⟨rfl | he, held⟩
            · exact .inl rfl
            · exact .inr ⟨he, held⟩
        · rw [eq, Option.map_some, List.map_cons, other first differ]

theorem Tracks.release {r : PinRegistry} {held : List Nat} {x : Nat}
    (h : r.Tracks (x :: held)) : ∃ r', r.release x = some r' ∧ r'.Tracks held := by
  obtain ⟨epochs, sorted, mem, pins⟩ := h.pins
  obtain ⟨epochs', inOrder, mem', eq⟩ := pinsRelease_map (f := (x :: held).count)
    (g := held.count) (x := x) List.count_cons_self
    (fun e differ => (List.count_cons_of_ne differ.symm).symm) sorted
    ((mem x).mpr List.mem_cons_self)
  refine ⟨ofPins (epochs'.map fun e => (e, held.count e)), ?_,
    ⟨epochs', inOrder, fun e => ?_, rfl⟩, rfl⟩
  · rw [PinRegistry.release, pins, eq, Option.map_some]
  · rw [mem', mem, List.mem_cons, List.count_pos_iff]
    constructor
    · rintro ⟨rfl | he, held⟩
      · exact held rfl
      · exact he
    · exact fun he => ⟨.inr he, fun same => same ▸ he⟩

end PinRegistry

end AetherGraph
