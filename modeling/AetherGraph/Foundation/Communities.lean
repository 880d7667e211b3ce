import Mathlib.Algebra.BigOperators.Ring.Finset
import Mathlib.Tactic.FieldSimp
import Mathlib.Tactic.Linarith
import Mathlib.Tactic.Ring

/-! The vertices of a multigraph labelled by communities: what joining two communities does to
the edges between them, to their degree sums and to the modularity. -/

namespace Foundation.Communities

open scoped BigOperators

variable {V ι : Type} [DecidableEq ι]

/-- All of `a` goes over to `b`. -/
def join (label : V → ι) (a b : ι) (v : V) : ι := if label v = a then b else label v

theorem join_eq_iff (label : V → ι) {a b c : ι} (notA : c ≠ a) (notB : c ≠ b) (v : V) :
    join label a b v = c ↔ label v = c := by
  unfold join
  split
  · rename_i under
    rw [under]
    exact ⟨fun same => absurd same.symm notB, fun same => absurd same.symm notA⟩
  · rfl

theorem join_eq_target (label : V → ι) (a b : ι) (v : V) :
    join label a b v = b ↔ label v = b ∨ label v = a := by
  unfold join
  split
  · simp only [*, or_true]
  · simp only [*, or_false]

theorem join_ne_source (label : V → ι) {a b : ι} (apart : a ≠ b) (v : V) :
    join label a b v ≠ a := by
  unfold join
  split
  · exact apart.symm
  · assumption

/-- The weight a list of entries puts on `a`. -/
def load (label : V → ι) (entries : List (V × Nat)) (a : ι) : Nat :=
  ((entries.filter fun e => label e.1 = a).map Prod.snd).sum

section load

variable (label : V → ι)

@[simp] theorem load_nil (a : ι) : load label [] a = 0 := rfl

theorem load_cons (e : V × Nat) (entries : List (V × Nat)) (a : ι) :
    load label (e :: entries) a = (if label e.1 = a then e.2 else 0) + load label entries a := by
  unfold load
  by_cases here : label e.1 = a
  · simp [here]
  · simp [here]

@[simp] theorem load_append (entries entries' : List (V × Nat)) (a : ι) :
    load label (entries ++ entries') a = load label entries a + load label entries' a := by
  simp [load]

theorem load_units (vs : List V) (a : ι) :
    load label (vs.map fun v => (v, 1)) a = vs.countP fun v => label v = a := by
  induction vs with
  | nil => rfl
  | cons v vs ih =>
      rw [List.map_cons, load_cons, ih, List.countP_cons, Nat.add_comm]
      simp only [decide_eq_true_eq]

/-- Entries at distinct communities' own vertices give back their weights. -/
theorem load_map {vs : List V} {label : V → V} [DecidableEq V] (weight : V → Nat)
    (nodup : vs.Nodup) (own : ∀ v ∈ vs, label v = v) (a : V) :
    load label (vs.map fun v => (v, weight v)) a = if a ∈ vs then weight a else 0 := by
  induction vs with
  | nil => rfl
  | cons v vs ih =>
      obtain ⟨fresh, nodup⟩ := List.nodup_cons.mp nodup
      obtain ⟨here, own⟩ := List.forall_mem_cons.mp own
      rw [List.map_cons, load_cons, ih nodup own, here]
      by_cases same : v = a
      · subst same
        rw [if_pos rfl, if_neg fresh, if_pos List.mem_cons_self, Nat.add_zero]
      · have mem : a ∈ v :: vs ↔ a ∈ vs := by
          rw [List.mem_cons, or_iff_right (Ne.symm same)]
        rw [if_neg same, Nat.zero_add]
        simp only [mem]

variable {label} {a b : ι} (entries : List (V × Nat))

theorem load_join_other {c : ι} (notA : c ≠ a) (notB : c ≠ b) :
    load (join label a b) entries c = load label entries c := by
  unfold load
  simp only [join_eq_iff label notA notB]

theorem load_join_source (apart : a ≠ b) : load (join label a b) entries a = 0 := by
  unfold load
  simp only [join_ne_source label apart, decide_false, List.filter_false, List.map_nil,
    List.sum_nil]

theorem load_join_target (apart : a ≠ b) :
    load (join label a b) entries b = load label entries b + load label entries a := by
  induction entries with
  | nil => rfl
  | cons e entries ih =>
      simp only [load_cons, ih, join_eq_target]
      by_cases inB : label e.1 = b
      · have notA : label e.1 ≠ a := fun inA => apart (inA.symm.trans inB)
        simp only [inB, true_or, if_true, if_neg (Ne.symm apart)]
        omega
      · simp only [inB, false_or, if_false]
        omega

end load

variable (edges : List (V × V)) (label : V → ι)

/-- The edges between `a` and `b`, in either direction. -/
def between (a b : ι) : Nat :=
  edges.countP fun e => (label e.1 = a ∧ label e.2 = b) ∨ (label e.1 = b ∧ label e.2 = a)

def within (a : ι) : Nat := edges.countP fun e => label e.1 = a ∧ label e.2 = a

/-- The ends of edges in `a`: the degrees of its vertices, summed. -/
def volume (a : ι) : Nat :=
  (edges.countP fun e => label e.1 = a) + edges.countP fun e => label e.2 = a

/-- Modularity of the partition into `labels`. -/
def modularity (labels : Finset ι) : ℚ :=
  ∑ a ∈ labels, ((within edges label a : ℚ) / edges.length -
    ((volume edges label a : ℚ) / (2 * edges.length)) ^ 2)

theorem between_comm (a b : ι) : between edges label a b = between edges label b a := by
  unfold between
  simp only [or_comm]

variable {edges label}

section congr

variable {label' : V → ι} (same : ∀ e ∈ edges, label' e.1 = label e.1 ∧ label' e.2 = label e.2)

include same

theorem between_congr (a b : ι) : between edges label' a b = between edges label a b := by
  refine List.countP_congr fun e he => ?_
  rw [(same e he).1, (same e he).2]

theorem within_congr (a : ι) : within edges label' a = within edges label a := by
  refine List.countP_congr fun e he => ?_
  rw [(same e he).1, (same e he).2]

theorem volume_congr (a : ι) : volume edges label' a = volume edges label a := by
  refine congrArg₂ (· + ·) (List.countP_congr fun e he => ?_) (List.countP_congr fun e he => ?_)
  · rw [(same e he).1]
  · rw [(same e he).2]

theorem modularity_congr (labels : Finset ι) :
    modularity edges label' labels = modularity edges label labels := by
  unfold modularity
  simp only [within_congr same, volume_congr same]

end congr

section join

variable {a b : ι}

theorem between_join_other {c d : ι} (cA : c ≠ a) (cB : c ≠ b) (dA : d ≠ a) (dB : d ≠ b) :
    between edges (join label a b) c d = between edges label c d := by
  unfold between
  simp only [join_eq_iff label cA cB, join_eq_iff label dA dB]

theorem between_join_source (apart : a ≠ b) (c : ι) :
    between edges (join label a b) c a = 0 := by
  unfold between
  simp only [join_ne_source label apart, and_false, false_and, or_self, decide_false,
    List.countP_false, Function.const_apply]

theorem between_join_target (apart : a ≠ b) {c : ι} (cA : c ≠ a) (cB : c ≠ b) :
    between edges (join label a b) c b = between edges label c b + between edges label c a := by
  unfold between
  simp only [join_eq_iff label cA cB, join_eq_target]
  induction edges with
  | nil => rfl
  | cons e edges ih =>
      simp only [List.countP_cons, ih, decide_eq_true_eq]
      have once : ¬ ((label e.1 = c ∧ label e.2 = b ∨ label e.1 = b ∧ label e.2 = c) ∧
          (label e.1 = c ∧ label e.2 = a ∨ label e.1 = a ∧ label e.2 = c)) := by
        grind
      split_ifs <;> grind

variable {entries : List (V × Nat)}

/-- Entries that weigh what `c` has to every other community still do after others join. -/
theorem load_join_eq_between (apart : a ≠ b) {c : ι} (cA : c ≠ a) (cB : c ≠ b)
    (balance : ∀ x, x ≠ c → load label entries x = between edges label c x) {x : ι} (other : x ≠ c) :
    load (join label a b) entries x = between edges (join label a b) c x := by
  by_cases xA : x = a
  · rw [xA, load_join_source entries apart, between_join_source apart]
  by_cases xB : x = b
  · rw [xB, load_join_target entries apart, between_join_target apart cA cB, balance b (Ne.symm cB),
      balance a (Ne.symm cA)]
  · rw [load_join_other entries xA xB, between_join_other cA cB xA xB, balance x other]

/-- The community joined weighs with the entries of both. -/
theorem load_append_join_eq_between (apart : a ≠ b) {entries' : List (V × Nat)}
    (balance : ∀ x, x ≠ b → load label entries x = between edges label b x)
    (balance' : ∀ x, x ≠ a → load label entries' x = between edges label a x) {x : ι}
    (other : x ≠ b) :
    load (join label a b) (entries ++ entries') x = between edges (join label a b) b x := by
  by_cases xA : x = a
  · rw [xA, load_join_source _ apart, between_join_source apart]
  · rw [load_join_other _ xA other, load_append, balance x other, balance' x xA, between_comm,
      between_comm _ label a, between_comm _ _ b, between_join_target apart xA other]

theorem within_join_other {c : ι} (notA : c ≠ a) (notB : c ≠ b) :
    within edges (join label a b) c = within edges label c := by
  unfold within
  simp only [join_eq_iff label notA notB]

theorem within_join_source (apart : a ≠ b) : within edges (join label a b) a = 0 := by
  unfold within
  simp only [join_ne_source label apart, and_false, decide_false, List.countP_false,
    Function.const_apply]

theorem within_join_target (apart : a ≠ b) :
    within edges (join label a b) b =
      within edges label a + within edges label b + between edges label a b := by
  unfold within between
  simp only [join_eq_target]
  induction edges with
  | nil => rfl
  | cons e edges ih =>
      simp only [List.countP_cons, ih, decide_eq_true_eq]
      split_ifs <;> grind

theorem volume_join_other {c : ι} (notA : c ≠ a) (notB : c ≠ b) :
    volume edges (join label a b) c = volume edges label c := by
  unfold volume
  simp only [join_eq_iff label notA notB]

theorem volume_join_source (apart : a ≠ b) : volume edges (join label a b) a = 0 := by
  unfold volume
  simp only [join_ne_source label apart, decide_false, List.countP_false, Function.const_apply]

theorem volume_join_target (apart : a ≠ b) :
    volume edges (join label a b) b = volume edges label b + volume edges label a := by
  unfold volume
  simp only [join_eq_target]
  induction edges with
  | nil => rfl
  | cons e edges ih =>
      simp only [List.countP_cons, decide_eq_true_eq] at ih ⊢
      split_ifs <;> grind

/-- Joining `a` into `b` changes the modularity by `(2m·w(a,b) − d(a)·d(b)) / 2m²`. -/
theorem modularity_join {labels : Finset ι} (ha : a ∈ labels) (hb : b ∈ labels) (apart : a ≠ b) :
    modularity edges (join label a b) labels = modularity edges label labels +
      ((2 * edges.length * between edges label a b : ℚ) -
        volume edges label a * volume edges label b) / (2 * (edges.length : ℚ) ^ 2) := by
  have hb' : b ∈ labels.erase a := Finset.mem_erase.mpr ⟨Ne.symm apart, hb⟩
  have rest : ∀ c ∈ (labels.erase a).erase b, c ≠ a ∧ c ≠ b := by
    intro c hc
    exact ⟨(Finset.mem_erase.mp (Finset.mem_of_mem_erase hc)).1, (Finset.mem_erase.mp hc).1⟩
  unfold modularity
  rw [← Finset.add_sum_erase _ _ ha, ← Finset.add_sum_erase _ _ hb',
    ← Finset.add_sum_erase labels _ ha, ← Finset.add_sum_erase (labels.erase a) _ hb',
    Finset.sum_congr rfl fun c hc => by
      rw [within_join_other (rest c hc).1 (rest c hc).2, volume_join_other (rest c hc).1 (rest c hc).2],
    within_join_source apart, within_join_target apart, volume_join_source apart,
    volume_join_target apart]
  by_cases empty : (edges.length : ℚ) = 0
  · simp only [empty, mul_zero, div_zero, Nat.cast_zero]
    ring
  · push_cast
    field_simp
    ring

theorem modularity_lt_join {labels : Finset ι} (ha : a ∈ labels) (hb : b ∈ labels) (apart : a ≠ b)
    (gain : volume edges label a * volume edges label b <
      2 * edges.length * between edges label a b) :
    modularity edges label labels < modularity edges (join label a b) labels := by
  have some_edge : 0 < edges.length := by
    refine Nat.pos_of_ne_zero fun empty => ?_
    rw [empty, Nat.mul_zero, Nat.zero_mul] at gain
    exact Nat.not_lt_zero _ gain
  have positive : (0 : ℚ) < 2 * edges.length * between edges label a b -
      volume edges label a * volume edges label b := by
    rw [sub_pos]
    exact_mod_cast gain
  have scale : (0 : ℚ) < 2 * (edges.length : ℚ) ^ 2 := by positivity
  rw [modularity_join ha hb apart]
  exact lt_add_of_pos_right _ (div_pos positive scale)

end join

section sum

variable [DecidableEq V] {vertices : Finset V}

/-- A community's volume is the sum of its vertices' degrees. -/
theorem volume_eq_sum (inside : ∀ e ∈ edges, e.1 ∈ vertices ∧ e.2 ∈ vertices) (a : ι) :
    volume edges label a = ∑ v ∈ vertices with label v = a, volume edges id v := by
  induction edges with
  | nil => simp [volume]
  | cons e edges ih =>
      obtain ⟨⟨first, second⟩, inside⟩ := List.forall_mem_cons.mp inside
      have one : ∀ x ∈ vertices, (∑ v ∈ vertices with label v = a, if x = v then 1 else 0) =
          if label x = a then 1 else 0 := by
        intro x hx
        rw [Finset.sum_ite_eq]
        simp only [Finset.mem_filter, hx, true_and]
      have apart : ∀ (label : V → V) v, volume (e :: edges) label v =
          volume edges label v + ((if label e.1 = v then 1 else 0) +
            if label e.2 = v then 1 else 0) := by
        intro label v
        simp only [volume, List.countP_cons, decide_eq_true_eq]
        omega
      simp only [apart, id, Finset.sum_add_distrib, one _ first, one _ second, ← ih inside]
      simp only [volume, List.countP_cons, decide_eq_true_eq]
      omega

/-- Every edge counts in two degrees. -/
theorem sum_volume (inside : ∀ e ∈ edges, e.1 ∈ vertices ∧ e.2 ∈ vertices) :
    ∑ v ∈ vertices, volume edges id v = 2 * edges.length := by
  have all : volume edges (fun _ => ()) () = ∑ v ∈ vertices with () = (), volume edges id v :=
    volume_eq_sum inside ()
  rw [Finset.filter_true_of_mem fun _ _ => rfl] at all
  rw [← all, volume, List.countP_eq_length.mpr fun _ _ => by simp, Nat.two_mul]

end sum

end Foundation.Communities
