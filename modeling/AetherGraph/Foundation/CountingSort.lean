import Mathlib.Data.List.GetD
import Mathlib.Data.List.Count
import Mathlib.Data.List.Range
import Mathlib.Data.List.Perm.Basic

/-! Counting sort of keyed values: a count for each key, the counts summed into the start of
each key's run, and each value written at its key's cursor. -/

namespace Foundation.CountingSort

variable {α : Type} [Inhabited α]

/-- How many pairs have each key below `n`, one place up. -/
def counts (n : Nat) (pairs : List (Nat × α)) : List Nat :=
  pairs.foldl (fun offsets p => if p.1 < n then offsets.modify (p.1 + 1) (· + 1) else offsets)
    (List.replicate (n + 1) 0)

def sums (n : Nat) (offsets : List Nat) : List Nat :=
  (List.range' 1 n).foldl (fun offsets i => offsets.modify i (· + offsets.getD (i - 1) 0)) offsets

/-- Write a value at its key's cursor. -/
def place (acc : List Nat × List α) (p : Nat × α) : List Nat × List α :=
  match acc.1[p.1]? with
  | some slot => (acc.1.set p.1 (slot + 1), acc.2.set slot p.2)
  | none => acc

/-- The starts of the runs, and the values run by run. -/
def group (n : Nat) (pairs : List (Nat × α)) : List Nat × List α :=
  let offsets := sums n (counts n pairs)
  (offsets, (pairs.foldl place (offsets.take n, List.replicate (offsets.getD n 0) default)).2)

/-- The values of a key in the order of the pairs. -/
def run (pairs : List (Nat × α)) (key : Nat) : List α :=
  (pairs.filter fun p => p.1 = key).map Prod.snd

/-- Where a key's run starts. -/
def start (pairs : List (Nat × α)) (key : Nat) : Nat := pairs.countP fun p => p.1 < key

omit [Inhabited α] in
theorem start_zero (pairs : List (Nat × α)) : start pairs 0 = 0 :=
  List.countP_eq_zero.mpr fun p _ => by simp

omit [Inhabited α] in
theorem start_succ (pairs : List (Nat × α)) (key : Nat) :
    start pairs (key + 1) = start pairs key + (run pairs key).length := by
  unfold start run
  rw [List.length_map, ← List.countP_eq_length_filter]
  induction pairs with
  | nil => rfl
  | cons p pairs ih =>
      simp only [List.countP_cons, ih, decide_eq_true_eq]
      split <;> split <;> split <;> omega

omit [Inhabited α] in
theorem start_mono (pairs : List (Nat × α)) {k l : Nat} (h : k ≤ l) :
    start pairs k ≤ start pairs l :=
  List.countP_mono_left fun p _ below => by
    simp only [decide_eq_true_eq] at *
    omega

omit [Inhabited α] in
theorem run_append (pairs : List (Nat × α)) (p : Nat × α) (key : Nat) :
    run (pairs ++ [p]) key = run pairs key ++ if p.1 = key then [p.2] else [] := by
  unfold run
  rw [List.filter_append, List.map_append, List.filter_cons]
  by_cases same : p.1 = key <;> simp [same]

theorem getD_modify (offsets : List Nat) (i j : Nat) (f : Nat → Nat) (inside : i < offsets.length) :
    (offsets.modify i f).getD j 0 = if i = j then f (offsets.getD j 0) else offsets.getD j 0 := by
  rw [List.getD_eq_getElem?_getD, List.getD_eq_getElem?_getD, List.getElem?_modify]
  split
  · rename_i same
    subst same
    rw [List.getElem?_eq_getElem inside]
    rfl
  · cases offsets[j]? <;> rfl

omit [Inhabited α] in
theorem counts_spec (n : Nat) (pairs : List (Nat × α)) :
    (counts n pairs).length = n + 1 ∧ (counts n pairs).getD 0 0 = 0 ∧
      ∀ i < n, (counts n pairs).getD (i + 1) 0 = (run pairs i).length := by
  induction pairs using List.reverseRecOn with
  | nil =>
      refine ⟨List.length_replicate, rfl, fun i hi => ?_⟩
      rw [counts, List.foldl_nil, List.getD_replicate _ (Nat.succ_lt_succ hi)]
      rfl
  | append_singleton pairs p ih =>
      obtain ⟨length, first, each⟩ := ih
      unfold counts at *
      rw [List.foldl_append, List.foldl_cons, List.foldl_nil]
      split
      · rename_i known
        refine ⟨by rw [List.length_modify, length], ?_, fun i hi => ?_⟩
        · rw [getD_modify _ _ _ _ (by omega), if_neg (by omega), first]
        · rw [getD_modify _ _ _ _ (by omega), each i hi, run_append, List.length_append]
          by_cases same : p.1 = i
          · rw [if_pos (by omega), if_pos same]
            rfl
          · rw [if_neg (by omega), if_neg same]
            rfl
      · refine ⟨length, first, fun i hi => ?_⟩
        rw [each i hi, run_append, if_neg (by omega), List.append_nil]

theorem sums_spec {n : Nat} {offsets : List Nat} (length : offsets.length = n + 1)
    {total : Nat → Nat} (first : offsets.getD 0 0 = total 0)
    (each : ∀ i < n, total (i + 1) = total i + offsets.getD (i + 1) 0) :
    (sums n offsets).length = n + 1 ∧ ∀ i ≤ n, (sums n offsets).getD i 0 = total i := by
  have upTo : ∀ k ≤ n, ∀ sums, sums = (List.range' 1 k).foldl
      (fun offsets i => offsets.modify i (· + offsets.getD (i - 1) 0)) offsets →
      sums.length = n + 1 ∧ (∀ i ≤ k, sums.getD i 0 = total i) ∧
        ∀ i, k < i → sums.getD i 0 = offsets.getD i 0 := by
    intro k
    induction k with
    | zero =>
        rintro - _ rfl
        refine ⟨length, fun i hi => ?_, fun i _ => rfl⟩
        rw [Nat.le_zero.mp hi]
        exact first
    | succ k ih =>
        rintro hk _ rfl
        obtain ⟨len, below, above⟩ := ih (by omega) _ rfl
        rw [List.range'_concat, List.foldl_append, List.foldl_cons, List.foldl_nil, Nat.one_mul,
          Nat.add_comm 1 k, Nat.add_sub_cancel]
        refine ⟨by rw [List.length_modify, len], fun i hi => ?_, fun i hi => ?_⟩
        · rw [getD_modify _ _ _ _ (by omega)]
          split
          · rename_i same
            subst same
            rw [above _ (Nat.lt_succ_self k), below k (Nat.le_refl k), each k (by omega),
              Nat.add_comm]
          · exact below i (by omega)
        · rw [getD_modify _ _ _ _ (by omega), if_neg (by omega)]
          exact above i (by omega)
  obtain ⟨len, here, -⟩ := upTo n (Nat.le_refl n) _ rfl
  exact ⟨len, here⟩

omit [Inhabited α] in
/-- The runs follow each other. -/
theorem run_prefix {done all : List (Nat × α)} (h : done <+: all) (key : Nat) :
    start all key + (run done key).length ≤ start all (key + 1) := by
  obtain ⟨rest, rfl⟩ := h
  rw [start_succ, run, run, List.filter_append, List.map_append, List.length_append]
  omega

omit [Inhabited α] in
theorem place_spec {n : Nat} {all : List (Nat × α)} {cursor : List Nat} {values : List α}
    (length : cursor.length = n) (starts : ∀ d < n, cursor.getD d 0 = start all d)
    (room : values.length = start all n) {done : List (Nat × α)} (h : done <+: all) :
    (done.foldl place (cursor, values)).1.length = n ∧
      (done.foldl place (cursor, values)).2.length = start all n ∧
      ∀ d < n,
        (done.foldl place (cursor, values)).1.getD d 0 = start all d + (run done d).length ∧
        ∀ i < (run done d).length,
          (done.foldl place (cursor, values)).2[start all d + i]? = (run done d)[i]? := by
  induction done using List.reverseRecOn with
  | nil => exact ⟨length, room, fun d hd => ⟨starts d hd, fun i hi => absurd hi (Nat.not_lt_zero i)⟩⟩
  | append_singleton done p ih =>
      obtain ⟨len, size, each⟩ := ih ((List.prefix_append done [p]).trans h)
      rw [List.foldl_append, List.foldl_cons, List.foldl_nil]
      generalize done.foldl place (cursor, values) = acc at len size each
      unfold place
      cases at_ : acc.1[p.1]? with
      | none =>
          have unknown : n ≤ p.1 := len ▸ List.getElem?_eq_none_iff.mp at_
          refine ⟨len, size, fun d hd => ?_⟩
          rw [run_append, if_neg (by omega), List.append_nil]
          exact each d hd
      | some slot =>
          obtain ⟨known, here⟩ := List.getElem?_eq_some_iff.mp at_
          have slotEq : slot = start all p.1 + (run done p.1).length := by
            rw [← (each p.1 (len ▸ known)).1, List.getD_eq_getElem _ _ known, here]
          have after : slot < start all (p.1 + 1) := by
            have := run_prefix h p.1
            rw [run_append, if_pos rfl, List.length_append, List.length_singleton] at this
            omega
          refine ⟨by rw [List.length_set, len], by rw [List.length_set, size], fun d hd => ?_⟩
          obtain ⟨cursor, values⟩ := each d hd
          by_cases same : p.1 = d
          · subst same
            rw [run_append, if_pos rfl, List.length_append, List.length_singleton]
            refine ⟨?_, fun i hi => ?_⟩
            · rw [List.getD_eq_getElem?_getD, List.getElem?_set_self known, Option.getD_some, slotEq,
                Nat.add_assoc]
            · rcases Nat.lt_or_ge i (run done p.1).length with old | new
              · rw [List.getElem?_set_ne (by omega), values i old, List.getElem?_append_left old]
              · obtain rfl : i = (run done p.1).length := by omega
                have inside : slot < acc.2.length := by
                  have := start_mono all (show p.1 + 1 ≤ n by omega)
                  omega
                rw [← slotEq, List.getElem?_set_self inside, List.getElem?_append_right le_rfl,
                  Nat.sub_self]
                rfl
          · rw [run_append, if_neg same, List.append_nil]
            refine ⟨?_, fun i hi => ?_⟩
            · rw [List.getD_eq_getElem?_getD, List.getElem?_set_ne same,
                ← List.getD_eq_getElem?_getD, cursor]
            · have apart : slot ≠ start all d + i := by
                have := run_prefix ((List.prefix_append done [p]).trans h) d
                rcases Nat.lt_or_gt_of_ne same with before | behind
                · have := start_mono all (show p.1 + 1 ≤ d by omega)
                  omega
                · have := start_mono all (show d + 1 ≤ p.1 by omega)
                  omega
              rw [List.getElem?_set_ne apart]
              exact values i hi

/-- Each key's run holds its values in the order of the pairs. -/
theorem group_spec (n : Nat) (pairs : List (Nat × α)) :
    (group n pairs).1.length = n + 1 ∧ (∀ d ≤ n, (group n pairs).1.getD d 0 = start pairs d) ∧
      ∀ d < n, ((group n pairs).2.drop (start pairs d)).take (start pairs (d + 1) - start pairs d) =
        run pairs d := by
  obtain ⟨length, first, each⟩ := counts_spec n pairs
  have sums := sums_spec length (first.trans (start_zero pairs).symm) fun i hi => by
    rw [each i hi, start_succ]
  refine ⟨sums.1, sums.2, fun d hd => ?_⟩
  have starts : ∀ d < n, (((CountingSort.sums n (counts n pairs)).take n).getD d 0) = start pairs d := by
    intro d hd
    rw [List.getD_eq_getElem?_getD, List.getElem?_take_of_lt hd, ← List.getD_eq_getElem?_getD]
    exact sums.2 d (Nat.le_of_lt hd)
  have room : (List.replicate (start pairs n) (default : α)).length = start pairs n :=
    List.length_replicate
  obtain ⟨-, size, placed⟩ := place_spec (by rw [List.length_take, sums.1]; omega) starts room
    (List.prefix_refl pairs)
  obtain ⟨-, values⟩ := placed d hd
  have total := start_succ pairs d
  have within := start_mono pairs (show d + 1 ≤ n by omega)
  refine List.ext_getElem? fun i => ?_
  unfold group
  dsimp only
  rw [sums.2 n le_rfl]
  rcases Nat.lt_or_ge i (run pairs d).length with inside | outside
  · rw [List.getElem?_take_of_lt (by omega), List.getElem?_drop]
    exact values i inside
  · rw [List.getElem?_eq_none_iff.mpr outside]
    refine List.getElem?_eq_none_iff.mpr ?_
    rw [List.length_take]
    omega

/-- Claim the slot below a key's cursor, one place up, and write a value there. -/
def claim (acc : List Nat × List α) (p : Nat × α) : List Nat × List α :=
  let slot := acc.1.getD (p.1 + 1) 0 - 1
  (acc.1.set (p.1 + 1) slot, acc.2.set slot p.2)

omit [Inhabited α] in
theorem run_cons (p : Nat × α) (pairs : List (Nat × α)) (key : Nat) :
    run (p :: pairs) key = (if p.1 = key then [p.2] else []) ++ run pairs key := by
  unfold run
  rw [List.filter_cons]
  by_cases same : p.1 = key <;> simp [same]

omit [Inhabited α] in
theorem start_all {n : Nat} {all : List (Nat × α)} (keys : ∀ p ∈ all, p.1 < n) :
    start all n = all.length :=
  List.countP_eq_length.mpr fun p hp => decide_eq_true (keys p hp)

omit [Inhabited α] in
/-- Claims made from the last pair back to `rest` leave each key's cursor at the end of what
`rest` still has to claim, and the values behind it in place. -/
theorem claim_spec {n : Nat} {all : List (Nat × α)} {ends : List Nat} {values : List α}
    (keys : ∀ p ∈ all, p.1 < n) (length : ends.length = n + 1)
    (stops : ∀ d < n, ends.getD (d + 1) 0 = start all (d + 1))
    (room : values.length = all.length) (done : List (Nat × α)) (rest : List (Nat × α))
    (h : all = rest ++ done) :
    (done.reverse.foldl claim (ends, values)).1.length = n + 1 ∧
      (done.reverse.foldl claim (ends, values)).2.length = all.length ∧
      ∀ d < n,
        (done.reverse.foldl claim (ends, values)).1.getD (d + 1) 0 =
          start all d + (run rest d).length ∧
        ∀ i < (run done d).length,
          (done.reverse.foldl claim (ends, values)).2[start all d + (run rest d).length + i]? =
            (run done d)[i]? := by
  induction done generalizing rest with
  | nil =>
      rw [List.append_nil] at h
      subst h
      refine ⟨length, room, fun d hd => ⟨?_, fun i hi => absurd hi (Nat.not_lt_zero i)⟩⟩
      rw [List.reverse_nil, List.foldl_nil, stops d hd, start_succ]
  | cons p done ih =>
      obtain ⟨len, size, each⟩ := ih (rest ++ [p]) (by rw [h, List.append_cons])
      rw [List.reverse_cons, List.foldl_append, List.foldl_cons, List.foldl_nil]
      generalize done.reverse.foldl claim (ends, values) = acc at len size each
      have known : p.1 < n := keys p (h ▸ List.mem_append_right _ List.mem_cons_self)
      have room : ∀ d, start all d + (run rest d).length + (run (p :: done) d).length =
          start all (d + 1) := by
        intro d
        have split : run all d = run rest d ++ run (p :: done) d := by
          rw [h, run, run, run, List.filter_append, List.map_append]
        rw [start_succ, split, List.length_append, Nat.add_assoc]
      have slotEq : acc.1.getD (p.1 + 1) 0 - 1 = start all p.1 + (run rest p.1).length := by
        rw [(each p.1 known).1, run_append, if_pos rfl, List.length_append, List.length_singleton]
        omega
      unfold claim
      simp only [slotEq]
      refine ⟨by rw [List.length_set, len], by rw [List.length_set, size], fun d hd => ?_⟩
      obtain ⟨cursor, values⟩ := each d hd
      by_cases same : p.1 = d
      · subst same
        have run_ : run (p :: done) p.1 = p.2 :: run done p.1 := by
          rw [run_cons, if_pos rfl, List.singleton_append]
        refine ⟨?_, fun i hi => ?_⟩
        · rw [List.getD_eq_getElem?_getD, List.getElem?_set_self (by omega), Option.getD_some]
        · rw [run_] at hi ⊢
          cases i with
          | zero =>
              have inside := room p.1
              have within := start_mono all (show p.1 + 1 ≤ n by omega)
              rw [run_, List.length_cons] at inside
              rw [start_all keys] at within
              rw [Nat.add_zero, List.getElem?_set_self (by omega)]
              rfl
          | succ i =>
              rw [List.getElem?_set_ne (by omega), List.getElem?_cons_succ,
                ← values i (Nat.lt_of_succ_lt_succ hi), run_append, if_pos rfl,
                List.length_append, List.length_singleton]
              congr 1
              omega
      · rw [run_append, if_neg same, List.append_nil] at cursor values
        rw [run_cons, if_neg same, List.nil_append]
        refine ⟨?_, fun i hi => ?_⟩
        · rw [List.getD_eq_getElem?_getD, List.getElem?_set_ne (by omega),
            ← List.getD_eq_getElem?_getD, cursor]
        · have apart : start all p.1 + (run rest p.1).length ≠
              start all d + (run rest d).length + i := by
            have mine := room p.1
            have other := room d
            rw [run_cons, if_pos rfl, List.length_append, List.length_singleton] at mine
            rw [run_cons, if_neg same, List.nil_append] at other
            rcases Nat.lt_or_gt_of_ne same with before | behind
            · have := start_mono all (show p.1 + 1 ≤ d by omega)
              omega
            · have := start_mono all (show d + 1 ≤ p.1 by omega)
              omega
          rw [List.getElem?_set_ne apart]
          exact values i hi

omit [Inhabited α] in
/-- The cursors move with the keys alone. -/
theorem claim_fst {β : Type} {pairs : List (Nat × α)} {pairs' : List (Nat × β)}
    (keys : pairs.map Prod.fst = pairs'.map Prod.fst) (ends : List Nat) (values : List α)
    (values' : List β) :
    (pairs.foldl claim (ends, values)).1 = (pairs'.foldl claim (ends, values')).1 := by
  induction pairs generalizing pairs' ends values values' with
  | nil =>
      obtain rfl := List.map_eq_nil_iff.mp keys.symm
      rfl
  | cons p pairs ih =>
      match pairs', keys with
      | p' :: pairs', keys =>
          obtain ⟨same, rest⟩ := List.cons.inj keys
          rw [List.foldl_cons, List.foldl_cons, claim, claim, ← same]
          exact ih rest _ _ _

omit [Inhabited α] in
/-- The next claim finds a slot of the values. -/
theorem claim_inside {n : Nat} {all : List (Nat × α)} {ends : List Nat} {values : List α}
    (keys : ∀ p ∈ all, p.1 < n) (length : ends.length = n + 1)
    (stops : ∀ d < n, ends.getD (d + 1) 0 = start all (d + 1))
    (room : values.length = all.length) {p : Nat × α} {done rest : List (Nat × α)}
    (h : all = rest ++ p :: done) :
    (done.reverse.foldl claim (ends, values)).1.length = n + 1 ∧
      (done.reverse.foldl claim (ends, values)).2.length = all.length ∧
      0 < (done.reverse.foldl claim (ends, values)).1.getD (p.1 + 1) 0 ∧
      (done.reverse.foldl claim (ends, values)).1.getD (p.1 + 1) 0 ≤ all.length := by
  obtain ⟨len, size, each⟩ := claim_spec keys length stops room done (rest ++ [p])
    (by rw [h, List.append_cons])
  have known : p.1 < n := keys p (h ▸ List.mem_append_right _ List.mem_cons_self)
  have front := run_prefix (show rest ++ [p] <+: all from ⟨done, by rw [h, ← List.append_cons]⟩) p.1
  have within := start_mono all (show p.1 + 1 ≤ n by omega)
  rw [start_all keys] at within
  refine ⟨len, size, ?_, ?_⟩
  · rw [(each p.1 known).1, run_append, if_pos rfl, List.length_append, List.length_singleton]
    omega
  · rw [(each p.1 known).1]
    omega

omit [Inhabited α] in
/-- The counts take the keys in any order. -/
theorem counts_of_keys {n : Nat} {pairs : List (Nat × α)} {keys : List Nat}
    (perm : keys.Perm (pairs.map Prod.fst)) (below : ∀ p ∈ pairs, p.1 < n) :
    keys.foldl (fun offsets key => offsets.modify (key + 1) (· + 1)) (List.replicate (n + 1) 0) =
      counts n pairs := by
  have comm : RightCommutative fun (offsets : List Nat) key => offsets.modify (key + 1) (· + 1) :=
    ⟨fun offsets i j => by
      refine List.ext_getElem? fun k => ?_
      simp only [List.getElem?_modify]
      cases offsets[k]? with
      | none => rfl
      | some count => split <;> split <;> rfl⟩
  rw [perm.foldl_eq, List.foldl_map, counts]
  refine List.foldl_ext _ _ _ fun offsets p hp => ?_
  rw [if_pos (below p hp)]

omit [Inhabited α] in
/-- All pairs claimed from the last back: each cursor stands at its run's start, one place to the
right, and the values stand run by run. -/
theorem claimed_spec {n : Nat} {pairs : List (Nat × α)} {values : List α}
    (keys : ∀ p ∈ pairs, p.1 < n) (room : values.length = pairs.length) :
    let acc := pairs.reverse.foldl claim (sums n (counts n pairs), values)
    acc.1.length = n + 1 ∧ acc.2.length = pairs.length ∧
      (∀ d < n, acc.1.getD (d + 1) 0 = start pairs d) ∧
      ∀ d < n, (acc.2.drop (start pairs d)).take (start pairs (d + 1) - start pairs d) =
        run pairs d := by
  obtain ⟨length, first, each⟩ := counts_spec n pairs
  have sums := sums_spec length (first.trans (start_zero pairs).symm) fun i hi => by
    rw [each i hi, start_succ]
  obtain ⟨len, size, claimed⟩ := claim_spec keys sums.1 (fun d hd => sums.2 (d + 1) hd) room pairs
    [] rfl
  refine ⟨len, size, fun d hd => (claimed d hd).1, fun d hd => ?_⟩
  obtain ⟨-, values⟩ := claimed d hd
  have total := start_succ pairs d
  have within := start_mono pairs (show d + 1 ≤ n by omega)
  rw [start_all keys] at within
  refine List.ext_getElem? fun i => ?_
  rcases Nat.lt_or_ge i (run pairs d).length with inside | outside
  · rw [List.getElem?_take_of_lt (by omega), List.getElem?_drop]
    exact values i inside
  · rw [List.getElem?_eq_none_iff.mpr outside]
    refine List.getElem?_eq_none_iff.mpr ?_
    rw [List.length_take, List.length_drop]
    omega

/-- The starts of the runs and the values run by run, claimed from the last pair back: each
key's cursor begins at its run's end and stops at its start. -/
def groupBack (n : Nat) (pairs : List (Nat × α)) : List Nat × List α :=
  let claimed := pairs.reverse.foldl claim (sums n (counts n pairs), List.replicate pairs.length default)
  (claimed.1.drop 1 ++ [pairs.length], claimed.2)

theorem groupBack_spec {n : Nat} {pairs : List (Nat × α)} (keys : ∀ p ∈ pairs, p.1 < n) :
    (groupBack n pairs).1.length = n + 1 ∧ (groupBack n pairs).2.length = pairs.length ∧
      (∀ d ≤ n, (groupBack n pairs).1.getD d 0 = start pairs d) ∧
      ∀ d < n, ((groupBack n pairs).2.drop (start pairs d)).take (start pairs (d + 1) - start pairs d) =
        run pairs d := by
  obtain ⟨len, size, cursors, values⟩ := claimed_spec keys
    (List.length_replicate (n := pairs.length) (a := (default : α)))
  unfold groupBack
  dsimp only at len size cursors values ⊢
  generalize pairs.reverse.foldl claim _ = acc at len size cursors values ⊢
  refine ⟨?_, size, fun d hd => ?_, values⟩
  · rw [List.length_append, List.length_drop, len]
    rfl
  · rcases Nat.lt_or_eq_of_le hd with inside | rfl
    · rw [List.getD_append _ _ _ _ (by rw [List.length_drop]; omega), List.getD_eq_getElem?_getD,
        List.getElem?_drop, Nat.add_comm 1 d, ← List.getD_eq_getElem?_getD, cursors d inside]
    · rw [List.getD_append_right _ _ _ _ (by rw [List.length_drop]; omega), List.length_drop, len,
        start_all keys, Nat.add_sub_cancel, Nat.sub_self]
      rfl

section Sorted

omit [Inhabited α] in
/-- A sorted list splits where a test that only falls along it falls. -/
theorem filter_append_filter {pairs : List (Nat × α)} (sorted : pairs.Pairwise (·.1 ≤ ·.1))
    (key : Nat) :
    (pairs.filter fun p => p.1 < key) ++ (pairs.filter fun p => key ≤ p.1) = pairs := by
  induction pairs with
  | nil => rfl
  | cons p pairs ih =>
      obtain ⟨first, rest⟩ := List.pairwise_cons.mp sorted
      by_cases below : p.1 < key
      · have other : ¬ key ≤ p.1 := Nat.not_le.mpr below
        rw [List.filter_cons, List.filter_cons, decide_eq_true below, decide_eq_false other,
          if_pos rfl, if_neg Bool.false_ne_true, List.cons_append, ih rest]
      · have none : (pairs.filter fun q => q.1 < key) = [] := by
          refine List.filter_eq_nil_iff.mpr fun q hq => ?_
          have := first q hq
          rw [decide_eq_true_eq]
          omega
        have all : (pairs.filter fun q => key ≤ q.1) = pairs :=
          List.filter_eq_self.mpr fun q hq => by
            have := first q hq
            rw [decide_eq_true_eq]
            omega
        have other : key ≤ p.1 := Nat.le_of_not_lt below
        rw [List.filter_cons, List.filter_cons, decide_eq_false below, decide_eq_true other,
          if_neg Bool.false_ne_true, if_pos rfl, none, all, List.nil_append]

omit [Inhabited α] in
/-- Pairs sorted by key already stand run by run. -/
theorem run_of_sorted {pairs : List (Nat × α)} (sorted : pairs.Pairwise (·.1 ≤ ·.1)) (d : Nat) :
    ((pairs.map Prod.snd).drop (start pairs d)).take (start pairs (d + 1) - start pairs d) =
      run pairs d := by
  have upper := filter_append_filter sorted d
  have lower := filter_append_filter (sorted.filter fun p => d ≤ p.1) (d + 1)
  rw [List.filter_filter, List.filter_filter] at lower
  have mid : (pairs.filter fun p => decide (p.1 < d + 1) && decide (d ≤ p.1)) =
      pairs.filter fun p => p.1 = d := by
    refine List.filter_congr fun p _ => ?_
    rw [← Bool.decide_and]
    exact decide_eq_decide.mpr ⟨fun h => by omega, fun h => by omega⟩
  rw [mid] at lower
  have count : start pairs d = (pairs.filter fun p => p.1 < d).length :=
    List.countP_eq_length_filter
  have middle : ∀ {lo mid hi : List (Nat × α)}, pairs = lo ++ (mid ++ hi) →
      (pairs.drop lo.length).take mid.length = mid := by
    intro lo mid hi whole
    rw [whole, List.drop_left, List.take_left]
  rw [start_succ, Nat.add_sub_cancel_left, ← List.map_drop, ← List.map_take, run,
    List.length_map, count, middle (lower ▸ upper.symm)]

omit [Inhabited α] in
/-- What holds in every run holds up to the end of the last. -/
theorem rows_forall {n : Nat} {pairs : List (Nat × α)} {P : α → Prop} {xs : List α}
    (each : ∀ d < n, ∀ v ∈ (xs.drop (start pairs d)).take (start pairs (d + 1) - start pairs d),
      P v) : ∀ v ∈ xs.take (start pairs n), P v := by
  induction n with
  | zero =>
      intro v hv
      rw [start_zero, List.take_zero] at hv
      nomatch hv
  | succ n ih =>
      intro v hv
      have split : start pairs (n + 1) = start pairs n + (start pairs (n + 1) - start pairs n) := by
        have := start_mono pairs (Nat.le_add_right n 1)
        omega
      rw [split, List.take_add, List.mem_append] at hv
      rcases hv with before | here
      · exact ih (fun d hd => each d (Nat.lt_succ_of_lt hd)) v before
      · exact each n (Nat.lt_succ_self n) v here

omit [Inhabited α] in
/-- Two arrays with the same runs are the same. -/
theorem rows_ext {n : Nat} {pairs : List (Nat × α)} (keys : ∀ p ∈ pairs, p.1 < n)
    {xs ys : List α} (hx : xs.length = pairs.length) (hy : ys.length = pairs.length)
    (same : ∀ d < n, (xs.drop (start pairs d)).take (start pairs (d + 1) - start pairs d) =
      (ys.drop (start pairs d)).take (start pairs (d + 1) - start pairs d)) : xs = ys := by
  have upTo : ∀ d ≤ n, xs.take (start pairs d) = ys.take (start pairs d) := by
    intro d
    induction d with
    | zero =>
        intro _
        rw [start_zero, List.take_zero, List.take_zero]
    | succ d ih =>
        intro hd
        have split : start pairs (d + 1) =
            start pairs d + (start pairs (d + 1) - start pairs d) := by
          have := start_mono pairs (Nat.le_add_right d 1)
          omega
        rw [split, List.take_add, List.take_add, ih (Nat.le_of_succ_le hd),
          same d (Nat.lt_of_succ_le hd)]
  have whole := upTo n (Nat.le_refl n)
  rwa [start_all keys, ← hx, List.take_length, hx, ← hy, List.take_length] at whole

end Sorted

end Foundation.CountingSort
