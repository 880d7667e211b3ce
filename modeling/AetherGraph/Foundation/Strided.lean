import Mathlib.Data.List.FinRange
import Mathlib.Data.List.NodupEquivFin
import Mathlib.Data.Nat.ModEq

/-! A counted loop dealt out over lanes: each lane starts at its own index and steps by the
number of lanes. -/

namespace Foundation

/-- The indices `i`, `i + step`, … below `n`. -/
def strided (step n i : Nat) : List Nat :=
  if i < n ∧ 0 < step then i :: strided step n (i + step) else []
termination_by n - i

theorem mem_strided {step n i x : Nat} (pos : 0 < step) :
    x ∈ strided step n i ↔ i ≤ x ∧ x < n ∧ x % step = i % step := by
  fun_induction strided step n i with
  | case1 i more ih =>
      rw [List.mem_cons, ih, Nat.add_mod_right]
      constructor
      · rintro (rfl | ⟨ge, lt, same⟩)
        · exact ⟨Nat.le_refl _, more.1, rfl⟩
        · exact ⟨by omega, lt, same⟩
      · rintro ⟨ge, lt, same⟩
        have dvd : step ∣ x - i := (Nat.modEq_iff_dvd' ge).mp same.symm
        obtain eq | past := Nat.eq_zero_or_pos (x - i)
        · exact .inl (by omega)
        · have := Nat.le_of_dvd past dvd
          exact .inr ⟨by omega, lt, same⟩
  | case2 i done =>
      constructor
      · nofun
      · rintro ⟨ge, lt, -⟩
        exact absurd ⟨Nat.lt_of_le_of_lt ge lt, pos⟩ done

theorem strided_nodup (step n i : Nat) : (strided step n i).Nodup := by
  fun_induction strided step n i with
  | case1 i more ih =>
      refine List.nodup_cons.mpr ⟨fun again => ?_, ih⟩
      have := ((mem_strided more.2).mp again).1
      omega
  | case2 => exact List.nodup_nil

/-- Exactly one lane takes each index. -/
theorem existsUnique_lane {step n x : Nat} (lt : x < n) (pos : 0 < step) :
    ∃! lane : Fin step, x ∈ strided step n lane := by
  refine ⟨⟨x % step, Nat.mod_lt x pos⟩, ?_, fun lane taken => ?_⟩
  · exact (mem_strided pos).mpr ⟨Nat.mod_le x step, lt, (Nat.mod_mod x step).symm⟩
  · have same := ((mem_strided pos).mp taken).2.2
    rw [Nat.mod_eq_of_lt lane.isLt] at same
    exact Fin.ext same.symm

/-- Together the lanes take every index from `base` on once. -/
theorem lanes_strided {step : Nat} (pos : 0 < step) (n base : Nat) :
    ((List.finRange step).flatMap fun lane : Fin step => strided step n (base + lane)).Perm
      (List.range' base (n - base)) := by
  have apart : ∀ a b : Fin step, a ≠ b →
      List.Disjoint (strided step n (base + a)) (strided step n (base + b)) := by
    intro a b ne x ha hb
    have same := ((mem_strided pos).mp ha).2.2.symm.trans ((mem_strided pos).mp hb).2.2
    have lanes : (a : Nat) % step = b % step := Nat.ModEq.add_left_cancel' base same
    rw [Nat.mod_eq_of_lt a.isLt, Nat.mod_eq_of_lt b.isLt] at lanes
    exact ne (Fin.ext lanes)
  have once : ((List.finRange step).flatMap
      fun lane : Fin step => strided step n (base + lane)).Nodup := by
    refine List.nodup_flatMap.mpr ⟨fun lane _ => strided_nodup step n _, ?_⟩
    exact (List.nodup_finRange step).pairwise_of_forall_ne fun a _ b _ ne => apart a b ne
  refine (List.perm_ext_iff_of_nodup once List.nodup_range').mpr fun x => ?_
  simp only [List.mem_flatMap, List.mem_finRange, true_and, List.mem_range'_1, mem_strided pos]
  constructor
  · rintro ⟨lane, ge, lt, -⟩
    omega
  · rintro ⟨ge, lt⟩
    have le := Nat.mod_le (x - base) step
    have ge' : base + (x - base) % step ≤ x := by omega
    have same : x % step = (base + (x - base) % step) % step := by
      rw [Nat.add_mod_mod, Nat.add_sub_cancel' ge]
    exact ⟨⟨(x - base) % step, Nat.mod_lt _ pos⟩, ge', by omega, same⟩

theorem lanes_strided_map {α : Type} {step : Nat} (pos : 0 < step) (n base : Nat) (f : Nat → α) :
    ((List.finRange step).flatMap fun lane : Fin step => (strided step n (base + lane)).map f).Perm
      ((List.range' base (n - base)).map f) := by
  have taken := (lanes_strided pos n base).map f
  rwa [List.map_flatMap] at taken

/-- A lane no wider than the loop takes its own index, if that. -/
theorem strided_short {step n lane : Nat} (short : n ≤ step) :
    strided step n lane = if lane < n then [lane] else [] := by
  rw [strided]
  split
  · rename_i more
    rw [strided, if_neg (by omega), if_pos more.1]
  · rename_i done
    rw [if_neg fun lt => done ⟨lt, by omega⟩]

end Foundation
