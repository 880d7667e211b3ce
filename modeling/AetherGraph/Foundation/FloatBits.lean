import Mathlib

/-! A packed float unpacks to a value that packs to the same bits, in every binary format. -/

namespace Foundation

open Float.Model UnpackedFloat

variable {spec : Format}

theorem sign_toBitVec_ofBitVec (v : BitVec 1) : (Sign.ofBitVec v).toBitVec = v := by
  revert v
  decide

theorem packComponents_unpack (b : BitVec spec.numBits) :
    packComponents spec (Sign.ofBitVec (unpackSign b))
      (unpackExponent b) (unpackMantissa b) = b := by
  have mantissa := spec.hm
  have exponent := spec.he
  rw [packComponents, sign_toBitVec_ofBitVec]
  refine BitVec.eq_of_getLsbD_eq fun i hi => ?_
  rw [BitVec.getLsbD_append, BitVec.getLsbD_append, unpackMantissa,
    unpackExponent, unpackSign]
  simp only [BitVec.getLsbD_cast, BitVec.getLsbD_extractLsb]
  by_cases low : i < spec.mantissaBitsWithoutImplicit
  · have inside : i < spec.mantissaBitsWithoutImplicit - 1 + 1 := by omega
    simp [low, inside]
  · have back : spec.mantissaBitsWithoutImplicit + (i - spec.mantissaBitsWithoutImplicit) = i := by
      omega
    by_cases mid : i - spec.mantissaBitsWithoutImplicit < spec.exponentBits
    · have inside : i - spec.mantissaBitsWithoutImplicit <
          spec.mantissaBitsWithoutImplicit + spec.exponentBits - 1 -
            spec.mantissaBitsWithoutImplicit + 1 := by omega
      simp [low, mid, inside, back]
    · have top : i = spec.mantissaBitsWithoutImplicit + spec.exponentBits := by omega
      simp [top]

/-- Components read off `b` pack to `b`. -/
theorem packComponents_eq {b : BitVec spec.numBits} {e : BitVec spec.exponentBits}
    {m : BitVec spec.mantissaBitsWithoutImplicit} (exponent : unpackExponent b = e)
    (mantissa : unpackMantissa b = m) :
    packComponents spec (Sign.ofBitVec (unpackSign b)) e m = b := by
  rw [← exponent, ← mantissa]
  exact packComponents_unpack b

theorem log2_implicit {k m : Nat} (h : m < 2 ^ k) : (2 ^ k + m).log2 = k := by
  have below : (2 ^ k + m).log2 < k + 1 := (Nat.log2_lt (by omega)).mpr (by omega)
  have above := (Nat.le_log2 (show 2 ^ k + m ≠ 0 by omega)).mpr (Nat.le_add_right (2 ^ k) m)
  omega

theorem pack_unpack (wide : 1 < spec.exponentBits) {b : BitVec spec.numBits}
    (valid : spec.Valid b) : UnpackedFloat.pack spec (UnpackedFloat.unpack spec b) = b := by
  have fraction := (unpackMantissa b).isLt
  have power := (unpackExponent b).isLt
  have four : 2 ^ 2 ≤ 2 ^ spec.exponentBits := Nat.pow_le_pow_right (by omega) wide
  rw [UnpackedFloat.unpack]
  by_cases top : unpackExponent b = -1#_
  · rw [if_pos top]
    by_cases infinite : unpackMantissa b = 0#_
    · rw [if_pos infinite]
      exact packComponents_eq top infinite
    · rw [if_neg infinite]
      exact (valid.eq_packedNaN top infinite).symm
  · rw [if_neg top]
    by_cases low : unpackExponent b = 0#_
    · rw [if_pos low]
      by_cases zero : unpackMantissa b = 0#_
      · rw [dif_pos zero]
        exact packComponents_eq low zero
      · rw [dif_neg zero]
        have positive : (unpackMantissa b).toNat ≠ 0 :=
          fun h => zero (BitVec.eq_of_toNat_eq h)
        have log := (Nat.log2_lt positive).mpr fraction
        have biased : (((unpackExponent b).toNat : Int) -
            (spec.exponentBias + spec.mantissaBitsWithoutImplicit) + 1 + spec.exponentBias +
              spec.mantissaBitsWithoutImplicit).toNat = 1 := by
          rw [low, BitVec.toNat_ofNat, Nat.zero_mod]
          omega
        rw [UnpackedFloat.pack]
        rw [biased, if_neg (by omega), if_neg (by unfold Format.mantissaBits; omega),
          BitVec.ofNat_toNat, BitVec.setWidth_eq]
        exact packComponents_eq low rfl
    · rw [if_neg low]
      have biased : (((unpackExponent b).toNat : Int) -
          (spec.exponentBias + spec.mantissaBitsWithoutImplicit) + spec.exponentBias +
            spec.mantissaBitsWithoutImplicit).toNat = (unpackExponent b).toNat := by
        omega
      have implicit : (1#1 ++ unpackMantissa b).toNat =
          2 ^ spec.mantissaBitsWithoutImplicit + (unpackMantissa b).toNat := by
        rw [BitVec.toNat_append, Nat.shiftLeft_eq, Nat.mul_comm, ← Nat.two_pow_add_eq_or_of_lt
          fraction]
        simp
      have small : (unpackExponent b).toNat ≠ 2 ^ spec.exponentBits - 1 := by
        intro full
        refine top (BitVec.eq_of_toNat_eq ?_)
        rw [full, BitVec.toNat_neg, BitVec.toNat_ofNat, Nat.mod_eq_of_lt (by omega : 1 < _),
          Nat.mod_eq_of_lt (by omega)]
      rw [UnpackedFloat.pack]
      rw [biased, implicit, log2_implicit fraction, if_neg (by omega),
        if_pos (by unfold Format.mantissaBits; omega)]
      refine packComponents_eq ?_ ?_
      · rw [BitVec.ofNat_toNat, BitVec.setWidth_eq]
      · refine BitVec.eq_of_toNat_eq ?_
        rw [BitVec.toNat_ofNat, Nat.add_mod_left, Nat.mod_eq_of_lt fraction]

/-- The bits of a float are the float. -/
theorem float32_ofBits_toBits (x : Float32) : Float32.ofBits x.toBits = x := by
  obtain ⟨⟨bits, valid⟩⟩ := x
  have same := pack_unpack (by decide) valid
  have model : Float32.Model.ofBits bits = ⟨bits, valid⟩ := by
    simp only [Float32.Model.ofBits, Float32.Model.pack, same]
  exact congrArg Float32.ofModel model

end Foundation
