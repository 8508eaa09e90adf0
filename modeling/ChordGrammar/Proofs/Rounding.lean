import ChordGrammar.Proofs.Order

/-! Rounding to binary64. A number is kept with the one exponent that fits its digits, and
is read back from its bits as it was packed. Rounding a number that can be kept leaves it as
it is, however many zeros stand behind its mantissa. -/
namespace ChordGrammar.Binary64

open Float.Model (UnpackedFloat Format totalExponent)
open Float.Model.UnpackedFloat (Sign ExtendedMantissa roundWithAccuracy shiftToTargetExponent
  shiftToExponent decreaseExponent pack unpack unpackMantissa_packComponents
  unpackExponent_packComponents unpackSign_packComponents)

/-- The mantissa and the exponent in which a number is kept. -/
structure Canonical (m : Nat) (e : Int) : Prop where
  pos : 0 < m
  target : Format.binary64.targetExponent (totalExponent m e) = e
  bound : e ≤ 971

theorem targetExponent_eq (m : Nat) (e : Int) :
    Format.binary64.targetExponent (totalExponent m e) = max (m.log2 + e - 52) (-1074) := by
  simp only [Format.targetExponent, totalExponent, Format.mantissaBits, Format.minExponent]
  omega

theorem log2_mul_two_pow {m : Nat} (pos : 0 < m) (s : Nat) : (m * 2 ^ s).log2 = m.log2 + s := by
  apply (Nat.log2_eq_iff (by positivity)).mpr
  constructor
  · rw [pow_add]
    exact Nat.mul_le_mul_right _ (Nat.log2_self_le pos.ne')
  · rw [add_right_comm, pow_add]
    exact Nat.mul_lt_mul_of_pos_right Nat.lt_log2_self (by positivity)

theorem canonical_iff {m : Nat} {e : Int} (pos : 0 < m) :
    Canonical m e ↔ (m.log2 = 52 ∧ -1074 ≤ e ∨ m.log2 ≤ 52 ∧ e = -1074) ∧ e ≤ 971 := by
  constructor
  · rintro ⟨-, target, bound⟩
    rw [targetExponent_eq] at target
    omega
  · rintro ⟨shape, bound⟩
    refine ⟨pos, ?_, bound⟩
    rw [targetExponent_eq]
    omega

theorem Canonical.digits {m : Nat} {e : Int} (canonical : Canonical m e) : m < 2 ^ 53 := by
  have shape := (canonical_iff canonical.pos).mp canonical
  exact (Nat.log2_lt canonical.pos.ne').mp (by omega)

theorem exists_canonical {k : Nat} {f : Int} (pos : 0 < k) (digits : k < 2 ^ 53)
    (low : -1074 ≤ f) (high : f ≤ 971) :
    ∃ m e, Canonical m e ∧ (m : Rat) * 2 ^ e = k * 2 ^ f := by
  have log : k.log2 ≤ 52 := Nat.lt_succ_iff.mp ((Nat.log2_lt pos.ne').mpr digits)
  obtain ⟨s, room⟩ : ∃ s : Nat, (s : Int) = min (52 - k.log2 : Int) (f + 1074) :=
    ⟨(min (52 - k.log2 : Int) (f + 1074)).toNat, by omega⟩
  refine ⟨k * 2 ^ s, f - s, (canonical_iff (by positivity)).mpr ?_, ?_⟩
  · rw [log2_mul_two_pow pos]
    omega
  · rw [zpow_sub₀ two_ne_zero, zpow_natCast]
    push_cast
    field_simp

/-! ### Packing -/

theorem toNat_implicit_bit (v : BitVec 52) : (1#1 ++ v).toNat = 2 ^ 52 + v.toNat := by
  rw [BitVec.toNat_append, ← Nat.shiftLeft_add_eq_or_of_lt v.isLt]
  rfl

theorem ofNat_eq_iff {b n : Nat} (inside : b < 2 ^ n) (v : BitVec n) :
    BitVec.ofNat n b = v ↔ b = v.toNat := by
  rw [← BitVec.toNat_inj, BitVec.toNat_ofNat, Nat.mod_eq_of_lt inside]

/-- What is in the right form survives the bits. -/
theorem unpack_pack {m : Nat} {e : Int} (canonical : Canonical m e) (sign : Sign) :
    (Float.Model.pack (.finite sign m e canonical.pos)).unpack = .finite sign m e canonical.pos := by
  obtain ⟨shape, bound⟩ := (canonical_iff canonical.pos).mp canonical
  have pos := canonical.pos
  show unpack Format.binary64 (pack Format.binary64 _) = _
  have bias : e + (Format.exponentBias Format.binary64 : Int) + (52 : Nat) = e + 1075 := by
    simp only [Format.exponentBias]
    omega
  obtain ⟨b, field⟩ := Int.eq_ofNat_of_zero_le (show 0 ≤ e + 1075 by omega)
  have inside : ¬ 2 ^ 11 ≤ b + 1 := by omega
  simp only [pack, bias, field, Int.toNat_natCast, inside, if_false]
  by_cases top : m.log2 = 52
  · have finite : ¬ BitVec.ofNat 11 b = -1#11 := by
      rw [ofNat_eq_iff (by omega)]
      exact fun all => inside (all ▸ le_refl _)
    have normal : ¬ BitVec.ofNat 11 b = 0#11 := by
      rw [ofNat_eq_iff (by omega), BitVec.toNat_zero]
      omega
    have exponent : (BitVec.ofNat 11 b).toNat = b := Nat.mod_eq_of_lt (by omega)
    have mantissa : 2 ^ 52 + m % 2 ^ 52 = m := by
      obtain ⟨least, most⟩ := (Nat.log2_eq_iff pos.ne').mp top
      omega
    rw [if_pos (by rw [top]; rfl)]
    simp only [unpack, unpackMantissa_packComponents, unpackExponent_packComponents,
      unpackSign_packComponents, Sign.ofBitVec_toBitVec, finite, normal, if_false, exponent,
      toNat_implicit_bit, BitVec.toNat_ofNat, mantissa]
    congr 1
    simp only [Format.exponentBias]
    omega
  · have small : m < 2 ^ 52 := (Nat.log2_lt pos.ne').mp (by omega)
    have nonzero : ¬ BitVec.ofNat 52 m = 0#52 := by
      rw [ofNat_eq_iff small, BitVec.toNat_zero]
      omega
    have subnormal : ¬ 0#11 = -1#11 := by decide
    have mantissa : (BitVec.ofNat 52 m).toNat = m := Nat.mod_eq_of_lt small
    rw [if_neg (by simp only [Format.mantissaBits]; omega)]
    simp only [unpack, unpackMantissa_packComponents, unpackExponent_packComponents,
      unpackSign_packComponents, Sign.ofBitVec_toBitVec, nonzero, subnormal, if_false, if_true,
      dite_false, mantissa]
    congr 1
    simp only [Format.exponentBias, BitVec.toNat_zero]
    omega

theorem canonical_of_unpack {b : BitVec Format.binary64.numBits} {sign : Sign} {m : Nat} {e : Int}
    {pos : 0 < m} (unpacked : unpack Format.binary64 b = .finite sign m e pos) : Canonical m e := by
  rw [canonical_iff pos]
  revert unpacked
  fun_cases unpack with
  | case1 | case2 | case3 => nofun
  | case4 mantissa exponent scale _ _ _ subnormal =>
    intro unpacked
    obtain ⟨-, rfl, rfl⟩ := UnpackedFloat.finite.inj unpacked
    have log : mantissa.toNat.log2 < 52 := (Nat.log2_lt pos.ne').mpr mantissa.isLt
    simp only [scale, subnormal, Format.exponentBias, BitVec.toNat_zero]
    omega
  | case5 mantissa exponent scale _ _ finite normal =>
    intro unpacked
    obtain ⟨-, rfl, rfl⟩ := UnpackedFloat.finite.inj unpacked
    have below : mantissa.toNat < 2 ^ 52 := mantissa.isLt
    have field : exponent.toNat < 2 ^ 11 := exponent.isLt
    have top : (2 ^ 52 + mantissa.toNat).log2 = 52 := (Nat.log2_eq_iff (by omega)).mpr (by omega)
    have some : exponent.toNat ≠ 0 := fun none => normal (BitVec.toNat_inj.mp none)
    have room : exponent.toNat ≠ 2047 := fun all => finite (BitVec.toNat_inj.mp all)
    have whole : (1#1 ++ mantissa).toNat = 2 ^ 52 + mantissa.toNat := toNat_implicit_bit mantissa
    have unbiased : scale = exponent.toNat - 1075 := rfl
    rw [whole, top, unbiased]
    omega

/-! ### Rounding -/

theorem shift_zeros (m s : Nat) :
    (ExtendedMantissa.ofMantissaAndAccuracy (m * 2 ^ s) .exact >>> s) =
      ExtendedMantissa.ofMantissaAndAccuracy m .exact := by
  show Nat.repeat ExtendedMantissa.shiftRightOne s _ = _
  induction s generalizing m with
  | zero => rw [pow_zero, mul_one, Nat.repeat]
  | succ s ih =>
    rw [Nat.repeat, pow_succ', ← mul_assoc, ih]
    simp [ExtendedMantissa.shiftRightOne, ExtendedMantissa.ofMantissaAndAccuracy]

theorem shiftToTargetExponent_zeros {m : Nat} {e : Int} (canonical : Canonical m e) (s : Nat) :
    shiftToTargetExponent Format.binary64 (m * 2 ^ s) (e - s) .exact =
      (ExtendedMantissa.ofMantissaAndAccuracy m .exact, e) := by
  have target := canonical.target
  have same : Format.binary64.targetExponent (totalExponent (m * 2 ^ s) (e - s)) = e := by
    rw [targetExponent_eq] at target ⊢
    rw [log2_mul_two_pow canonical.pos]
    omega
  have amount : (e - (e - s)).toNat = s := by omega
  simp only [shiftToTargetExponent, same, shiftToExponent, amount, shift_zeros]
  congr 1
  omega

theorem roundWithAccuracy_zeros {m : Nat} {e : Int} (canonical : Canonical m e) (sign : Sign)
    (s : Nat) :
    roundWithAccuracy Format.binary64 sign (m * 2 ^ s) (e - s) .exact =
      .finite sign m e canonical.pos := by
  have rounded : (ExtendedMantissa.ofMantissaAndAccuracy m .exact).roundedMantissa = m := rfl
  have again := shiftToTargetExponent_zeros canonical 0
  rw [pow_zero, mul_one, Nat.cast_zero, sub_zero] at again
  rw [roundWithAccuracy, shiftToTargetExponent_zeros canonical s]
  simp only [rounded, again]
  exact dif_neg canonical.pos.ne'

/-- Of two ways to write a number the one with the lower exponent has zeros behind. -/
theorem exists_zeros {m k : Nat} {e f : Int} (same : (k : Rat) * 2 ^ f = m * 2 ^ e)
    (lower : f ≤ e) : ∃ s : Nat, f = e - s ∧ k = m * 2 ^ s := by
  obtain ⟨s, rfl⟩ : ∃ s : Nat, f = e - s := ⟨(e - f).toNat, by omega⟩
  refine ⟨s, rfl, ?_⟩
  rw [zpow_sub₀ two_ne_zero, zpow_natCast] at same
  field_simp at same
  exact_mod_cast same.trans (mul_comm _ _)

/-- Rounding finds the number where there is one. -/
theorem round_exact {m k : Nat} {e f : Int} (canonical : Canonical m e) (sign : Sign)
    (same : (k : Rat) * 2 ^ f = m * 2 ^ e) :
    UnpackedFloat.round Format.binary64 sign k f = .finite sign m e canonical.pos := by
  have target := canonical.target
  rw [targetExponent_eq] at target
  rcases le_total f e with low | high
  · obtain ⟨s, rfl, rfl⟩ := exists_zeros same low
    have aim : Format.binary64.targetExponent (totalExponent (m * 2 ^ s) (e - s)) = e := by
      rw [targetExponent_eq, log2_mul_two_pow canonical.pos]
      omega
    have amount : (e - s - e : Int).toNat = 0 := by omega
    have kept := roundWithAccuracy_zeros canonical sign s
    simp only [UnpackedFloat.round, aim, decreaseExponent, amount, Nat.shiftLeft_zero,
      Nat.cast_zero, sub_zero, kept]
  · obtain ⟨s, rfl, rfl⟩ := exists_zeros same.symm high
    have pos : 0 < k := Nat.pos_of_mul_pos_right canonical.pos
    rw [log2_mul_two_pow pos] at target
    have aim : Format.binary64.targetExponent (totalExponent k f) = f - s := by
      rw [targetExponent_eq]
      omega
    have amount : (f - (f - s) : Int).toNat = s := by omega
    have kept := roundWithAccuracy_zeros canonical sign 0
    simp only [pow_zero, mul_one, Nat.cast_zero, sub_zero] at kept
    simp only [UnpackedFloat.round, aim, decreaseExponent, amount, Nat.shiftLeft_eq, kept]

end ChordGrammar.Binary64
