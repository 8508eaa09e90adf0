import ChordGrammar.Proofs.Rounding

/-! Exact values. Every finite binary64 number is a rational number, and arithmetic on the
numbers is arithmetic on their values wherever there is a number for the result. Numbers
compare as their values do. -/
namespace ChordGrammar.Binary64

open Scalar
open Float.Model (UnpackedFloat Format totalExponent)
open Float.Model.UnpackedFloat (Sign decreaseExponent normalize divCore accuracyOfFraction)

def quantity (sign : Sign) (m : Nat) (e : Int) : Rat := sign.apply m * 2 ^ e

def valueOf? : UnpackedFloat → Option Rat
  | .zero _ => some 0
  | .finite sign m e _ => some (quantity sign m e)
  | .infinity _ | .notANumber => none

/-- The exact value, which infinities and what is not a number do not have. -/
def value? (x : Float) : Option Rat := valueOf? x.toModel.unpack

@[simp] theorem quantity_positive (m : Nat) (e : Int) : quantity .positive m e = m * 2 ^ e := rfl

@[simp] theorem quantity_negative (m : Nat) (e : Int) :
    quantity .negative m e = -(m * 2 ^ e) := by
  simp [quantity, Sign.apply]

theorem quantity_neg (sign : Sign) (m : Nat) (e : Int) :
    quantity (-sign) m e = -quantity sign m e := by
  cases sign
  · exact (neg_neg _).symm.trans (congrArg _ (quantity_negative m e).symm)
  · exact quantity_negative m e

theorem abs_quantity (sign : Sign) (m : Nat) (e : Int) : |quantity sign m e| = m * 2 ^ e := by
  have nonneg : (0 : Rat) ≤ m * 2 ^ e := by positivity
  cases sign <;> simp [abs_of_nonneg nonneg]

theorem magnitude_eq_fraction (m : Nat) (e : Int) :
    (m : Rat) * 2 ^ e = numerator m e / denominator e := by
  rcases Int.eq_nat_or_neg e with ⟨s, rfl | rfl⟩
  · simp [numerator, denominator]
  · simp [numerator, denominator, div_eq_mul_inv]

/-- The rational numbers that there are numbers for. -/
def Representable (a : Rat) : Prop := a = 0 ∨ ∃ m e, Canonical m e ∧ |a| = m * 2 ^ e

/-- The number that an unpacked number in the right form stands for. -/
inductive Represents : UnpackedFloat → Rat → Prop
  | zero (sign : Sign) : Represents (.zero sign) 0
  | finite (sign : Sign) {m : Nat} {e : Int} (canonical : Canonical m e) :
      Represents (.finite sign m e canonical.pos) (quantity sign m e)

theorem representable_of_digits {k : Int} {f : Int} (digits : k.natAbs ≤ 2 ^ 53)
    (low : -1074 ≤ f) (high : f ≤ 918) : Representable (k * 2 ^ f) := by
  have magnitude : |(k : Rat) * 2 ^ f| = k.natAbs * 2 ^ f := by
    rw [abs_mul, abs_of_pos (by positivity : (0 : Rat) < 2 ^ f), Nat.cast_natAbs, Int.cast_abs]
  rcases Nat.eq_zero_or_pos k.natAbs with zero | positive
  · exact .inl (by rw [Int.natAbs_eq_zero.mp zero, Int.cast_zero, zero_mul])
  rcases digits.lt_or_eq with digits | power
  · obtain ⟨m, e, canonical, same⟩ := exists_canonical positive digits low (by omega)
    exact .inr ⟨m, e, canonical, magnitude.trans same.symm⟩
  · obtain ⟨m, e, canonical, same⟩ :=
      exists_canonical Nat.one_pos (by decide) (f := f + 53) (by omega) (by omega)
    refine .inr ⟨m, e, canonical, ?_⟩
    rw [magnitude, power, same, zpow_add₀ two_ne_zero]
    push_cast
    ring

theorem representable_intCast {k : Int} (digits : k.natAbs ≤ 2 ^ 53) :
    Representable (k : Rat) := by
  have kept := representable_of_digits (f := 0) digits (by decide) (by decide)
  rwa [zpow_zero, mul_one] at kept

theorem Represents.value {u : UnpackedFloat} {a : Rat} (represents : Represents u a) :
    value? ⟨.pack u⟩ = some a := by
  cases represents with
  | zero sign => cases sign <;> rfl
  | finite sign canonical => rw [value?, unpack_pack canonical]; rfl

theorem represents_of_value {x : Float} {a : Rat} (value : value? x = some a) :
    Represents x.toModel.unpack a := by
  unfold value? at value
  cases unpacked : x.toModel.unpack with
  | zero sign =>
    rw [unpacked] at value
    cases value
    exact .zero sign
  | finite sign m e pos =>
    rw [unpacked] at value
    cases value
    exact .finite sign (canonical_of_unpack unpacked)
  | _ =>
    rw [unpacked] at value
    cases value

/-! ### Arithmetic on unpacked numbers -/

theorem round_represents {k : Nat} {f : Int} {sign : Sign} (pos : 0 < k)
    (kept : Representable (quantity sign k f)) :
    Represents (UnpackedFloat.round Format.binary64 sign k f) (quantity sign k f) := by
  rw [Representable, ← abs_eq_zero, abs_quantity] at kept
  obtain ⟨m, e, canonical, same⟩ := kept.resolve_left (by positivity)
  have whole : quantity sign k f = quantity sign m e := by
    cases sign <;> simp [same]
  rw [round_exact canonical sign same, whole]
  exact .finite sign canonical

theorem normalize_represents {k : Int} {f : Int} (sign : Sign)
    (kept : Representable (k * 2 ^ f)) :
    Represents (normalize Format.binary64 k f sign) (k * 2 ^ f) := by
  rcases Int.lt_trichotomy k 0 with negative | rfl | positive
  · obtain ⟨n, rfl⟩ := Int.exists_eq_neg_ofNat negative.le
    have whole : ((-n : Int) : Rat) * 2 ^ f = quantity .negative n f := by simp
    rw [whole] at kept ⊢
    rw [UnpackedFloat.normalize, Int.compare_eq_lt.mpr negative, neg_neg]
    exact round_represents (by omega) kept
  · rw [Int.cast_zero, zero_mul]
    exact .zero sign
  · obtain ⟨n, rfl⟩ := Int.eq_ofNat_of_zero_le positive.le
    rw [UnpackedFloat.normalize, Int.compare_eq_gt.mpr positive]
    exact round_represents (by omega) kept

section

variable {u v : UnpackedFloat} {a b : Rat}

theorem Represents.neg (first : Represents u a) : Represents u.neg (-a) := by
  cases first with
  | zero sign =>
    rw [neg_zero]
    exact .zero _
  | finite sign canonical =>
    rw [← quantity_neg]
    exact .finite _ canonical

theorem quantity_decreaseExponent (sign : Sign) (m : Nat) {e f : Int} (lower : f ≤ e) :
    quantity sign (decreaseExponent m e f).1 f = quantity sign m e := by
  obtain ⟨s, rfl⟩ : ∃ s : Nat, e = f + s := ⟨(e - f).toNat, by omega⟩
  have whole : (m * 2 ^ s : Rat) * 2 ^ f = m * 2 ^ (f + s : Int) := by
    rw [zpow_add₀ two_ne_zero, zpow_natCast]
    ring
  cases sign <;> simp [decreaseExponent, Nat.shiftLeft_eq, whole]

theorem quantity_add (sign sign' : Sign) (m m' : Nat) (e e' : Int) :
    quantity sign m e + quantity sign' m' e' =
      (sign.apply (decreaseExponent m e (min e e')).1 +
        sign'.apply (decreaseExponent m' e' (min e e')).1 : Int) * 2 ^ min e e' := by
  rw [← quantity_decreaseExponent sign m (min_le_left e e'),
    ← quantity_decreaseExponent sign' m' (min_le_right e e'), Int.cast_add, add_mul]
  rfl

theorem Represents.add (first : Represents u a) (second : Represents v b)
    (kept : Representable (a + b)) :
    Represents (UnpackedFloat.add .binary64 u v) (a + b) := by
  cases first with
  | zero sign =>
    cases second with
    | zero sign' =>
      rw [add_zero]
      cases sign <;> cases sign' <;> exact .zero _
    | finite sign' canonical =>
      rw [zero_add]
      exact .finite sign' canonical
  | finite sign canonical =>
    cases second with
    | zero sign' =>
      rw [add_zero]
      exact .finite sign canonical
    | finite sign' canonical' =>
      rw [quantity_add] at kept ⊢
      exact normalize_represents .positive kept

theorem sub_eq_add_opposite (u v : UnpackedFloat) :
    UnpackedFloat.sub .binary64 u v = UnpackedFloat.add .binary64 u v.neg := by
  have opposite (sign : Sign) (n : Int) : (-sign).apply n = -sign.apply n := by
    cases sign
    · exact (neg_neg n).symm
    · rfl
  cases u <;> cases v <;>
    simp [UnpackedFloat.sub, UnpackedFloat.add, UnpackedFloat.neg, opposite, Int.sub_eq_add_neg]

theorem Represents.sub (first : Represents u a) (second : Represents v b)
    (kept : Representable (a - b)) :
    Represents (UnpackedFloat.sub .binary64 u v) (a - b) := by
  rw [sub_eq_add_neg] at kept ⊢
  rw [sub_eq_add_opposite]
  exact first.add second.neg kept

theorem log2_mul_le {m n : Nat} (first : 0 < m) (second : 0 < n) :
    (m * n).log2 ≤ m.log2 + n.log2 + 1 := by
  have below : m * n < 2 ^ (m.log2 + 1) * 2 ^ (n.log2 + 1) :=
    Nat.mul_lt_mul'' Nat.lt_log2_self Nat.lt_log2_self
  rw [← pow_add, ← Nat.log2_lt (Nat.mul_pos first second).ne'] at below
  omega

/-- The exponent at which a quotient is taken leaves room for all its digits. -/
theorem quotient_target_le {m m₁ m₂ : Nat} {e e₁ e₂ : Int} (canonical : Canonical m e)
    (divisor : 0 < m₂) (product : (m₁ : Rat) * 2 ^ (e₁ - e₂) = (m * m₂ : Nat) * 2 ^ e)
    (above : e ≤ e₁ - e₂) :
    Format.binary64.targetExponent (totalExponent m₁ e₁ - totalExponent m₂ e₂) ≤ e := by
  obtain ⟨s, rfl, whole⟩ := exists_zeros product.symm above
  have dividend : 0 < m₁ := by
    have positive := Nat.mul_pos canonical.pos divisor
    rw [whole] at positive
    exact Nat.pos_of_mul_pos_right positive
  have log := log2_mul_le canonical.pos divisor
  rw [whole, log2_mul_two_pow dividend] at log
  have target := canonical.target
  rw [targetExponent_eq] at target
  simp only [Format.targetExponent, totalExponent, Format.mantissaBits, Format.minExponent]
  omega

/-- A quotient that there is a number for is reached without a remainder. -/
theorem divCore_exact {m m₁ m₂ : Nat} {e e₁ e₂ : Int} (canonical : Canonical m e)
    (divisor : 0 < m₂) (same : (m₁ : Rat) * 2 ^ e₁ / (m₂ * 2 ^ e₂) = m * 2 ^ e) :
    ∃ s : Nat, divCore .binary64 m₁ e₁ m₂ e₂ = (m * 2 ^ s, e - s, .exact) := by
  have product : (m₁ : Rat) * 2 ^ (e₁ - e₂) = (m * m₂ : Nat) * 2 ^ e := by
    rw [zpow_sub₀ two_ne_zero]
    push_cast
    field_simp at same ⊢
    linarith
  generalize aim : min (e₁ - e₂) (Format.binary64.targetExponent
    (totalExponent m₁ e₁ - totalExponent m₂ e₂)) = t
  have low : t ≤ e := by
    rcases le_total e (e₁ - e₂) with above | below
    · rw [← aim]
      exact (min_le_right _ _).trans (quotient_target_le canonical divisor product above)
    · rw [← aim]
      exact (min_le_left _ _).trans below
  obtain ⟨n, room⟩ : ∃ n : Nat, e₁ - e₂ = t + n := ⟨(e₁ - e₂ - t).toNat, by omega⟩
  have amount : (e₁ - e₂ - t).toNat = n := by omega
  have shifted : ((m₁ * 2 ^ n : Nat) : Rat) * 2 ^ t = (m * m₂ : Nat) * 2 ^ e := by
    rw [← product, room, zpow_add₀ two_ne_zero, zpow_natCast]
    push_cast
    ring
  obtain ⟨s, rfl, mantissa⟩ := exists_zeros shifted low
  have digits : m₁ * 2 ^ n = m₂ * (m * 2 ^ s) := by rw [mantissa]; ring
  refine ⟨s, ?_⟩
  simp only [divCore, aim, amount, Nat.shiftLeft_eq, digits, Nat.mul_div_cancel_left _ divisor,
    Nat.mul_mod_right, accuracyOfFraction, if_true]

theorem quantity_div {m m' k : Nat} {e e' f : Int} (sign sign' : Sign)
    (same : (m : Rat) * 2 ^ e / (m' * 2 ^ e') = k * 2 ^ f) :
    quantity sign m e / quantity sign' m' e' = quantity (sign / sign') k f := by
  have opposite : quantity .negative k f = -(k * 2 ^ f) := quantity_negative k f
  cases sign <;> cases sign' <;>
    simp only [quantity_negative, quantity_positive, neg_div, div_neg, same]
  · exact neg_neg _
  · exact opposite.symm
  · exact opposite.symm
  · rfl

theorem Represents.div (first : Represents u a) (second : Represents v b) (nonzero : b ≠ 0)
    (kept : Representable (a / b)) :
    Represents (UnpackedFloat.div .binary64 u v) (a / b) := by
  cases second with
  | zero sign' => exact absurd rfl nonzero
  | @finite sign' m' e' canonical' =>
    cases first with
    | zero sign =>
      rw [zero_div]
      exact .zero _
    | @finite sign m e canonical =>
      have positive := canonical.pos
      have positive' := canonical'.pos
      have quotient : |quantity sign m e / quantity sign' m' e'| = m * 2 ^ e / (m' * 2 ^ e') := by
        rw [abs_div, abs_quantity, abs_quantity]
      rw [Representable, ← abs_eq_zero, quotient] at kept
      obtain ⟨k, f, exact, same⟩ := kept.resolve_left (by positivity)
      obtain ⟨s, core⟩ := divCore_exact exact positive' same
      rw [UnpackedFloat.div, core, quantity_div sign sign' same]
      simp only [roundWithAccuracy_zeros exact]
      exact .finite _ exact

end

/-! ### Arithmetic on values -/

section

variable {x y : Float} {a b : Rat}

theorem value_neg (first : value? x = some a) : value? (-x) = some (-a) :=
  (represents_of_value first).neg.value

theorem value_add (first : value? x = some a) (second : value? y = some b)
    (kept : Representable (a + b)) : value? (x + y) = some (a + b) :=
  ((represents_of_value first).add (represents_of_value second) kept).value

theorem value_sub (first : value? x = some a) (second : value? y = some b)
    (kept : Representable (a - b)) : value? (x - y) = some (a - b) :=
  ((represents_of_value first).sub (represents_of_value second) kept).value

theorem value_div (first : value? x = some a) (second : value? y = some b) (nonzero : b ≠ 0)
    (kept : Representable (a / b)) : value? (x / y) = some (a / b) :=
  ((represents_of_value first).div (represents_of_value second) nonzero kept).value

theorem unpack_one :
    (Float.Model.ofBits 0x3FF0000000000000).unpack =
      .finite .positive (2 ^ 52) (-52) (by decide) := rfl

theorem Represents.mul_one {u : UnpackedFloat} (represents : Represents u a) :
    UnpackedFloat.mul .binary64 u (Float.Model.ofBits 0x3FF0000000000000).unpack = u := by
  rw [unpack_one]
  cases represents with
  | zero sign => cases sign <;> rfl
  | finite sign canonical =>
    have kept := roundWithAccuracy_zeros canonical sign 52
    cases sign <;> exact kept

theorem value_ofNat {n : Nat} (digits : n < 2 ^ 53) : value? (Float.ofNat n) = some (n : Rat) := by
  have numeral : Float.ofNat n = n.toUInt64.toFloat * .ofBits 0x3FF0000000000000 := by
    show Float.ofScientific n false 0 = _
    rw [Float.ofScientific, dif_pos ⟨digits, by omega⟩]
    rfl
  have word : n.toUInt64.toNat = n := Nat.mod_eq_of_lt (by omega)
  have rounded : n.toUInt64.toFloat =
      ⟨.pack (normalize .binary64 (n.toUInt64.toNat : Int) 0 .positive)⟩ := rfl
  have kept : Representable ((n : Int) * 2 ^ (0 : Int)) :=
    representable_of_digits digits.le (by decide) (by decide)
  have whole := represents_of_value (normalize_represents .positive kept).value
  rw [zpow_zero, mul_one, Int.cast_natCast, ← word, ← rounded, word] at whole
  rw [numeral, ← whole.value, ← whole.mul_one]
  rfl

theorem value_ofInt {k : Int} (digits : k.natAbs < 2 ^ 53) :
    value? (Float.ofInt k) = some (k : Rat) := by
  cases k with
  | ofNat n => exact value_ofNat digits
  | negSucc n =>
    have value := value_neg (value_ofNat digits)
    rw [Int.cast_negSucc]
    exact value

end

/-! ### Comparison -/

/-- Numbers of a lower exponent are less, for only the lowest exponent has mantissas that do
not fill their digits. -/
theorem lt_of_exponent {m m' : Nat} {e e' : Int} (canonical : Canonical m e)
    (canonical' : Canonical m' e') (lower : e < e') : (m : Rat) * 2 ^ e < m' * 2 ^ e' := by
  have shape := (canonical_iff canonical.pos).mp canonical
  have shape' := (canonical_iff canonical'.pos).mp canonical'
  have digits := canonical.digits
  have full : 2 ^ 52 ≤ m' := (Nat.le_log2 canonical'.pos.ne').mp (by omega)
  calc (m : Rat) * 2 ^ e
      < 2 ^ 53 * 2 ^ e := by
        gcongr
        exact_mod_cast digits
    _ = 2 ^ 52 * 2 ^ (e + 1) := by
        rw [zpow_add_one₀ two_ne_zero]
        ring
    _ ≤ m' * 2 ^ e' := by
        gcongr
        · exact_mod_cast full
        · norm_num
        · omega

theorem magnitude_le_iff {m m' : Nat} {e e' : Int} (canonical : Canonical m e)
    (canonical' : Canonical m' e') :
    (m : Rat) * 2 ^ e ≤ m' * 2 ^ e' ↔ e < e' ∨ e = e' ∧ m ≤ m' := by
  rcases lt_trichotomy e e' with lower | rfl | higher
  · exact iff_of_true (lt_of_exponent canonical canonical' lower).le (.inl lower)
  · rw [mul_le_mul_iff_left₀ (by positivity)]
    simp
  · exact iff_of_false (lt_of_exponent canonical' canonical higher).not_ge (by omega)

theorem Canonical.magnitude_pos {m : Nat} {e : Int} (canonical : Canonical m e) :
    (0 : Rat) < m * 2 ^ e := by
  have pos := canonical.pos
  positivity

theorem Represents.le_iff {u v : UnpackedFloat} {a b : Rat} (first : Represents u a)
    (second : Represents v b) : (u.compare v).any (·.isLE) = true ↔ a ≤ b := by
  rw [compare_isLE_iff]
  cases first with
  | zero sign =>
    cases second with
    | zero sign' => simp [place]
    | finite sign' canonical' =>
      have pos := canonical'.magnitude_pos
      cases sign' with
      | negative => simp [place, Prod.Lex.toLex_le_toLex, pos]
      | positive => simp [place, Prod.Lex.toLex_le_toLex, pos.le]
  | finite sign canonical =>
    have pos := canonical.magnitude_pos
    cases second with
    | zero sign' =>
      cases sign with
      | negative => simp [place, Prod.Lex.toLex_le_toLex, pos.le]
      | positive => simp [place, Prod.Lex.toLex_le_toLex, pos]
    | finite sign' canonical' =>
      have pos' := canonical'.magnitude_pos
      cases sign <;> cases sign'
      · simp [place, Prod.Lex.toLex_le_toLex, magnitude_le_iff canonical' canonical, eq_comm]
      · simp [place, Prod.Lex.toLex_le_toLex, (neg_neg_of_pos pos).le.trans pos'.le]
      · simp [place, Prod.Lex.toLex_le_toLex, (neg_neg_of_pos pos').trans pos]
      · simp [place, Prod.Lex.toLex_le_toLex, magnitude_le_iff canonical canonical']

theorem compare_then_swap (e e' : Int) (m m' : Nat) :
    (compare e' e).then (compare m' m) = ((compare e e').then (compare m m')).swap := by
  rw [Ordering.swap_then, ← Std.OrientedOrd.eq_swap, ← Std.OrientedOrd.eq_swap]

theorem Represents.lt_iff {u v : UnpackedFloat} {a b : Rat} (first : Represents u a)
    (second : Represents v b) : u.compare v = some .lt ↔ a < b := by
  rw [← not_le, ← second.le_iff first]
  cases first with
  | zero sign =>
    cases second with
    | zero sign' => simp [UnpackedFloat.compare]
    | finite sign' canonical' => cases sign' <;> simp [UnpackedFloat.compare]
  | @finite sign m e canonical =>
    cases second with
    | zero sign' => cases sign <;> simp [UnpackedFloat.compare]
    | @finite sign' m' e' canonical' =>
      cases sign <;> cases sign' <;>
        simp [UnpackedFloat.compare, compare_then_swap e e' m m']

section

variable {x y : Float} {a b : Rat}

theorem le_iff_of_value (first : value? x = some a) (second : value? y = some b) :
    x ≤ y ↔ a ≤ b :=
  le_iff_compare.trans ((represents_of_value first).le_iff (represents_of_value second))

theorem lt_iff_of_value (first : value? x = some a) (second : value? y = some b) :
    x < y ↔ a < b :=
  lt_iff_compare.trans ((represents_of_value first).lt_iff (represents_of_value second))

theorem equal_eq_of_value (first : value? x = some a) (second : value? y = some b) :
    equal x y = equal a b := by
  rw [Bool.eq_iff_iff, equal_iff_le, equal_iff_le, le_iff_of_value first second,
    le_iff_of_value second first]

theorem unsignedZero_eq_of_value (first : value? x = some a) (second : value? y = some a) :
    unsignedZero x = unsignedZero y :=
  LawfulOrder.unsignedZero_eq_of_equal (equal_iff_le.mpr
    ⟨(le_iff_of_value first second).mpr le_rfl, (le_iff_of_value second first).mpr le_rfl⟩)

end

end ChordGrammar.Binary64
