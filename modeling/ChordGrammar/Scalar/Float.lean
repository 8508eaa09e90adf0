import ChordGrammar.Scalar
import ChordGrammar.Binary64

/-! Binary64 arithmetic as a `Scalar`: the arithmetic in which the library runs. -/
namespace ChordGrammar

/-- The binary64 number nearest to a numeral, a half going to the even neighbour.
Numerals beyond the exponent range are settled by the place of their first digit. -/
def Decimal.toFloat (d : Decimal) : Float :=
  let place := (Nat.toDigits 10 d.digits).length + d.exponent
  let magnitude : Float :=
    if d.digits = 0 ∨ place < -400 then 0
    else if 400 < place then 1 / 0
    else Float.ofScientific d.digits (d.exponent < 0) d.exponent.natAbs
  if d.negative then -magnitude else magnitude

instance : Scalar Float where
  decLe := inferInstance
  decLt := inferInstance
  decEq := inferInstance
  ofNat := Float.ofNat
  ofDecimal := Decimal.toFloat
  emod := Binary64.emod
  floor := Binary64.floor
  sortsBefore a b := Binary64.sortKey a ≤ Binary64.sortKey b
  units := Binary64.units
  truncate := Binary64.truncate
  round := Binary64.round

namespace Binary64

open Float.Model (UnpackedFloat)

theorem unpack_zero : (Scalar.zero : Float).toModel.unpack = .zero .positive := rfl

theorem unpack_of_equal_zero {x : Float} (isZero : Scalar.equal x Scalar.zero = true) :
    ∃ sign, x.toModel.unpack = .zero sign := by
  have both := of_decide_eq_true isZero
  rw [le_iff_compare, le_iff_compare, unpack_zero] at both
  generalize x.toModel.unpack = unpacked at both
  cases unpacked with
  | zero sign => exact ⟨sign, rfl⟩
  | notANumber => exact absurd both.1 Bool.false_ne_true
  | infinity sign | finite sign =>
    cases sign with
    | positive => exact absurd both.1 Bool.false_ne_true
    | negative => exact absurd both.2 Bool.false_ne_true

theorem compare_zero (sign : UnpackedFloat.Sign) (other : UnpackedFloat) :
    (UnpackedFloat.zero sign).compare other =
      (UnpackedFloat.zero .positive).compare other := by
  cases other with
  | notANumber => rfl
  | _ sign => cases sign <;> rfl

end Binary64

instance : Scalar.LawfulZero Float where
  lt_iff isZero := by
    obtain ⟨sign, unpacked⟩ := Binary64.unpack_of_equal_zero isZero
    rw [Binary64.lt_iff_compare, Binary64.lt_iff_compare, unpacked, Binary64.unpack_zero,
      Binary64.compare_zero]

end ChordGrammar
