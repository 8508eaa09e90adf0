import ChordGrammar.Scalar

/-! Exact rational arithmetic as a `Scalar`. Nothing is rounded, so this is the
arithmetic in which the laws of pitch classes, voicings and scores are stated. -/
namespace ChordGrammar

def Decimal.toRat (d : Decimal) : Rat :=
  let value : Rat := (d.digits : Rat) * 10 ^ d.exponent.toNat / 10 ^ (-d.exponent).toNat
  if d.negative then -value else value

instance : Scalar Rat where
  decLe := inferInstance
  decLt := inferInstance
  decEq := inferInstance
  ofNat n := n
  ofDecimal := Decimal.toRat
  emod x n := x - n * (x / n).floor
  floor x := x.floor
  sortsBefore a b := a ≤ b
  units x := x.floor.toNat
  truncate x := Int64.ofIntClamp (if x < 0 then -(-x).floor else x.floor)
  round x := Int64.ofIntClamp (if x < 0 then -(-x + 1 / 2).floor else (x + 1 / 2).floor)

instance : Scalar.LawfulZero Rat where
  lt_iff isZero := by
    have both := of_decide_eq_true isZero
    rw [Rat.le_antisymm both.1 both.2]

end ChordGrammar
