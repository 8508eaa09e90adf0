import ChordGrammar.Decimal
import ChordGrammar.Binary64

/-! The shortest decimal numeral that reads back as a given binary64 magnitude
`m · 2 ^ e`. The numbers that round to it form an interval, which contains its ends
iff `m` is even. Grids of ever smaller powers of ten are tried from the decade of
the number down, and the first grid with a point inside gives the numeral. -/
namespace ChordGrammar.Binary64

/-- The decade of `num / den`: the `d` with `10 ^ (d - 1) ≤ num / den < 10 ^ d`. -/
def decade (num den : Nat) : Int :=
  let length (n : Nat) : Int := (Nat.toDigits 10 n).length
  if den ≤ num then length (num / den) else 1 - length ((den - 1) / num)

/-- The lower end of the rounding interval, in quarters of `2 ^ e`. Below a power of
two the numbers lie twice as dense. -/
def lowerEnd (m : Nat) (e : Int) : Nat :=
  if m = 0x10000000000000 ∧ -1074 < e then 4 * m - 1 else 4 * m - 2

def upperEnd (m : Nat) : Nat := 4 * m + 2

/-- The point on the grid of `10 ^ unit` that lies in the rounding interval nearest
to `m · 2 ^ e`, if any; of two that are equally near the upper one. -/
def gridPoint (m : Nat) (e unit : Int) : Option Nat :=
  let step := Nat.pow 10 unit.toNat * Nat.pow 2 (2 - e).toNat
  let quarter := Nat.pow 10 (-unit).toNat * Nat.pow 2 (e - 2).toNat
  let value := 4 * m * quarter
  let inside (point : Nat) : Bool :=
    if m % 2 = 0 then
      lowerEnd m e * quarter ≤ point * step ∧ point * step ≤ upperEnd m * quarter
    else lowerEnd m e * quarter < point * step ∧ point * step < upperEnd m * quarter
  let below := value / step
  match inside below, inside (below + 1) with
  | true, true =>
    if value - below * step < (below + 1) * step - value then some below else some (below + 1)
  | true, false => some below
  | false, true => some (below + 1)
  | false, false => none

/-- The numeral of `m · 2 ^ e` on the coarsest grid that has one. Seventeen digits
always suffice; the exact numeral stands at the end only to make that no premise. -/
def shortest (negative : Bool) (m : Nat) (e : Int) : Decimal :=
  let top := decade (numerator m e) (denominator e)
  let onGrid (digits : Nat) : Option Decimal :=
    (gridPoint m e (top - digits)).map fun point => ⟨negative, point, top - digits⟩
  ((List.range 18).findSome? onGrid).getD
    ⟨negative, numerator m e * Nat.pow 5 (-e).toNat, min e 0⟩

end ChordGrammar.Binary64
