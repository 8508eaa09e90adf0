/-! Exact operations on binary64 numbers. A finite number is `± m · 2 ^ e`, so its
magnitude is the fraction `numerator m e / denominator e`; whole parts, remainders
and the sorting order are computed on that fraction and on the bits. -/
namespace ChordGrammar.Binary64

def numerator (m : Nat) (e : Int) : Nat := m * Nat.pow 2 e.toNat

def denominator (e : Int) : Nat := Nat.pow 2 (-e).toNat

theorem denominator_pos (e : Int) : 0 < denominator e := Nat.two_pow_pos (-e).toNat

theorem lt_iff_compare {x y : Float} :
    x < y ↔ x.toModel.unpack.compare y.toModel.unpack = some .lt := by
  show Float.lt x y = true ↔ _
  rw [Float.lt, decide_eq_true_eq]
  exact beq_iff_eq

theorem le_iff_compare {x y : Float} :
    x ≤ y ↔ (x.toModel.unpack.compare y.toModel.unpack).any (·.isLE) = true := by
  show Float.le x y = true ↔ _
  rw [Float.le, decide_eq_true_eq]
  rfl

def notANumber : Float := 0 / 0

/-- The remainder of dividing by a positive `n`, with the sign of `x`. It is exact,
for below `n` no digit of `x` is lost and above it the remainder has fewer. -/
def remainder (x : Float) (n : Nat) : Float :=
  match x.toModel.unpack with
  | .zero _ => x
  | .finite sign m e _ =>
    if numerator m e < n * denominator e then x
    else
      let r := Float.ofNat (numerator m e % (n * denominator e)) / Float.ofNat (denominator e)
      match sign with
      | .negative => -r
      | .positive => r
  | .infinity _ | .notANumber => notANumber

/-- The remainder counted from below. Adding `n` to a negative remainder rounds, so
a tiny negative number has the remainder `n`. -/
def emod (x : Float) (n : Nat) : Float :=
  if remainder x n < 0 then remainder x n + Float.ofNat n else remainder x n

def floor (x : Float) : Float :=
  match x.toModel.unpack with
  | .finite sign m e _ =>
    let whole := numerator m e / denominator e
    if numerator m e % denominator e = 0 then x
    else match sign with
      | .negative => -Float.ofNat (whole + 1)
      | .positive => Float.ofNat whole
  | _ => x

def units (x : Float) : Nat :=
  match x.toModel.unpack with
  | .finite .positive m e _ => numerator m e / denominator e
  | _ => 0

/-- Clamps to 64 bits the whole number that `whole` takes from a finite magnitude. -/
def toInt64With (whole : Nat → Nat → Nat) (x : Float) : Int64 :=
  match x.toModel.unpack with
  | .zero _ | .notANumber => 0
  | .infinity .negative => Int64.minValue
  | .infinity .positive => Int64.maxValue
  | .finite sign m e _ => Int64.ofIntClamp (sign.apply (whole (numerator m e) (denominator e)))

def truncate : Float → Int64 := toInt64With fun num den => num / den

def round : Float → Int64 := toInt64With fun num den => (2 * num + den) / (2 * den)

def signBit : UInt64 := 0x8000000000000000

/-- Places the numbers in the order of their bits, negative ones reversed:
minus infinity, finite numbers, minus zero before zero, infinity, not-a-number. -/
def sortKey (x : Float) : UInt64 :=
  if x.toBits < signBit then x.toBits + signBit else 0xffffffffffffffff - x.toBits

end ChordGrammar.Binary64
