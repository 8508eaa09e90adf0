import ChordGrammar.Binary64.Shortest

/-! The texts of numbers: shortest digits, in one of two styles, and a fixed count
of decimal places in a column of a given width. -/
namespace ChordGrammar

def padLeft (width : Nat) (fill : Char) (text : String) : String :=
  String.ofList (List.replicate (width - text.length) fill) ++ text

def pointed (n places : Nat) : String :=
  let unit := Nat.pow 10 places
  toString (n / unit) ++ "." ++ padLeft places '0' (toString (n % unit))

namespace Decimal

/-- All digits in their places, without exponent and sign. -/
def positional (d : Decimal) : String :=
  if 0 ≤ d.exponent then toString (d.digits * Nat.pow 10 d.exponent.toNat)
  else pointed d.digits (-d.exponent).toNat

def leadingExponent (d : Decimal) : Int :=
  d.exponent + (toString d.digits).length - 1

def scientific (d : Decimal) : String :=
  let places := (toString d.digits).length - 1
  (if places = 0 then toString d.digits else pointed d.digits places) ++ "e" ++
    toString d.leadingExponent

end Decimal

/-- How a number is written with its shortest digits. Numbers whose first digit has
an exponent in `positionalFrom ≤ · < positionalBelow` are written positionally; a
missing bound does not restrict. -/
structure NumberStyle where
  wholeEnding : String
  positionalFrom : Option Int
  positionalBelow : Option Int

namespace NumberStyle

/-- Numbers in running text: never an exponent, and nothing after a whole number. -/
def plain : NumberStyle := ⟨"", none, none⟩

/-- Numbers in a printed list: whole numbers end in `.0`, and very small and very
large numbers have an exponent. -/
def listed : NumberStyle := ⟨".0", some (-4), some 16⟩

def isPositional (style : NumberStyle) (exponent : Int) : Bool :=
  style.positionalFrom.all (· ≤ exponent) ∧ style.positionalBelow.all (exponent < ·)

def magnitude (style : NumberStyle) (d : Decimal) : String :=
  if style.isPositional d.leadingExponent then
    if 0 ≤ d.exponent then d.positional ++ style.wholeEnding else d.positional
  else d.scientific

end NumberStyle

/-- Writes a sign before the text of a magnitude. Not-a-number has none. -/
def signed (x : Float) (text : String) : String :=
  match x.toModel.unpack with
  | .infinity .negative | .zero .negative | .finite .negative _ _ _ => "-" ++ text
  | _ => text

/-- The shortest digits that read back as the number, in the given style. -/
def NumberStyle.write (style : NumberStyle) (x : Float) : String :=
  signed x <| match x.toModel.unpack with
    | .notANumber => "NaN"
    | .infinity _ => "inf"
    | .zero _ => "0" ++ style.wholeEnding
    | .finite _ m e _ => style.magnitude (Binary64.shortest false m e)

/-- The whole number nearest to `num / den`, a half going to the even neighbour. -/
def nearestEven (num den : Nat) : Nat :=
  let below := num / den
  if 2 * (num % den) < den ∨ 2 * (num % den) = den ∧ below % 2 = 0 then below else below + 1

/-- The exact value rounded to `places` decimal places, in a column of `width`
characters that a longer text exceeds. -/
def fixedPlaces (width places : Nat) (x : Float) : String :=
  padLeft width ' ' <| signed x <| match x.toModel.unpack with
    | .notANumber => "NaN"
    | .infinity _ => "inf"
    | .zero _ => pointed 0 places
    | .finite _ m e _ =>
      let scaled := Binary64.numerator m e * Nat.pow 10 places
      pointed (nearestEven scaled (Binary64.denominator e)) places

end ChordGrammar
