/-! Decimal numerals. A numeral is read as an exact product of a whole number and
a power of ten; which number of a given arithmetic stands for it is not decided
here but by `Scalar.ofDecimal`. -/
namespace ChordGrammar

/-- The number `± digits · 10 ^ exponent`. Zero has a sign too. -/
structure Decimal where
  negative : Bool
  digits : Nat
  exponent : Int
  deriving DecidableEq, Repr

def digitsValue (cs : List Char) : Nat :=
  cs.foldl (fun n c => 10 * n + (c.toNat - '0'.toNat)) 0

/-- A word of at least one decimal digit and nothing else, read as a whole number. -/
def digits? (cs : List Char) : Option Nat :=
  if cs ≠ [] ∧ cs.all Char.isDigit then some (digitsValue cs) else none

theorem digits?_eq_some_iff {cs : List Char} {n : Nat} :
    digits? cs = some n ↔ cs ≠ [] ∧ cs.all Char.isDigit ∧ digitsValue cs = n := by
  unfold digits?
  split
  · next h => simp only [Option.some.injEq]; exact ⟨fun e => ⟨h.1, h.2, e⟩, fun e => e.2.2⟩
  · next h => simp only [reduceCtorEq, false_iff]; exact fun e => h ⟨e.1, e.2.1⟩

namespace Decimal

def takeSign : List Char → Bool × List Char
  | '-' :: cs => (true, cs)
  | '+' :: cs => (false, cs)
  | cs => (false, cs)

/-- The exponent part of a numeral, which may be missing but may not be incomplete. -/
def exponent? : List Char → Option Int
  | [] => some 0
  | c :: cs =>
    if c = 'e' ∨ c = 'E' then
      (digits? (takeSign cs).2).map fun n => if (takeSign cs).1 then -(n : Int) else n
    else none

/-- Splits a fraction with its point off; the fraction may have no digits. -/
def takeFraction : List Char → List Char × List Char
  | '.' :: cs => (cs.takeWhile Char.isDigit, cs.dropWhile Char.isDigit)
  | cs => ([], cs)

/-- Reads a whole text as a numeral: a sign if any, digits before or after a point,
or on both sides of it, and an exponent if any. -/
def read? (cs : List Char) : Option Decimal :=
  let body := (takeSign cs).2
  let whole := body.takeWhile Char.isDigit
  let (fraction, rest) := takeFraction (body.dropWhile Char.isDigit)
  if whole = [] ∧ fraction = [] then none
  else (exponent? rest).map fun e =>
    ⟨(takeSign cs).1, digitsValue (whole ++ fraction), e - fraction.length⟩

end Decimal
end ChordGrammar
