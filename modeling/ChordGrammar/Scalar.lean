import ChordGrammar.Decimal

/-! The arithmetic in which pitches, times and loudness are counted. All other
modules are written against `Scalar`, so that one definition both runs on
floating-point numbers and can be reasoned about on exact ones. Nothing is assumed
about rounding; comparisons may be false in both directions. -/
namespace ChordGrammar

class Scalar (α : Type) extends Add α, Sub α, Mul α, Div α, Neg α, LE α, LT α where
  decLe : ∀ a b : α, Decidable (a ≤ b)
  decLt : ∀ a b : α, Decidable (a < b)
  /-- Identity of numbers, which is finer than being equal as a quantity. -/
  decEq : DecidableEq α
  ofNat : Nat → α
  /-- The number nearest to a numeral. -/
  ofDecimal : Decimal → α
  /-- The remainder after division by a positive whole number, counted from below. -/
  emod : α → Nat → α
  floor : α → α
  /-- A total order for sorting, which may tell apart numbers of equal quantity. -/
  sortsBefore : α → α → Bool
  /-- The whole units in a positive number. All others have none, infinity included. -/
  units : α → Nat
  /-- The whole part, toward zero, clamped to 64 bits. -/
  truncate : α → Int64
  /-- The nearest whole number, halves away from zero, clamped to 64 bits. -/
  round : α → Int64

namespace Scalar

attribute [reducible, instance] Scalar.decLe Scalar.decLt Scalar.decEq

variable {α : Type} [Scalar α]

def zero : α := ofNat 0

/-- Equality as a quantity: zeros of either sign are equal, and what compares
with nothing is not equal to itself. -/
def equal (a b : α) : Bool := a ≤ b ∧ b ≤ a

def equalLists (as bs : List α) : Bool := as.isEqv bs equal

def magnitude (a : α) : α := if a < zero then -a else a

/-- The lesser of two numbers; what compares with nothing is passed over. -/
def lesser (a b : α) : α := if b < a then b else if a ≤ a then a else b

def unsignedZero (a : α) : α := if equal a zero then zero else a

/-- Zeros of either sign compare alike with every number. -/
class LawfulZero (α : Type) [Scalar α] : Prop where
  lt_iff {a b : α} : equal a zero = true → (a < b ↔ zero < b)

theorem unsignedZero_lt_iff [LawfulZero α] {a b : α} : unsignedZero a < b ↔ a < b := by
  unfold unsignedZero
  split
  · next isZero => exact (LawfulZero.lt_iff isZero).symm
  · exact .rfl

/-- Puts `a` before the first number that it may stand before. -/
def insertSorted (a : α) : List α → List α
  | [] => [a]
  | b :: bs => if sortsBefore a b then a :: b :: bs else b :: insertSorted a bs

def sort (as : List α) : List α := as.foldr insertSorted []

theorem insertSorted_perm (a : α) (bs : List α) : (insertSorted a bs).Perm (a :: bs) := by
  induction bs with
  | nil => exact .refl _
  | cons b bs ih =>
    unfold insertSorted
    split
    · exact .refl _
    · exact (ih.cons b).trans (.swap a b bs)

theorem sort_perm (as : List α) : (sort as).Perm as := by
  induction as with
  | nil => exact .refl _
  | cons a as ih => exact (insertSorted_perm a (sort as)).trans (ih.cons a)

theorem mem_sort {a : α} {as : List α} : a ∈ sort as ↔ a ∈ as := (sort_perm as).mem_iff

theorem length_sort (as : List α) : (sort as).length = as.length := (sort_perm as).length_eq

end Scalar
end ChordGrammar
