import Mathlib
import ChordGrammar.PitchClass
import ChordGrammar.Scalar.Exact
import ChordGrammar.Scalar.Float

/-! Laws of comparison. Not every result of floating-point arithmetic is a number: some
compare with nothing, themselves included. Numbers are ordered by quantity, and two of the
same quantity differ at most in the sign of a zero. The order for sorting knows no equal
numbers, so a chord is sorted in one way only. -/
namespace ChordGrammar

namespace Scalar

section

variable {α : Type} [Scalar α]

/-- Only what is not a number does not compare with itself. -/
def IsNumber (a : α) : Prop := a ≤ a

instance (a : α) : Decidable (IsNumber a) := inferInstanceAs (Decidable (a ≤ a))

class LawfulOrder (α : Type) [Scalar α] : Prop where
  le_trans {a b c : α} : a ≤ b → b ≤ c → a ≤ c
  le_total {a b : α} : IsNumber a → IsNumber b → a ≤ b ∨ b ≤ a
  unsignedZero_eq_of_equal {a b : α} : equal a b = true → unsignedZero a = unsignedZero b

class LawfulSort (α : Type) [Scalar α] : Prop where
  total (a b : α) : sortsBefore a b = true ∨ sortsBefore b a = true
  trans {a b c : α} : sortsBefore a b = true → sortsBefore b c = true → sortsBefore a c = true
  antisymm {a b : α} : sortsBefore a b = true → sortsBefore b a = true → a = b

theorem equal_iff_le {a b : α} : equal a b = true ↔ a ≤ b ∧ b ≤ a := by
  simp [equal]

theorem equal_symm {a b : α} (same : equal a b = true) : equal b a = true := by
  rw [equal_iff_le] at same ⊢
  exact same.symm

theorem equal_trans [LawfulOrder α] {a b c : α} (first : equal a b = true)
    (second : equal b c = true) : equal a c = true := by
  rw [equal_iff_le] at first second ⊢
  exact ⟨LawfulOrder.le_trans first.1 second.1, LawfulOrder.le_trans second.2 first.2⟩

@[simp] theorem unsignedZero_zero : unsignedZero (zero : α) = zero := by
  simp [unsignedZero]

@[simp] theorem unsignedZero_unsignedZero (a : α) :
    unsignedZero (unsignedZero a) = unsignedZero a := by
  by_cases isZero : equal a zero = true
  · simp [unsignedZero, isZero]
  · simp [unsignedZero, isZero]

theorem equal_unsignedZero {a : α} (number : IsNumber a) : equal a (unsignedZero a) = true := by
  unfold unsignedZero
  split
  · assumption
  · exact equal_iff_le.mpr ⟨number, number⟩

theorem equal_iff_unsignedZero_eq [LawfulOrder α] {a b : α} (first : IsNumber a)
    (second : IsNumber b) : equal a b = true ↔ unsignedZero a = unsignedZero b := by
  constructor
  · exact LawfulOrder.unsignedZero_eq_of_equal
  · intro same
    apply equal_trans (equal_unsignedZero first)
    rw [same]
    exact equal_symm (equal_unsignedZero second)

theorem equalLists_iff_unsignedZero [LawfulOrder α] {as bs : List α}
    (first : ∀ a ∈ as, IsNumber a) (second : ∀ b ∈ bs, IsNumber b) :
    equalLists as bs = true ↔ as.map unsignedZero = bs.map unsignedZero := by
  induction as generalizing bs with
  | nil => cases bs <;> simp [equalLists]
  | cons a as ih =>
    cases bs with
    | nil => simp [equalLists]
    | cons b bs =>
      rw [List.forall_mem_cons] at first second
      have rest := ih first.2 second.2
      rw [equalLists] at rest ⊢
      rw [List.isEqv, Bool.and_eq_true, rest, equal_iff_unsignedZero_eq first.1 second.1,
        List.map_cons, List.map_cons, List.cons.injEq]

theorem equalLists_symm {as bs : List α} (same : equalLists as bs = true) :
    equalLists bs as = true := by
  induction as generalizing bs with
  | nil =>
    cases bs with
    | nil => exact same
    | cons b bs => cases same
  | cons a as ih =>
    cases bs with
    | nil => cases same
    | cons b bs =>
      rw [equalLists, List.isEqv, Bool.and_eq_true] at same ⊢
      exact ⟨equal_symm same.1, ih same.2⟩

theorem equalLists_trans [LawfulOrder α] {as bs cs : List α} (first : equalLists as bs = true)
    (second : equalLists bs cs = true) : equalLists as cs = true := by
  induction as generalizing bs cs with
  | nil =>
    cases bs with
    | nil => exact second
    | cons b bs => cases first
  | cons a as ih =>
    cases bs with
    | nil => cases first
    | cons b bs =>
      cases cs with
      | nil => cases second
      | cons c cs =>
        rw [equalLists, List.isEqv, Bool.and_eq_true] at first second ⊢
        exact ⟨equal_trans first.1 second.1, ih first.2 second.2⟩

variable [LawfulSort α]

theorem insertSorted_ordered (a : α) {bs : List α}
    (sorted : bs.Pairwise (sortsBefore · · = true)) :
    (insertSorted a bs).Pairwise (sortsBefore · · = true) := by
  induction bs with
  | nil => simp [insertSorted]
  | cons b bs ih =>
    obtain ⟨least, rest⟩ := List.pairwise_cons.mp sorted
    unfold insertSorted
    split
    · next before =>
      apply List.pairwise_cons.mpr ⟨_, sorted⟩
      intro c member
      rcases List.mem_cons.mp member with rfl | member
      · exact before
      · exact LawfulSort.trans before (least c member)
    · next after =>
      have later : sortsBefore b a = true := (LawfulSort.total a b).resolve_left after
      apply List.pairwise_cons.mpr ⟨_, ih rest⟩
      intro c member
      rcases List.mem_cons.mp ((insertSorted_perm a bs).mem_iff.mp member) with rfl | member
      · exact later
      · exact least c member

theorem sort_ordered (as : List α) : (sort as).Pairwise (sortsBefore · · = true) := by
  induction as with
  | nil => exact .nil
  | cons a as ih => exact insertSorted_ordered a ih

theorem sort_eq_of_perm {as bs : List α} (same : as.Perm bs) : sort as = sort bs := by
  have perm : (sort as).Perm (sort bs) := (sort_perm as).trans (same.trans (sort_perm bs).symm)
  apply perm.eq_of_pairwise _ (sort_ordered as) (sort_ordered bs)
  intro a b _ _
  exact LawfulSort.antisymm

end

end Scalar

open Scalar

theorem PitchClassSet.canonical_eq_of_perm {α : Type} [Scalar α] [LawfulSort α]
    {chord other : PitchClassSet α} (same : chord.voices.Perm other.voices) :
    chord.canonical = other.canonical :=
  PitchClassSet.ext (sort_eq_of_perm same)

theorem PitchClassSet.sameContent_symm {α : Type} [Scalar α] {chord other : PitchClassSet α}
    (same : chord.sameContent other = true) : other.sameContent chord = true :=
  equalLists_symm same

theorem PitchClassSet.sameContent_trans {α : Type} [Scalar α] [LawfulOrder α]
    {chord other third : PitchClassSet α} (first : chord.sameContent other = true)
    (second : other.sameContent third = true) : chord.sameContent third = true :=
  equalLists_trans first second

instance : LawfulOrder Rat where
  le_trans := Rat.le_trans
  le_total _ _ := Rat.le_total
  unsignedZero_eq_of_equal same := by
    obtain ⟨below, above⟩ := equal_iff_le.mp same
    rw [Rat.le_antisymm below above]

instance : LawfulSort Rat where
  total a b := by simpa [sortsBefore] using Rat.le_total
  trans first second := by
    simp only [sortsBefore, decide_eq_true_eq] at first second ⊢
    exact Rat.le_trans first second
  antisymm first second := by
    simp only [sortsBefore, decide_eq_true_eq] at first second
    exact Rat.le_antisymm first second

namespace Binary64

open Float.Model (UnpackedFloat)

/-- Where a number lies on the line: its side of zero, then the exponent and the mantissa,
which grow away from zero. Zeros of either sign lie in one place. -/
def place : UnpackedFloat → Option (Int ×ₗ Int ×ₗ Int)
  | .notANumber => none
  | .infinity .negative => some (toLex (-2, toLex (0, 0)))
  | .finite .negative m e _ => some (toLex (-1, toLex (-e, -m)))
  | .zero _ => some (toLex (0, toLex (0, 0)))
  | .finite .positive m e _ => some (toLex (1, toLex (e, m)))
  | .infinity .positive => some (toLex (2, toLex (0, 0)))

theorem compare_then_isLE (e e' : Int) (m m' : Nat) :
    ((compare e e').then (compare m m')).isLE = true ↔ e < e' ∨ e = e' ∧ m ≤ m' := by
  rcases Int.lt_trichotomy e e' with less | rfl | greater
  · simp [Int.compare_eq_lt.mpr less, less]
  · simp [Nat.isLE_compare]
  · simp [Int.compare_eq_gt.mpr greater, Int.lt_asymm greater, Int.ne_of_gt greater]

theorem compare_then_isGE (e e' : Int) (m m' : Nat) :
    ((compare e e').then (compare m m')).isGE = true ↔ e' < e ∨ e = e' ∧ m' ≤ m := by
  rcases Int.lt_trichotomy e e' with less | rfl | greater
  · simp [Int.compare_eq_lt.mpr less, Int.lt_asymm less, Int.ne_of_lt less]
  · simp [Nat.isGE_compare]
  · simp [Int.compare_eq_gt.mpr greater, greater]

/-- Comparing numbers is comparing their places. -/
theorem compare_isLE_iff (u v : UnpackedFloat) :
    (u.compare v).any (·.isLE) = true ↔ ∃ a b, place u = some a ∧ place v = some b ∧ a ≤ b := by
  fun_cases place u <;> fun_cases place v
  all_goals
    simp [UnpackedFloat.compare, Prod.Lex.toLex_le_toLex, compare_then_isLE,
      compare_then_isGE]
  all_goals rfl

theorem le_iff_place {x y : Float} :
    x ≤ y ↔ ∃ a b, place x.toModel.unpack = some a ∧ place y.toModel.unpack = some b ∧ a ≤ b :=
  le_iff_compare.trans (compare_isLE_iff _ _)

/-- Only zeros of either sign share a place. -/
theorem eq_of_place {u v : UnpackedFloat} {a : Int ×ₗ Int ×ₗ Int} (first : place u = some a)
    (second : place v = some a) : u = v ∨ ∃ sign sign', u = .zero sign ∧ v = .zero sign' := by
  have same : place u = place v := first.trans second.symm
  clear first
  fun_cases place u <;> fun_cases place v
  all_goals simp [place] at same second ⊢
  all_goals simp [same]

theorem eq_of_unpack {x y : Float} (same : x.toModel.unpack = y.toModel.unpack) : x = y := by
  have valid := (Float.Model.UnpackedFloat.unpack_inj_of_valid x.toModel.valid y.toModel.valid).mp same
  apply Float.toBits_inj.mp
  exact UInt64.toBitVec_inj.mp valid

theorem equal_zero_of_unpack {x : Float} {sign : UnpackedFloat.Sign}
    (isZero : x.toModel.unpack = .zero sign) : equal x zero = true := by
  have here : place (zero : Float).toModel.unpack = some (toLex (0, toLex (0, 0))) := rfl
  have there : place x.toModel.unpack = some (toLex (0, toLex (0, 0))) := by rw [isZero]; rfl
  exact equal_iff_le.mpr
    ⟨le_iff_place.mpr ⟨_, _, there, here, le_refl _⟩, le_iff_place.mpr ⟨_, _, here, there, le_refl _⟩⟩

theorem eq_of_sortKey {x y : Float} (same : sortKey x = sortKey y) : x = y := by
  apply Float.toBits_inj.mp
  unfold sortKey signBit at same
  grind

end Binary64

open Binary64

instance : LawfulOrder Float where
  le_trans first second := by
    obtain ⟨a, b, atA, atB, below⟩ := le_iff_place.mp first
    obtain ⟨b', c, atB', atC, above⟩ := le_iff_place.mp second
    cases atB.symm.trans atB'
    exact le_iff_place.mpr ⟨a, c, atA, atC, below.trans above⟩
  le_total first second := by
    obtain ⟨a, _, atA, -⟩ := le_iff_place.mp first
    obtain ⟨b, _, atB, -⟩ := le_iff_place.mp second
    rcases le_total a b with below | above
    · exact .inl (le_iff_place.mpr ⟨a, b, atA, atB, below⟩)
    · exact .inr (le_iff_place.mpr ⟨b, a, atB, atA, above⟩)
  unsignedZero_eq_of_equal same := by
    obtain ⟨below, above⟩ := equal_iff_le.mp same
    obtain ⟨a, b, atA, atB, below⟩ := le_iff_place.mp below
    obtain ⟨b', a', atB', atA', above⟩ := le_iff_place.mp above
    cases atB.symm.trans atB'
    cases atA.symm.trans atA'
    cases le_antisymm below above
    rcases eq_of_place atA atB with same | ⟨sign, sign', first, second⟩
    · rw [eq_of_unpack same]
    · simp [unsignedZero, equal_zero_of_unpack first, equal_zero_of_unpack second]

instance : LawfulSort Float where
  total a b := by simpa [sortsBefore] using UInt64.le_total (sortKey a) (sortKey b)
  trans first second := by
    simp only [sortsBefore, decide_eq_true_eq] at first second ⊢
    exact UInt64.le_trans first second
  antisymm first second := by
    simp only [sortsBefore, decide_eq_true_eq] at first second
    exact eq_of_sortKey (UInt64.le_antisymm first second)

end ChordGrammar
