import ChordGrammar.Proofs.Orbit

/-! Contextual transposition as an action. The direction in which Q moves a chord is decided
anew for each chord, by its forms alone. No transposition changes the decision, so the moves
add up and commute with T. An inversion turns it round, so Q commutes with I as well, unless
the stabilizer is an I-form of itself: then its forms are of both kinds, and all move up. -/
namespace ChordGrammar

open Scalar

namespace PitchClassSet

/-- Whether Q moves a chord up or down, if it moves it. -/
def direction? (s x : PitchClassSet Rat) : Option Int :=
  if s.isTForm (ofNat 1) x then some 1
  else if s.isIForm (ofNat 1) x then some (-1)
  else none

theorem contextualTranspose?_eq (s x : PitchClassSet Rat) (n : Rat) :
    s.contextualTranspose? (ofNat 1) x n =
      (s.direction? x).map fun d : Int => s.transpose (d * n) := by
  unfold contextualTranspose? direction?
  split
  · simp
  · split <;> simp

theorem direction?_transpose (s x : PitchClassSet Rat) (n : Int) :
    (s.transpose (n : Rat)).direction? x = s.direction? x := by
  rw [direction?, isTForm_transpose_left, isIForm_transpose_left, direction?]

/-- A chord is a form of both kinds only if the stabilizer is. -/
theorem isIForm_self_of_both {s x : PitchClassSet Rat} (up : s.isTForm (ofNat 1) x = true)
    (down : s.isIForm (ofNat 1) x = true) : x.isIForm (ofNat 1) x = true := by
  obtain ⟨k, raised⟩ := isTForm_one_iff.mp up
  obtain ⟨j, mirrored⟩ := isIForm_one_iff.mp down
  have same : (x.invert (j : Rat)).sameContent (x.transpose (k : Rat)) = true :=
    sameContent_iff.mpr ((sameContent_iff.mp mirrored).trans (sameContent_iff.mp raised).symm)
  have mirror : (x.transpose (k : Rat)).isIForm (ofNat 1) x = true :=
    isIForm_one_iff.mpr ⟨j, same⟩
  rwa [isIForm_transpose_left] at mirror

theorem direction?_invert {x : PitchClassSet Rat} (asymmetric : x.isIForm (ofNat 1) x = false)
    (s : PitchClassSet Rat) (n : Int) :
    (s.invert (n : Rat)).direction? x = (s.direction? x).map fun d => -d := by
  rw [direction?, isTForm_invert_left, isIForm_invert_left, direction?]
  by_cases up : s.isTForm (ofNat 1) x = true
  · have alone : ¬ s.isIForm (ofNat 1) x = true := fun down => by
      simp [isIForm_self_of_both up down] at asymmetric
    simp [up, alone]
  · by_cases down : s.isIForm (ofNat 1) x = true <;> simp [up, down]

/-- Q adds up and commutes with T, and it commutes with I if the stabilizer is not an I-form of
itself. Whether Q is defined depends neither on the interval nor on a T or I before it. -/
theorem contextualTranspose?_action (c s : PitchClassSet Rat) (m n : Int) :
    let Q (n : Int) (c : PitchClassSet Rat) := c.contextualTranspose? (ofNat 1) s (n : Rat)
    (Q n c).bind (Q m) = Q (m + n) c ∧
    Q n (c.transpose (m : Rat)) = (Q n c).map (transpose (m : Rat)) ∧
    (s.isIForm (ofNat 1) s = false →
      Q n (c.invert (m : Rat)) = (Q n c).map (invert (m : Rat))) := by
  intro Q
  simp only [Q, contextualTranspose?_eq, direction?_transpose]
  refine ⟨?_, ?_, fun asymmetric => ?_⟩
  · cases direction : c.direction? s with
    | none => rfl
    | some d =>
      have kept := c.direction?_transpose s (d * n)
      rw [Int.cast_mul, direction] at kept
      simp only [Option.map_some, Option.bind_some, kept, transpose_transpose, Int.cast_add]
      rw [mul_add, add_comm]
  · cases c.direction? s with
    | none => rfl
    | some d => exact congrArg some (transpose_comm c _ _)
  · rw [direction?_invert asymmetric]
    cases c.direction? s with
    | none => rfl
    | some d =>
      simp only [Option.map_some, invert_transpose, transpose_invert, Int.cast_neg, neg_mul,
        sub_eq_add_neg]

/-- The minor chord is an I-form of the major one, and an inversion makes a T-form of it. -/
theorem contextualTranspose?_action_minor :
    let major : PitchClassSet Rat := .ofPitches [0, 4, 7]
    let minor : PitchClassSet Rat := .ofPitches [7, 3, 0]
    let Q (n : Int) (c : PitchClassSet Rat) := c.contextualTranspose? (ofNat 1) major (n : Rat)
    major.isIForm (ofNat 1) major = false ∧ (Q 5 minor).isSome = true ∧
      (Q 5 minor).bind (Q (-3)) = Q (-3 + 5) minor ∧
      Q 5 (minor.transpose ((-3 : Int) : Rat)) = (Q 5 minor).map (transpose ((-3 : Int) : Rat)) ∧
      Q 5 (minor.invert ((-3 : Int) : Rat)) = (Q 5 minor).map (invert ((-3 : Int) : Rat)) := by
  intro major minor Q
  have asymmetric : major.isIForm (ofNat 1) major = false := by decide +kernel
  obtain ⟨adds, raised, mirrored⟩ := contextualTranspose?_action minor major (-3) 5
  exact ⟨asymmetric, by decide +kernel, adds, raised, mirrored asymmetric⟩

end PitchClassSet
end ChordGrammar
