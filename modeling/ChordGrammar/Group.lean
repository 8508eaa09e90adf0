import ChordGrammar.PitchClass

/-! The operations T, I, K and Q on chords. All keep the order of the voices. The
tests for T-forms and I-forms try the multiples of a generator below the octave,
so that Q can tell in which direction a chord has to move. -/
namespace ChordGrammar

open Scalar

variable {α : Type} [Scalar α]

def transposePitch (pitch n : α) : α := pc (pitch + n)

def invertPitch (pitch n : α) : α := pc (n - pitch)

namespace PitchClassSet

/-- T: every voice is raised by `n`. -/
def transpose (n : α) (s : PitchClassSet α) : PitchClassSet α := s.map (· + n)

/-- I: every voice is reflected to `n` minus itself. -/
def invert (n : α) (s : PitchClassSet α) : PitchClassSet α := s.map (n - ·)

/-- K: the inversion that makes the first two voices trade places. -/
def exchange? (s : PitchClassSet α) : Option (PitchClassSet α) :=
  match s.voices with
  | first :: second :: _ => some (s.invert (first + second))
  | _ => none

/-- Whether one of the numbers from `n` on in steps of `generator` that lie below the
octave is accepted. At most `fuel` of them are tried. -/
def anyStep (generator : α) (accepts : α → Bool) : Nat → α → Bool
  | 0, _ => false
  | fuel + 1, n => n < octave && (accepts n || anyStep generator accepts fuel (n + generator))

/-- Whether a multiple of the generator below the octave is accepted, the multiples
being found by repeated addition. A generator that is not positive has none. -/
def anyMultiple (generator : α) (accepts : α → Bool) : Bool :=
  zero < generator &&
    anyStep generator accepts (units (octave / generator) + 2) zero

/-- Whether some transposition of `y` by a multiple of the generator has the content
of `x`. -/
def isTForm (generator : α) (x y : PitchClassSet α) : Bool :=
  anyMultiple generator fun n => (y.transpose n).sameContent x

/-- Whether some inversion of `y` around a multiple of the generator has the content
of `x`. -/
def isIForm (generator : α) (x y : PitchClassSet α) : Bool :=
  anyMultiple generator fun n => (y.invert n).sameContent x

/-- Q: a T-form of the stabilizer moves up by `n` and an I-form moves down. -/
def contextualTranspose? (generator : α) (s stabilizer : PitchClassSet α) (n : α) :
    Option (PitchClassSet α) :=
  if s.isTForm generator stabilizer then some (s.transpose n)
  else if s.isIForm generator stabilizer then some (s.transpose (-n))
  else none

end PitchClassSet
end ChordGrammar
