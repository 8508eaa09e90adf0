import ChordGrammar.PitchClass

/-! Octavewise voicings of a chord within `[0, range]`, in the order of an odometer
whose digits are the voices and whose first voice turns fastest. A step adds or
takes one octave, so on rounded numbers a voice may drift from its pitch class. -/
namespace ChordGrammar

open Scalar

variable {α : Type} [Scalar α]

/-- The highest placement of a pitch class that does not exceed `range`, or the
pitch class itself where there is none. -/
def highestPlacement (range pitch : α) : α :=
  let octaves := floor ((range - pc pitch) / octave)
  pc pitch + (if zero < octaves then octaves else zero) * octave

/-- The next higher voicing: the first voice with room above moves up an octave, and
all voices before it return to the bottom. -/
def increment? (range : α) : List α → Option (List α)
  | [] => none
  | v :: vs =>
    if v + octave ≤ range then some ((v + octave) :: vs)
    else (increment? range vs).map (pc v :: ·)

/-- The next lower voicing: the first voice with room below moves down an octave, and
all voices before it go to the top. -/
def decrement? (range : α) : List α → Option (List α)
  | [] => none
  | v :: vs =>
    if zero ≤ v - octave then some ((v - octave) :: vs)
    else (decrement? range vs).map (highestPlacement range v :: ·)

/-- The odometer is at its top when no voice has room above. -/
theorem increment?_eq_none_iff {range : α} {vs : List α} :
    increment? range vs = none ↔ ∀ v ∈ vs, ¬ v + octave ≤ range := by
  induction vs with
  | nil => simp [increment?]
  | cons v vs ih =>
    by_cases room : v + octave ≤ range
    · simp [increment?, room]
    · simp [increment?, room, ih]

/-- The odometer is at its bottom when no voice has room below. -/
theorem decrement?_eq_none_iff {range : α} {vs : List α} :
    decrement? range vs = none ↔ ∀ v ∈ vs, ¬ zero ≤ v - octave := by
  induction vs with
  | nil => simp [decrement?]
  | cons v vs ih =>
    by_cases room : zero ≤ v - octave
    · simp [decrement?, room]
    · simp [decrement?, room, ih]

/-- The voicings after `v`, at most `fuel` of them, on top of those already `passed`,
the latest first. -/
def climb (range : α) : Nat → List (List α) → List α → List (List α)
  | 0, passed, _ => passed
  | fuel + 1, passed, v =>
    match increment? range v with
    | none => passed
    | some w => climb range fuel (w :: passed) w

/-- More than the number of voicings of `voices`, since a voice has at most one
placement more than there are whole octaves in the range. -/
def placementBound (range : α) (voices : List α) : Nat :=
  Nat.pow (units (range / octave) + 2) voices.length

/-- The lowest voicing reached from `v` by at most `fuel` steps down, sorted, or `bottom`
where there is no step down. -/
def descend (range : α) : Nat → List α → List α → List α
  | 0, bottom, _ => bottom
  | fuel + 1, bottom, v =>
    match decrement? range v with
    | none => bottom
    | some w => descend range fuel (sort w) w

def enumerate (range : α) (voices : List α) : List (List α) :=
  let fuel := placementBound range voices
  let bottom := descend range fuel voices voices
  (climb range fuel [bottom] bottom).reverse

end ChordGrammar
