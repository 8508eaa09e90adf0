import ChordGrammar.Group
import ChordGrammar.Instruments
import ChordGrammar.Score

/-! The composition state that commands move along the score. Turtles are values:
a copy that is kept somewhere is not affected by later moves. -/
namespace ChordGrammar

open Scalar

inductive Scaling (α : Type) where
  | multiply (factor : α)
  | divide (factor : α)
  deriving DecidableEq, Repr

variable {α : Type} [Scalar α]

def Scaling.apply : Scaling α → α → α
  | .multiply factor, value => value * factor
  | .divide factor, value => value / factor

structure Turtle (α : Type) [Scalar α] where
  pitchClasses : PitchClassSet α
  voicing : Int64
  range : α
  /-- The onset, which is set when the chord is written. -/
  time : α
  duration : α
  loudness : α
  voiceLead : Bool
  realized : Option (List α)
  /-- What the written duration exceeds the duration by. -/
  overlap : α
  instruments : Instruments

namespace Turtle

def initial : Turtle α where
  pitchClasses := .empty
  voicing := 0
  range := ofNat 60
  time := zero
  duration := ofNat 1
  loudness := ofNat 60
  voiceLead := false
  realized := none
  overlap := zero
  instruments := .default

instance : Inhabited (Turtle α) := ⟨initial⟩

def scaleDuration (scaling : Scaling α) (t : Turtle α) : Turtle α :=
  { t with duration := scaling.apply t.duration }

def scaleLoudness (scaling : Scaling α) (t : Turtle α) : Turtle α :=
  { t with loudness := scaling.apply t.loudness }

def assignInstrument (voice instrument : Nat) (t : Turtle α) : Turtle α :=
  { t with instruments := t.instruments.assign voice instrument }

def transpose (n : α) (t : Turtle α) : Turtle α :=
  { t with pitchClasses := t.pitchClasses.transpose n }

/-- Exchanges the first two voices; a chord with fewer stays as it is. -/
def exchange (t : Turtle α) : Turtle α :=
  { t with pitchClasses := t.pitchClasses.exchange?.getD t.pitchClasses }

/-- What revoicing counts around: the whole semitones of the range, at least one. -/
def revoicingCycle (range : α) : Int := max (truncate range).toInt 1

/-- Moves the voicing index by `n`, counted around without overflow. -/
def revoice (n : Int64) (t : Turtle α) : Turtle α :=
  { t with voicing := .ofInt ((t.voicing.toInt + n.toInt) % revoicingCycle t.range) }

theorem revoicingCycle_pos (range : α) : 0 < revoicingCycle range := by
  simp only [revoicingCycle]
  omega

theorem revoicingCycle_le (range : α) : revoicingCycle range ≤ Int64.maxValue.toInt := by
  have fits := (truncate range).toInt_le
  have positive : 1 ≤ Int64.maxValue.toInt := by decide
  simp only [revoicingCycle]
  omega

/-- An index that is counted around fits 64 bits. -/
theorem toInt_ofInt_emod_revoicingCycle (k : Int) (range : α) :
    (Int64.ofInt (k % revoicingCycle range)).toInt = k % revoicingCycle range := by
  have positive := revoicingCycle_pos range
  have fits := revoicingCycle_le range
  have greatest := Int64.toInt_maxValue
  have low := Int.emod_nonneg k (Int.ne_of_gt positive)
  have high := Int.emod_lt_of_pos k positive
  exact Int64.toInt_ofInt_of_le (by omega) (by omega)

theorem toInt_voicing_revoice (n : Int64) (t : Turtle α) :
    (t.revoice n).voicing.toInt = (t.voicing.toInt + n.toInt) % revoicingCycle t.range :=
  toInt_ofInt_emod_revoicingCycle _ _

/-- The duration and the overlap together, or half the duration if they are negative. -/
def writtenDuration (t : Turtle α) : α :=
  let duration := t.duration + t.overlap
  if duration < zero then t.duration / ofNat 2 else duration

def note (t : Turtle α) (voice : Nat) (key : α) : Event α where
  time := t.time
  duration := t.writtenDuration
  status := noteOn
  instrument := t.instruments.forVoice voice
  key := key
  velocity := t.loudness
  pan := ofNat voice

def notes (t : Turtle α) : List (Event α) := (t.realized.getD []).mapIdx t.note

def write (t : Turtle α) (score : Score α) : Score α := t.notes.foldl Score.append score

end Turtle
end ChordGrammar
