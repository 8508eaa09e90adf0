import ChordGrammar.Attempt
import ChordGrammar.Voicing.Odometer

/-! Voicings kept after their first enumeration. The key is the canonical content of
the chord and the range without the sign of a zero, compared as numbers and not as
quantities. An entry carries the proof that it holds what enumeration gives. -/
namespace ChordGrammar

open Scalar

variable {α : Type} [Scalar α]

inductive VoicingError (α : Type) [Scalar α] where
  | emptyChord
  | noVoicing (chord : PitchClassSet α) (range : α)

structure VoicingEntry (α : Type) [Scalar α] where
  voices : List α
  range : α
  voicings : List (List α)
  sound : voicings = enumerate range voices

structure VoicingCache (α : Type) [Scalar α] where
  entries : List (VoicingEntry α)

namespace VoicingCache

def empty : VoicingCache α := ⟨[]⟩

def size (cache : VoicingCache α) : Nat := cache.entries.length

def find? (cache : VoicingCache α) (voices : List α) (range : α) : Option (VoicingEntry α) :=
  cache.entries.find? fun entry => entry.voices = voices ∧ entry.range = range

/-- Whether the chord has no placement, for a voice lies above the range even at the
bottom. -/
def exceeds (chord : PitchClassSet α) (range : α) : Bool :=
  chord.canonical.voices.any (range < ·)

def voicings (chord : PitchClassSet α) (range : α) :
    Attempt (VoicingError α) (VoicingCache α) (List (List α)) :=
  .of fun cache =>
    if chord.isEmpty then (.error .emptyChord, cache)
    else
      let voices := chord.canonical.voices
      let bound := unsignedZero range
      match cache.find? voices bound with
      | some entry => (.ok entry.voicings, cache)
      | none =>
        if exceeds chord range then (.error (.noVoicing chord.canonical range), cache)
        else
          let entry : VoicingEntry α := ⟨voices, bound, enumerate bound voices, rfl⟩
          (.ok entry.voicings, ⟨entry :: cache.entries⟩)

/-- The voicing with a given index, which counts around the voicings in both
directions. -/
def voice (chord : PitchClassSet α) (index : Int64) (range : α) :
    Attempt (VoicingError α) (VoicingCache α) (List α) := do
  let all ← voicings chord range
  return all.getD (index.toInt % all.length).toNat []

end VoicingCache
end ChordGrammar
