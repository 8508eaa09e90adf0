import ChordGrammar.Attempt
import ChordGrammar.PitchClass
import ChordGrammar.Voicing.Cache

/-! The interface to whoever decides how chords sound. An oracle is any machine that
answers three kinds of question from a state of its own; nothing is assumed about
its answers, and it may refuse each of them. -/
namespace ChordGrammar

/-- A chord as the transposition of a prime form. -/
structure Classification (α : Type) [Scalar α] where
  primeForm : PitchClassSet α
  transposition : α

inductive OracleError (α : Type) [Scalar α] where
  | voicing (cause : VoicingError α)
  | nothingToClassify
  | nothingToLeadFrom (target : PitchClassSet α)
  | noCandidate (target : PitchClassSet α) (range : α)
  | refused (reason : String)

structure Oracle (α σ : Type) [Scalar α] where
  classify : PitchClassSet α → Attempt (OracleError α) σ (Classification α)
  /-- Places the transposed prime form at a voicing index within `[0, range]`. -/
  place (primeForm : PitchClassSet α) (transposition : α) (voicing : Int64) (range : α) :
    Attempt (OracleError α) σ (List α)
  /-- Finds the pitches of the target within `[0, range]` to move to from the source. -/
  lead (source : List α) (target : PitchClassSet α) (range : α) (avoidParallels : Bool) :
    Attempt (OracleError α) σ (List α)

end ChordGrammar
