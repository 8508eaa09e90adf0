import ChordGrammar.Oracle

/-! What ends a generation. Unknown tokens do not; all failures begin with an oracle
that refuses, or that answers with pitches of another chord. -/
namespace ChordGrammar

variable (α : Type) [Scalar α]

inductive GenerationError where
  | command (token : String) (cause : OracleError α)
  | realization (index : Nat) (chord : PitchClassSet α) (cause : OracleError α)
  /-- The pitches found do not reduce to the chord. -/
  | mismatch (index : Nat) (expected : PitchClassSet α) (realized : List α)

end ChordGrammar
