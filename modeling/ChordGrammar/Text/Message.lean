import ChordGrammar.Generator
import ChordGrammar.Scalar.Float
import ChordGrammar.Text.Number

/-! The texts of chords, turtles, events and errors. Errors name chords and numbers
in running text; the pitches of a wrong realization are printed as a list. -/
namespace ChordGrammar

def PitchClassSet.text (s : PitchClassSet Float) : String :=
  "(" ++ ", ".intercalate (s.voices.map NumberStyle.plain.write) ++ ")"

def Turtle.text (t : Turtle Float) : String :=
  "t: " ++ fixedPlaces 9 3 t.time ++ "  d: " ++ fixedPlaces 9 3 t.duration ++
    "  l: " ++ fixedPlaces 9 3 t.loudness ++ "  vl: " ++ toString t.voiceLead ++
    "  R: " ++ fixedPlaces 9 3 t.range ++ "  v: " ++ toString t.voicing.toInt ++
    "  O: " ++ t.pitchClasses.text

def Event.text (e : Event Float) : String :=
  "i: " ++ padLeft 3 ' ' (toString e.instrument) ++ "  t: " ++ fixedPlaces 9 4 e.time ++
    "  d: " ++ fixedPlaces 9 4 e.duration ++ "  s: " ++ padLeft 3 ' ' (toString e.status.toNat) ++
    "  k: " ++ fixedPlaces 5 2 e.key ++ "  v: " ++ fixedPlaces 5 2 e.velocity ++
    "  p: " ++ fixedPlaces 5 2 e.pan

def ChordNameError.message : ChordNameError → String
  | .emptyName => "invalid chord name - string is empty."
  | .noRoot name letter =>
    "invalid chord name '" ++ name ++ "' - root note character '" ++ letter.toString ++
      "' is invalid."
  | .unknownSuffix suffix =>
    "Invalid chord identifier '" ++ suffix ++ "'. Valid chords are: " ++ chordNames

def VoicingError.message : VoicingError Float → String
  | .emptyChord => "can not voice an empty chord"
  | .noVoicing chord range =>
    "chord " ++ chord.text ++ " has no voicing within range " ++ NumberStyle.plain.write range

def OracleError.message : OracleError Float → String
  | .voicing cause => cause.message
  | .nothingToClassify => "can not classify an empty pitch-class set"
  | .nothingToLeadFrom target => "can not lead voices from an empty chord to " ++ target.text
  | .noCandidate target range =>
    "no voicing of " ++ target.text ++ " within range " ++ NumberStyle.plain.write range
  | .refused reason => reason

def GenerationError.message : GenerationError Float → String
  | .command token cause => "failed to interpret command '" ++ token ++ "': " ++ cause.message
  | .realization index chord cause =>
    "failed to realize chord #" ++ toString index ++ " " ++ chord.text ++ ": " ++ cause.message
  | .mismatch index expected realized =>
    "internal consistency violation: chord #" ++ toString index ++ " " ++ expected.text ++
      " was realized as [" ++ ", ".intercalate (realized.map NumberStyle.listed.write) ++ "]"

end ChordGrammar
