import ChordGrammar.Interpreter

/-! Writing captured chords as notes. Each chord begins where the one before it has
had its duration; its pitches come from the oracle, unless it is led from a chord of
the same content, whose pitches it keeps. Whatever the pitches come from, they must
reduce to the content of the chord. -/
namespace ChordGrammar

open Scalar

variable {α σ : Type} [Scalar α]

namespace Turtle

def onsetAfter : Option (Turtle α) → α
  | none => zero
  | some prior => prior.time + prior.duration

def place (oracle : Oracle α σ) (chord : Turtle α) : Attempt (OracleError α) σ (List α) := do
  let classification ← oracle.classify chord.pitchClasses
  oracle.place classification.primeForm classification.transposition chord.voicing chord.range

def realize (oracle : Oracle α σ) (prior : Option (Turtle α)) (chord : Turtle α) :
    Attempt (OracleError α) σ (List α) :=
  match prior with
  | some { pitchClasses, realized := some pitches, .. } =>
    if chord.voiceLead then
      if pitchClasses.sameContent chord.pitchClasses then pure pitches
      else oracle.lead pitches chord.pitchClasses chord.range true
    else chord.place oracle
  | _ => chord.place oracle

theorem realize_after {oracle : Oracle α σ} {before chord : Turtle α} {pitches : List α}
    (sounding : before.realized = some pitches) :
    chord.realize oracle (some before) =
      if chord.voiceLead then
        if before.pitchClasses.sameContent chord.pitchClasses then pure pitches
        else oracle.lead pitches chord.pitchClasses chord.range true
      else chord.place oracle := by
  cases before
  cases sounding
  rfl

theorem realize_after_silence {oracle : Oracle α σ} {before chord : Turtle α}
    (silent : before.realized = none) :
    chord.realize oracle (some before) = chord.place oracle := by
  cases before
  cases silent
  rfl

theorem realize_timed (oracle : Oracle α σ) (prior : Option (Turtle α)) (chord : Turtle α)
    (start : α) : ({ chord with time := start }).realize oracle prior = chord.realize oracle prior :=
  rfl

/-- Writes chords from the given index on, beside the state of the oracle, and gives
them as they were written. What was written before a failure stays in the score. -/
def writeFrom (oracle : Oracle α σ) :
    Nat → Option (Turtle α) → List (Turtle α) →
      Attempt (GenerationError α) (Score α × σ) (List (Turtle α))
  | _, _, [] => pure []
  | index, prior, chord :: rest => do
    let timed := { chord with time := onsetAfter prior }
    let pitches ← .of fun (score, s) =>
      match (timed.realize oracle prior).runFrom s with
      | (.error cause, s) => (.error (.realization index timed.pitchClasses cause), score, s)
      | (.ok pitches, s) =>
        if (PitchClassSet.ofPitches pitches).sameContent timed.pitchClasses then
          (.ok pitches, score, s)
        else (.error (.mismatch index timed.pitchClasses pitches), score, s)
    let written := { timed with realized := some pitches }
    modify fun (score, s) => (written.write score, s)
    return written :: (← writeFrom oracle (index + 1) (some written) rest)

theorem runFrom_writeFrom_cons (oracle : Oracle α σ) (index : Nat) (prior : Option (Turtle α))
    (chord : Turtle α) (rest : List (Turtle α)) (score : Score α) (s : σ) :
    (writeFrom oracle index prior (chord :: rest)).runFrom (score, s) =
      let timed := { chord with time := onsetAfter prior }
      match (timed.realize oracle prior).runFrom s with
      | (.error cause, s) => (.error (.realization index chord.pitchClasses cause), score, s)
      | (.ok pitches, s) =>
        if (PitchClassSet.ofPitches pitches).sameContent chord.pitchClasses then
          let written := { timed with realized := some pitches }
          match (writeFrom oracle (index + 1) (some written) rest).runFrom
              (written.write score, s) with
          | (.ok others, after) => (.ok (written :: others), after)
          | (.error e, after) => (.error e, after)
        else (.error (.mismatch index chord.pitchClasses pitches), score, s) := by
  simp only [writeFrom, Attempt.runFrom_bind, Attempt.runFrom_of]
  generalize (realize oracle prior { chord with time := onsetAfter prior }).runFrom s = outcome
  obtain ⟨cause | pitches, s⟩ := outcome
  · rfl
  · by_cases same : (PitchClassSet.ofPitches pitches).sameContent chord.pitchClasses = true
    · simp only [same, if_true, Attempt.runFrom_modify, Attempt.runFrom_pure]
      generalize (writeFrom oracle (index + 1) _ rest).runFrom _ = others
      obtain ⟨e | others, after⟩ := others <;> rfl
    · simp only [same, Bool.false_eq_true, if_false]

/-- How a run ends that comes to a chord: there, or as the rest of it does. -/
inductive WriteStep (oracle : Oracle α σ) (index : Nat) (prior : Option (Turtle α))
    (chord : Turtle α) (rest : List (Turtle α)) (score : Score α) (s : σ) :
    Except (GenerationError α) (List (Turtle α)) × Score α × σ → Prop
  | refused {cause : OracleError α} {t : σ}
    (asked : (chord.realize oracle prior).runFrom s = (.error cause, t)) :
    WriteStep oracle index prior chord rest score s
      (.error (.realization index chord.pitchClasses cause), score, t)
  | mismatched {pitches : List α} {t : σ}
    (asked : (chord.realize oracle prior).runFrom s = (.ok pitches, t))
    (content : (PitchClassSet.ofPitches pitches).sameContent chord.pitchClasses = false) :
    WriteStep oracle index prior chord rest score s
      (.error (.mismatch index chord.pitchClasses pitches), score, t)
  | written {pitches : List α} {t : σ} {written : Turtle α}
    {others : Except (GenerationError α) (List (Turtle α))} {after : Score α × σ}
    (asked : (chord.realize oracle prior).runFrom s = (.ok pitches, t))
    (content : (PitchClassSet.ofPitches pitches).sameContent chord.pitchClasses = true)
    (kept : written = { chord with time := onsetAfter prior, realized := some pitches })
    (later : (writeFrom oracle (index + 1) (some written) rest).runFrom (written.write score, t) =
      (others, after)) :
    WriteStep oracle index prior chord rest score s (others.map (written :: ·), after)

theorem writeFrom_step (oracle : Oracle α σ) (index : Nat) (prior : Option (Turtle α))
    (chord : Turtle α) (rest : List (Turtle α)) (score : Score α) (s : σ) :
    WriteStep oracle index prior chord rest score s
      ((writeFrom oracle index prior (chord :: rest)).runFrom (score, s)) := by
  rw [runFrom_writeFrom_cons]
  simp only [realize_timed]
  rcases asked : (chord.realize oracle prior).runFrom s with ⟨cause | pitches, t⟩
  · exact .refused asked
  · by_cases content : (PitchClassSet.ofPitches pitches).sameContent chord.pitchClasses = true
    · simp only [if_pos content]
      rcases later : (writeFrom oracle (index + 1) _ rest).runFrom _ with ⟨e | others, after⟩
      · exact .written asked content rfl later
      · exact .written asked content rfl later
    · simp only [if_neg content]
      exact .mismatched asked (Bool.eq_false_iff.mpr content)

/-- Chords are written as those before them and then, after the last of these, the others. -/
theorem writeFrom_append (oracle : Oracle α σ) (index : Nat) (prior : Option (Turtle α))
    (chords others : List (Turtle α)) :
    writeFrom oracle index prior (chords ++ others) = do
      let written ← writeFrom oracle index prior chords
      return written ++
        (← writeFrom oracle (index + chords.length) (written.getLast?.or prior) others) := by
  induction chords generalizing index prior with
  | nil => simp [writeFrom]
  | cons chord chords ih =>
    have places : index + 1 + chords.length = index + (chord :: chords).length := by
      rw [List.length_cons]
      omega
    simp [writeFrom, ih, places, List.getLast?_cons]

def writeAll (oracle : Oracle α σ) (chords : List (Turtle α)) :
    Attempt (GenerationError α) (Score α × σ) (List (Turtle α)) :=
  writeFrom oracle 0 none chords

end Turtle
end ChordGrammar
