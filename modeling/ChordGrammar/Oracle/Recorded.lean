import ChordGrammar.Oracle

/-! Oracles built from oracles: one that records every question, and one that has
some answers fixed in advance. -/
namespace ChordGrammar

variable {α σ : Type} [Scalar α]

inductive Call (α : Type) [Scalar α] where
  | classify (chord : PitchClassSet α)
  | place (primeForm : PitchClassSet α) (transposition : α) (voicing : Int64) (range : α)
  | lead (source : List α) (target : PitchClassSet α) (range : α) (avoidParallels : Bool)

def record {β : Type} (call : Call α) (m : Attempt (OracleError α) σ β) :
    Attempt (OracleError α) (σ × Array (Call α)) β :=
  .of fun s => ((m.runFrom s.1).1, (m.runFrom s.1).2, s.2.push call)

/-- The same oracle, which keeps a record of its calls in order. -/
def Oracle.recorded (oracle : Oracle α σ) : Oracle α (σ × Array (Call α)) where
  classify chord := record (.classify chord) (oracle.classify chord)
  place primeForm transposition voicing range :=
    record (.place primeForm transposition voicing range)
      (oracle.place primeForm transposition voicing range)
  lead source target range avoidParallels :=
    record (.lead source target range avoidParallels)
      (oracle.lead source target range avoidParallels)

/-- An answer that does not depend on the question. -/
inductive FixedAnswer (α : Type) where
  | pitches (pitches : List α)
  | refusal (reason : String)

structure FixedAnswers (α : Type) where
  classify : Option (FixedAnswer α) := none
  place : Option (FixedAnswer α) := none
  lead : Option (FixedAnswer α) := none

def fixedOrAsk {β : Type} (answer : Option (FixedAnswer α)) (read : List α → β)
    (m : Attempt (OracleError α) σ β) : Attempt (OracleError α) σ β :=
  match answer with
  | none => m
  | some (.pitches pitches) => pure (read pitches)
  | some (.refusal reason) => throw (.refused reason)

/-- The same oracle, but for the answers that are fixed. A fixed classification is a
chord at transposition zero. -/
def Oracle.withAnswers (oracle : Oracle α σ) (fixed : FixedAnswers α) : Oracle α σ where
  classify chord :=
    fixedOrAsk fixed.classify (fun pitches => ⟨.ofPitches pitches, Scalar.zero⟩)
      (oracle.classify chord)
  place primeForm transposition voicing range :=
    fixedOrAsk fixed.place id (oracle.place primeForm transposition voicing range)
  lead source target range avoidParallels :=
    fixedOrAsk fixed.lead id (oracle.lead source target range avoidParallels)

end ChordGrammar
