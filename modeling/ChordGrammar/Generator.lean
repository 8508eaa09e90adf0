import ChordGrammar.Production
import ChordGrammar.Realization

/-! From a seed and rules to a score. A run rewrites the seed, interprets the
production, writes the captured chords and ties what overlaps. Its results replace
those of the run before only if all of it succeeds; otherwise there are none. -/
namespace ChordGrammar

variable {α σ : Type} [Scalar α]

/-- Only merging has an effect so far: leading always avoids parallel fifths, and
neither ties across cells nor rescaled times exist. -/
structure GeneratorOptions where
  mergeOverlapping : Bool := true
  avoidParallelFifths : Bool := false
  tieAcrossCells : Bool := false
  rescaleTimes : Bool := false
  deriving DecidableEq, Repr

structure Generator (α σ : Type) [Scalar α] where
  seed : String
  rules : RuleTable
  iterations : Nat
  options : GeneratorOptions
  /-- The state of the oracle, which outlives the runs. -/
  oracleState : σ
  production : String
  chords : Array (Turtle α)
  score : Score α

namespace Generator

def initial (oracleState : σ) : Generator α σ where
  seed := ""
  rules := .empty
  iterations := 3
  options := {}
  oracleState := oracleState
  production := ""
  chords := #[]
  score := .empty

def addRule (token replacement : String) (g : Generator α σ) : Generator α σ :=
  { g with rules := g.rules.add token replacement }

def produceScore (oracle : Oracle α σ) (g : Generator α σ) :
    Attempt (GenerationError α) σ (String × Array (Turtle α) × Score α) :=
  .of fun s =>
    let production := g.rules.produce g.seed g.iterations
    match (Interpreter.interpret oracle production).runFrom (.initial, s) with
    | (.error e, _, s) => (.error e, s)
    | (.ok (), i, s) =>
      match (Turtle.writeAll oracle i.chords.toList).runFrom (.empty, s) with
      | (.error e, _, s) => (.error e, s)
      | (.ok _, score, s) =>
        let score := if g.options.mergeOverlapping then score.mergeOverlapping else score
        (.ok (production, i.chords, score), s)

/-- Runs the generator, which keeps the results, or none after a failure. -/
def generate (oracle : Oracle α σ) : Attempt (GenerationError α) (Generator α σ) Unit :=
  .of fun g =>
    match (g.produceScore oracle).runFrom g.oracleState with
    | (.ok (production, chords, score), s) =>
      (.ok (), { g with production, chords, score, oracleState := s })
    | (.error e, s) =>
      (.error e, { g with production := "", chords := #[], score := .empty, oracleState := s })

/-- A run leaves the configuration as it is. -/
theorem generate_configuration (oracle : Oracle α σ) (g : Generator α σ) :
    let after := ((generate oracle).runFrom g).2
    after.seed = g.seed ∧ after.rules = g.rules ∧ after.iterations = g.iterations ∧
      after.options = g.options := by
  simp only [generate, Attempt.runFrom_of]
  split <;> exact ⟨rfl, rfl, rfl, rfl⟩

end Generator
end ChordGrammar
