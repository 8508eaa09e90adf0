import ChordGrammar.Command.Reader
import ChordGrammar.GenerationError

/-! Running commands on a turtle. The modality, which Q refers to, belongs to the
interpreter and is not kept on the stack. Only the command P asks the oracle, so it
alone can fail, and then it changes nothing but the state of the oracle. -/
namespace ChordGrammar

open Scalar

variable {α σ : Type} [Scalar α]

structure Interpreter (α : Type) [Scalar α] where
  turtle : Turtle α
  stack : List (Turtle α)
  modality : PitchClassSet α
  chords : Array (Turtle α)

namespace Interpreter

def initial : Interpreter α := ⟨.initial, [], .empty, #[]⟩

instance : Inhabited (Interpreter α) := ⟨initial⟩

def depth (i : Interpreter α) : Nat := i.stack.length

def onTurtle (f : Turtle α → Turtle α) (i : Interpreter α) : Interpreter α :=
  { i with turtle := f i.turtle }

def moveTo (chord : PitchClassSet α) (i : Interpreter α) : Interpreter α :=
  { i with turtle := { i.turtle with pitchClasses := chord }, modality := chord }

/-- Transposes in the direction of the form that the chord has under the modality; a
chord of neither form stays as it is. -/
def contextualTranspose (n : α) (t : Turtle α) (modality : PitchClassSet α) : Turtle α :=
  let moved? := t.pitchClasses.contextualTranspose? (ofNat 1) modality n
  { t with pitchClasses := moved?.getD t.pitchClasses }

def capture (copies : Nat) (voiceLead : Bool) (i : Interpreter α) : Interpreter α :=
  { i with chords := i.chords ++ Array.replicate copies { i.turtle with voiceLead } }

/-- The effect of a command that does not ask the oracle. -/
def step : Command α → Interpreter α → Interpreter α
  | .push, i => { i with stack := i.turtle :: i.stack }
  | .pop, i =>
    match i.stack with
    | [] => i
    | turtle :: stack => { i with turtle, stack }
  | .duration scaling, i => i.onTurtle (.scaleDuration scaling)
  | .instrument voice instrument, i => i.onTurtle (.assignInstrument voice instrument)
  | .exchange, i => i.onTurtle .exchange
  | .loudness scaling, i => i.onTurtle (.scaleLoudness scaling)
  | .overlap n, i => i.onTurtle fun t => { t with overlap := n }
  | .contextualTranspose n, i => i.onTurtle (contextualTranspose n · i.modality)
  | .range n, i => i.onTurtle fun t => { t with range := n }
  | .set chord, i => i.moveTo chord
  | .transpose n, i => i.onTurtle (.transpose n)
  | .revoice n, i => i.onTurtle (.revoice n)
  | .write copies voiceLead, i => i.capture copies voiceLead
  | .prime _, i | .unknown, i => i

/-- The chord that P moves to: the prime form at the bottom if the turtle has no chord
yet, else the given chord as the turtle's chord is led to it. -/
def prime (oracle : Oracle α σ) (turtle : Turtle α) (chord : PitchClassSet α) :
    Attempt (OracleError α) σ (PitchClassSet α) := do
  let classification ← oracle.classify chord
  let pitches ←
    if turtle.pitchClasses.isEmpty then oracle.place classification.primeForm zero 0 turtle.range
    else oracle.lead turtle.pitchClasses.voices chord turtle.range true
  return .ofPitches pitches

/-- Runs one command, beside the state of the oracle. A failure names the token. -/
def execute (oracle : Oracle α σ) (token : String) (command : Command α) :
    Attempt (GenerationError α) (Interpreter α × σ) Unit :=
  .of fun (i, s) =>
    match command with
    | .prime chord =>
      match (prime oracle i.turtle chord).runFrom s with
      | (.ok moved, s) => (.ok (), i.moveTo moved, s)
      | (.error cause, s) => (.error (.command token cause), i, s)
    | command => (.ok (), i.step command, s)

theorem runFrom_execute_prime (oracle : Oracle α σ) (token : String) (chord : PitchClassSet α)
    (i : Interpreter α) (s : σ) :
    (execute oracle token (.prime chord)).runFrom (i, s) =
      match (prime oracle i.turtle chord).runFrom s with
      | (.ok moved, s) => (.ok (), i.moveTo moved, s)
      | (.error cause, s) => (.error (.command token cause), i, s) := rfl

/-- Every command but P succeeds and leaves the oracle alone. -/
theorem runFrom_execute (oracle : Oracle α σ) (token : String) (command : Command α)
    (h : ∀ chord, command ≠ .prime chord) (i : Interpreter α) (s : σ) :
    (execute oracle token command).runFrom (i, s) = (.ok (), i.step command, s) := by
  cases command with
  | prime chord => exact absurd rfl (h chord)
  | _ => rfl

/-- All that a command can do: P moves or fails, and the others take their step. -/
theorem execute_cases {oracle : Oracle α σ} {token : String} {command : Command α}
    {i after : Interpreter α} {s s' : σ} {answer : Except (GenerationError α) Unit}
    (ran : (execute oracle token command).runFrom (i, s) = (answer, after, s')) :
    (∃ chord moved, command = .prime chord ∧
      (prime oracle i.turtle chord).runFrom s = (.ok moved, s') ∧
      answer = .ok () ∧ after = i.moveTo moved) ∨
    (∃ chord cause, command = .prime chord ∧
      (prime oracle i.turtle chord).runFrom s = (.error cause, s') ∧
      answer = .error (.command token cause) ∧ after = i) ∨
    ((∀ chord, command ≠ .prime chord) ∧ answer = .ok () ∧ after = i.step command ∧ s' = s) := by
  cases command with
  | prime chord =>
    rw [runFrom_execute_prime] at ran
    rcases asked : (prime oracle i.turtle chord).runFrom s with ⟨cause | moved, t⟩
    · rw [asked] at ran
      cases ran
      exact .inr (.inl ⟨chord, cause, rfl, asked, rfl, rfl⟩)
    · rw [asked] at ran
      cases ran
      exact .inl ⟨chord, moved, rfl, asked, rfl, rfl⟩
  | _ =>
    cases ran
    exact .inr (.inr ⟨nofun, rfl, rfl, rfl⟩)

def run (oracle : Oracle α σ) (tokens : List String) :
    Attempt (GenerationError α) (Interpreter α × σ) Unit :=
  tokens.forM fun token => execute oracle token (.ofToken token)

theorem run_nil (oracle : Oracle α σ) : run oracle [] = pure () := rfl

theorem run_cons (oracle : Oracle α σ) (token : String) (tokens : List String) :
    run oracle (token :: tokens) =
      (do execute oracle token (.ofToken token); run oracle tokens) := by
  simp [run]

theorem run_append (oracle : Oracle α σ) (tokens others : List String) :
    run oracle (tokens ++ others) = (do run oracle tokens; run oracle others) := by
  simp [run]

def executeAll (oracle : Oracle α σ) (commands : List (String × Command α)) :
    Attempt (GenerationError α) (Interpreter α × σ) Unit :=
  commands.forM fun (token, command) => execute oracle token command

theorem executeAll_cons (oracle : Oracle α σ) (token : String) (command : Command α)
    (commands : List (String × Command α)) :
    executeAll oracle ((token, command) :: commands) =
      (do execute oracle token command; executeAll oracle commands) := by
  simp [executeAll]

/-- To run tokens is to read them all and to run the commands. -/
theorem run_eq_executeAll (oracle : Oracle α σ) (tokens : List String) :
    run oracle tokens = executeAll oracle (tokens.map fun token => (token, .ofToken token)) := by
  induction tokens with
  | nil => rfl
  | cons token tokens ih => rw [run_cons, ih, List.map_cons, executeAll_cons]

def interpret (oracle : Oracle α σ) (production : String) :
    Attempt (GenerationError α) (Interpreter α × σ) Unit :=
  run oracle (words production)

end Interpreter
end ChordGrammar
