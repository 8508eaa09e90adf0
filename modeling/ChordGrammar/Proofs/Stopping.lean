import ChordGrammar.Interpreter.History
import ChordGrammar.Proofs.Agreement
import ChordGrammar.Proofs.DepthFirst

/-! Where a run stops. Nothing but an oracle that refuses can make a command fail, and a refusal
comes before the command has changed anything. So an interpreter that has failed is the one that
came to the failing token, whatever would have followed, and it can be used further. -/
namespace ChordGrammar.Interpreter

variable {α σ : Type} [Scalar α] {oracle : Oracle α σ} {start : Interpreter α × σ}
  {token : String} {command : Command α} {tokens : List String} {e : GenerationError α}
  {i : Interpreter α} {s : σ}

/-- Only P fails, and then it leaves the interpreter as it is. -/
theorem execute_eq_error_iff :
    (execute oracle token command).runFrom start = (.error e, i, s) ↔
      i = start.1 ∧ ∃ chord cause, command = .prime chord ∧ e = .command token cause ∧
        (prime oracle i.turtle chord).runFrom start.2 = (.error cause, s) := by
  constructor
  · intro failed
    rcases execute_cases failed with ⟨_, _, _, _, ok, _⟩ | ⟨chord, cause, prime, asked, error, same⟩ |
      ⟨_, ok, _⟩
    · cases ok
    · exact ⟨same, chord, cause, prime, Except.error.inj error, same ▸ asked⟩
    · cases ok
  · rintro ⟨rfl, chord, cause, rfl, rfl, asked⟩
    rw [runFrom_execute_prime, asked]

theorem run_append_of_error (failed : (run oracle tokens).runFrom start = (.error e, i, s))
    (later : List String) : (run oracle (tokens ++ later)).runFrom start = (.error e, i, s) := by
  rw [run_append, Attempt.runFrom_bind, failed]

theorem run_append_of_ok {after : Interpreter α × σ}
    (reached : (run oracle tokens).runFrom start = (.ok (), after)) (later : List String) :
    (run oracle (tokens ++ later)).runFrom start = (run oracle later).runFrom after := by
  rw [run_append, Attempt.runFrom_bind_of_ok reached]

theorem run_singleton (oracle : Oracle α σ) (token : String) :
    run oracle [token] = execute oracle token (.ofToken token) := by
  simp [run]

/-- A run fails at the first token that does. The induction is on the tokens that are run
before it. -/
theorem exists_of_run_error (failed : (run oracle tokens).runFrom start = (.error e, i, s)) :
    ∃ before token later t, tokens = before ++ token :: later ∧
      (run oracle before).runFrom start = (.ok (), i, t) ∧
      (execute oracle token (.ofToken token)).runFrom (i, t) = (.error e, i, s) := by
  induction tokens generalizing start with
  | nil => cases failed
  | cons token tokens ih =>
    rw [run_cons, Attempt.runFrom_bind] at failed
    rcases first : (execute oracle token (.ofToken token)).runFrom start with ⟨e' | done, next⟩
    · rw [first] at failed
      cases failed
      obtain ⟨rfl, -⟩ := execute_eq_error_iff.mp first
      exact ⟨[], token, tokens, start.2, rfl, rfl, first⟩
    · rw [first] at failed
      obtain ⟨before, stopped, later, t, rfl, reached, refused⟩ := ih failed
      refine ⟨token :: before, stopped, later, t, rfl, ?_, refused⟩
      rw [run_cons, Attempt.runFrom_bind_of_ok first, reached]

/-- How interpreting a production comes to fail at a token, and what it leaves. -/
structure FailsAt (oracle : Oracle α σ) (start : Interpreter α × σ) (production : String)
    (before : List String) (token : String) (e : GenerationError α) (i : Interpreter α) (s : σ) :
    Prop where
  found : before ++ [token] <+: words production
  /-- The tokens before are interpreted, and the oracle refuses what the token asks for. -/
  refused : ∃ t chord cause,
    (interpret oracle (" ".intercalate before)).runFrom start = (.ok (), i, t) ∧
    Command.ofToken token = .prime chord ∧ e = .command token cause ∧
    (prime oracle i.turtle chord).runFrom t = (.error cause, s)
  first (p : List String) : p <+: before → ((run oracle p).runFrom start).1 = .ok ()
  /-- What follows is not executed, so anything could follow. -/
  last (p : List String) : before ++ [token] <+: p →
    (run oracle p).runFrom start = (.error e, i, s) ∧
    callsMade oracle p start.1 start.2 = callsMade oracle (before ++ [token]) start.1 start.2
  continues (history : List (Action α)) :
    after oracle (.interpret production :: history) start = after oracle history (i, s)

theorem interpret_intercalate {production : String} {before : List String}
    (oracle : Oracle α σ) (found : before <+: words production) :
    interpret oracle (" ".intercalate before) = run oracle before := by
  rw [interpret, words_intercalate]
  intro token member
  exact isWord_of_mem_words (found.subset member)

theorem callsMade_append_of_error (failed : ((run oracle tokens).runFrom start).1 = .error e)
    (later : List String) :
    callsMade oracle (tokens ++ later) start.1 start.2 =
      callsMade oracle tokens start.1 start.2 := by
  have recorded := run_recorded oracle tokens start.1 start.2
  rw [failed] at recorded
  rw [callsMade, run_append_of_error recorded later]

theorem failsAt_of_run {production : String} {before later : List String} {t : σ}
    (found : words production = before ++ token :: later)
    (reached : (run oracle before).runFrom start = (.ok (), i, t))
    (refused : (execute oracle token (.ofToken token)).runFrom (i, t) = (.error e, i, s)) :
    FailsAt oracle start production before token e i s := by
  have stopped : (run oracle (before ++ [token])).runFrom start = (.error e, i, s) := by
    rw [run_append_of_ok reached, run_singleton, refused]
  have found : before ++ [token] <+: words production := ⟨later, by simp [found]⟩
  constructor
  case found => exact found
  case refused =>
    obtain ⟨-, chord, cause, prime, named, asked⟩ := execute_eq_error_iff.mp refused
    refine ⟨t, chord, cause, ?_, prime, named, asked⟩
    rw [interpret_intercalate oracle ((List.prefix_append before [token]).trans found), reached]
  case first =>
    rintro p ⟨rest, rfl⟩
    rcases ran : (run oracle p).runFrom start with ⟨e' | done, next⟩
    · rw [run_append_of_error ran rest] at reached
      cases reached
    · rfl
  case last =>
    rintro p ⟨rest, rfl⟩
    exact ⟨run_append_of_error stopped rest,
      callsMade_append_of_error (congrArg Prod.fst stopped) rest⟩
  case continues =>
    intro history
    obtain ⟨rest, whole⟩ := found
    have failed : (interpret oracle production).runFrom start = (.error e, i, s) := by
      rw [interpret, ← whole, run_append_of_error stopped rest]
    rw [after_cons, act, failed]

/-- A command that fails is a P that the oracle refuses, and leaves the turtle, the stack, the
modality and the captured chords as they were. Interpreting fails exactly if some token does,
and leaves what the tokens before it have led to. -/
theorem interpret_fails_atomically (oracle : Oracle α σ) (start : Interpreter α × σ) :
    (∀ token command e i s,
      (execute oracle token command).runFrom start = (.error e, i, s) ↔
        i = start.1 ∧ ∃ chord cause, command = .prime chord ∧ e = .command token cause ∧
          (prime oracle i.turtle chord).runFrom start.2 = (.error cause, s)) ∧
    ∀ production e i s,
      (interpret oracle production).runFrom start = (.error e, i, s) ↔
        ∃ before token, FailsAt oracle start production before token e i s := by
  refine ⟨fun token command e i s => execute_eq_error_iff, fun production e i s => ⟨?_, ?_⟩⟩
  · intro failed
    obtain ⟨before, token, later, t, found, reached, refused⟩ := exists_of_run_error failed
    exact ⟨before, token, failsAt_of_run found reached refused⟩
  · rintro ⟨before, token, fails⟩
    exact (fails.last (words production) fails.found).1

end ChordGrammar.Interpreter
