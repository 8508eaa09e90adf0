import ChordGrammar.Interpreter.History

/-! The commands that an interpreter in use has run, each beside the state it was run in. The
interpreter does not keep them: they say what a state should be, by what has led to it. -/
namespace ChordGrammar.Interpreter

variable {α σ : Type} [Scalar α]

/-- A command that was run, and on what. -/
structure Performed (α σ : Type) [Scalar α] where
  token : String
  command : Command α
  before : Interpreter α × σ

namespace Performed

def ran (oracle : Oracle α σ) (p : Performed α σ) :
    Except (GenerationError α) Unit × Interpreter α × σ :=
  (execute oracle p.token p.command).runFrom p.before

def after (oracle : Oracle α σ) (p : Performed α σ) : Interpreter α × σ := (p.ran oracle).2

def captured (p : Performed α σ) : List (Turtle α) :=
  match p.command with
  | .write copies voiceLead => List.replicate copies { p.before.1.turtle with voiceLead }
  | _ => []

/-- The chord that S gives, and the one that P moves to if it succeeds. -/
def assigned (oracle : Oracle α σ) (p : Performed α σ) : Option (PitchClassSet α) :=
  match p.command with
  | .set chord => some chord
  | .prime chord => ((prime oracle p.before.1.turtle chord).runFrom p.before.2).1.toOption
  | _ => none

def bracket (stack : List (Turtle α)) (p : Performed α σ) : List (Turtle α) :=
  match p.command with
  | .push => p.before.1.turtle :: stack
  | .pop => stack.tail
  | _ => stack

def opens (p : Performed α σ) : Bool :=
  match p.command with
  | .push => true
  | _ => false

/-- Whether it takes a turtle off the stack; `]` finds none on an empty one. -/
def closes (p : Performed α σ) : Bool :=
  match p.command with
  | .pop => !p.before.1.stack.isEmpty
  | _ => false

end Performed

/-- What is performed of some commands: all up to the first that fails. -/
def perform (oracle : Oracle α σ) :
    List (String × Command α) → Interpreter α × σ → List (Performed α σ)
  | [], _ => []
  | (token, command) :: commands, start =>
    let p : Performed α σ := ⟨token, command, start⟩
    match p.ran oracle with
    | (.ok _, next) => p :: perform oracle commands next
    | (.error _, _) => [p]

def Action.commands : Action α → List (String × Command α)
  | .interpret production => (words production).map fun token => (token, .ofToken token)
  | .execute token command => [(token, command)]

def trace (oracle : Oracle α σ) : List (Action α) → Interpreter α × σ → List (Performed α σ)
  | [], _ => []
  | action :: later, start =>
    perform oracle action.commands start ++ trace oracle later ((act oracle action).runFrom start).2

/-- Each command is run in the state that the one before it leaves. -/
inductive Linked (oracle : Oracle α σ) :
    Interpreter α × σ → List (Performed α σ) → Interpreter α × σ → Prop where
  | nil (state : Interpreter α × σ) : Linked oracle state [] state
  | cons {p : Performed α σ} {performed : List (Performed α σ)} {final : Interpreter α × σ}
      (rest : Linked oracle (p.after oracle) performed final) :
      Linked oracle p.before (p :: performed) final

theorem act_eq_executeAll (oracle : Oracle α σ) (action : Action α) :
    act oracle action = executeAll oracle action.commands := by
  cases action with
  | interpret production => exact run_eq_executeAll oracle (words production)
  | execute token command => simp [act, Action.commands, executeAll]

theorem after_append (oracle : Oracle α σ) (history later : List (Action α))
    (start : Interpreter α × σ) :
    after oracle (history ++ later) start = after oracle later (after oracle history start) :=
  List.foldl_append

theorem trace_append (oracle : Oracle α σ) (history later : List (Action α))
    (start : Interpreter α × σ) :
    trace oracle (history ++ later) start =
      trace oracle history start ++ trace oracle later (after oracle history start) := by
  induction history generalizing start with
  | nil => rfl
  | cons action history ih =>
    rw [List.cons_append, trace, ih, trace, List.append_assoc, after_cons]

namespace Linked

variable {oracle : Oracle α σ} {start state final : Interpreter α × σ}
  {performed earlier later : List (Performed α σ)}

theorem append (first : Linked oracle start earlier state) (rest : Linked oracle state later final) :
    Linked oracle start (earlier ++ later) final := by
  induction first with
  | nil => exact rest
  | cons _ ih => exact .cons (ih rest)

theorem split (linked : Linked oracle start performed final) (n : Nat) :
    ∃ state, Linked oracle start (performed.take n) state ∧
      Linked oracle state (performed.drop n) final := by
  induction linked generalizing n with
  | nil state => exact ⟨state, by simpa using .nil state, by simpa using .nil state⟩
  | @cons p performed final rest ih =>
    cases n with
    | zero => exact ⟨p.before, .nil _, .cons rest⟩
    | succ n =>
      obtain ⟨state, first, last⟩ := ih n
      exact ⟨state, .cons first, last⟩

end Linked

/-- The commands of a call lead to where the call ends, whether or not it fails. -/
theorem linked_perform (oracle : Oracle α σ) (commands : List (String × Command α))
    (start : Interpreter α × σ) :
    Linked oracle start (perform oracle commands start)
      ((executeAll oracle commands).runFrom start).2 := by
  induction commands generalizing start with
  | nil => exact .nil start
  | cons head commands ih =>
    obtain ⟨token, command⟩ := head
    rw [executeAll_cons, Attempt.runFrom_bind, perform]
    rcases ran : (execute oracle token command).runFrom start with ⟨e | done, next⟩
    · have stopped : Linked oracle (Performed.after oracle ⟨token, command, start⟩) [] next := by
        simp only [Performed.after, Performed.ran, ran]
        exact .nil next
      simpa [Performed.ran, ran] using Linked.cons stopped
    · have continued : Linked oracle (Performed.after oracle ⟨token, command, start⟩)
          (perform oracle commands next) ((executeAll oracle commands).runFrom next).2 := by
        simp only [Performed.after, Performed.ran, ran]
        exact ih next
      simpa [Performed.ran, ran] using Linked.cons continued

theorem linked_trace (oracle : Oracle α σ) (history : List (Action α))
    (start : Interpreter α × σ) :
    Linked oracle start (trace oracle history start) (after oracle history start) := by
  induction history generalizing start with
  | nil => exact .nil start
  | cons action history ih =>
    rw [trace, after_cons, act_eq_executeAll]
    exact (linked_perform oracle action.commands start).append (ih _)

end ChordGrammar.Interpreter
