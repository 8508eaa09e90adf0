import ChordGrammar.Oracle.LeastMotion
import ChordGrammar.Proofs.Agreement
import ChordGrammar.Scalar.Float

/-! What brackets keep apart. Tokens that close no bracket opened before them neither read
nor change the turtles that were on the stack before. So a pair of brackets around
balanced tokens gives the turtle and the stack back, while captured chords, the modality
and the questions put to the oracle come through as if there were no brackets. -/
namespace ChordGrammar

variable {α σ : Type} [Scalar α]

/-- No prefix closes more brackets than it opens and than were open before it. -/
def Covered (depth : Nat) (tokens : List String) : Prop :=
  ∀ p, p <+: tokens → p.count "]" ≤ depth + p.count "["

/-- No prefix closes more brackets than it opens, and in the end as many are closed. -/
def Balanced (tokens : List String) : Prop :=
  (∀ p, p <+: tokens → p.count "]" ≤ p.count "[") ∧ tokens.count "]" = tokens.count "["

theorem balanced_iff_take {tokens : List String} :
    Balanced tokens ↔
      (∀ n ≤ tokens.length, (tokens.take n).count "]" ≤ (tokens.take n).count "[") ∧
        tokens.count "]" = tokens.count "[" := by
  refine and_congr_left fun _ => ⟨fun all n _ => all _ (List.take_prefix n tokens), ?_⟩
  intro all p start
  rw [List.prefix_iff_eq_take.mp start]
  exact all p.length start.length_le

instance (tokens : List String) : Decidable (Balanced tokens) :=
  decidable_of_iff _ balanced_iff_take.symm

theorem Covered.of_prefix {depth : Nat} {tokens p : List String} (covered : Covered depth tokens)
    (start : p <+: tokens) : Covered depth p :=
  fun q inner => covered q (inner.trans start)

theorem Covered.closing {depth : Nat} {tokens : List String}
    (covered : Covered depth ("]" :: tokens)) : 0 < depth := by
  have first : 1 ≤ depth + 0 := covered ["]"] (List.cons_prefix_cons.mpr ⟨rfl, List.nil_prefix⟩)
  exact first

theorem Covered.tail {depth next : Nat} {token : String} {tokens : List String}
    (covered : Covered depth (token :: tokens))
    (moved : next + [token].count "]" = depth + [token].count "[") : Covered next tokens := by
  intro p start
  have longer := covered (token :: p) (List.cons_prefix_cons.mpr ⟨rfl, start⟩)
  rw [← List.singleton_append, List.count_append, List.count_append] at longer
  omega

theorem Balanced.covered {tokens : List String} (balanced : Balanced tokens) : Covered 0 tokens := by
  intro p start
  rw [Nat.zero_add]
  exact balanced.1 p start

namespace Interpreter

def onto (below : List (Turtle α)) (i : Interpreter α) : Interpreter α :=
  { i with stack := i.stack ++ below }

@[simp] theorem turtle_onto (below : List (Turtle α)) (i : Interpreter α) :
    (i.onto below).turtle = i.turtle := rfl

def outcomeOnto {ε β : Type} (below : List (Turtle α)) (r : Except ε β × Interpreter α × σ) :
    Except ε β × Interpreter α × σ :=
  (r.1, r.2.1.onto below, r.2.2)

theorem step_onto (below : List (Turtle α)) (i : Interpreter α) {command : Command α}
    (covered : command = .pop → i.stack ≠ []) :
    (i.onto below).step command = (i.step command).onto below := by
  cases command with
  | pop =>
    obtain ⟨turtle, stack, modality, chords⟩ := i
    cases stack with
    | nil => exact absurd rfl (covered rfl)
    | cons top rest => rfl
  | _ => rfl

/-- Only brackets touch the stack. -/
theorem stack_step (i : Interpreter α) {command : Command α} (opens : command ≠ .push)
    (closes : command ≠ .pop) : (i.step command).stack = i.stack := by
  cases command with
  | push => exact absurd rfl opens
  | pop => exact absurd rfl closes
  | _ => rfl

variable {oracle : Oracle α σ} {token : String} {command : Command α} {i : Interpreter α} {s : σ}

theorem execute_onto (below : List (Turtle α)) (covered : command = .pop → i.stack ≠ []) :
    (execute oracle token command).runFrom (i.onto below, s) =
      outcomeOnto below ((execute oracle token command).runFrom (i, s)) := by
  cases command with
  | prime chord =>
    rw [runFrom_execute_prime, runFrom_execute_prime, turtle_onto]
    rcases (prime oracle i.turtle chord).runFrom s with ⟨cause | moved, s'⟩ <;> rfl
  | pop =>
    rw [runFrom_execute oracle token .pop nofun, runFrom_execute oracle token .pop nofun,
      step_onto below i covered]
    rfl
  | _ => rfl

theorem stack_execute {answer : Except (GenerationError α) Unit} {after : Interpreter α} {s' : σ}
    (ran : (execute oracle token command).runFrom (i, s) = (answer, after, s'))
    (opens : command ≠ .push) (closes : command ≠ .pop) : after.stack = i.stack := by
  rcases execute_cases ran with ⟨chord, moved, -, -, -, rfl⟩ | ⟨chord, cause, -, -, -, rfl⟩ |
    ⟨-, -, rfl, -⟩
  · rfl
  · rfl
  · exact stack_step i opens closes

theorem depth_execute {answer : Except (GenerationError α) Unit} {after : Interpreter α} {s' : σ}
    (ran : (execute oracle token (.ofToken token)).runFrom (i, s) = (answer, after, s'))
    (covered : token = "]" → i.stack ≠ []) :
    after.depth + [token].count "]" = i.depth + [token].count "[" := by
  by_cases opens : token = "["
  · subst opens
    cases ran
    rfl
  · by_cases closes : token = "]"
    · subst closes
      obtain ⟨turtle, stack, modality, chords⟩ := i
      cases stack with
      | nil => exact absurd rfl (covered rfl)
      | cons top rest =>
        cases ran
        rfl
    · have kept := stack_execute ran (mt Command.ofToken_eq_push_iff.mp opens)
        (mt Command.ofToken_eq_pop_iff.mp closes)
      simp [depth, kept, opens, closes]

variable {tokens : List String}

theorem Covered.stack (covered : Covered i.depth (token :: tokens)) :
    token = "]" → i.stack ≠ [] := by
  rintro rfl
  exact List.ne_nil_of_length_pos covered.closing

/-- Turtles below are not read, and stay. The induction is on the tokens, over any depth. -/
theorem run_onto (below : List (Turtle α)) (covered : Covered i.depth tokens) :
    (run oracle tokens).runFrom (i.onto below, s) =
      outcomeOnto below ((run oracle tokens).runFrom (i, s)) := by
  induction tokens generalizing i s with
  | nil => rfl
  | cons token tokens ih =>
    have stack := Covered.stack covered
    rw [run_cons, Attempt.runFrom_bind, Attempt.runFrom_bind,
      execute_onto below (stack ∘ Command.ofToken_eq_pop_iff.mp)]
    rcases ran : (execute oracle token (.ofToken token)).runFrom (i, s) with ⟨e | done, after, s'⟩
    · rfl
    · exact ih (covered.tail (depth_execute ran stack))

theorem depth_run {after : Interpreter α} {s' : σ} (covered : Covered i.depth tokens)
    (ran : (run oracle tokens).runFrom (i, s) = (.ok (), after, s')) :
    after.depth + tokens.count "]" = i.depth + tokens.count "[" := by
  induction tokens generalizing i s with
  | nil =>
    cases ran
    rfl
  | cons token tokens ih =>
    rw [run_cons, Attempt.runFrom_bind] at ran
    rcases first : (execute oracle token (.ofToken token)).runFrom (i, s) with ⟨e | done, next, t⟩
    · rw [first] at ran
      cases ran
    · rw [first] at ran
      have moved := depth_execute first (Covered.stack covered)
      have rest := ih (covered.tail moved) ran
      rw [← List.singleton_append, List.count_append, List.count_append]
      omega

def grounded (i : Interpreter α) : Interpreter α := { i with stack := [] }

theorem run_grounded (oracle : Oracle α σ) (below : List (Turtle α)) (i : Interpreter α) (s : σ)
    (covered : Covered 0 tokens) :
    (run oracle tokens).runFrom ({ i with stack := below }, s) =
      outcomeOnto below ((run oracle tokens).runFrom (i.grounded, s)) :=
  run_onto (i := i.grounded) below covered

theorem run_opened (oracle : Oracle α σ) (i : Interpreter α) (s : σ) (covered : Covered 0 tokens) :
    (run oracle ("[" :: tokens)).runFrom (i, s) =
      outcomeOnto (i.turtle :: i.stack) ((run oracle tokens).runFrom (i.grounded, s)) := by
  rw [run_cons, Attempt.runFrom_bind]
  exact run_grounded oracle (i.turtle :: i.stack) i s covered

def bracketed (tokens : List String) : List String := "[" :: tokens ++ ["]"]

theorem run_bracketed (oracle : Oracle α σ) (i : Interpreter α) (s : σ)
    (balanced : Balanced tokens) :
    (run oracle (bracketed tokens)).runFrom (i, s) =
      match (run oracle tokens).runFrom (i.grounded, s) with
      | (.ok (), after, s') => (.ok (), { after with turtle := i.turtle, stack := i.stack }, s')
      | (.error e, after, s') => (.error e, after.onto (i.turtle :: i.stack), s') := by
  rw [bracketed, run_append, Attempt.runFrom_bind, run_opened oracle i s balanced.covered]
  rcases ran : (run oracle tokens).runFrom (i.grounded, s) with ⟨e | done, after, s'⟩
  · rfl
  · have level : after.stack.length + tokens.count "]" = 0 + tokens.count "[" :=
      depth_run (i := i.grounded) balanced.covered ran
    obtain ⟨turtle, stack, modality, chords⟩ := after
    have empty : stack.length = 0 := by
      rw [balanced.2, Nat.zero_add] at level
      exact Nat.add_eq_right.mp level
    obtain rfl := List.eq_nil_of_length_eq_zero empty
    rfl

/-- What brackets have to change about a run of tokens, and what not. -/
structure Isolated (oracle : Oracle α σ) (tokens : List String) (i : Interpreter α) (s : σ) :
    Prop where
  answer : ((run oracle (bracketed tokens)).runFrom (i, s)).1 = ((run oracle tokens).runFrom (i, s)).1
  restored : ((run oracle (bracketed tokens)).runFrom (i, s)).1 = .ok () →
    let alone := (run oracle tokens).runFrom (i, s)
    ((run oracle (bracketed tokens)).runFrom (i, s)).2 =
      ({ alone.2.1 with turtle := i.turtle, stack := i.stack }, alone.2.2)
  calls : callsMade oracle (bracketed tokens) i s = callsMade oracle tokens i s
  /-- The answers are the same up to any token, so a failure comes at the same one. -/
  prefixes (p : List String) : p <+: tokens →
    ((run oracle ("[" :: p)).runFrom (i, s)).1 = ((run oracle p).runFrom (i, s)).1
  /-- Up to any token, turtles from before are not read and stay where they are. -/
  untouched (p : List String) : p <+: tokens → ∀ below,
    (run oracle p).runFrom ({ i with stack := below }, s) =
      outcomeOnto below ((run oracle p).runFrom ({ i with stack := [] }, s))

/-- Brackets around balanced tokens give back the turtle and the stack. Everything else is
as without them: the answer, what is captured, the modality and the calls of the oracle. -/
theorem brackets_isolate (oracle : Oracle α σ) (i : Interpreter α) (s : σ)
    (balanced : Balanced tokens) : Isolated oracle tokens i s := by
  have covered {p : List String} (start : p <+: tokens) : Covered 0 p :=
    balanced.covered.of_prefix start
  have grounds {τ : Type} (oracle : Oracle α τ) {p : List String} (start : p <+: tokens) (s : τ) :
      (run oracle p).runFrom (i, s) =
        outcomeOnto i.stack ((run oracle p).runFrom (i.grounded, s)) :=
    run_grounded oracle i.stack i s (covered start)
  have whole := List.prefix_rfl (l := tokens)
  constructor
  case answer =>
    rw [run_bracketed oracle i s balanced, grounds oracle whole s]
    rcases (run oracle tokens).runFrom (i.grounded, s) with ⟨e | done, after, s'⟩ <;> rfl
  case restored =>
    rw [run_bracketed oracle i s balanced, grounds oracle whole s]
    rcases (run oracle tokens).runFrom (i.grounded, s) with ⟨e | done, after, s'⟩
    · exact nofun
    · exact fun _ => rfl
  case calls =>
    rw [callsMade, callsMade, run_bracketed oracle.recorded i (s, #[]) balanced,
      grounds oracle.recorded whole]
    rcases (run oracle.recorded tokens).runFrom (i.grounded, s, #[]) with ⟨e | done, after, s'⟩ <;>
      rfl
  case prefixes =>
    intro p start
    rw [run_opened oracle i s (covered start), grounds oracle start s]
    rfl
  case untouched =>
    intro p start below
    exact run_grounded oracle below i s (covered start)

theorem brackets_isolate_nested :
    let tokens := ["T2", "[", "P(2,5,9)", "W", "]", "K"]
    let i : Interpreter Float := { Interpreter.initial with stack := [.initial] }
    Balanced tokens ∧ Isolated leastMotion tokens i .empty :=
  ⟨by decide, brackets_isolate leastMotion _ _ (by decide)⟩

end Interpreter
end ChordGrammar
