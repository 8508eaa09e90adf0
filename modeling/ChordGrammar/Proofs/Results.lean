import ChordGrammar.Generator.History
import ChordGrammar.Oracle.LeastMotion
import ChordGrammar.Scalar.Float

/-! The results of a generator are all or nothing. Whatever the oracle does and whenever
it fails, what can be read after a history of actions comes from the latest run as a
whole, or there is nothing to read. -/
namespace ChordGrammar.Generator

variable {α σ : Type} [Scalar α] {oracle : Oracle α σ}

/-- What a run that succeeds has to leave: the production of the seed, the chords captured
in its interpretation, and the score that they are written into. -/
def Completes (oracle : Oracle α σ) (g : Generator α σ) (r : Results α) : Prop :=
  ∃ i s written score after,
    r.production = g.rules.produce g.seed g.iterations ∧
    (Interpreter.interpret oracle r.production).runFrom (.initial, g.oracleState) = (.ok (), i, s) ∧
    r.chords = i.chords ∧
    (Turtle.writeAll oracle r.chords.toList).runFrom (.empty, s) = (.ok written, score, after) ∧
    r.score = if g.options.mergeOverlapping then score.mergeOverlapping else score

/-- Why a run fails: some token of the production does, or some chord that was captured. -/
inductive Fails (oracle : Oracle α σ) (g : Generator α σ) (e : GenerationError α) : Prop where
  | interpreting {i : Interpreter α} {s : σ}
      (stopped : (Interpreter.interpret oracle (g.rules.produce g.seed g.iterations)).runFrom
        (.initial, g.oracleState) = (.error e, i, s))
  | writing {i : Interpreter α} {s after : σ} {score : Score α}
      (interpreted : (Interpreter.interpret oracle (g.rules.produce g.seed g.iterations)).runFrom
        (.initial, g.oracleState) = (.ok (), i, s))
      (stopped : (Turtle.writeAll oracle i.chords.toList).runFrom (.empty, s) =
        (.error e, score, after))

/-- How a run ends, and what it leaves. -/
def Leaves (oracle : Oracle α σ) (g : Generator α σ) (r : Results α) : Prop :=
  (∃ e, ((generate oracle).runFrom g).1 = .error e ∧ Fails oracle g e ∧ r = noResults) ∨
    ((generate oracle).runFrom g).1 = .ok () ∧ Completes oracle g r

theorem generate_leaves (oracle : Oracle α σ) (g : Generator α σ) :
    Leaves oracle g ((generate oracle).runFrom g).2.results := by
  simp only [Leaves, generate, produceScore, Attempt.runFrom_of]
  rcases interpreted : (Interpreter.interpret oracle
    (g.rules.produce g.seed g.iterations)).runFrom (.initial, g.oracleState) with ⟨e | done, i, s⟩
  · exact .inl ⟨e, rfl, .interpreting interpreted, rfl⟩
  · simp only
    rcases wrote : (Turtle.writeAll oracle i.chords.toList).runFrom (.empty, s) with
      ⟨e | written, score, after⟩
    · exact .inl ⟨e, rfl, .writing interpreted wrote, rfl⟩
    · exact .inr ⟨rfl, i, s, written, score, after, rfl, interpreted, rfl, wrote, rfl⟩

theorem Completes.production {g : Generator α σ} {r : Results α} (complete : Completes oracle g r) :
    r.production = g.rules.produce g.seed g.iterations := by
  obtain ⟨i, s, written, score, after, production, -⟩ := complete
  exact production

theorem generate_of_empty (oracle : Oracle α σ) {g : Generator α σ}
    (empty : g.rules.produce g.seed g.iterations = "") :
    (generate oracle).runFrom g =
      (.ok (), { g with production := "", chords := #[], score := .empty }) := by
  have interpreted : Interpreter.interpret oracle "" = pure () := Interpreter.run_nil oracle
  have wrote : Turtle.writeAll oracle [] = pure [] := rfl
  simp only [generate, produceScore, Attempt.runFrom_of, empty, interpreted, Attempt.runFrom_pure,
    Interpreter.initial, wrote, Score.mergeOverlapping_empty, ite_self]

theorem act_results {action : Action} (quiet : action ≠ .generate) (g : Generator α σ) :
    (g.act oracle action).results = g.results := by
  cases action with
  | generate => exact absurd rfl quiet
  | _ => rfl

theorem after_results {history : List Action} (quiet : .generate ∉ history) (g : Generator α σ) :
    (after oracle history g).results = g.results := by
  induction history generalizing g with
  | nil => rfl
  | cons action history ih =>
    have first : action ≠ .generate := fun same => quiet (same ▸ List.mem_cons_self)
    have rest : .generate ∉ history := fun member => quiet (List.mem_cons_of_mem action member)
    exact (ih rest (g.act oracle action)).trans (act_results first g)

/-- The generator as it was when it was run for the last time. -/
def LatestRun (oracle : Oracle α σ) (s : σ) (history : List Action) (called : Generator α σ) :
    Prop :=
  ∃ before later, history = before ++ .generate :: later ∧ .generate ∉ later ∧
    called = after oracle before (initial s)

theorem exists_latestRun (oracle : Oracle α σ) (s : σ) {history : List Action}
    (run : .generate ∈ history) : ∃ called, LatestRun oracle s history called := by
  obtain ⟨later, before, split, quiet⟩ := List.eq_append_cons_of_mem (List.mem_reverse.mpr run)
  refine ⟨_, before.reverse, later.reverse, ?_, mt List.mem_reverse.mp quiet, rfl⟩
  rw [← List.reverse_reverse history, split, List.reverse_append, List.reverse_cons,
    List.append_assoc, List.singleton_append]

theorem LatestRun.results {s : σ} {history : List Action} {called : Generator α σ}
    (latest : LatestRun oracle s history called) :
    (after oracle history (initial s)).results = ((generate oracle).runFrom called).2.results := by
  obtain ⟨before, later, rfl, quiet, rfl⟩ := latest
  rw [after_append]
  exact after_results quiet _

theorem LatestRun.leaves {s : σ} {history : List Action} {called : Generator α σ}
    (latest : LatestRun oracle s history called) :
    Leaves oracle called (after oracle history (initial s)).results := by
  rw [latest.results]
  exact generate_leaves oracle called

/-- Before the first run there are no results. After it they are those of the latest run,
all of them or none, and none exactly if it failed or had an empty production, from which a
run succeeds. A run does not touch the configuration. -/
theorem results_all_or_nothing (oracle : Oracle α σ) (s : σ) (history : List Action) :
    let results := (after oracle history (initial s)).results
    ((.generate ∉ history ∧ results = noResults) ∨
      ∃ called, LatestRun oracle s history called ∧ Leaves oracle called results) ∧
    (results = noResults ↔ .generate ∉ history ∨
      ∃ called, LatestRun oracle s history called ∧
        (((generate oracle).runFrom called).1 ≠ .ok () ∨
          called.rules.produce called.seed called.iterations = "")) ∧
    (∀ g : Generator α σ, g.rules.produce g.seed g.iterations = "" →
      ((generate oracle).runFrom g).1 = .ok () ∧
        ((generate oracle).runFrom g).2.results = noResults) ∧
    ∀ g : Generator α σ,
      let after := ((generate oracle).runFrom g).2
      after.seed = g.seed ∧ after.rules = g.rules ∧ after.iterations = g.iterations ∧
        after.options = g.options := by
  intro results
  have unrun (quiet : .generate ∉ history) : results = noResults := after_results quiet (initial s)
  refine ⟨?_, ⟨fun none => ?_, ?_⟩, fun g empty => ?_, generate_configuration oracle⟩
  · by_cases run : .generate ∈ history
    · obtain ⟨called, latest⟩ := exists_latestRun oracle s run
      exact .inr ⟨called, latest, latest.leaves⟩
    · exact .inl ⟨run, unrun run⟩
  · by_cases run : .generate ∈ history
    · obtain ⟨called, latest⟩ := exists_latestRun oracle s run
      refine .inr ⟨called, latest, ?_⟩
      rcases latest.leaves with ⟨e, failed, -⟩ | ⟨-, complete⟩
      · exact .inl (by rw [failed]; exact nofun)
      · exact .inr (complete.production.symm.trans (congrArg Results.production none))
    · exact .inl run
  · rintro (quiet | ⟨called, latest, unsuccessful⟩)
    · exact unrun quiet
    · rcases unsuccessful with failed | empty
      · rcases latest.leaves with ⟨e, -, -, none⟩ | ⟨succeeded, -⟩
        · exact none
        · exact absurd succeeded failed
      · exact latest.results.trans (congrArg (·.2.results) (generate_of_empty oracle empty))
  · rw [generate_of_empty oracle empty]
    exact ⟨rfl, rfl⟩

/-- The notes of the first run are gone after the second one, which has nothing to produce and
succeeds. -/
theorem results_all_or_nothing_emptied :
    let history : List Action := [.setSeed "S(0,7) R7 W", .generate, .setSeed ""]
    let g : Generator Float (VoicingCache Float) := after leastMotion history (initial .empty)
    g.score.size = 2 ∧ g.rules.produce g.seed g.iterations = "" ∧
      ((generate leastMotion).runFrom g).1 = .ok () ∧
      ((generate leastMotion).runFrom g).2.results = noResults := by
  intro history g
  have empty : g.rules.produce g.seed g.iterations = "" := by decide +kernel
  obtain ⟨-, -, emptied, -⟩ :=
    results_all_or_nothing leastMotion (.empty : VoicingCache Float) history
  exact ⟨by decide +kernel, empty, emptied g empty⟩

/-- The first run of a new generator succeeds and leaves nothing, since there is nothing to
produce. So having no results does not mean that no run succeeded. -/
theorem noResults_after_success :
    let fresh : Generator Float (VoicingCache Float) := initial .empty
    let history : List Action := [.generate]
    let results := (after leastMotion history fresh).results
    ((generate leastMotion).runFrom fresh).1 = .ok () ∧ results = noResults ∧
      ¬ (results = noResults ↔ .generate ∉ history ∨
        ∃ called : Generator Float (VoicingCache Float),
          LatestRun leastMotion .empty history called ∧
            ((generate leastMotion).runFrom called).1 ≠ .ok ()) := by
  intro fresh history results
  have run := generate_of_empty leastMotion (g := fresh) (by decide)
  have succeeds : ((generate leastMotion).runFrom fresh).1 = .ok () := congrArg Prod.fst run
  have nothing : results = noResults := congrArg (·.2.results) run
  refine ⟨succeeds, nothing, fun claimed => ?_⟩
  rcases claimed.mp nothing with unrun | ⟨called, ⟨before, later, split, -, rfl⟩, failed⟩
  · exact unrun List.mem_cons_self
  · obtain ⟨rfl, rfl⟩ : before = [] ∧ later = [] := by
      simpa [history, List.cons_eq_append_iff] using split
    exact failed succeeds

end ChordGrammar.Generator
