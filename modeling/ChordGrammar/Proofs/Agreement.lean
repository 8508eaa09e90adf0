import ChordGrammar.Generator.History
import ChordGrammar.Oracle.Recorded

/-! Two oracles side by side. Steps agree along a relation of their states if from
related states they give the same answer and end in related states. A run depends on an
oracle through its answers alone, so oracles that agree interpret, write and generate
alike, whatever else their states hold. -/
namespace ChordGrammar

namespace Attempt

variable {ε ε' ρ σ τ β γ : Type} {R : σ → τ → Prop}

/-- From related states both give the same answer and end in related states. -/
def Agrees (R : σ → τ → Prop) (m : Attempt ε σ β) (other : Attempt ε τ β) : Prop :=
  ∀ s t, R s t →
    (m.runFrom s).1 = (other.runFrom t).1 ∧ R (m.runFrom s).2 (other.runFrom t).2

def Beside (R : σ → τ → Prop) (p : ρ × σ) (q : ρ × τ) : Prop := p.1 = q.1 ∧ R p.2 q.2

theorem Agrees.outcome {m : Attempt ε σ β} {other : Attempt ε τ β} {s : σ} {t : τ}
    (agrees : m.Agrees R other) (related : R s t) :
    ∃ answer s' t', m.runFrom s = (answer, s') ∧ other.runFrom t = (answer, t') ∧ R s' t' := by
  obtain ⟨same, related⟩ := agrees s t related
  exact ⟨(m.runFrom s).1, (m.runFrom s).2, (other.runFrom t).2, rfl, same ▸ rfl, related⟩

theorem Agrees.pure (b : β) : Agrees R (Pure.pure b : Attempt ε σ β) (Pure.pure b) :=
  fun _ _ related => ⟨rfl, related⟩

theorem Agrees.throw (e : ε) :
    Agrees R (MonadExcept.throw e : Attempt ε σ β) (MonadExcept.throw e) :=
  fun _ _ related => ⟨rfl, related⟩

theorem Agrees.bind {m : Attempt ε σ β} {other : Attempt ε τ β} {f : β → Attempt ε σ γ}
    {g : β → Attempt ε τ γ} (first : m.Agrees R other) (next : ∀ b, (f b).Agrees R (g b)) :
    (m >>= f).Agrees R (other >>= g) := by
  intro s t related
  obtain ⟨answer, s', t', left, right, related⟩ := first.outcome related
  rw [runFrom_bind, runFrom_bind, left, right]
  cases answer with
  | error e => exact ⟨rfl, related⟩
  | ok b => exact next b s' t' related

theorem Agrees.mapError {m : Attempt ε σ β} {other : Attempt ε τ β} (f : ε → ε')
    (agrees : m.Agrees R other) : (m.mapError f).Agrees R (other.mapError f) := by
  intro s t related
  obtain ⟨same, related⟩ := agrees s t related
  rw [runFrom_mapError, runFrom_mapError, same]
  exact ⟨rfl, related⟩

end Attempt

open Attempt

variable {α σ τ : Type} [Scalar α] {R : σ → τ → Prop}

structure Oracle.Agrees (R : σ → τ → Prop) (oracle : Oracle α σ) (other : Oracle α τ) : Prop where
  classify (chord : PitchClassSet α) : (oracle.classify chord).Agrees R (other.classify chord)
  place (primeForm : PitchClassSet α) (transposition : α) (voicing : Int64) (range : α) :
    (oracle.place primeForm transposition voicing range).Agrees R
      (other.place primeForm transposition voicing range)
  lead (source : List α) (target : PitchClassSet α) (range : α) (avoidParallels : Bool) :
    (oracle.lead source target range avoidParallels).Agrees R
      (other.lead source target range avoidParallels)

theorem Oracle.recorded_agrees (oracle : Oracle α σ) :
    oracle.recorded.Agrees (fun p s => p.1 = s) oracle where
  classify chord := by
    rintro ⟨s, calls⟩ _ rfl
    exact ⟨rfl, rfl⟩
  place primeForm transposition voicing range := by
    rintro ⟨s, calls⟩ _ rfl
    exact ⟨rfl, rfl⟩
  lead source target range avoidParallels := by
    rintro ⟨s, calls⟩ _ rfl
    exact ⟨rfl, rfl⟩

variable {oracle : Oracle α σ} {other : Oracle α τ}

namespace Interpreter

theorem prime_agrees (alike : oracle.Agrees R other) (turtle : Turtle α)
    (chord : PitchClassSet α) : (prime oracle turtle chord).Agrees R (prime other turtle chord) := by
  refine (alike.classify chord).bind fun classification => ?_
  split
  · exact (alike.place _ _ _ _).bind fun _ => .pure _
  · exact (alike.lead _ _ _ _).bind fun _ => .pure _

theorem execute_agrees (alike : oracle.Agrees R other) (token : String) (command : Command α) :
    (execute oracle token command).Agrees (Beside R) (execute other token command) := by
  rintro ⟨i, s⟩ ⟨_, t⟩ ⟨rfl, related⟩
  cases command with
  | prime chord =>
    obtain ⟨answer, s', t', left, right, related⟩ :=
      (prime_agrees alike i.turtle chord).outcome related
    rw [runFrom_execute_prime, runFrom_execute_prime, left, right]
    cases answer <;> exact ⟨rfl, rfl, related⟩
  | _ => exact ⟨rfl, rfl, related⟩

theorem run_agrees (alike : oracle.Agrees R other) (tokens : List String) :
    (run oracle tokens).Agrees (Beside R) (run other tokens) := by
  induction tokens with
  | nil => exact .pure ()
  | cons token tokens ih =>
    rw [run_cons, run_cons]
    exact (execute_agrees alike token (.ofToken token)).bind fun _ => ih

def callsMade (oracle : Oracle α σ) (tokens : List String) (i : Interpreter α) (s : σ) :
    Array (Call α) :=
  ((run oracle.recorded tokens).runFrom (i, s, #[])).2.2.2

theorem run_recorded (oracle : Oracle α σ) (tokens : List String) (i : Interpreter α) (s : σ) :
    (run oracle.recorded tokens).runFrom (i, s, #[]) =
      (((run oracle tokens).runFrom (i, s)).1, ((run oracle tokens).runFrom (i, s)).2.1,
        ((run oracle tokens).runFrom (i, s)).2.2, callsMade oracle tokens i s) := by
  have same := run_agrees oracle.recorded_agrees tokens (i, s, #[]) (i, s) ⟨rfl, rfl⟩
  rw [← same.1, ← same.2.1, ← same.2.2]
  rfl

end Interpreter

namespace Turtle

theorem place_agrees (alike : oracle.Agrees R other) (chord : Turtle α) :
    (chord.place oracle).Agrees R (chord.place other) :=
  (alike.classify _).bind fun _ => alike.place _ _ _ _

theorem realize_agrees (alike : oracle.Agrees R other) (prior : Option (Turtle α))
    (chord : Turtle α) : (chord.realize oracle prior).Agrees R (chord.realize other prior) := by
  unfold realize
  split
  · split
    · split
      · exact .pure _
      · exact alike.lead _ _ _ _
    · exact place_agrees alike chord
  · exact place_agrees alike chord

theorem writeFrom_agrees (alike : oracle.Agrees R other) (index : Nat)
    (prior : Option (Turtle α)) (chords : List (Turtle α)) :
    (writeFrom oracle index prior chords).Agrees (Beside R) (writeFrom other index prior chords) := by
  induction chords generalizing index prior with
  | nil => exact .pure []
  | cons chord rest ih =>
    rintro ⟨score, s⟩ ⟨_, t⟩ ⟨rfl, (related : R s t)⟩
    obtain ⟨answer, s', t', left, right, related⟩ :=
      (realize_agrees alike prior { chord with time := onsetAfter prior }).outcome related
    simp only [runFrom_writeFrom_cons, left, right]
    cases answer with
    | error cause => exact ⟨rfl, rfl, related⟩
    | ok pitches =>
      by_cases content : (PitchClassSet.ofPitches pitches).sameContent chord.pitchClasses = true
      · simp only [if_pos content]
        let written : Turtle α :=
          { chord with time := onsetAfter prior, realized := some pitches }
        obtain ⟨answer, after, after', left, right, related⟩ :=
          (ih (index + 1) (some written)).outcome
            (show Beside R (written.write score, s') (written.write score, t') from ⟨rfl, related⟩)
        rw [left, right]
        cases answer <;> exact ⟨rfl, related⟩
      · simp only [if_neg content]
        exact ⟨trivial, rfl, related⟩

end Turtle

namespace Generator

/-- Configured alike, as far as the results of a run go. -/
structure Alike (g : Generator α σ) (h : Generator α τ) : Prop where
  seed : g.seed = h.seed
  rules (token : String) : g.rules.replacement? token = h.rules.replacement? token
  iterations : g.iterations = h.iterations
  merging : g.options.mergeOverlapping = h.options.mergeOverlapping

theorem Alike.refl (g : Generator α σ) : g.Alike g := ⟨rfl, fun _ => rfl, rfl, rfl⟩

variable {g : Generator α σ} {h : Generator α τ}

theorem Alike.produce (same : g.Alike h) :
    g.rules.produce g.seed g.iterations = h.rules.produce h.seed h.iterations := by
  rw [RuleTable.produce_congr same.rules, same.seed, same.iterations]

theorem produceScore_agrees (alike : oracle.Agrees R other) (same : g.Alike h) :
    (g.produceScore oracle).Agrees R (h.produceScore other) := by
  intro s t related
  simp only [produceScore, runFrom_of, same.produce, same.merging]
  obtain ⟨answer, ⟨i, s⟩, ⟨_, t⟩, left, right, rfl, related⟩ :=
    (Interpreter.run_agrees alike (words (h.rules.produce h.seed h.iterations))).outcome
      (show Beside R (Interpreter.initial, s) (Interpreter.initial, t) from ⟨rfl, related⟩)
  simp only [Interpreter.interpret, left, right]
  cases answer with
  | error e => exact ⟨rfl, related⟩
  | ok done =>
    obtain ⟨answer, ⟨score, s⟩, ⟨_, t⟩, left, right, rfl, related⟩ :=
      (Turtle.writeFrom_agrees alike 0 none i.chords.toList).outcome
        (show Beside R (Score.empty, s) (Score.empty, t) from ⟨rfl, related⟩)
    simp only [Turtle.writeAll, left, right]
    cases answer <;> exact ⟨rfl, related⟩

/-- Generators that are configured alike give the same answer and keep the same results,
whatever results they had. -/
theorem generate_agrees (alike : oracle.Agrees R other) (same : g.Alike h)
    (related : R g.oracleState h.oracleState) :
    let first := (generate oracle).runFrom g
    let second := (generate other).runFrom h
    first.1 = second.1 ∧ first.2.results = second.2.results ∧
      R first.2.oracleState second.2.oracleState := by
  obtain ⟨answer, s, t, left, right, related⟩ := (produceScore_agrees alike same).outcome related
  simp only [generate, runFrom_of, left, right]
  cases answer <;> exact ⟨rfl, rfl, related⟩

end Generator
end ChordGrammar
