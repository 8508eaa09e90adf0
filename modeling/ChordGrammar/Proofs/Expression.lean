import Mathlib.Data.List.Forall2
import ChordGrammar.Proofs.Agreement
import ChordGrammar.Proofs.DepthFirst

/-! Expression does not reach harmony. Durations, loudness, overlaps and instruments are
written to the turtle and read only for its notes: neither a command nor a realization looks
at them. So a production can be run without the commands that set them, and the oracle is
asked the same questions and answers with the same pitches. -/
namespace ChordGrammar

variable {α σ : Type} [Scalar α]

/-- Whether the command says only when, how loud or by which instruments chords sound. -/
def Command.isExpression : Command α → Bool
  | .duration _ | .loudness _ | .overlap _ | .instrument _ _ => true
  | _ => false

/-- The production without the tokens that are read as expression. -/
def withoutExpression (α : Type) [Scalar α] (production : String) : String :=
  " ".intercalate <| (words production).filter fun token =>
    !(Command.ofToken token : Command α).isExpression

theorem words_withoutExpression (production : String) :
    words (withoutExpression α production) =
      (words production).filter fun token =>
        !(Command.ofToken token : Command α).isExpression := by
  apply words_intercalate
  intro token member
  exact isWord_of_mem_words (List.mem_filter.mp member).1

namespace Turtle

/-- The same chord, which may differ in when, how loud and by which instruments it sounds. -/
structure SameHarmony (t u : Turtle α) : Prop where
  pitchClasses : t.pitchClasses = u.pitchClasses
  voicing : t.voicing = u.voicing
  range : t.range = u.range
  voiceLead : t.voiceLead = u.voiceLead
  realized : t.realized = u.realized

theorem SameHarmony.refl (t : Turtle α) : t.SameHarmony t := ⟨rfl, rfl, rfl, rfl, rfl⟩

end Turtle

open Attempt

namespace Interpreter

structure SameHarmony (i j : Interpreter α) : Prop where
  turtle : i.turtle.SameHarmony j.turtle
  stack : List.Forall₂ Turtle.SameHarmony i.stack j.stack
  modality : i.modality = j.modality
  chords : List.Forall₂ Turtle.SameHarmony i.chords.toList j.chords.toList

variable {i j : Interpreter α}

theorem SameHarmony.onTurtle (same : i.SameHarmony j) {f g : Turtle α → Turtle α}
    (moves : (f i.turtle).SameHarmony (g j.turtle)) :
    (i.onTurtle f).SameHarmony (j.onTurtle g) :=
  ⟨moves, same.stack, same.modality, same.chords⟩

theorem SameHarmony.moveTo (same : i.SameHarmony j) (chord : PitchClassSet α) :
    (i.moveTo chord).SameHarmony (j.moveTo chord) :=
  ⟨{ same.turtle with pitchClasses := rfl }, same.stack, rfl, same.chords⟩

theorem SameHarmony.capture (same : i.SameHarmony j) (copies : Nat) (voiceLead : Bool) :
    (i.capture copies voiceLead).SameHarmony (j.capture copies voiceLead) := by
  refine ⟨same.turtle, same.stack, same.modality, ?_⟩
  have copy : Turtle.SameHarmony { i.turtle with voiceLead } { j.turtle with voiceLead } :=
    { same.turtle with voiceLead := rfl }
  have copied : List.Forall₂ Turtle.SameHarmony
      (List.replicate copies { i.turtle with voiceLead })
      (List.replicate copies { j.turtle with voiceLead }) := by
    induction copies with
    | zero => exact .nil
    | succ copies ih => exact .cons copy ih
  simpa only [Interpreter.capture, Array.toList_append, Array.toList_replicate]
    using List.rel_append same.chords copied

/-- A step reads nothing of expression, one case for each command. -/
theorem SameHarmony.step (same : i.SameHarmony j) (command : Command α) :
    (i.step command).SameHarmony (j.step command) := by
  have chord := same.turtle.pitchClasses
  cases command with
  | push => exact ⟨same.turtle, .cons same.turtle same.stack, same.modality, same.chords⟩
  | pop =>
    obtain ⟨turtle, stack, modality, chords⟩ := i
    obtain ⟨turtle', stack', modality', chords'⟩ := j
    cases same.stack with
    | nil => exact same
    | cons popped rest => exact ⟨popped, rest, same.modality, same.chords⟩
  | set chord => exact same.moveTo chord
  | write copies voiceLead => exact same.capture copies voiceLead
  | prime | unknown => exact same
  | duration | instrument | loudness | overlap =>
    exact ⟨{ same.turtle with }, same.stack, same.modality, same.chords⟩
  | range n => exact ⟨{ same.turtle with range := rfl }, same.stack, same.modality, same.chords⟩
  | exchange =>
    apply same.onTurtle
    exact { same.turtle with pitchClasses := by simp only [Turtle.exchange, chord] }
  | contextualTranspose n =>
    refine ⟨{ same.turtle with pitchClasses := ?_ }, same.stack, same.modality, same.chords⟩
    simp only [Interpreter.step, Interpreter.onTurtle, contextualTranspose, chord, same.modality]
  | transpose n =>
    apply same.onTurtle
    exact { same.turtle with pitchClasses := by simp only [Turtle.transpose, chord] }
  | revoice n =>
    have voicing := same.turtle.voicing
    have range := same.turtle.range
    apply same.onTurtle
    exact { same.turtle with voicing := by simp only [Turtle.revoice, voicing, range] }

theorem SameHarmony.step_expression (same : i.SameHarmony j) {command : Command α}
    (expression : command.isExpression = true) : (i.step command).SameHarmony j := by
  cases command with
  | duration | instrument | loudness | overlap =>
    exact ⟨{ same.turtle with }, same.stack, same.modality, same.chords⟩
  | _ => cases expression

theorem initial_sameHarmony : (initial : Interpreter α).SameHarmony initial :=
  ⟨.refl initial.turtle, .nil, rfl, .nil⟩

def InHarmony (p q : Interpreter α × σ) : Prop := p.1.SameHarmony q.1 ∧ p.2 = q.2

variable (oracle : Oracle α σ)

theorem execute_inHarmony (token : String) (command : Command α) :
    (execute oracle token command).Agrees InHarmony (execute oracle token command) := by
  rintro ⟨i, s⟩ ⟨j, _⟩ ⟨(same : i.SameHarmony j), rfl⟩
  by_cases asks : ∃ chord, command = .prime chord
  · obtain ⟨chord, rfl⟩ := asks
    have asked : prime oracle i.turtle chord = prime oracle j.turtle chord := by
      simp only [prime, same.turtle.pitchClasses, same.turtle.range]
    rw [runFrom_execute_prime, runFrom_execute_prime, asked]
    obtain ⟨cause | moved, t⟩ := (prime oracle j.turtle chord).runFrom s
    · exact ⟨rfl, same, rfl⟩
    · exact ⟨rfl, same.moveTo moved, rfl⟩
  · have plain (chord : PitchClassSet α) : command ≠ .prime chord := fun is => asks ⟨chord, is⟩
    rw [runFrom_execute oracle token command plain, runFrom_execute oracle token command plain]
    exact ⟨rfl, same.step command, rfl⟩

theorem execute_expression (token : String) {command : Command α}
    (expression : command.isExpression = true) :
    (execute oracle token command).Agrees InHarmony (pure ()) := by
  rintro ⟨i, s⟩ ⟨j, _⟩ ⟨(same : i.SameHarmony j), rfl⟩
  have plain (chord : PitchClassSet α) : command ≠ .prime chord := by
    rintro rfl
    cases expression
  rw [runFrom_execute oracle token command plain]
  exact ⟨rfl, same.step_expression expression, rfl⟩

/-- A run beside the run of those tokens that are not expression. -/
theorem run_inHarmony (tokens : List String) :
    (run oracle tokens).Agrees InHarmony
      (run oracle (tokens.filter fun token =>
        !(Command.ofToken token : Command α).isExpression)) := by
  induction tokens with
  | nil => exact .pure ()
  | cons token tokens ih =>
    rw [run_cons]
    cases expression : (Command.ofToken token : Command α).isExpression with
    | true =>
      rw [List.filter_cons_of_neg (by simp [expression])]
      exact (execute_expression oracle token expression).bind fun _ => ih
    | false =>
      rw [List.filter_cons_of_pos (by simp [expression]), run_cons]
      exact (execute_inHarmony oracle token (.ofToken token)).bind fun _ => ih

end Interpreter

namespace Turtle

/-- Pitches are found without a look at expression, be it the chord's or that of the chord
written before. -/
theorem SameHarmony.realize {chord other : Turtle α} (same : chord.SameHarmony other)
    (oracle : Oracle α σ) {before before' : Option (Turtle α)}
    (alike : Option.Rel SameHarmony before before') :
    chord.realize oracle before = other.realize oracle before' := by
  have placed : chord.place oracle = other.place oracle := by
    simp only [place, same.pitchClasses, same.voicing, same.range]
  cases alike with
  | none => exact placed
  | @some prior prior' alike =>
    cases kept : prior'.realized with
    | none =>
      rw [realize_after_silence (alike.realized.trans kept), realize_after_silence kept, placed]
    | some pitches =>
      rw [realize_after (alike.realized.trans kept), realize_after kept, placed,
        alike.pitchClasses, same.pitchClasses, same.range, same.voiceLead]

/-- Two runs of the writer, from the same state of the oracle. -/
theorem writeFrom_inHarmony (oracle : Oracle α σ) (index : Nat)
    {before before' : Option (Turtle α)} (alike : Option.Rel SameHarmony before before')
    {chords others : List (Turtle α)} (same : List.Forall₂ SameHarmony chords others)
    (score score' : Score α) (s : σ) :
    let first := (writeFrom oracle index before chords).runFrom (score, s)
    let second := (writeFrom oracle index before' others).runFrom (score', s)
    first.1.map (·.map realized) = second.1.map (·.map realized) ∧ first.2.2 = second.2.2 := by
  induction same generalizing index before before' score score' s with
  | nil => exact ⟨rfl, rfl⟩
  | @cons chord other rest rest' same later ih =>
    intro first second
    have timed : ({ chord with time := onsetAfter before } : Turtle α).SameHarmony
        { other with time := onsetAfter before' } := { same with }
    have asked := timed.realize oracle alike
    obtain ⟨answer, s', ran⟩ : ∃ answer s',
      (Turtle.realize oracle before' { other with time := onsetAfter before' }).runFrom s =
        (answer, s') := ⟨_, _, rfl⟩
    have ran' : (Turtle.realize oracle before { chord with time := onsetAfter before }).runFrom s =
        (answer, s') := by rw [asked, ran]
    simp only [first, second, runFrom_writeFrom_cons, ran, ran']
    cases answer with
    | error cause =>
      refine ⟨?_, rfl⟩
      rw [same.pitchClasses]
    | ok pitches =>
      by_cases content : (PitchClassSet.ofPitches pitches).sameContent chord.pitchClasses = true
      · have content' : (PitchClassSet.ofPitches pitches).sameContent other.pitchClasses = true := by
          rwa [same.pitchClasses] at content
        simp only [if_pos content, if_pos content']
        let written : Turtle α :=
          { chord with time := onsetAfter before, realized := some pitches }
        let written' : Turtle α :=
          { other with time := onsetAfter before', realized := some pitches }
        have alike : Option.Rel SameHarmony (some written) (some written') :=
          .some { same with realized := rfl }
        obtain ⟨answers, states⟩ :=
          ih (index + 1) alike (written.write score) (written'.write score') s'
        generalize (writeFrom oracle (index + 1) (some written) rest).runFrom _ = ended
          at answers states ⊢
        generalize (writeFrom oracle (index + 1) (some written') rest').runFrom _ = ended'
          at answers states ⊢
        obtain ⟨e | ts, _, _⟩ := ended <;> obtain ⟨e' | us, _, _⟩ := ended'
        · exact ⟨answers, states⟩
        · cases answers
        · cases answers
        · have tails : ts.map realized = us.map realized := Except.ok.inj answers
          refine ⟨?_, states⟩
          simp only [Except.map, List.map_cons, tails]
      · have content' : ¬ (PitchClassSet.ofPitches pitches).sameContent other.pitchClasses = true := by
          rwa [same.pitchClasses] at content
        simp only [if_neg content', same.pitchClasses]
        trivial

end Turtle

open Turtle in
/-- When, how loud and by which instruments chords sound decides neither which chords are
captured nor what the oracle is asked and which pitches are found. -/
theorem Interpreter.interpret_withoutExpression (oracle : Oracle α σ) (production : String)
    (s : σ) :
    let full := (interpret oracle.recorded production).runFrom (initial, s, #[])
    let bare := (interpret oracle.recorded (withoutExpression α production)).runFrom
      (initial, s, #[])
    full.1 = bare.1 ∧ full.2.2 = bare.2.2 ∧
      List.Forall₂ Turtle.SameHarmony full.2.1.chords.toList bare.2.1.chords.toList ∧
      ∀ score score' : Score α,
        let written := (writeAll oracle.recorded full.2.1.chords.toList).runFrom (score, full.2.2)
        let writtenBare := (writeAll oracle.recorded bare.2.1.chords.toList).runFrom
          (score', bare.2.2)
        written.1.map (·.map realized) = writtenBare.1.map (·.map realized) ∧
          written.2.2 = writtenBare.2.2 := by
  intro full bare
  obtain ⟨answers, same, states⟩ : full.1 = bare.1 ∧ InHarmony full.2 bare.2 := by
    have alike := run_inHarmony oracle.recorded (words production) (initial, s, #[])
      (initial, s, #[]) ⟨initial_sameHarmony, rfl⟩
    rwa [← words_withoutExpression] at alike
  refine ⟨answers, states, same.chords, fun score score' => ?_⟩
  rw [← states]
  apply writeFrom_inHarmony oracle.recorded 0 .none same.chords

end ChordGrammar
