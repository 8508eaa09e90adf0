import ChordGrammar.Interpreter
import ChordGrammar.Oracle.LeastMotion
import ChordGrammar.Proofs.Forms

/-! Runs from transposed chords. Commands that name no chord of their own read the turtle's
chord and the modality only through operations that move along with a transposition, so
two runs that start from a chord and from its transposition by whole semitones stay side by
side: they differ in the chords alone, everywhere by that transposition. -/
namespace ChordGrammar

/-- Whether the command brings in a chord instead of moving the one there is. -/
def Command.namesChord {α : Type} [Scalar α] : Command α → Bool
  | .set _ | .prime _ => true
  | _ => false

namespace Turtle

theorem exchange_transpose (t : Turtle Rat) (n : Rat) :
    (t.transpose n).exchange = t.exchange.transpose n := by
  have moved : (t.pitchClasses.transpose n).exchange?.getD (t.pitchClasses.transpose n) =
      (t.pitchClasses.exchange?.getD t.pitchClasses).transpose n := by
    rw [PitchClassSet.exchange?_transpose, Option.getD_map]
  exact congrArg (fun chord => { t with pitchClasses := chord }) moved

theorem transpose_comm (t : Turtle Rat) (m n : Rat) :
    (t.transpose m).transpose n = (t.transpose n).transpose m :=
  congrArg (fun chord => { t with pitchClasses := chord })
    (PitchClassSet.transpose_comm t.pitchClasses m n)

end Turtle

namespace Interpreter

/-- The same interpreter with every chord transposed: the turtle's, those on the stack,
those captured, and the modality. -/
def transposed (n : Rat) (i : Interpreter Rat) : Interpreter Rat where
  turtle := i.turtle.transpose n
  stack := i.stack.map (.transpose n)
  modality := i.modality.transpose n
  chords := i.chords.map (.transpose n)

/-- Q scans in semitones, so a transposition by whole semitones leaves it the same choice. -/
theorem contextualTranspose_transpose (t : Turtle Rat) (modality : PitchClassSet Rat) (n : Int)
    (m : Rat) :
    contextualTranspose m (t.transpose n) (modality.transpose n) =
      (contextualTranspose m t modality).transpose (n : Rat) := by
  have moved := PitchClassSet.contextualTranspose?_transpose t.pitchClasses modality
    (one_dvd 12) n m
  rw [Nat.cast_one, mul_one] at moved
  have chord := congrArg (·.getD (t.pitchClasses.transpose n)) moved
  rw [Option.getD_map] at chord
  exact congrArg (fun chord => { t with pitchClasses := chord }) chord

theorem transposed_onTurtle {f g : Turtle Rat → Turtle Rat} {n : Rat} {i : Interpreter Rat}
    (moves : g (i.turtle.transpose n) = (f i.turtle).transpose n) :
    (i.transposed n).onTurtle g = (i.onTurtle f).transposed n :=
  congrArg (fun turtle => { i.transposed n with turtle }) moves

theorem transposed_capture (copies : Nat) (voiceLead : Bool) (n : Rat) (i : Interpreter Rat) :
    (i.transposed n).capture copies voiceLead = (i.capture copies voiceLead).transposed n := by
  simp only [capture, transposed, Array.map_append, Array.map_replicate]
  rfl

/-- One step keeps two interpreters side by side, one case for each command. -/
theorem step_transposed {command : Command Rat} (moves : command.namesChord = false) (n : Int)
    (i : Interpreter Rat) : (i.transposed n).step command = (i.step command).transposed n := by
  cases command with
  | push => rfl
  | pop =>
    obtain ⟨turtle, stack, modality, chords⟩ := i
    cases stack <;> rfl
  | exchange => exact transposed_onTurtle (Turtle.exchange_transpose i.turtle n)
  | contextualTranspose m =>
    show (i.transposed n).onTurtle (contextualTranspose m · (i.modality.transpose n)) =
      (i.onTurtle (contextualTranspose m · i.modality)).transposed n
    exact transposed_onTurtle (contextualTranspose_transpose i.turtle i.modality n m)
  | transpose m => exact transposed_onTurtle (Turtle.transpose_comm i.turtle n m)
  | write copies voiceLead => exact transposed_capture copies voiceLead n i
  | set chord => cases moves
  | prime chord => cases moves
  | duration | instrument | loudness | overlap | range | revoice | unknown => rfl

variable {σ : Type} {commands : List (String × Command Rat)}

theorem executeAll_transposed (oracle : Oracle Rat σ) (i : Interpreter Rat) (s t : σ) (n : Int)
    (moves : ∀ c ∈ commands, c.2.namesChord = false) :
    ∃ after : Interpreter Rat,
      (executeAll oracle commands).runFrom (i, s) = (.ok (), after, s) ∧
      (executeAll oracle commands).runFrom (i.transposed n, t) =
        (.ok (), after.transposed n, t) := by
  induction commands generalizing i with
  | nil => exact ⟨i, rfl, rfl⟩
  | cons head commands ih =>
    obtain ⟨token, command⟩ := head
    have first : command.namesChord = false := moves _ List.mem_cons_self
    have plain (chord : PitchClassSet Rat) : command ≠ .prime chord := by
      rintro rfl
      cases first
    obtain ⟨after, run, beside⟩ :=
      ih (i.step command) fun c member => moves c (List.mem_cons_of_mem _ member)
    refine ⟨after, ?_, ?_⟩
    · rw [executeAll_cons, Attempt.runFrom_bind, runFrom_execute oracle token command plain]
      exact run
    · rw [executeAll_cons, Attempt.runFrom_bind, runFrom_execute oracle token command plain,
        step_transposed first]
      exact beside

/-- Setting a chord or its transposition by whole semitones, and then moving on alike,
both succeed and end in interpreters that differ by that transposition only. -/
theorem transposition_equivariant (oracle : Oracle Rat σ) (chord : PitchClassSet Rat) (n : Int)
    (token other : String) (s t : σ) (moves : ∀ c ∈ commands, c.2.namesChord = false) :
    ∃ after : Interpreter Rat,
      (executeAll oracle ((token, .set chord) :: commands)).runFrom (initial, s) =
        (.ok (), after, s) ∧
      (executeAll oracle ((other, .set (chord.transpose (n : Rat))) :: commands)).runFrom
        (initial, t) = (.ok (), after.transposed n, t) := by
  have started :
      initial.moveTo (chord.transpose (n : Rat)) = (initial.moveTo chord).transposed n := by
    simp only [moveTo, initial, transposed, List.map_nil, Array.map_empty]
    rfl
  obtain ⟨after, run, beside⟩ := executeAll_transposed oracle (initial.moveTo chord) s t n moves
  refine ⟨after, ?_, ?_⟩
  · rw [executeAll_cons]
    exact run
  · rw [executeAll_cons]
    exact (congrArg (fun i => (executeAll oracle commands).runFrom (i, t)) started).trans beside

theorem transposition_equivariant_phrase :
    let commands : List (String × Command Rat) :=
      [("T7", .transpose 7), ("[", .push), ("K", .exchange), ("Q-3", .contextualTranspose (-3)),
        ("V+7", .revoice 7), ("W2", .write 2 true), ("]", .pop), ("WC", .write 1 false)]
    let chord : PitchClassSet Rat := .ofPitches [0, 4, 7]
    let raised := chord.transpose ((5 : Int) : Rat)
    (∀ c ∈ commands, c.2.namesChord = false) ∧
      ∃ after : Interpreter Rat,
        (executeAll leastMotion (("S(0,4,7)", .set chord) :: commands)).runFrom
            (initial, .empty) = (.ok (), after, .empty) ∧
        (executeAll leastMotion (("S(5,9,0)", .set raised) :: commands)).runFrom
            (initial, .empty) = (.ok (), after.transposed ((5 : Int) : Rat), .empty) :=
  ⟨by decide, transposition_equivariant leastMotion _ 5 _ _ _ _ (by decide)⟩

end Interpreter
end ChordGrammar
