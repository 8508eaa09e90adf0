import ChordGrammar.Proofs.Transposition

/-! The forms of a chord along a run. T, K and Q by whole semitones take a T-form or an
I-form of a chord of whole semitones to another one. So as long as no command brings in a
chord of its own, neither the turtle nor the stack leaves the forms of the modality, and Q
has a direction to move in. -/
namespace ChordGrammar

open Scalar

namespace PitchClassSet

/-- Whether all pitch classes are whole semitones. -/
def Whole (s : PitchClassSet Rat) : Prop := ∀ p ∈ s.voices, ∃ k : Int, p = k

/-- The chords of whole semitones in which Q finds a form of `x`. -/
structure FormOf (x s : PitchClassSet Rat) : Prop where
  whole : s.Whole
  form : s.isTForm (ofNat 1) x = true ∨ s.isIForm (ofNat 1) x = true

variable {s t x : PitchClassSet Rat}

theorem exists_pc_whole (k : Int) : ∃ j : Int, pc (k : Rat) = j := by
  obtain ⟨n, apart⟩ := pc_octavesApart (k : Rat)
  exact ⟨k - 12 * n, by push_cast; linarith⟩

theorem whole_ofPitches (pitches : List Int) :
    (PitchClassSet.ofPitches (pitches.map (Int.cast : Int → Rat))).Whole := by
  intro p member
  rw [voices_ofPitches, List.map_map] at member
  obtain ⟨k, -, rfl⟩ := List.mem_map.mp member
  exact exists_pc_whole k

theorem Whole.map (whole : s.Whole) {f : Rat → Rat} (keeps : ∀ k : Int, ∃ j : Int, f k = j) :
    (s.map f).Whole := by
  intro p member
  rw [voices_map] at member
  obtain ⟨q, voice, rfl⟩ := List.mem_map.mp member
  obtain ⟨k, rfl⟩ := whole q voice
  obtain ⟨j, moved⟩ := keeps k
  rw [moved]
  exact exists_pc_whole j

theorem Whole.transpose (whole : s.Whole) (n : Int) : (s.transpose (n : Rat)).Whole :=
  whole.map fun k => ⟨k + n, (Int.cast_add k n).symm⟩

theorem Whole.invert (whole : s.Whole) (n : Int) : (s.invert (n : Rat)).Whole :=
  whole.map fun k => ⟨n - k, (Int.cast_sub n k).symm⟩

theorem isTForm_one_iff :
    s.isTForm (ofNat 1) x = true ↔ ∃ k : Int, (x.transpose (k : Rat)).sameContent s = true :=
  (isTForm_iff s x (one_dvd 12)).trans (by simp only [Nat.cast_one, mul_one])

theorem isIForm_one_iff :
    s.isIForm (ofNat 1) x = true ↔ ∃ k : Int, (x.invert (k : Rat)).sameContent s = true :=
  (isIForm_iff s x (one_dvd 12)).trans (by simp only [Nat.cast_one, mul_one])

/-! A chord that is moved keeps its forms, except that an inversion makes T-forms of I-forms. -/

theorem isTForm_transpose_left (s x : PitchClassSet Rat) (n : Int) :
    (s.transpose (n : Rat)).isTForm (ofNat 1) x = s.isTForm (ofNat 1) x := by
  rw [Bool.eq_iff_iff, isTForm_one_iff, isTForm_one_iff, (Equiv.addRight n).surjective.exists]
  refine exists_congr fun k => ?_
  rw [Equiv.coe_addRight, Int.cast_add, ← transpose_transpose, sameContent_transpose]

theorem isIForm_transpose_left (s x : PitchClassSet Rat) (n : Int) :
    (s.transpose (n : Rat)).isIForm (ofNat 1) x = s.isIForm (ofNat 1) x := by
  rw [Bool.eq_iff_iff, isIForm_one_iff, isIForm_one_iff, (Equiv.addRight n).surjective.exists]
  refine exists_congr fun k => ?_
  rw [Equiv.coe_addRight, Int.cast_add, ← invert_transpose, sameContent_transpose]

theorem isTForm_invert_left (s x : PitchClassSet Rat) (n : Int) :
    (s.invert (n : Rat)).isTForm (ofNat 1) x = s.isIForm (ofNat 1) x := by
  rw [Bool.eq_iff_iff, isTForm_one_iff, isIForm_one_iff, (Equiv.subLeft n).surjective.exists]
  refine exists_congr fun k => ?_
  rw [Equiv.subLeft_apply, Int.cast_sub, ← invert_invert, sameContent_invert]

theorem isIForm_invert_left (s x : PitchClassSet Rat) (n : Int) :
    (s.invert (n : Rat)).isIForm (ofNat 1) x = s.isTForm (ofNat 1) x := by
  rw [Bool.eq_iff_iff, isIForm_one_iff, isTForm_one_iff, (Equiv.subLeft n).surjective.exists]
  refine exists_congr fun k => ?_
  rw [Equiv.subLeft_apply, Int.cast_sub, ← transpose_invert, sameContent_invert]

theorem FormOf.self (whole : x.Whole) : FormOf x x := by
  refine ⟨whole, .inl (isTForm_one_iff.mpr ⟨0, ?_⟩)⟩
  rw [Int.cast_zero, transpose_zero]
  exact sameContent_iff.mpr (.refl _)

theorem FormOf.transpose (form : FormOf x s) (n : Int) : FormOf x (s.transpose (n : Rat)) := by
  refine ⟨form.whole.transpose n, ?_⟩
  rw [isTForm_transpose_left, isIForm_transpose_left]
  exact form.form

theorem FormOf.invert (form : FormOf x s) (n : Int) : FormOf x (s.invert (n : Rat)) := by
  refine ⟨form.whole.invert n, ?_⟩
  rw [isTForm_invert_left, isIForm_invert_left]
  exact form.form.symm

theorem FormOf.exchange (form : FormOf x s) : FormOf x (s.exchange?.getD s) := by
  unfold exchange?
  split
  · next first second rest voices =>
    obtain ⟨a, whole⟩ := form.whole first (voices ▸ List.mem_cons_self)
    obtain ⟨b, other⟩ := form.whole second (voices ▸ List.mem_cons_of_mem _ List.mem_cons_self)
    rw [Option.getD_some, whole, other, ← Int.cast_add]
    exact form.invert (a + b)
  · exact form

/-- Q finds a form of the chord, and moves it up if it is a T-form and down if not. -/
theorem FormOf.contextualTranspose? (form : FormOf x s) (n : Rat) :
    s.contextualTranspose? (ofNat 1) x n =
      some (s.transpose (if s.isTForm (ofNat 1) x then n else -n)) := by
  unfold PitchClassSet.contextualTranspose?
  by_cases up : s.isTForm (ofNat 1) x = true
  · rw [if_pos up, if_pos up]
  · have down : s.isIForm (ofNat 1) x = true := form.form.resolve_left up
    rw [if_neg up, if_pos down, if_neg up]

end PitchClassSet

open PitchClassSet

/-- Whether the command transposes by whole semitones, if it transposes. -/
def Command.StepsWhole : Command Rat → Prop
  | .transpose n | .contextualTranspose n => ∃ k : Int, n = k
  | _ => True

namespace Interpreter

/-- All chords that a command can read are forms of the modality, which is `x`. -/
structure KeepsTo (x : PitchClassSet Rat) (i : Interpreter Rat) : Prop where
  modality : i.modality = x
  turtle : FormOf x i.turtle.pitchClasses
  stack : ∀ t ∈ i.stack, FormOf x t.pitchClasses

variable {x : PitchClassSet Rat} {i : Interpreter Rat}

theorem KeepsTo.onTurtle (keeps : i.KeepsTo x) {f : Turtle Rat → Turtle Rat}
    (form : FormOf x (f i.turtle).pitchClasses) : (i.onTurtle f).KeepsTo x :=
  ⟨keeps.modality, form, keeps.stack⟩

theorem KeepsTo.contextualTranspose_eq (keeps : i.KeepsTo x) (n : Rat) :
    Interpreter.contextualTranspose n i.turtle i.modality =
      i.turtle.transpose (if i.turtle.pitchClasses.isTForm (ofNat 1) x then n else -n) := by
  rw [keeps.modality]
  simp only [Interpreter.contextualTranspose, keeps.turtle.contextualTranspose?]
  rfl

theorem KeepsTo.contextualTranspose (keeps : i.KeepsTo x) (n : Int) :
    FormOf x (Interpreter.contextualTranspose (n : Rat) i.turtle i.modality).pitchClasses := by
  rw [keeps.contextualTranspose_eq]
  split
  · exact keeps.turtle.transpose n
  · rw [← Int.cast_neg]
    exact keeps.turtle.transpose (-n)

/-- One step keeps to the forms, one case for each command. -/
theorem KeepsTo.step (keeps : i.KeepsTo x) {command : Command Rat}
    (moves : command.namesChord = false) (whole : command.StepsWhole) :
    (i.step command).KeepsTo x := by
  cases command with
  | push => exact ⟨keeps.modality, keeps.turtle, List.forall_mem_cons.mpr ⟨keeps.turtle, keeps.stack⟩⟩
  | pop =>
    obtain ⟨turtle, stack, modality, chords⟩ := i
    cases stack with
    | nil => exact keeps
    | cons top rest =>
      obtain ⟨popped, others⟩ := List.forall_mem_cons.mp keeps.stack
      exact ⟨keeps.modality, popped, others⟩
  | exchange => exact keeps.onTurtle keeps.turtle.exchange
  | contextualTranspose n =>
    obtain ⟨k, rfl⟩ := whole
    show (i.onTurtle (Interpreter.contextualTranspose (k : Rat) · i.modality)).KeepsTo x
    exact keeps.onTurtle (keeps.contextualTranspose k)
  | transpose n =>
    obtain ⟨k, rfl⟩ := whole
    exact keeps.onTurtle (keeps.turtle.transpose k)
  | set chord => cases moves
  | prime chord => cases moves
  | duration | instrument | loudness | overlap | range | revoice | write | unknown =>
    exact ⟨keeps.modality, keeps.turtle, keeps.stack⟩

variable {σ : Type} {commands : List (String × Command Rat)}

theorem KeepsTo.executeAll (keeps : i.KeepsTo x) (oracle : Oracle Rat σ) (s : σ)
    (moves : ∀ c ∈ commands, c.2.namesChord = false ∧ c.2.StepsWhole) :
    ∃ after : Interpreter Rat,
      (executeAll oracle commands).runFrom (i, s) = (.ok (), after, s) ∧ after.KeepsTo x := by
  induction commands generalizing i with
  | nil => exact ⟨i, rfl, keeps⟩
  | cons head commands ih =>
    obtain ⟨token, command⟩ := head
    obtain ⟨⟨first, whole⟩, others⟩ := List.forall_mem_cons.mp moves
    have plain (chord : PitchClassSet Rat) : command ≠ .prime chord := by
      rintro rfl
      cases first
    obtain ⟨after, run, kept⟩ := ih (keeps.step first whole) others
    refine ⟨after, ?_, kept⟩
    rw [executeAll_cons, Attempt.runFrom_bind, runFrom_execute oracle token command plain]
    exact run

/-- Wherever a run stands after it has set a chord of whole semitones, and moved on by whole
semitones from there, the modality is that chord, and the chords of the turtle and of the stack
are forms of it. So Q always finds a form, and transposes the chord of the turtle by any
interval, up if that chord is a T-form and down if not. -/
theorem contextualTranspose_always_moves (oracle : Oracle Rat σ) {chord : PitchClassSet Rat}
    (whole : chord.Whole) (token : String) (s : σ)
    (moves : ∀ c ∈ commands, c.2.namesChord = false ∧ c.2.StepsWhole)
    {ran : List (String × Command Rat)} (sofar : ran <+: commands) :
    ∃ i : Interpreter Rat,
      (executeAll oracle ((token, .set chord) :: ran)).runFrom (initial, s) = (.ok (), i, s) ∧
      i.modality = chord ∧
      (∀ t ∈ i.turtle :: i.stack, t.pitchClasses.isTForm (ofNat 1) chord = true ∨
        t.pitchClasses.isIForm (ofNat 1) chord = true) ∧
      (∀ n, i.turtle.pitchClasses.contextualTranspose? (ofNat 1) i.modality n ≠ none) ∧
      ∀ (n : Rat) (q : String),
        let interval := if i.turtle.pitchClasses.isTForm (ofNat 1) chord then n else -n
        (execute oracle q (.contextualTranspose n)).runFrom (i, s) =
          (.ok (), i.onTurtle (.transpose interval), s) := by
  have started : ((initial : Interpreter Rat).moveTo chord).KeepsTo chord :=
    ⟨rfl, .self whole, fun t none => absurd none List.not_mem_nil⟩
  obtain ⟨i, run, keeps⟩ :=
    started.executeAll oracle s fun c member => moves c (sofar.subset member)
  refine ⟨i, ?_, keeps.modality, ?_, fun n none => ?_, fun n q => ?_⟩
  · rw [executeAll_cons]
    exact run
  · intro t member
    rcases List.mem_cons.mp member with rfl | member
    · exact keeps.turtle.form
    · exact (keeps.stack t member).form
  · rw [keeps.modality, keeps.turtle.contextualTranspose?] at none
    cases none
  · have turned : i.step (.contextualTranspose n) =
        { i with turtle := Interpreter.contextualTranspose n i.turtle i.modality } := rfl
    rw [runFrom_execute oracle q (.contextualTranspose n) nofun, turned,
      keeps.contextualTranspose_eq]
    rfl

/-- Here a stack is popped that is empty, and the chord has become an I-form, so Q moves it
down. -/
theorem contextualTranspose_always_moves_minor :
    let commands : List (String × Command Rat) :=
      [("]", .pop), ("K", .exchange), ("[", .push), ("Q-3", .contextualTranspose (-3)),
        ("T7", .transpose 7), ("]", .pop), ("R24", .range 24)]
    let chord : PitchClassSet Rat := .ofPitches [0, 4, 7]
    (chord.Whole ∧ (∀ c ∈ commands, c.2.namesChord = false ∧ c.2.StepsWhole) ∧
        commands.take 4 <+: commands) ∧
      ∃ i : Interpreter Rat,
        (executeAll leastMotion (("S(0,4,7)", .set chord) :: commands.take 4)).runFrom
          (initial, .empty) = (.ok (), i, .empty) ∧
        i.modality = chord ∧
        (∀ t ∈ i.turtle :: i.stack, t.pitchClasses.isTForm (ofNat 1) chord = true ∨
          t.pitchClasses.isIForm (ofNat 1) chord = true) ∧
        (∀ n, i.turtle.pitchClasses.contextualTranspose? (ofNat 1) i.modality n ≠ none) ∧
        i.turtle.pitchClasses.isTForm (ofNat 1) chord = false ∧
        ∀ (n : Rat) (q : String), (execute leastMotion q (.contextualTranspose n)).runFrom
          (i, .empty) = (.ok (), i.onTurtle (.transpose (-n)), .empty) := by
  intro commands chord
  have whole : chord.Whole := by
    show ∀ p ∈ [pc (0 : Rat), pc 4, pc 7], ∃ k : Int, p = k
    simp only [List.forall_mem_cons]
    exact ⟨exists_pc_whole 0, exists_pc_whole 4, exists_pc_whole 7, nofun⟩
  have moves : ∀ c ∈ commands, c.2.namesChord = false ∧ c.2.StepsWhole := by
    simp only [commands, List.forall_mem_cons, Command.namesChord, Command.StepsWhole, true_and]
    exact ⟨⟨-3, by norm_num⟩, ⟨7, by norm_num⟩, nofun⟩
  obtain ⟨i, run, modality, forms, found, moved⟩ :=
    contextualTranspose_always_moves leastMotion whole "S(0,4,7)" .empty moves
      (List.take_prefix 4 commands)
  have minor : ((executeAll leastMotion (("S(0,4,7)", .set chord) :: commands.take 4)).runFrom
      (initial, .empty)).2.1.turtle.pitchClasses.isTForm (ofNat 1) chord = false := by
    decide +kernel
  rw [run] at minor
  refine ⟨⟨whole, moves, List.take_prefix 4 commands⟩, i, run, modality, forms, found, minor,
    fun n q => ?_⟩
  have down := moved n q
  simp only [minor] at down
  exact down

end Interpreter
end ChordGrammar
