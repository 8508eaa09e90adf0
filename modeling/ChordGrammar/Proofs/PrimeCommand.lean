import ChordGrammar.Proofs.PrimeForm
import ChordGrammar.Interpreter

/-! Moving by P with the oracle of least motion. A turtle that has no chord yet takes the prime
form of the given one at the bottom, and any other turtle is led to the given chord itself. So
it is one chord or the other that has to lie within the range, and nothing else can fail. -/
namespace ChordGrammar

open Scalar PitchClassSet

theorem PitchClassSet.not_voiceable_iff {chord : PitchClassSet Rat} {range : Rat} :
    ¬ chord.Voiceable range ↔ chord.voices = [] ∨ ∃ p ∈ chord.voices, range < p := by
  simp only [Voiceable, not_and_or, not_not, not_forall, not_le, exists_prop]

variable {cache : VoicingCache Rat} {range : Rat} {chord p : PitchClassSet Rat}

theorem exists_isPrimeForm (voiced : chord.voices ≠ []) : ∃ p, IsPrimeForm chord p := by
  obtain ⟨c, found⟩ := Option.ne_none_iff_exists'.mp (mt classify?_eq_none_iff.mp voiced)
  exact ⟨c.primeForm, classify?_isPrimeForm found⟩

theorem PitchClassSet.IsPrimeForm.voiced (prime : IsPrimeForm chord p) : chord.voices ≠ [] := by
  obtain ⟨n, onto, -⟩ := prime.attained
  obtain ⟨root, voice, -⟩ := exists_root onto
  exact List.ne_nil_of_mem voice

theorem place_bottom (reached : cache.Reached) (fits : chord.Voiceable range) :
    ((leastMotion.place chord zero 0 range).runFrom cache).1 = .ok chord.canonical.voices := by
  have untransposed : chord.transpose zero = chord := chord.transpose_zero
  have fits' : (chord.transpose zero).Voiceable range := by rwa [untransposed]
  obtain ⟨bound, placed⟩ := place_answer reached fits' 0
  rw [placed, getElem_enumerate fits'.placeable bound]
  have first (n : Nat) : ((0 : Int64).toInt % n).toNat = 0 := by simp
  rw [first, placementAt_zero, untransposed, sort_of_sorted chord.canonical_pairwise]

namespace Interpreter

section

variable {α : Type} [Scalar α] {turtle : Turtle α} {chord : PitchClassSet α}

theorem runFrom_prime_of_none (none : classify? chord = none) (cache : VoicingCache α) :
    (prime leastMotion turtle chord).runFrom cache = (.error .nothingToClassify, cache) := by
  rw [prime, Attempt.runFrom_bind, runFrom_classify, none]

theorem runFrom_prime_of_some {c : Classification α} (found : classify? chord = some c)
    (cache : VoicingCache α) :
    let asked := if turtle.pitchClasses.isEmpty
      then leastMotion.place c.primeForm zero 0 turtle.range
      else leastMotion.lead turtle.pitchClasses.voices chord turtle.range true
    (prime leastMotion turtle chord).runFrom cache =
      ((asked.runFrom cache).1.map .ofPitches, (asked.runFrom cache).2) := by
  intro asked
  rw [prime, Attempt.runFrom_bind, runFrom_classify, found]
  simp only [asked]
  split
  · rw [Attempt.runFrom_bind]
    rcases (leastMotion.place c.primeForm zero 0 turtle.range).runFrom cache with
      ⟨cause | pitches, after⟩ <;> rfl
  · rw [Attempt.runFrom_bind]
    rcases (leastMotion.lead turtle.pitchClasses.voices chord turtle.range true).runFrom cache with
      ⟨cause | pitches, after⟩ <;> rfl

end

variable {turtle : Turtle Rat}

theorem prime_bottom (reached : cache.Reached) (chordless : turtle.pitchClasses.voices = [])
    (prime : IsPrimeForm chord p) (fits : p.Voiceable turtle.range) :
    ((Interpreter.prime leastMotion turtle chord).runFrom cache).1 = .ok p := by
  obtain ⟨c, found⟩ := Option.ne_none_iff_exists'.mp (mt classify?_eq_none_iff.mp prime.voiced)
  obtain rfl := prime.unique (classify?_isPrimeForm found)
  rw [runFrom_prime_of_some found, if_pos (PitchClassSet.isEmpty_iff.mpr chordless)]
  simp only [place_bottom reached fits, prime.canonical, Except.map, ofPitches_voices]

theorem prime_bottom_refused (reached : cache.Reached)
    (chordless : turtle.pitchClasses.voices = [])
    (unfit : ∀ p, IsPrimeForm chord p → ¬ p.Voiceable turtle.range) :
    ∃ cause, ((Interpreter.prime leastMotion turtle chord).runFrom cache).1 = .error cause := by
  cases found : classify? chord with
  | none => exact ⟨_, by rw [runFrom_prime_of_none found]⟩
  | some c =>
    have untransposed : c.primeForm.transpose zero = c.primeForm := c.primeForm.transpose_zero
    have unfit := unfit _ (classify?_isPrimeForm found)
    rw [← untransposed] at unfit
    obtain ⟨cause, refused⟩ := place_refused reached unfit 0
    rw [runFrom_prime_of_some found, if_pos (PitchClassSet.isEmpty_iff.mpr chordless)]
    exact ⟨cause, by simp only [refused, Except.map]⟩

theorem prime_led (reached : cache.Reached) (voiced : turtle.pitchClasses.voices ≠ [])
    (fits : chord.Voiceable turtle.range) :
    ∃ moved, ((prime leastMotion turtle chord).runFrom cache).1 = .ok moved ∧
      moved.voices.Perm chord.voices := by
  obtain ⟨c, found⟩ := Option.ne_none_iff_exists'.mp (mt classify?_eq_none_iff.mp fits.1)
  obtain ⟨pitches, led, chosen⟩ := lead_nearest reached voiced fits true
  rw [runFrom_prime_of_some found, if_neg (mt PitchClassSet.isEmpty_iff.mp voiced)]
  refine ⟨.ofPitches pitches, by simp only [led, Except.map], ?_⟩
  exact (realizes_of_mem fits chosen.mem).perm

theorem prime_led_refused (reached : cache.Reached) (voiced : turtle.pitchClasses.voices ≠ [])
    (unfit : ¬ chord.Voiceable turtle.range) :
    ∃ cause, ((prime leastMotion turtle chord).runFrom cache).1 = .error cause := by
  cases found : classify? chord with
  | none => exact ⟨_, by rw [runFrom_prime_of_none found]⟩
  | some c =>
    obtain ⟨cause, refused⟩ := lead_refused reached voiced unfit true
    rw [runFrom_prime_of_some found, if_neg (mt PitchClassSet.isEmpty_iff.mp voiced)]
    exact ⟨cause, by simp only [refused, Except.map]⟩

/-- The command fails exactly if no chord to move to is found, and else moves to it. -/
theorem execute_prime_iff {α σ : Type} [Scalar α] {oracle : Oracle α σ} {chord : PitchClassSet α}
    {i : Interpreter α} {s : σ} {fits : Prop} {suits : PitchClassSet α → Prop}
    (moves : fits → ∃ moved, ((prime oracle i.turtle chord).runFrom s).1 = .ok moved ∧ suits moved)
    (refuses : ¬ fits → ∃ cause, ((prime oracle i.turtle chord).runFrom s).1 = .error cause)
    (token : String) :
    let outcome := (execute oracle token (.prime chord)).runFrom (i, s)
    ((∃ e, outcome.1 = .error e) ↔ ¬ fits) ∧
      (outcome.1 = .ok () → ∃ moved, suits moved ∧ outcome.2.1 = i.moveTo moved) := by
  intro outcome
  have ran : outcome = _ := runFrom_execute_prime oracle token chord i s
  by_cases fit : fits
  · obtain ⟨moved, answered, suit⟩ := moves fit
    rcases asked : (prime oracle i.turtle chord).runFrom s with ⟨answer, after⟩
    rw [asked] at ran answered
    obtain rfl : answer = .ok moved := answered
    rw [ran]
    exact ⟨⟨nofun, fun unfit => absurd fit unfit⟩, fun _ => ⟨moved, suit, rfl⟩⟩
  · obtain ⟨cause, refused⟩ := refuses fit
    rcases asked : (prime oracle i.turtle chord).runFrom s with ⟨answer, after⟩
    rw [asked] at ran refused
    obtain rfl : answer = .error cause := refused
    rw [ran]
    exact ⟨⟨fun _ => fit, fun _ => ⟨_, rfl⟩⟩, nofun⟩

/-- What P does. Without a chord of its own the turtle takes the prime form of the given one,
which has to lie within the range; otherwise it takes the given chord with its voices in some
order, and that chord has to. The modality becomes the same chord, and nothing else changes. -/
theorem execute_prime_leastMotion (reached : cache.Reached) (token : String)
    (chord : PitchClassSet Rat) (i : Interpreter Rat) :
    let outcome := (execute leastMotion token (.prime chord)).runFrom (i, cache)
    let range := i.turtle.range
    (i.turtle.pitchClasses.voices = [] →
      ((∃ e, outcome.1 = .error e) ↔
        chord.voices = [] ∨ ∃ p, IsPrimeForm chord p ∧ ∃ x ∈ p.voices, range < x) ∧
      (outcome.1 = .ok () → ∃ p, (IsPrimeForm chord p ∧ p.voices.Pairwise (· ≤ ·)) ∧
        outcome.2.1 = { i with turtle := { i.turtle with pitchClasses := p }, modality := p })) ∧
    (i.turtle.pitchClasses.voices ≠ [] →
      ((∃ e, outcome.1 = .error e) ↔ chord.voices = [] ∨ ∃ x ∈ chord.voices, range < x) ∧
      (outcome.1 = .ok () → ∃ moved, moved.voices.Perm chord.voices ∧
        outcome.2.1 =
          { i with turtle := { i.turtle with pitchClasses := moved }, modality := moved })) := by
  intro outcome range
  constructor
  · intro chordless
    have condition : (¬ ∃ p, IsPrimeForm chord p ∧ p.Voiceable range) ↔
        chord.voices = [] ∨ ∃ p, IsPrimeForm chord p ∧ ∃ x ∈ p.voices, range < x := by
      constructor
      · intro unfit
        by_cases named : chord.voices = []
        · exact .inl named
        · obtain ⟨p, prime⟩ := exists_isPrimeForm named
          obtain ⟨rest, voices⟩ := prime.voices_eq
          have above := not_voiceable_iff.mp fun fits => unfit ⟨p, prime, fits⟩
          exact .inr ⟨p, prime, above.resolve_left (voices ▸ List.cons_ne_nil 0 rest)⟩
      · rintro (unnamed | ⟨p, prime, above⟩) ⟨q, prime', fits⟩
        · exact prime'.voiced unnamed
        · rw [prime'.unique prime] at fits
          exact not_voiceable_iff.mpr (.inr above) fits
    rw [← condition]
    refine execute_prime_iff ?_ ?_ token
    · rintro ⟨p, prime, fits⟩
      exact ⟨p, prime_bottom reached chordless prime fits, prime, prime.ascending⟩
    · intro unfit
      exact prime_bottom_refused reached chordless fun p prime fits => unfit ⟨p, prime, fits⟩
  · intro voiced
    rw [← not_voiceable_iff]
    exact execute_prime_iff (prime_led reached voiced) (prime_led_refused reached voiced) token

/-- The fifth does not lie within the range, but its prime form, a fourth, ends with it. -/
theorem execute_prime_leastMotion_fifth :
    let fifth : PitchClassSet Rat := .ofPitches [7, 0]
    let cache := ((VoicingCache.voicings (.ofPitches [2]) 5).runFrom
      (.empty : VoicingCache Rat)).2
    let bare : Interpreter Rat := { initial with turtle := { Turtle.initial with range := 5 } }
    let sounding := bare.moveTo (.ofPitches [2])
    let outcome (i : Interpreter Rat) :=
      (execute leastMotion "P(7,0)" (.prime fifth)).runFrom (i, cache)
    cache.Reached ∧ bare.turtle.pitchClasses.voices = [] ∧
      (∃ p, IsPrimeForm fifth p ∧ p.voices = [0, 5] ∧ (outcome bare).2.1 = bare.moveTo p) ∧
      sounding.turtle.pitchClasses.voices ≠ [] ∧ ∃ e, (outcome sounding).1 = .error e := by
  intro fifth cache bare sounding outcome
  have reached : cache.Reached := .asked _ _ .empty
  have voiced : sounding.turtle.pitchClasses.voices ≠ [] := by simp [sounding, moveTo]
  have classified : (classify? fifth).map (·.primeForm.voices) = some [0, 5] := by decide +kernel
  obtain ⟨c, found, voices⟩ := Option.map_eq_some_iff.mp classified
  have prime := classify?_isPrimeForm found
  refine ⟨reached, rfl, ?_, voiced, ?_⟩
  · obtain ⟨fails, moves⟩ := (execute_prime_leastMotion reached "P(7,0)" fifth bare).1 rfl
    have succeeds : (outcome bare).1 = .ok () := by
      cases answer : (outcome bare).1 with
      | ok done => rfl
      | error e =>
        rcases fails.mp ⟨e, answer⟩ with none | ⟨p, prime', x, member, above⟩
        · simp [fifth] at none
        · have within : ∀ x ∈ ([0, 5] : List Rat), x ≤ 5 := by decide +kernel
          rw [prime'.unique prime, voices] at member
          exact absurd above (not_lt.mpr (within x member))
    obtain ⟨p, ⟨prime', -⟩, moved⟩ := moves succeeds
    exact ⟨p, prime', prime'.unique prime ▸ voices, moved⟩
  · obtain ⟨fails, -⟩ := (execute_prime_leastMotion reached "P(7,0)" fifth sounding).2 voiced
    have seventh : (7 : Rat) ∈ fifth.voices ∧ (5 : Rat) < 7 := by decide +kernel
    exact fails.mpr (.inr ⟨7, seventh⟩)

end Interpreter
end ChordGrammar
