import ChordGrammar.Proofs.Classification
import ChordGrammar.Realization

/-! Writing chords with the oracle of least motion. Every chord that can be voiced within
its range is realized, a tie takes over what sounds already, and no pitches of another
content ever reach the check. -/
namespace ChordGrammar

open Scalar

namespace Turtle

section

variable {α : Type} [Scalar α]

theorem runFrom_place_leastMotion (chord : Turtle α) (cache : VoicingCache α) :
    (chord.place leastMotion).runFrom cache =
      match classify? chord.pitchClasses with
      | none => (.error .nothingToClassify, cache)
      | some c =>
        (leastMotion.place c.primeForm c.transposition chord.voicing chord.range).runFrom cache := by
  rw [place, Attempt.runFrom_bind, runFrom_classify]
  cases classify? chord.pitchClasses <;> rfl

end

def Tied (prior : Option (PitchClassSet Rat)) (chord : Turtle Rat) : Prop :=
  chord.voiceLead = true ∧
    ∃ content, prior = some content ∧ content.sameContent chord.pitchClasses = true

def Writable (prior : Option (PitchClassSet Rat)) (chord : Turtle Rat) : Prop :=
  Tied prior chord ∨ chord.pitchClasses.Voiceable chord.range

def contentBefore (prior : Option (PitchClassSet Rat)) (chords : List (Turtle Rat)) :
    Nat → Option (PitchClassSet Rat)
  | 0 => prior
  | i + 1 => chords[i]?.map pitchClasses

/-- What the chord written before has to be for the next one to be led from it. -/
def Sounding (before : Turtle Rat) : Prop :=
  ∃ pitches, before.realized = some pitches ∧ pitches ≠ [] ∧ pitches.Pairwise (· ≤ ·) ∧
    (PitchClassSet.ofPitches pitches).sameContent before.pitchClasses = true

/-- The pitches that a chord may have after a chord of some content. Those of a tie may
lie outside its own range. -/
structure Suits (prior : Option (PitchClassSet Rat)) (chord : Turtle Rat) (pitches : List Rat) :
    Prop where
  voiced : pitches ≠ []
  ascending : pitches.Pairwise (· ≤ ·)
  content : (PitchClassSet.ofPitches pitches).sameContent chord.pitchClasses = true
  within : ¬ Tied prior chord → ∀ p ∈ pitches, 0 ≤ p ∧ p ≤ chord.range

def WrittenAs (prior : Option (PitchClassSet Rat)) (chord written : Turtle Rat) : Prop :=
  ∃ pitches, written = { chord with time := written.time, realized := some pitches } ∧
    Suits prior chord pitches

theorem ne_nil_of_content {pitches : List Rat} {content : PitchClassSet Rat}
    (same : (PitchClassSet.ofPitches pitches).sameContent content = true)
    (voiced : content.voices ≠ []) : pitches ≠ [] := by
  rintro rfl
  exact voiced (PitchClassSet.sameContent_iff.mp same).symm.eq_nil

section

variable {cache : VoicingCache Rat} {chord : Turtle Rat} {before : Option (Turtle Rat)}

theorem place_voiceable (fits : chord.pitchClasses.Voiceable chord.range) :
    ∃ pitches, Realizes pitches chord.pitchClasses chord.range ∧
      ∀ cache, ((chord.place leastMotion).runFrom cache).1 = .ok pitches := by
  obtain ⟨c, found⟩ := Option.ne_none_iff_exists'.mp (mt classify?_eq_none_iff.mp fits.1)
  obtain ⟨bound, -⟩ := place_classification found fits chord.voicing .empty
  refine ⟨_, realizes_of_mem fits (List.mem_map_of_mem (List.getElem_mem bound)), fun cache => ?_⟩
  obtain ⟨_, placed⟩ := place_classification found fits chord.voicing cache
  rw [runFrom_place_leastMotion, found]
  exact placed

theorem place_not_voiceable (reached : cache.Reached)
    (unfit : ¬ chord.pitchClasses.Voiceable chord.range) :
    ∃ cause, ((chord.place leastMotion).runFrom cache).1 = .error cause := by
  rw [runFrom_place_leastMotion]
  cases found : classify? chord.pitchClasses with
  | none => exact ⟨_, rfl⟩
  | some c =>
    have same := classify?_perm found
    exact place_refused reached (fun fits => unfit (fits.perm same)) chord.voicing

theorem place_reached (reached : cache.Reached) :
    ((chord.place leastMotion).runFrom cache).2.Reached := by
  rw [runFrom_place_leastMotion]
  split
  · exact reached
  · exact reached.place chord.voicing

theorem suits_of_realizes {prior : Option (PitchClassSet Rat)} {pitches : List Rat}
    (voiced : chord.pitchClasses.voices ≠ [])
    (realizes : Realizes pitches chord.pitchClasses chord.range) : Suits prior chord pitches :=
  ⟨ne_nil_of_content realizes.content voiced, realizes.ascending, realizes.content,
    fun _ => realizes.within⟩

theorem realize_writable (reached : cache.Reached) (sounding : ∀ b ∈ before, Sounding b)
    (chord : Turtle Rat) (writable : Writable (before.map pitchClasses) chord) :
    ∃ pitches, ((chord.realize leastMotion before).runFrom cache).1 = .ok pitches ∧
      Suits (before.map pitchClasses) chord pitches := by
  have placed (fits : chord.pitchClasses.Voiceable chord.range) :
      ∃ pitches, ((chord.place leastMotion).runFrom cache).1 = .ok pitches ∧
        Suits (before.map pitchClasses) chord pitches := by
    obtain ⟨pitches, realizes, answer⟩ := place_voiceable fits
    exact ⟨pitches, answer cache, suits_of_realizes fits.1 realizes⟩
  cases before with
  | none =>
    rcases writable with ⟨-, content, none, -⟩ | fits
    · cases none
    · exact placed fits
  | some b =>
    obtain ⟨pitches, kept, voiced, ascending, content⟩ := sounding b rfl
    rw [realize_after kept]
    by_cases led : chord.voiceLead = true
    · rw [if_pos led]
      by_cases same : b.pitchClasses.sameContent chord.pitchClasses = true
      · rw [if_pos same]
        have tied : Tied (some b.pitchClasses) chord := ⟨led, _, rfl, same⟩
        refine ⟨pitches, rfl, voiced, ascending, ?_, fun untied => absurd tied untied⟩
        rw [PitchClassSet.sameContent_iff] at same content ⊢
        exact content.trans same
      · rw [if_neg same]
        have fits : chord.pitchClasses.Voiceable chord.range := by
          rcases writable with ⟨-, content, prior, tied⟩ | fits
          · cases prior
            exact absurd tied same
          · exact fits
        obtain ⟨target, answer, chosen⟩ := lead_nearest reached voiced fits true
        exact ⟨target, answer, suits_of_realizes fits.1 (realizes_of_mem fits chosen.mem)⟩
    · rw [if_neg led]
      rcases writable with ⟨tied, -⟩ | fits
      · exact absurd tied led
      · exact placed fits

theorem realize_not_writable (reached : cache.Reached) (sounding : ∀ b ∈ before, Sounding b)
    (chord : Turtle Rat) (unfit : ¬ Writable (before.map pitchClasses) chord) :
    ∃ cause, ((chord.realize leastMotion before).runFrom cache).1 = .error cause := by
  have unvoiceable : ¬ chord.pitchClasses.Voiceable chord.range := fun fits => unfit (.inr fits)
  cases before with
  | none => exact place_not_voiceable reached unvoiceable
  | some b =>
    obtain ⟨pitches, kept, voiced, -⟩ := sounding b rfl
    rw [realize_after kept]
    split
    · next led =>
      split
      · next same => exact absurd (.inl ⟨led, _, rfl, same⟩) unfit
      · exact lead_refused reached voiced unvoiceable true
    · exact place_not_voiceable reached unvoiceable

theorem realize_reached (reached : cache.Reached) (sounding : ∀ b ∈ before, Sounding b)
    (chord : Turtle Rat) :
    ((chord.realize leastMotion before).runFrom cache).2.Reached := by
  cases before with
  | none => exact place_reached reached
  | some b =>
    obtain ⟨pitches, kept, voiced, -⟩ := sounding b rfl
    rw [realize_after kept]
    split
    · split
      · exact reached
      · exact reached.lead voiced true
    · exact place_reached reached

theorem contentBefore_succ (prior : Option (PitchClassSet Rat)) (chord : Turtle Rat)
    (rest : List (Turtle Rat)) (i : Nat) :
    contentBefore prior (chord :: rest) (i + 1) =
      contentBefore (some chord.pitchClasses) rest i := by
  cases i <;> rfl

def WrittenAll (prior : Option (PitchClassSet Rat)) (chords written : List (Turtle Rat)) : Prop :=
  written.length = chords.length ∧ ∀ i chord, chords[i]? = some chord →
    Writable (contentBefore prior chords i) chord ∧
    ∃ w, written[i]? = some w ∧ WrittenAs (contentBefore prior chords i) chord w

def FirstUnwritable (prior : Option (PitchClassSet Rat)) (chords : List (Turtle Rat)) (i : Nat)
    (chord : Turtle Rat) : Prop :=
  chords[i]? = some chord ∧ ¬ Writable (contentBefore prior chords i) chord ∧
    ∀ j < i, ∀ earlier, chords[j]? = some earlier → Writable (contentBefore prior chords j) earlier

variable {prior : Option (PitchClassSet Rat)} {first written : Turtle Rat}
  {rest others : List (Turtle Rat)}

theorem WrittenAll.cons (writable : Writable prior first) (as : WrittenAs prior first written)
    (later : WrittenAll (some first.pitchClasses) rest others) :
    WrittenAll prior (first :: rest) (written :: others) := by
  refine ⟨by simp [later.1], fun i chord found => ?_⟩
  cases i with
  | zero =>
    cases found
    exact ⟨writable, written, rfl, as⟩
  | succ i =>
    rw [contentBefore_succ]
    exact later.2 i chord found

theorem FirstUnwritable.cons (writable : Writable prior first) {i : Nat}
    (later : FirstUnwritable (some first.pitchClasses) rest i chord) :
    FirstUnwritable prior (first :: rest) (i + 1) chord := by
  obtain ⟨found, unfit, early⟩ := later
  refine ⟨found, by rwa [contentBefore_succ], fun j before earlier found => ?_⟩
  cases j with
  | zero =>
    cases found
    exact writable
  | succ j =>
    rw [contentBefore_succ]
    exact early j (Nat.lt_of_succ_lt_succ before) earlier found

/-- A run either writes every chord or ends at the first one that can not be written. -/
theorem writeFrom_outcome (reached : cache.Reached) (sounding : ∀ b ∈ before, Sounding b)
    (index : Nat) (chords : List (Turtle Rat)) (score : Score Rat) :
    let answer := ((writeFrom leastMotion index before chords).runFrom (score, cache)).1
    (∃ written, answer = .ok written ∧ WrittenAll (before.map pitchClasses) chords written) ∨
    ∃ i chord cause, answer = .error (.realization (index + i) chord.pitchClasses cause) ∧
      FirstUnwritable (before.map pitchClasses) chords i chord := by
  induction chords generalizing before cache index score with
  | nil => exact .inl ⟨[], rfl, rfl, by simp⟩
  | cons chord rest ih =>
    intro answer
    let timed := { chord with time := onsetAfter before }
    have next := realize_reached reached sounding timed
    by_cases writable : Writable (before.map pitchClasses) chord
    · obtain ⟨pitches, realized, suits⟩ := realize_writable reached sounding timed writable
      generalize ran : (timed.realize leastMotion before).runFrom cache = outcome at realized next
      obtain ⟨_, after⟩ := outcome
      obtain rfl : _ = Except.ok pitches := realized
      let written := { timed with realized := some pitches }
      have sounds : ∀ b ∈ some written, Sounding b := by
        rintro _ ⟨⟩
        exact ⟨pitches, rfl, suits.voiced, suits.ascending, suits.content⟩
      have suits : Suits (before.map pitchClasses) chord pitches :=
        ⟨suits.voiced, suits.ascending, suits.content, suits.within⟩
      have run : answer = ((writeFrom leastMotion (index + 1) (some written) rest).runFrom
          (written.write score, after)).1.map (written :: ·) := by
        simp only [answer, runFrom_writeFrom_cons, ran, timed, written, suits.content, if_true]
        generalize (writeFrom leastMotion (index + 1) _ rest).runFrom _ = later
        obtain ⟨e | others, after⟩ := later <;> rfl
      rcases ih next sounds (index + 1) (written.write score) with
        ⟨others, finished, all⟩ | ⟨i, unwritten, cause, failed, unfit⟩
      · refine .inl ⟨written :: others, ?_, all.cons writable ⟨pitches, rfl, suits⟩⟩
        rw [run, finished]
        rfl
      · refine .inr ⟨i + 1, unwritten, cause, ?_, unfit.cons writable⟩
        rw [run, failed, show index + (i + 1) = index + 1 + i by omega]
        rfl
    · obtain ⟨cause, refused⟩ := realize_not_writable reached sounding timed writable
      refine .inr ⟨0, chord, cause, ?_, rfl, writable, by simp⟩
      generalize ran : (timed.realize leastMotion before).runFrom cache = outcome at refused
      obtain ⟨_, after⟩ := outcome
      obtain rfl : _ = Except.error cause := refused
      simp only [answer, runFrom_writeFrom_cons, ran, timed]
      rfl

/-- Writing succeeds exactly if every chord is a tie or has a voicing within its range.
It fails at the first one that is neither, and never because of the pitches found. -/
theorem writeAll_leastMotion (reached : cache.Reached) (chords : List (Turtle Rat))
    (score : Score Rat) :
    let answer := ((writeAll leastMotion chords).runFrom (score, cache)).1
    ((∃ written, answer = .ok written) ↔
      ∀ i chord, chords[i]? = some chord → Writable (contentBefore none chords i) chord) ∧
    (∀ e, answer = .error e → ∃ i chord cause,
      e = .realization i chord.pitchClasses cause ∧ FirstUnwritable none chords i chord) ∧
    ∀ written, answer = .ok written → written.length = chords.length ∧
      ∀ i chord, chords[i]? = some chord →
        ∃ w, written[i]? = some w ∧ WrittenAs (contentBefore none chords i) chord w := by
  intro answer
  have outcome := writeFrom_outcome reached (fun b (none : b ∈ none) => by cases none) 0 chords score
  rcases outcome with ⟨written, finished, length, each⟩ | ⟨i, chord, cause, failed, unfit⟩
  · have finished : answer = .ok written := finished
    refine ⟨iff_of_true ⟨written, finished⟩ fun i chord found => (each i chord found).1, ?_, ?_⟩
    · intro e failed
      rw [finished] at failed
      cases failed
    · intro other same
      rw [finished] at same
      cases same
      exact ⟨length, fun i chord found => (each i chord found).2⟩
  · have failed : answer = .error (.realization i chord.pitchClasses cause) := by
      rw [Nat.zero_add] at failed
      exact failed
    refine ⟨iff_of_false ?_ fun all => unfit.2.1 (all i chord unfit.1), ?_, ?_⟩
    · rintro ⟨written, finished⟩
      rw [failed] at finished
      cases finished
    · intro e same
      rw [failed] at same
      cases same
      exact ⟨i, chord, cause, rfl, unfit⟩
    · intro written finished
      rw [failed] at finished
      cases finished

/-- A tie is written although its own range has no room for it. -/
theorem writeAll_leastMotion_tie :
    let fifth : Turtle Rat := { Turtle.initial with pitchClasses := .ofPitches [0, 7] }
    let tie : Turtle Rat := { fifth with voiceLead := true, range := 3 }
    (VoicingCache.empty : VoicingCache Rat).Reached ∧ ¬ tie.pitchClasses.Voiceable tie.range ∧
      ∃ written,
        ((writeAll leastMotion [fifth, tie]).runFrom (Score.empty, .empty)).1 = .ok written := by
  intro fifth tie
  have room : fifth.pitchClasses.Voiceable fifth.range := by
    refine ⟨by decide, ?_⟩
    decide +kernel
  have noRoom : ¬ tie.pitchClasses.Voiceable tie.range := by
    rintro ⟨-, inside⟩
    exact absurd (inside 7 (by decide +kernel)) (by decide +kernel)
  refine ⟨.empty, noRoom, (writeAll_leastMotion .empty [fifth, tie] .empty).1.mpr ?_⟩
  intro i chord found
  obtain _ | _ | i := i
  · cases found
    exact .inr room
  · cases found
    exact .inl ⟨rfl, fifth.pitchClasses, rfl, by decide +kernel⟩
  · cases found

end

end Turtle
end ChordGrammar
