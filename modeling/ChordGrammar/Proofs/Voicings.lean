import ChordGrammar.Proofs.Placements
import ChordGrammar.Voicing.Cache

/-! Asking a cache for voicings. What is kept was enumerated for a chord within its
range, so an answer depends on the chord and the range alone and not on the questions
before it. -/
namespace ChordGrammar

open Scalar

/-- Whether a chord has voicings: it has a voice and none above the range. -/
def PitchClassSet.Voiceable (chord : PitchClassSet Rat) (range : Rat) : Prop :=
  chord.voices ≠ [] ∧ ∀ p ∈ chord.voices, p ≤ range

theorem PitchClassSet.Voiceable.perm {chord other : PitchClassSet Rat} {range : Rat}
    (fits : chord.Voiceable range) (same : chord.voices.Perm other.voices) :
    other.Voiceable range := by
  refine ⟨fun none => fits.1 ?_, fun p member => fits.2 p (same.mem_iff.mpr member)⟩
  rw [none] at same
  exact same.eq_nil

theorem PitchClassSet.Voiceable.placeable {chord : PitchClassSet Rat} {range : Rat}
    (fits : chord.Voiceable range) : Placeable range chord.canonical.voices := by
  intro p member
  have bounds := PitchClassSet.voice_bounds member
  exact ⟨bounds.1, bounds.2, fits.2 p (PitchClassSet.mem_canonical.mp member)⟩

namespace VoicingCache

section

variable {α : Type} [Scalar α]

/-- The caches that arise from the empty one by asking for voicings. -/
inductive Reached : VoicingCache α → Prop where
  | empty : Reached VoicingCache.empty
  | asked {cache : VoicingCache α} (chord : PitchClassSet α) (range : α) :
      Reached cache → Reached ((voicings chord range).runFrom cache).2

theorem find?_eq_some {cache : VoicingCache α} {voices : List α} {range : α}
    {entry : VoicingEntry α} (found : cache.find? voices range = some entry) :
    entry ∈ cache.entries ∧ entry.voices = voices ∧ entry.range = range := by
  have matched := List.find?_some found
  exact ⟨List.mem_of_find?_eq_some found, of_decide_eq_true matched⟩

/-- All that asking for voicings can do: a chord is refused, or there is an entry for it, or
one is made. -/
theorem voicings_cases (chord : PitchClassSet α) (range : α) (cache : VoicingCache α) :
    (chord.isEmpty = true ∧ (voicings chord range).runFrom cache = (.error .emptyChord, cache)) ∨
    (chord.isEmpty = false ∧ exceeds chord range = true ∧
      (voicings chord range).runFrom cache =
        (.error (.noVoicing chord.canonical range), cache)) ∨
    (chord.isEmpty = false ∧ ∃ entry,
      cache.find? chord.canonical.voices (unsignedZero range) = some entry ∧
      (voicings chord range).runFrom cache = (.ok entry.voicings, cache)) ∨
    (chord.isEmpty = false ∧ exceeds chord range = false ∧ ∃ entry : VoicingEntry α,
      cache.find? chord.canonical.voices (unsignedZero range) = none ∧
      entry.voices = chord.canonical.voices ∧ entry.range = unsignedZero range ∧
      (voicings chord range).runFrom cache = (.ok entry.voicings, ⟨entry :: cache.entries⟩)) := by
  simp only [voicings, Attempt.runFrom_of]
  cases voiced : chord.isEmpty with
  | true => exact .inl ⟨rfl, rfl⟩
  | false =>
    refine .inr ?_
    cases found : cache.find? chord.canonical.voices (unsignedZero range) with
    | some entry => exact .inr (.inl ⟨rfl, entry, rfl, rfl⟩)
    | none =>
      cases above : exceeds chord range with
      | true => exact .inl ⟨rfl, rfl, rfl⟩
      | false => exact .inr (.inr ⟨rfl, rfl, ⟨_, _, _, rfl⟩, rfl, rfl, rfl, rfl⟩)

theorem runFrom_voice (chord : PitchClassSet α) (index : Int64) (range : α)
    (cache : VoicingCache α) :
    (voice chord index range).runFrom cache =
      ((((voicings chord range).runFrom cache).1.map fun all =>
          all.getD (index.toInt % all.length).toNat []),
        ((voicings chord range).runFrom cache).2) := by
  rw [voice, Attempt.runFrom_bind]
  generalize (voicings chord range).runFrom cache = outcome
  obtain ⟨answer | answer, after⟩ := outcome <;> rfl

theorem not_exceeds_iff {chord : PitchClassSet α} {range : α} :
    exceeds chord range = false ↔ ∀ p ∈ chord.canonical.voices, ¬ range < p := by
  simp only [exceeds, List.any_eq_false, decide_eq_true_eq]

/-- What is kept was asked for within a range, of which an entry has lost the sign of a
zero. -/
def WithinRange (cache : VoicingCache α) : Prop :=
  ∀ entry ∈ cache.entries, ∀ p ∈ entry.voices, ¬ entry.range < p

theorem withinRange_empty : (empty : VoicingCache α).WithinRange := by
  intro entry member
  exact absurd member List.not_mem_nil

variable [LawfulZero α] {cache : VoicingCache α}

/-- The answer is that of an empty cache, whatever the cache holds. -/
theorem answer_of_withinRange (within : cache.WithinRange) (chord : PitchClassSet α) (range : α) :
    ((voicings chord range).runFrom cache).1 =
      if chord.isEmpty then .error .emptyChord
      else if exceeds chord range then .error (.noVoicing chord.canonical range)
      else .ok (enumerate (unsignedZero range) chord.canonical.voices) := by
  rcases voicings_cases chord range cache with
    ⟨noVoice, asked⟩ | ⟨voiced, above, asked⟩ | ⟨voiced, entry, found, asked⟩ |
      ⟨voiced, inside, entry, -, voices, bound, asked⟩
  · simp [asked, noVoice]
  · simp [asked, voiced, above]
  · obtain ⟨kept, voices, bound⟩ := find?_eq_some found
    have inside : exceeds chord range = false := by
      rw [not_exceeds_iff, ← voices]
      intro p voice
      rw [← unsignedZero_lt_iff, ← bound]
      exact within entry kept p voice
    simp [asked, voiced, inside, entry.sound, voices, bound]
  · simp [asked, voiced, inside, entry.sound, voices, bound]

theorem withinRange_voicings (within : cache.WithinRange) (chord : PitchClassSet α) (range : α) :
    ((voicings chord range).runFrom cache).2.WithinRange := by
  rcases voicings_cases chord range cache with
    ⟨-, asked⟩ | ⟨-, -, asked⟩ | ⟨-, _, -, asked⟩ | ⟨-, inside, entry, -, voices, bound, asked⟩
  · rwa [asked]
  · rwa [asked]
  · rwa [asked]
  · rw [asked]
    intro other member p voice
    rcases List.mem_cons.mp member with rfl | member
    · rw [bound, unsignedZero_lt_iff]
      rw [voices] at voice
      exact not_exceeds_iff.mp inside p voice
    · exact within other member p voice

theorem Reached.withinRange (reached : cache.Reached) : cache.WithinRange := by
  induction reached with
  | empty => exact withinRange_empty
  | asked chord range _ ih => exact withinRange_voicings ih chord range

end

variable {cache : VoicingCache Rat} {chord : PitchClassSet Rat} {range : Rat}

theorem exceeds_iff : exceeds chord range = true ↔ ∃ p ∈ chord.canonical.voices, range < p := by
  simp only [exceeds, List.any_eq_true, decide_eq_true_eq]

theorem voiceable_iff :
    chord.Voiceable range ↔ chord.isEmpty = false ∧ exceeds chord range = false := by
  simp only [PitchClassSet.Voiceable, not_exceeds_iff, PitchClassSet.mem_canonical, not_lt, ne_eq,
    ← PitchClassSet.isEmpty_iff, Bool.not_eq_true]

theorem Reached.answer (reached : cache.Reached) (chord : PitchClassSet Rat) (range : Rat) :
    ((voicings chord range).runFrom cache).1 =
      if chord.isEmpty then .error .emptyChord
      else if exceeds chord range then .error (.noVoicing chord.canonical range)
      else .ok (enumerate range chord.canonical.voices) := by
  rw [answer_of_withinRange reached.withinRange, unsignedZero_eq]

theorem Reached.answer_of_voiceable (reached : cache.Reached) (fits : chord.Voiceable range) :
    ((voicings chord range).runFrom cache).1 = .ok (enumerate range chord.canonical.voices) := by
  obtain ⟨voiced, inside⟩ := voiceable_iff.mp fits
  rw [reached.answer, voiced, inside]
  rfl

theorem answer_of_voiceable (fits : chord.Voiceable range) (cache : VoicingCache Rat) :
    ((voicings chord range).runFrom cache).1 = .ok (enumerate range chord.canonical.voices) := by
  obtain ⟨voiced, inside⟩ := voiceable_iff.mp fits
  rcases voicings_cases chord range cache with
    ⟨noVoice, -⟩ | ⟨-, above, -⟩ | ⟨-, entry, found, asked⟩ |
      ⟨-, -, entry, -, voices, bound, asked⟩
  · rw [voiced] at noVoice
    cases noVoice
  · rw [inside] at above
    cases above
  · obtain ⟨-, voices, bound⟩ := find?_eq_some found
    rw [asked, entry.sound, voices, bound, unsignedZero_eq]
  · rw [asked, entry.sound, voices, bound, unsignedZero_eq]

theorem Reached.answer_of_not_voiceable (reached : cache.Reached)
    (unfit : ¬ chord.Voiceable range) :
    ∃ cause, ((voicings chord range).runFrom cache).1 = .error cause := by
  rw [reached.answer]
  split
  · exact ⟨_, rfl⟩
  · next voiced =>
    split
    · exact ⟨_, rfl⟩
    · next inside =>
      rw [Bool.not_eq_true] at voiced inside
      exact absurd (voiceable_iff.mpr ⟨voiced, inside⟩) unfit

/-- What the voicings of a chord within a range have to be: its placements, each once, in
the order of a mixed-radix number whose least significant digit is the first voice. -/
structure Enumerates (range : Rat) (chord : List Rat) (voicings : List (List Rat)) : Prop where
  lowest : decrement? range chord = none
  placements : ∀ v, v ∈ voicings ↔ IsPlacement range chord v
  once : voicings.Nodup
  count : (voicings.length : Int) = (chord.map fun p => ⌊(range - p) / 12⌋ + 1).prod
  numbered : ∀ k (bound : k < voicings.length), voicings[k] = placementAt range chord k
  /-- The steps of the odometer lead through all of them and end at the last. -/
  stepwise : ∀ k (bound : k < voicings.length), increment? range voicings[k] = voicings[k + 1]?
  first : voicings.head? = some chord
  last : ∃ top, voicings.getLast? = some top ∧
    ∀ v, IsPlacement range chord v → List.Forall₂ (· ≤ ·) v top

theorem placementCount_eq_prod {voices : List Rat} (fits : Placeable range voices) :
    (placementCount range voices : Int) =
      (voices.map fun p => ⌊(range - p) / 12⌋ + 1).prod := by
  induction voices with
  | nil => rfl
  | cons p ps ih =>
    rw [placementCount_cons, List.map_cons, List.prod_cons, ← ih fits.tail,
      ← placements_eq_floor fits.head.2.2, Nat.cast_mul]

theorem enumerate_enumerates {voices : List Rat} (fits : Placeable range voices) :
    Enumerates range voices (enumerate range voices) where
  lowest := decrement?_of_lt fun p member => (fits p member).2.1
  placements _ := mem_enumerate fits
  once := nodup_enumerate fits
  count := by rw [length_enumerate fits, placementCount_eq_prod fits]
  numbered _ bound := getElem_enumerate fits bound
  stepwise _ bound := increment?_enumerate fits bound
  first := by
    have some := placementCount_pos range voices
    have bound : 0 < (enumerate range voices).length := by rwa [length_enumerate fits]
    rw [List.head?_eq_getElem?, List.getElem?_eq_getElem bound, getElem_enumerate fits,
      placementAt_zero]
  last := by
    have some := placementCount_pos range voices
    have bound : (enumerate range voices).length - 1 < (enumerate range voices).length := by
      rw [length_enumerate fits]
      omega
    refine ⟨(enumerate range voices)[(enumerate range voices).length - 1], ?_, ?_⟩
    · rw [List.getLast?_eq_getElem?, List.getElem?_eq_getElem bound]
    · intro v placed
      refine placed.le_top ((mem_enumerate fits).mp (List.getElem_mem bound)) ?_
      rw [increment?_enumerate fits bound, List.getElem?_eq_none (by omega)]

/-- A chord without voices is refused, one with a voice above the range has no voicing,
and of every other chord exactly the octave placements are given. -/
theorem voicings_enumerate_placements (reached : cache.Reached) (chord : PitchClassSet Rat)
    (range : Rat) :
    let answer := ((voicings chord range).runFrom cache).1
    let entries := chord.canonical.voices
    entries.Pairwise (· ≤ ·) ∧
    (answer = .error .emptyChord ↔ chord.voices = []) ∧
    (chord.voices ≠ [] →
      (answer = .error (.noVoicing chord.canonical range) ↔ ∃ p ∈ entries, range < p)) ∧
    (chord.voices ≠ [] → (∀ p ∈ entries, p ≤ range) →
      ∃ voicings, answer = .ok voicings ∧ Enumerates range entries voicings) := by
  intro answer entries
  have outcome : answer = _ := reached.answer chord range
  refine ⟨chord.canonical_pairwise, ?_, ?_, ?_⟩
  · rw [outcome, ← PitchClassSet.isEmpty_iff]
    split
    · next noVoice => simp [noVoice]
    · next voiced => split <;> simp [voiced]
  · intro voiced
    rw [outcome, if_neg (mt PitchClassSet.isEmpty_iff.mp voiced), ← exceeds_iff]
    split
    · next above => simp [above]
    · next inside => simp [inside]
  · intro voiced inside
    have fits : chord.Voiceable range :=
      ⟨voiced, fun p member => inside p (PitchClassSet.mem_canonical.mpr member)⟩
    exact ⟨_, reached.answer_of_voiceable fits, enumerate_enumerates fits.placeable⟩

theorem voicings_enumerate_placements_triad :
    let cache := ((voicings (.ofPitches [2, 9]) 12).runFrom (.empty : VoicingCache Rat)).2
    let triad : PitchClassSet Rat := .ofPitches [7, 0, 4]
    cache.Reached ∧ ∃ voicings, ((VoicingCache.voicings triad 24).runFrom cache).1 = .ok voicings ∧
      Enumerates 24 [0, 4, 7] voicings := by
  intro cache triad
  have reached : cache.Reached := .asked _ _ .empty
  have voices : triad.canonical.voices = [0, 4, 7] := by decide +kernel
  have inside : ∀ p ∈ triad.canonical.voices, p ≤ 24 := by decide +kernel
  rw [← voices]
  exact ⟨reached, (voicings_enumerate_placements reached triad 24).2.2.2 (by decide) inside⟩

end VoicingCache
end ChordGrammar
