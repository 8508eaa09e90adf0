import ChordGrammar.Proofs.Forms
import ChordGrammar.Proofs.Leading

/-! Classifying and placing. A chord moved down by one of its voices and up again has its
content back, so placing a classified chord places a chord of the same content. -/
namespace ChordGrammar

open Scalar

theorem voices_classificationAt (chord : PitchClassSet Rat) (root : Rat) :
    ((classificationAt chord root).primeForm.transpose root).voices.Perm chord.voices := by
  have lowered : (classificationAt chord root).primeForm.voices.Perm
      (chord.canonical.transpose (-root)).voices := PitchClassSet.canonical_perm _
  have raised := PitchClassSet.transpose_perm lowered root
  have restored := chord.canonical.transpose_neg_cancel (-root)
  rw [neg_neg] at restored
  rw [restored] at raised
  exact raised.trans chord.canonical_perm

theorem foldl_choice_mem {β : Type} (better : β → β → Bool) (first : β) (rest : List β) :
    rest.foldl (fun best b => if better b best then b else best) first ∈ first :: rest := by
  induction rest generalizing first with
  | nil => exact List.mem_cons_self
  | cons b rest ih =>
    rw [List.foldl_cons]
    split
    · exact List.mem_cons_of_mem first (ih b)
    · rcases List.mem_cons.mp (ih first) with same | member
      · rw [same]
        exact List.mem_cons_self
      · exact List.mem_cons_of_mem first (List.mem_cons_of_mem b member)

theorem classify?_eq_some {α : Type} [Scalar α] {chord : PitchClassSet α} {c : Classification α}
    (found : classify? chord = some c) :
    ∃ root ∈ chord.canonical.voices, c = classificationAt chord root := by
  unfold classify? at found
  split at found
  · cases found
  · next first rest candidates =>
    obtain rfl := Option.some.inj found
    have member := foldl_choice_mem
      (fun candidate best : Classification α =>
        precedes candidate.primeForm.voices best.primeForm.voices) first rest
    rw [← candidates] at member
    obtain ⟨root, voice, same⟩ := List.mem_map.mp member
    exact ⟨root, voice, same.symm⟩

theorem classify?_eq_none_iff {chord : PitchClassSet Rat} :
    classify? chord = none ↔ chord.voices = [] := by
  have empty : chord.canonical.voices = [] ↔ chord.voices = [] := by
    rw [← List.length_eq_zero_iff, ← List.length_eq_zero_iff, PitchClassSet.voices_canonical,
      length_sort]
  rw [← empty, ← List.map_eq_nil_iff (f := classificationAt chord)]
  unfold classify?
  split
  · next none =>
    rw [none]
    exact iff_of_true rfl rfl
  · next some =>
    rw [some]
    simp

theorem classify?_perm {chord : PitchClassSet Rat} {c : Classification Rat}
    (found : classify? chord = some c) :
    (c.primeForm.transpose c.transposition).voices.Perm chord.voices := by
  obtain ⟨root, -, rfl⟩ := classify?_eq_some found
  exact voices_classificationAt chord root

section

variable {α : Type} [Scalar α]

theorem runFrom_classify (chord : PitchClassSet α) (cache : VoicingCache α) :
    (leastMotion.classify chord).runFrom cache =
      (match classify? chord with
        | some c => .ok c
        | none => .error .nothingToClassify, cache) := by
  simp only [leastMotion]
  cases classify? chord <;> rfl

/-- Placing asks for the voicings of the transposed prime form and for nothing else. -/
theorem runFrom_place (primeForm : PitchClassSet α) (transposition : α) (voicing : Int64)
    (range : α) (cache : VoicingCache α) :
    (leastMotion.place primeForm transposition voicing range).runFrom cache =
      (match ((VoicingCache.voicings (primeForm.transpose transposition) range).runFrom cache).1 with
        | .error cause => .error (.voicing cause)
        | .ok voicings => .ok (sort (voicings.getD (voicing.toInt % voicings.length).toNat [])),
        ((VoicingCache.voicings (primeForm.transpose transposition) range).runFrom cache).2) := by
  simp only [leastMotion, Attempt.runFrom_bind, Attempt.runFrom_mapError,
    VoicingCache.runFrom_voice]
  generalize (VoicingCache.voicings (primeForm.transpose transposition) range).runFrom cache =
    outcome
  obtain ⟨cause | voicings, after⟩ := outcome <;> rfl

end

variable {cache : VoicingCache Rat} {range : Rat} {primeForm : PitchClassSet Rat}
  {transposition : Rat}

/-- An index that counts around the voicings of a chord ends at one of them. -/
theorem index_lt {chord : PitchClassSet Rat} (fits : chord.Voiceable range) (index : Int64) :
    let voicings := enumerate range chord.canonical.voices
    (index.toInt % voicings.length).toNat < voicings.length := by
  intro voicings
  have positive : 0 < voicings.length := by
    simp only [voicings, length_enumerate fits.placeable, placementCount_pos]
  have below := Int.emod_lt_of_pos index.toInt (Int.natCast_pos.mpr positive)
  have nonneg := Int.emod_nonneg index.toInt (Int.natCast_pos.mpr positive).ne'
  omega

theorem place_answer (reached : cache.Reached)
    (fits : (primeForm.transpose transposition).Voiceable range) (voicing : Int64) :
    let voicings := enumerate range (primeForm.transpose transposition).canonical.voices
    ∃ bound : (voicing.toInt % voicings.length).toNat < voicings.length,
      ((leastMotion.place primeForm transposition voicing range).runFrom cache).1 =
        .ok (sort voicings[(voicing.toInt % voicings.length).toNat]) := by
  intro voicings
  have bound := index_lt fits voicing
  refine ⟨bound, ?_⟩
  rw [runFrom_place, reached.answer_of_voiceable fits]
  simp only [List.getD_eq_getElem _ _ bound, voicings]

theorem place_refused (reached : cache.Reached)
    (unfit : ¬ (primeForm.transpose transposition).Voiceable range) (voicing : Int64) :
    ∃ cause,
      ((leastMotion.place primeForm transposition voicing range).runFrom cache).1 = .error cause := by
  obtain ⟨cause, refused⟩ := reached.answer_of_not_voiceable unfit
  exact ⟨_, by rw [runFrom_place, refused]⟩

theorem place_classification {chord : PitchClassSet Rat} {c : Classification Rat}
    (found : classify? chord = some c) (fits : chord.Voiceable range) (index : Int64)
    (cache : VoicingCache Rat) :
    let voicings := enumerate range chord.canonical.voices
    ∃ bound : (index.toInt % voicings.length).toNat < voicings.length,
      ((leastMotion.place c.primeForm c.transposition index range).runFrom cache).1 =
        .ok (sort voicings[(index.toInt % voicings.length).toNat]) := by
  intro voicings
  have restored := classify?_perm found
  have bound := index_lt fits index
  refine ⟨bound, ?_⟩
  rw [runFrom_place, VoicingCache.answer_of_voiceable (fits.perm restored.symm),
    PitchClassSet.canonical_eq_of_perm restored]
  simp only [List.getD_eq_getElem _ _ bound, voicings]

theorem VoicingCache.Reached.place (reached : cache.Reached) (voicing : Int64) :
    ((leastMotion.place primeForm transposition voicing range).runFrom cache).2.Reached := by
  rw [runFrom_place]
  exact .asked _ _ reached

end ChordGrammar
