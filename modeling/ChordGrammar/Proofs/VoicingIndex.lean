import ChordGrammar.Proofs.Classification

/-! The index of a voicing. It counts around the voicings of a chord in both directions. A
transposed prime form has its voices in another order than the chord it classifies, but voicings
are numbered over the voices in ascending order, so an index says the same of both. -/
namespace ChordGrammar

open Scalar

variable {chord : PitchClassSet Rat} {range : Rat}

/-- A classified chord is placed at the voicing of the chord that the index counts to, whatever
is kept of earlier questions. Every placement has an index below the number of voicings, which
may be too large for an index of 64 bits. -/
theorem place_classified (named : chord.voices ≠ []) (inside : ∀ p ∈ chord.voices, p ≤ range) :
    ∃ c voicings,
      (∀ cache, (leastMotion.classify chord).runFrom cache = (.ok c, cache)) ∧
      (∀ cache, ((VoicingCache.voicings chord range).runFrom cache).1 = .ok voicings) ∧
      let placed (index : Int64) (cache : VoicingCache Rat) :=
        ((leastMotion.place c.primeForm c.transposition index range).runFrom cache).1
      (∀ (index : Int64) (cache : VoicingCache Rat),
        ∃ bound : (index.toInt % voicings.length).toNat < voicings.length,
          placed index cache = .ok (sort voicings[(index.toInt % voicings.length).toNat])) ∧
      (∀ index other : Int64, index.toInt ≡ other.toInt [ZMOD voicings.length] →
        ∀ cache cache', placed index cache = placed other cache') ∧
      ∀ v, IsPlacement range chord.voices v → ∃ k < voicings.length,
        (∀ index : Int64, index.toInt % voicings.length = k →
          ∀ cache, placed index cache = .ok (sort v)) ∧
        (k < 2 ^ 63 → ∃ index : Int64, index.toInt = k) := by
  have fits : chord.Voiceable range := ⟨named, inside⟩
  obtain ⟨c, found⟩ := Option.ne_none_iff_exists'.mp (mt classify?_eq_none_iff.mp named)
  have placed := place_classification found fits
  refine ⟨c, enumerate range chord.canonical.voices, fun cache => by rw [runFrom_classify, found],
    VoicingCache.answer_of_voiceable fits, placed, ?_, ?_⟩
  · intro index other alike cache cache'
    obtain ⟨bound, first⟩ := placed index cache
    obtain ⟨bound', second⟩ := placed other cache'
    simp only [first, second, alike.eq]
  · intro v placement
    obtain ⟨w, member, same⟩ := List.mem_map.mp ((mem_sorted_voicings fits).mpr ⟨v, placement, rfl⟩)
    obtain ⟨k, bound, rfl⟩ := List.mem_iff_getElem.mp member
    refine ⟨k, bound, fun index counted cache => ?_, fun small => ⟨.ofInt k, ?_⟩⟩
    · obtain ⟨bound', answer⟩ := placed index cache
      simp only [answer, counted, Int.toNat_natCast, same]
    · exact Int64.toInt_ofInt_of_le (by omega) (by omega)

/-- Of the four voicings the index counts to the last, from below. -/
theorem place_classified_below :
    let triad : PitchClassSet Rat := .ofPitches [7, 0, 4]
    let cache := ((VoicingCache.voicings (.ofPitches [2, 9]) 16).runFrom
      (.empty : VoicingCache Rat)).2
    triad.voices ≠ [] ∧ (∀ p ∈ triad.voices, p ≤ 16) ∧
      ∃ c, (leastMotion.classify triad).runFrom cache = (.ok c, cache) ∧
        ((leastMotion.place c.primeForm c.transposition (-5) 16).runFrom cache).1 =
          .ok [7, 12, 16] := by
  intro triad cache
  have named : triad.voices ≠ [] := by simp [triad]
  have inside : ∀ p ∈ triad.voices, p ≤ 16 := by decide +kernel
  obtain ⟨c, voicings, classified, all, placed, -⟩ := place_classified named inside
  refine ⟨named, inside, c, classified cache, ?_⟩
  have listed : ((VoicingCache.voicings triad 16).runFrom (.empty : VoicingCache Rat)).1.toOption =
      some [[0, 4, 7], [12, 4, 7], [0, 16, 7], [12, 16, 7]] := by decide +kernel
  rw [all] at listed
  obtain rfl := Option.some.inj listed
  obtain ⟨_, answer⟩ := placed (-5) cache
  have last : sort [(12 : Rat), 16, 7] = [7, 12, 16] := by decide +kernel
  exact answer.trans (congrArg Except.ok last)

end ChordGrammar
