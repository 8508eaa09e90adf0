import ChordGrammar.Proofs.Classification
import ChordGrammar.Proofs.Orbit

/-! The prime form. The transpositions of a chord that contain zero are those down by one of
its voices, so the least of the candidates is least among all of them. It is thereby fixed by
the transpositions alone, and chords share it exactly when one is a transposition of the other. -/
namespace ChordGrammar

open Scalar

theorem precedes_iff {as bs : List Rat} : precedes as bs = true ↔ as < bs := by
  induction as generalizing bs with
  | nil => cases bs <;> simp [precedes]
  | cons a as ih =>
    cases bs with
    | nil => simp [precedes]
    | cons b bs =>
      rw [precedes, List.cons_lt_cons_iff]
      simp only [Bool.not_eq_true', Bool.eq_false_iff, ne_eq, sortsBefore_iff, not_le]
      rcases lt_trichotomy a b with less | rfl | greater
      · simp [less]
      · simp [ih]
      · simp [greater.not_gt, greater.ne', greater]

section

variable {β γ : Type} [LinearOrder γ] {better : β → β → Bool}

/-- A choice by a key finds none that is less. -/
theorem foldl_choice_le (key : β → γ) (decides : ∀ a b, better a b = true ↔ key a < key b)
    (first : β) (rest : List β) : ∀ b ∈ first :: rest,
      key (rest.foldl (fun best b => if better b best then b else best) first) ≤ key b := by
  induction rest generalizing first with
  | nil => simp
  | cons next rest ih =>
    rw [List.foldl_cons]
    intro b member
    split
    · next less =>
      have chosen := ih next
      rcases List.mem_cons.mp member with rfl | member
      · exact (chosen next List.mem_cons_self).trans ((decides next b).mp less).le
      · exact chosen b member
    · next greater =>
      have greater : key first ≤ key next := not_lt.mp (mt (decides next first).mpr greater)
      have chosen := ih first
      rcases List.mem_cons.mp member with rfl | member
      · exact chosen b List.mem_cons_self
      · rcases List.mem_cons.mp member with rfl | member
        · exact (chosen first List.mem_cons_self).trans greater
        · exact chosen b (List.mem_cons_of_mem first member)

/-- The first one is kept if none is less. -/
theorem foldl_choice_first {first : β} {rest : List β}
    (least : ∀ b ∈ rest, better b first = false) :
    rest.foldl (fun best b => if better b best then b else best) first = first := by
  induction rest with
  | nil => rfl
  | cons next rest ih =>
    obtain ⟨head, tail⟩ := List.forall_mem_cons.mp least
    rw [List.foldl_cons, head]
    exact ih tail

end

namespace PitchClassSet

variable {x y p q : PitchClassSet Rat}

/-- The least, in the lexicographic order, of the ascending transpositions that contain zero. -/
structure IsPrimeForm (x p : PitchClassSet Rat) : Prop where
  attained : ∃ n, 0 ∈ (x.transpose n).voices ∧ p = (x.transpose n).canonical
  least : ∀ n, 0 ∈ (x.transpose n).voices → p.voices ≤ (x.transpose n).canonical.voices

theorem zero_mem_transpose_neg {root : Rat} (voice : root ∈ x.voices) :
    0 ∈ (x.transpose (-root)).voices := by
  rw [transpose, voices_map]
  refine List.mem_map.mpr ⟨root, voice, ?_⟩
  rw [add_neg_cancel]
  exact pc_of_bounds (le_refl 0) (by norm_num)

theorem exists_root {n : Rat} (onto : 0 ∈ (x.transpose n).voices) :
    ∃ root ∈ x.voices, x.transpose n = x.transpose (-root) := by
  rw [transpose, voices_map] at onto
  obtain ⟨root, voice, reduced⟩ := List.mem_map.mp onto
  obtain ⟨k, apart⟩ := pc_octavesApart (root + n)
  rw [reduced] at apart
  exact ⟨root, voice, x.transpose_congr ⟨k, by linarith⟩⟩

namespace IsPrimeForm

theorem unique (first : IsPrimeForm x p) (second : IsPrimeForm x q) : p = q := by
  obtain ⟨m, onto, found⟩ := first.attained
  obtain ⟨n, onto', found'⟩ := second.attained
  apply PitchClassSet.ext
  apply le_antisymm
  · rw [found']
    exact first.least n onto'
  · rw [found]
    exact second.least m onto

/-- Transpositions of a chord are those of its transpositions, whatever the order of voices. -/
theorem of_transpose {k : Rat} (prime : IsPrimeForm x p)
    (same : (y.transpose k).voices.Perm x.voices) : IsPrimeForm y p := by
  have moved (n : Rat) : (y.transpose (k + n)).voices.Perm (x.transpose n).voices := by
    rw [← transpose_transpose]
    exact transpose_perm same n
  constructor
  · obtain ⟨n, onto, rfl⟩ := prime.attained
    exact ⟨k + n, (moved n).mem_iff.mpr onto, (canonical_eq_of_perm (moved n)).symm⟩
  · intro n onto
    have back := moved (n - k)
    rw [add_sub_cancel] at back
    rw [canonical_eq_of_perm back]
    exact prime.least (n - k) (back.mem_iff.mp onto)

theorem self (prime : IsPrimeForm x p) : IsPrimeForm p p := by
  obtain ⟨n, -, found⟩ := prime.attained
  refine prime.of_transpose (k := -n) ?_
  have lowered : p.voices.Perm (x.transpose n).voices := found ▸ canonical_perm _
  have back := transpose_perm lowered (-n)
  rwa [transpose_neg_cancel] at back

theorem ascending (prime : IsPrimeForm x p) : p.voices.Pairwise (· ≤ ·) := by
  obtain ⟨n, -, rfl⟩ := prime.attained
  exact canonical_pairwise _

theorem canonical (prime : IsPrimeForm x p) : p.canonical = p :=
  PitchClassSet.ext (sort_of_sorted prime.ascending)

/-- No pitch class is less than zero. -/
theorem voices_eq (prime : IsPrimeForm x p) : ∃ rest, p.voices = 0 :: rest := by
  obtain ⟨n, onto, found⟩ := prime.attained
  have zero_mem : 0 ∈ p.voices := found ▸ mem_canonical.mpr onto
  have ascending := prime.ascending
  cases voices : p.voices with
  | nil => simp [voices] at zero_mem
  | cons first rest =>
    rw [voices] at ascending zero_mem
    have nonneg : 0 ≤ first := (voice_bounds (voices ▸ List.mem_cons_self)).1
    rcases List.mem_cons.mp zero_mem with rfl | later
    · exact ⟨rest, rfl⟩
    · have below : first ≤ 0 := (List.pairwise_cons.mp ascending).1 0 later
      exact ⟨rest, by rw [le_antisymm below nonneg]⟩

end IsPrimeForm

end PitchClassSet

open PitchClassSet

variable {x y p : PitchClassSet Rat} {c d : Classification Rat}

theorem primeForm_classificationAt (x : PitchClassSet Rat) (root : Rat) :
    (classificationAt x root).primeForm = (x.transpose (-root)).canonical :=
  canonical_eq_of_perm (transpose_perm x.canonical_perm (-root))

theorem classify?_isPrimeForm (found : classify? x = some c) : IsPrimeForm x c.primeForm := by
  obtain ⟨root, voice, rfl⟩ := classify?_eq_some found
  constructor
  · exact ⟨-root, zero_mem_transpose_neg (mem_canonical.mp voice), primeForm_classificationAt x root⟩
  · intro n onto
    obtain ⟨other, voice', same⟩ := exists_root onto
    rw [same, ← primeForm_classificationAt x other]
    have candidate : classificationAt x other ∈ x.canonical.voices.map (classificationAt x) :=
      List.mem_map_of_mem (mem_canonical.mpr voice')
    unfold classify? at found
    split at found
    · cases found
    · next first rest candidates =>
      rw [← Option.some.inj found]
      rw [candidates] at candidate
      exact foldl_choice_le (fun candidate : Classification Rat => candidate.primeForm.voices)
        (fun _ _ => precedes_iff) first rest _ candidate

/-- A prime form is classified as itself, for its first voice is zero. -/
theorem classify?_of_isPrimeForm (prime : IsPrimeForm x p) :
    classify? p = some ⟨p, 0⟩ := by
  obtain ⟨rest, voices⟩ := prime.voices_eq
  have first : classificationAt p 0 = ⟨p, 0⟩ := by
    have unmoved : (classificationAt p 0).primeForm = p := by
      rw [primeForm_classificationAt, neg_zero, transpose_zero, prime.canonical]
    exact congrArg (Classification.mk · 0) unmoved
  unfold classify?
  rw [prime.canonical, voices, List.map_cons, first]
  refine congrArg some (foldl_choice_first ?_)
  intro candidate member
  obtain ⟨root, voice, rfl⟩ := List.mem_map.mp member
  rw [Bool.eq_false_iff, Ne, precedes_iff, not_lt, primeForm_classificationAt]
  exact prime.self.least (-root)
    (zero_mem_transpose_neg (voices ▸ List.mem_cons_of_mem 0 voice))

theorem primeForm_eq_iff (whole : x.Whole) (whole' : y.Whole) (found : classify? x = some c)
    (found' : classify? y = some d) :
    c.primeForm = d.primeForm ↔ x.isTForm (ofNat 1) y = true := by
  constructor
  · intro same
    obtain ⟨root, voice, rfl⟩ := classify?_eq_some found
    obtain ⟨root', voice', rfl⟩ := classify?_eq_some found'
    obtain ⟨m, rfl⟩ := whole root (mem_canonical.mp voice)
    obtain ⟨n, rfl⟩ := whole' root' (mem_canonical.mp voice')
    have moved := transpose_perm (voices_classificationAt y n).symm ((m - n : Int) : Rat)
    rw [← same, transpose_transpose, Int.cast_sub, add_sub_cancel] at moved
    refine isTForm_one_iff.mpr ⟨m - n, ?_⟩
    rw [Int.cast_sub]
    exact sameContent_iff.mpr (moved.trans (voices_classificationAt x m))
  · intro form
    obtain ⟨k, same⟩ := isTForm_one_iff.mp form
    have lowered := transpose_perm (sameContent_iff.mp same).symm (-(k : Rat))
    rw [transpose_neg_cancel] at lowered
    exact (classify?_isPrimeForm found).unique
      ((classify?_isPrimeForm found').of_transpose lowered)

/-- Classifying always succeeds on chords with a voice, and the prime form is a complete
invariant of transposition: the least of the ascending transpositions that contain zero, from
which the chord is had back, and which is its own prime form. -/
theorem classify_complete_invariant (whole : x.Whole) (whole' : y.Whole) (voiced : x.voices ≠ [])
    (voiced' : y.voices ≠ []) (cache cache' : VoicingCache Rat) :
    ∃ c d : Classification Rat,
      (leastMotion.classify x).runFrom cache = (.ok c, cache) ∧
      (leastMotion.classify y).runFrom cache' = (.ok d, cache') ∧
      (c.primeForm = d.primeForm ↔ x.isTForm (ofNat 1) y = true) ∧
      c.primeForm.voices.Pairwise (· ≤ ·) ∧ c.primeForm.voices.head? = some 0 ∧
      IsPrimeForm x c.primeForm ∧
      (c.primeForm.transpose c.transposition).sameContent x = true ∧
      (leastMotion.classify c.primeForm).runFrom cache = (.ok ⟨c.primeForm, 0⟩, cache) := by
  obtain ⟨c, found⟩ := Option.ne_none_iff_exists'.mp (mt classify?_eq_none_iff.mp voiced)
  obtain ⟨d, found'⟩ := Option.ne_none_iff_exists'.mp (mt classify?_eq_none_iff.mp voiced')
  have prime := classify?_isPrimeForm found
  obtain ⟨rest, voices⟩ := prime.voices_eq
  refine ⟨c, d, ?_, ?_, primeForm_eq_iff whole whole' found found', prime.ascending, ?_, prime,
    sameContent_iff.mpr (classify?_perm found), ?_⟩
  · rw [runFrom_classify, found]
  · rw [runFrom_classify, found']
  · rw [voices]
    rfl
  · rw [runFrom_classify, classify?_of_isPrimeForm prime]

/-- The chords divide the octave evenly, so that every voice leads to the prime form. -/
theorem classify_complete_invariant_augmented :
    let x : PitchClassSet Rat := .ofPitches ([11, 3, 7, 3, 11, 7].map (Int.cast : Int → Rat))
    let y : PitchClassSet Rat := .ofPitches ([4, 0, 4, 8, 0, 8].map (Int.cast : Int → Rat))
    (x.Whole ∧ y.Whole ∧ x.voices ≠ [] ∧ y.voices ≠ []) ∧ x.isTForm (ofNat 1) y = true ∧
      ∃ c d : Classification Rat,
        (leastMotion.classify x).runFrom .empty = (.ok c, .empty) ∧
        (leastMotion.classify y).runFrom .empty = (.ok d, .empty) ∧
        c.primeForm = d.primeForm ∧ IsPrimeForm x c.primeForm := by
  intro x y
  have whole : x.Whole := whole_ofPitches _
  have whole' : y.Whole := whole_ofPitches _
  have voiced : x.voices ≠ [] := by simp [x]
  have voiced' : y.voices ≠ [] := by simp [y]
  have form : x.isTForm (ofNat 1) y = true := by decide +kernel
  obtain ⟨c, d, found, found', same, -, -, prime, -⟩ :=
    classify_complete_invariant whole whole' voiced voiced' .empty .empty
  exact ⟨⟨whole, whole', voiced, voiced'⟩, form, c, d, found, found', same.mpr form, prime⟩

end ChordGrammar
