import ChordGrammar.Proofs.Forms

/-! The group of T and I. Transpositions and inversions compose as the symmetries of a circle
of pitch classes do, and K commutes with all of them. The forms of a chord are its orbits
under the multiples of a generator, up to the order of voices. The scans never find a chord
outside of them, and they find all of them if the generator divides the octave. -/
namespace ChordGrammar

open Scalar

namespace PitchClassSet

/-! ### Composition -/

section

variable {s : PitchClassSet Rat} {first second : Rat} {rest : List Rat}

theorem exchange?_of_voices (voices : s.voices = first :: second :: rest) :
    s.exchange? = some (s.invert (first + second)) := by
  rw [exchange?, voices]

theorem voices_exchange (voices : s.voices = first :: second :: rest) :
    (s.invert (first + second)).voices =
      second :: first :: rest.map (invertPitch · (first + second)) := by
  have lower : 0 ≤ first ∧ first < 12 := voice_bounds (s := s) (by simp [voices])
  have upper : 0 ≤ second ∧ second < 12 := voice_bounds (s := s) (by simp [voices])
  have there : pc (first + second - first) = second := by
    rw [add_sub_cancel_left, pc_of_bounds upper.1 upper.2]
  have back : pc (first + second - second) = first := by
    rw [add_sub_cancel_right, pc_of_bounds lower.1 lower.2]
  rw [invert, voices_map, voices, List.map_cons, List.map_cons, there, back]
  rfl

theorem exchange?_exchange (voices : s.voices = first :: second :: rest) :
    (s.invert (first + second)).exchange? = some s := by
  rw [exchange?_of_voices (voices_exchange voices), invert_invert, add_comm, sub_self,
    transpose_zero]

end

/-- T and I compose by adding and subtracting, so each T and I can be undone. K is defined on
chords with two voices or more, makes the first two trade places, undoes itself and commutes
with every T and I. -/
theorem group_laws (c : PitchClassSet Rat) (m n : Rat) :
    (c.transpose n).transpose m = c.transpose (m + n) ∧
    (c.invert n).invert m = c.transpose (m - n) ∧
    (c.invert n).transpose m = c.invert (m + n) ∧
    (c.transpose n).invert m = c.invert (m - n) ∧
    (c.transpose (-n)).transpose n = c ∧
    (c.invert n).invert n = c ∧
    (2 ≤ c.size → ∃ first second rest swapped,
      c.voices = first :: second :: rest ∧ c.exchange? = some swapped ∧
      swapped.voices = second :: first :: rest.map (invertPitch · (first + second)) ∧
      swapped.exchange? = some c ∧
      (c.transpose n).exchange? = some (swapped.transpose n) ∧
      (c.invert n).exchange? = some (swapped.invert n)) := by
  refine ⟨?_, invert_invert c n m, ?_, transpose_invert c n m, ?_, ?_, fun voiced => ?_⟩
  · rw [transpose_transpose, add_comm]
  · rw [invert_transpose, add_comm]
  · rw [transpose_transpose, neg_add_cancel, transpose_zero]
  · rw [invert_invert, sub_self, transpose_zero]
  · match voices : c.voices with
    | [] | [_] => simp [size, voices] at voiced
    | first :: second :: rest =>
      have exchanged := exchange?_of_voices voices
      refine ⟨first, second, rest, c.invert (first + second), rfl, exchanged,
        voices_exchange voices, exchange?_exchange voices, ?_, ?_⟩
      · rw [exchange?_transpose, exchanged, Option.map_some]
      · rw [exchange?_invert, exchanged, Option.map_some]

/-- The chord has a pitch class twice, and its axis lies between semitones. -/
theorem group_laws_quarter_tones :
    let c : PitchClassSet Rat := .ofPitches [1 / 2, 11, 11, 4]
    2 ≤ c.size ∧ ∃ swapped, c.exchange? = some swapped ∧
      swapped.voices = [11, 1 / 2, 1 / 2, 15 / 2] ∧ swapped.exchange? = some c ∧
      (c.transpose (-31 / 2)).exchange? = some (swapped.transpose (-31 / 2)) ∧
      (c.invert (-31 / 2)).exchange? = some (swapped.invert (-31 / 2)) := by
  intro c
  have voiced : 2 ≤ c.size := by decide
  obtain ⟨first, second, rest, swapped, voices, exchanged, moved, back, raised, mirrored⟩ :=
    (group_laws c 0 (-31 / 2)).2.2.2.2.2.2 voiced
  obtain ⟨rfl, rfl, rfl⟩ : first = 1 / 2 ∧ second = 11 ∧ rest = [11, 4] := by
    have known : c.voices = [1 / 2, 11, 11, 4] := by decide +kernel
    simpa using voices.symm.trans known
  refine ⟨voiced, swapped, exchanged, moved.trans ?_, back, raised, mirrored⟩
  decide +kernel

/-! ### Orbits -/

/-- Whether `x` is a transposition of `y` by a multiple of `g`, whatever the order of voices. -/
def TransposedBy (g : Rat) (x y : PitchClassSet Rat) : Prop :=
  ∃ k : Int, (y.transpose (k * g)).voices.Perm x.voices

def InvertedBy (g : Rat) (x y : PitchClassSet Rat) : Prop :=
  ∃ k : Int, (y.invert (k * g)).voices.Perm x.voices

/-- The laws of two relations of which the first is to be a transposition and the second an
inversion of the one chord onto the other. -/
structure FormLaws (T I : PitchClassSet Rat → PitchClassSet Rat → Prop) : Prop where
  equivalence : Equivalence T
  symm {x y : PitchClassSet Rat} : I x y → I y x
  inverted_inverted {x y z : PitchClassSet Rat} : I x y → I y z → T x z
  transposed_inverted {x y z : PitchClassSet Rat} : T x y → I y z → I x z
  transposed_reordered {x x' y y' : PitchClassSet Rat} :
    x.voices.Perm x'.voices → y.voices.Perm y'.voices → (T x y ↔ T x' y')
  inverted_reordered {x x' y y' : PitchClassSet Rat} :
    x.voices.Perm x'.voices → y.voices.Perm y'.voices → (I x y ↔ I x' y')

section

variable {g : Rat} {x x' y y' z : PitchClassSet Rat}

theorem invert_perm (same : x.voices.Perm y.voices) (n : Rat) :
    (x.invert n).voices.Perm (y.invert n).voices :=
  map_perm same (n - ·)

theorem TransposedBy.refl (g : Rat) (x : PitchClassSet Rat) : TransposedBy g x x :=
  ⟨0, by rw [Int.cast_zero, zero_mul, transpose_zero]⟩

theorem TransposedBy.symm : TransposedBy g x y → TransposedBy g y x := by
  rintro ⟨k, moved⟩
  have back := transpose_perm moved.symm (-(k * g))
  rw [transpose_neg_cancel] at back
  exact ⟨-k, by rwa [Int.cast_neg, neg_mul]⟩

theorem TransposedBy.trans : TransposedBy g x y → TransposedBy g y z → TransposedBy g x z := by
  rintro ⟨j, first⟩ ⟨k, second⟩
  have moved := (transpose_perm second (j * g)).trans first
  rw [transpose_transpose, ← add_mul, ← Int.cast_add] at moved
  exact ⟨k + j, moved⟩

theorem InvertedBy.symm : InvertedBy g x y → InvertedBy g y x := by
  rintro ⟨k, moved⟩
  have back := invert_perm moved.symm (k * g)
  rw [invert_invert, sub_self, transpose_zero] at back
  exact ⟨k, back⟩

theorem InvertedBy.trans : InvertedBy g x y → InvertedBy g y z → TransposedBy g x z := by
  rintro ⟨j, first⟩ ⟨k, second⟩
  have moved := (invert_perm second (j * g)).trans first
  rw [invert_invert, ← sub_mul, ← Int.cast_sub] at moved
  exact ⟨j - k, moved⟩

theorem TransposedBy.trans_inverted :
    TransposedBy g x y → InvertedBy g y z → InvertedBy g x z := by
  rintro ⟨j, first⟩ ⟨k, second⟩
  have moved := (transpose_perm second (j * g)).trans first
  rw [invert_transpose, ← add_mul, ← Int.cast_add] at moved
  exact ⟨k + j, moved⟩

theorem TransposedBy.reorder (same : x.voices.Perm x'.voices) (same' : y.voices.Perm y'.voices) :
    TransposedBy g x y → TransposedBy g x' y' := by
  rintro ⟨k, moved⟩
  exact ⟨k, (transpose_perm same'.symm (k * g)).trans (moved.trans same)⟩

theorem InvertedBy.reorder (same : x.voices.Perm x'.voices) (same' : y.voices.Perm y'.voices) :
    InvertedBy g x y → InvertedBy g x' y' := by
  rintro ⟨k, moved⟩
  exact ⟨k, (invert_perm same'.symm (k * g)).trans (moved.trans same)⟩

/-- Orbits obey the laws whatever the generator, also one that does not divide the octave. -/
theorem formLaws_orbits (g : Rat) : FormLaws (TransposedBy g) (InvertedBy g) where
  equivalence := ⟨.refl g, .symm, .trans⟩
  symm := .symm
  inverted_inverted := InvertedBy.trans
  transposed_inverted := TransposedBy.trans_inverted
  transposed_reordered same same' :=
    ⟨.reorder same same', .reorder same.symm same'.symm⟩
  inverted_reordered same same' :=
    ⟨.reorder same same', .reorder same.symm same'.symm⟩

/-! ### What the scans decide -/

theorem transposedBy_of_isTForm (positive : 0 < g) (form : x.isTForm g y = true) :
    TransposedBy g x y := by
  obtain ⟨j, -, same⟩ := (anyMultiple_iff positive _).mp form
  exact ⟨j, by simpa using sameContent_iff.mp same⟩

theorem invertedBy_of_isIForm (positive : 0 < g) (form : x.isIForm g y = true) :
    InvertedBy g x y := by
  obtain ⟨j, -, same⟩ := (anyMultiple_iff positive _).mp form
  exact ⟨j, by simpa using sameContent_iff.mp same⟩

end

section

variable {g : Nat} {x y : PitchClassSet Rat}

theorem isTForm_iff_transposedBy (divides : g ∣ 12) :
    x.isTForm (g : Rat) y = true ↔ TransposedBy g x y :=
  (isTForm_iff x y divides).trans (exists_congr fun _ => sameContent_iff)

theorem isIForm_iff_invertedBy (divides : g ∣ 12) :
    x.isIForm (g : Rat) y = true ↔ InvertedBy g x y :=
  (isIForm_iff x y divides).trans (exists_congr fun _ => sameContent_iff)

end

/-- A form that is found is a transposition or inversion by a multiple of the generator. If the
generator divides the octave, every transposition and inversion by one of its multiples is
found, so the laws of orbits are laws of forms. -/
theorem forms_decide_orbits :
    (∀ (generator : Rat) (x y : PitchClassSet Rat), 0 < generator →
      (x.isTForm generator y = true → TransposedBy generator x y) ∧
      (x.isIForm generator y = true → InvertedBy generator x y)) ∧
    ∀ g : Nat, g ∣ 12 →
      (∀ x y : PitchClassSet Rat,
        (x.isTForm (g : Rat) y = true ↔ TransposedBy g x y) ∧
        (x.isIForm (g : Rat) y = true ↔ InvertedBy g x y)) ∧
      FormLaws (fun x y => x.isTForm (g : Rat) y = true) (fun x y => x.isIForm (g : Rat) y = true) := by
  refine ⟨fun generator x y positive =>
    ⟨transposedBy_of_isTForm positive, invertedBy_of_isIForm positive⟩, fun g divides => ?_⟩
  refine ⟨fun x y => ⟨isTForm_iff_transposedBy divides, isIForm_iff_invertedBy divides⟩, ?_⟩
  simp only [isTForm_iff_transposedBy divides, isIForm_iff_invertedBy divides]
  exact formLaws_orbits g

/-- Steps of three semitones never lead from one major chord to another a whole tone above,
and steps of two do. Steps of five lead there too, for the tenth of them is a whole tone above
the octaves, but a scan with five ends at the octave and has passed it by. -/
theorem forms_decide_orbits_whole_tone :
    let d : PitchClassSet Rat := .ofPitches [9, 2, 6]
    let c : PitchClassSet Rat := .ofPitches [0, 4, 7]
    3 ∣ 12 ∧ 2 ∣ 12 ∧ ¬ TransposedBy (3 : Nat) d c ∧ TransposedBy (2 : Nat) d c ∧
      c.isTForm ((2 : Nat) : Rat) d = true ∧ (0 : Rat) < 5 ∧ TransposedBy 5 c d ∧
      TransposedBy 5 d c ∧ d.isTForm (5 : Rat) c = false := by
  intro d c
  have three : 3 ∣ 12 := by decide
  have two : 2 ∣ 12 := by decide
  have positive : (0 : Rat) < 5 := by decide
  have found : d.isTForm ((2 : Nat) : Rat) c = true := by decide +kernel
  have missed : ¬ d.isTForm ((3 : Nat) : Rat) c = true := by decide +kernel
  have below : TransposedBy 5 c d :=
    (forms_decide_orbits.1 5 c d positive).1 (by decide +kernel)
  obtain ⟨decides, laws⟩ := forms_decide_orbits.2 2 two
  exact ⟨three, two, fun moved => missed (((forms_decide_orbits.2 3 three).1 d c).1.mpr moved),
    (decides d c).1.mp found, laws.equivalence.symm found, positive, below, below.symm,
    by decide +kernel⟩

end PitchClassSet
end ChordGrammar
