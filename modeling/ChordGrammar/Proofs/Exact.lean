import Mathlib
import ChordGrammar.Group
import ChordGrammar.Proofs.Order

/-! Pitch classes and contents in exact arithmetic. Reduction takes away whole octaves,
so pitches reduce alike exactly when whole octaves lie between them, and chords have
the same content exactly when one is a rearrangement of the other. -/
namespace ChordGrammar

open Scalar

@[simp] theorem octave_eq : (octave : Rat) = 12 := rfl

@[simp] theorem zero_eq : (zero : Rat) = 0 := rfl

@[simp] theorem equal_iff {a b : Rat} : equal a b = true ↔ a = b := by
  simp only [equal, decide_eq_true_eq, Bool.decide_and, Bool.and_eq_true]
  exact le_antisymm_iff.symm

@[simp] theorem equalLists_iff {as bs : List Rat} : equalLists as bs = true ↔ as = bs := by
  unfold equalLists
  induction as generalizing bs with
  | nil => cases bs <;> simp
  | cons a as ih => cases bs <;> simp [List.isEqv_cons_cons, ih]

@[simp] theorem unsignedZero_eq (a : Rat) : unsignedZero a = a := by
  unfold unsignedZero
  split
  · next isZero => exact (equal_iff.mp isZero).symm
  · rfl

theorem magnitude_eq (a : Rat) : magnitude a = |a| := by
  unfold magnitude
  split
  · next negative => exact (abs_of_neg negative).symm
  · next positive => exact (abs_of_nonneg (not_lt.mp positive)).symm

theorem emod_octave (x : Rat) : emod x 12 = x - 12 * ⌊x / 12⌋ := rfl

theorem emod_octave_bounds (x : Rat) : 0 ≤ emod x 12 ∧ emod x 12 < 12 := by
  have below := Int.floor_le (x / 12)
  have above := Int.lt_floor_add_one (x / 12)
  rw [emod_octave]
  constructor <;> linarith

/-- Neither of the two corrections to the remainder is needed. -/
theorem pc_eq (x : Rat) : pc x = x - 12 * ⌊x / 12⌋ := by
  have inside : ¬ (octave : Rat) ≤ emod x 12 := not_le.mpr (emod_octave_bounds x).2
  simp only [pc, if_neg inside, unsignedZero_eq]
  exact emod_octave x

theorem pc_nonneg (x : Rat) : 0 ≤ pc x := by
  rw [pc_eq, ← emod_octave]
  exact (emod_octave_bounds x).1

theorem pc_lt (x : Rat) : pc x < 12 := by
  rw [pc_eq, ← emod_octave]
  exact (emod_octave_bounds x).2

theorem pc_le {x : Rat} (nonneg : 0 ≤ x) : pc x ≤ x := by
  have octaves : (0 : Rat) ≤ ⌊x / 12⌋ := by exact_mod_cast Int.floor_nonneg.mpr (by positivity)
  rw [pc_eq]
  linarith

/-- Whether two pitches lie a whole number of octaves apart. -/
def OctavesApart (x y : Rat) : Prop := ∃ n : Int, x - y = 12 * n

theorem OctavesApart.symm {x y : Rat} : OctavesApart x y → OctavesApart y x := by
  rintro ⟨n, apart⟩
  exact ⟨-n, by push_cast; linarith⟩

theorem OctavesApart.trans {x y z : Rat} :
    OctavesApart x y → OctavesApart y z → OctavesApart x z := by
  rintro ⟨m, first⟩ ⟨n, second⟩
  exact ⟨m + n, by push_cast; linarith⟩

/-- What is less than an octave above does not lie above at all. -/
theorem OctavesApart.le {x y : Rat} (apart : OctavesApart x y) (near : x < y + 12) : x ≤ y := by
  obtain ⟨n, apart⟩ := apart
  have few : (n : Rat) < 1 := by linarith
  have few : n < 1 := by exact_mod_cast few
  have few : (n : Rat) ≤ 0 := by exact_mod_cast Int.lt_add_one_iff.mp few
  linarith

theorem pc_octavesApart (x : Rat) : OctavesApart x (pc x) := ⟨⌊x / 12⌋, by rw [pc_eq]; ring⟩

theorem pc_add_octaves (x : Rat) (n : Int) : pc (x + 12 * n) = pc x := by
  have shifted : (x + 12 * n) / 12 = x / 12 + n := by ring
  rw [pc_eq, pc_eq, shifted, Int.floor_add_intCast]
  push_cast
  ring

theorem pc_eq_pc_iff {x y : Rat} : pc x = pc y ↔ OctavesApart x y := by
  constructor
  · intro same
    have reduced := pc_octavesApart x
    rw [same] at reduced
    exact reduced.trans (pc_octavesApart y).symm
  · rintro ⟨n, apart⟩
    rw [show x = y + 12 * n by linarith, pc_add_octaves]

theorem pc_of_bounds {x : Rat} (nonneg : 0 ≤ x) (below : x < 12) : pc x = x := by
  have bottom : ⌊x / 12⌋ = 0 := Int.floor_eq_zero_iff.mpr ⟨by positivity, by linarith⟩
  simp [pc_eq, bottom]

theorem exists_octaves {p v : Rat} (below : p < 12) (nonneg : 0 ≤ v) (apart : OctavesApart v p) :
    ∃ d : Nat, v = p + 12 * d := by
  obtain ⟨n, apart⟩ := apart
  have positive : 0 ≤ n := by
    have above : (-1 : Rat) < n := by linarith
    have above : -1 < n := by exact_mod_cast above
    omega
  obtain ⟨d, rfl⟩ := Int.eq_ofNat_of_zero_le positive
  exact ⟨d, by push_cast at apart; linarith⟩

theorem sortsBefore_iff {a b : Rat} : sortsBefore a b = true ↔ a ≤ b := decide_eq_true_iff

theorem sort_pairwise (as : List Rat) : (sort as).Pairwise (· ≤ ·) :=
  (sort_ordered as).imp sortsBefore_iff.mp

theorem sort_of_sorted {as : List Rat} (sorted : as.Pairwise (· ≤ ·)) : sort as = as :=
  (sort_perm as).eq_of_pairwise (fun _ _ _ _ => le_antisymm) (sort_pairwise as) sorted

theorem sort_eq_sort_iff {as bs : List Rat} : sort as = sort bs ↔ as.Perm bs := by
  constructor
  · intro same
    exact (sort_perm as).symm.trans (same ▸ sort_perm bs)
  · exact sort_eq_of_perm

namespace PitchClassSet

variable {s t : PitchClassSet Rat}

theorem voice_bounds {p : Rat} (member : p ∈ s.voices) : 0 ≤ p ∧ p < 12 := by
  obtain ⟨x, rfl⟩ := s.reduced p member
  exact ⟨pc_nonneg x, pc_lt x⟩

theorem map_pc_voices (s : PitchClassSet Rat) : s.voices.map pc = s.voices := by
  conv_rhs => rw [← List.map_id s.voices]
  refine List.map_congr_left fun p member => ?_
  exact pc_of_bounds (voice_bounds member).1 (voice_bounds member).2

theorem ofPitches_voices (s : PitchClassSet Rat) : ofPitches s.voices = s :=
  PitchClassSet.ext s.map_pc_voices

theorem canonical_pairwise (s : PitchClassSet Rat) : s.canonical.voices.Pairwise (· ≤ ·) :=
  sort_pairwise s.voices

theorem sameContent_iff : s.sameContent t = true ↔ s.voices.Perm t.voices := by
  simp only [sameContent, equalVoices, equalLists_iff, voices_canonical, sort_eq_sort_iff]

theorem mem_canonical {p : Rat} : p ∈ s.canonical.voices ↔ p ∈ s.voices := mem_sort

@[simp] theorem isEmpty_iff : s.isEmpty = true ↔ s.voices = [] := List.isEmpty_iff

end PitchClassSet
end ChordGrammar
