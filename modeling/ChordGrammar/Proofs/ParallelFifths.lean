import ChordGrammar.Oracle.LeastMotion
import ChordGrammar.Proofs.BinaryPlaces

/-! Parallel fifths. Two voices are in parallel fifths if they form a fifth, or a fifth and
octaves, before and after a move on which both rise or both fall. Of voices that stay, the
test passes over a lower one only: where the lower voice rises by octaves under an upper one
that stays, it finds parallel fifths that are none, and not on the way back. -/
namespace ChordGrammar

open Scalar

section

variable {β γ : Type}

def SomePair (related : β → β → Prop) (bs : List β) : Prop :=
  ∃ i j, ∃ (before : i < j) (inside : j < bs.length), related bs[i] bs[j]

theorem anyPair_iff {related : β → β → Bool} {bs : List β} :
    anyPair related bs = true ↔ SomePair (related · · = true) bs := by
  have none : anyPair related bs = false ↔ bs.Pairwise (related · · = false) := by
    induction bs with
    | nil => simp [anyPair]
    | cons b bs ih => simp [anyPair, ih]
  rw [← not_iff_not, Bool.not_eq_true, none, List.pairwise_iff_getElem]
  simp only [SomePair, not_exists, Bool.not_eq_true]
  constructor
  · intro apart i j before inside
    exact apart i j (before.trans inside) inside before
  · intro apart i j _ inside before
    exact apart i j before inside

instance (related : β → β → Prop) [DecidableRel related] (bs : List β) :
    Decidable (SomePair related bs) :=
  decidable_of_iff (anyPair (fun a b => decide (related a b)) bs = true) (by simp [anyPair_iff])

theorem SomePair.imp {related alike : β → β → Prop} {bs : List β}
    (step : bs.Pairwise fun a b => related a b → alike a b) :
    SomePair related bs → SomePair alike bs := by
  rintro ⟨i, j, before, inside, found⟩
  exact ⟨i, j, before, inside,
    List.pairwise_iff_getElem.mp step i j (before.trans inside) inside before found⟩

theorem SomePair.congr {related alike : β → β → Prop} {bs : List β}
    (same : bs.Pairwise fun a b => related a b ↔ alike a b) :
    SomePair related bs ↔ SomePair alike bs :=
  ⟨.imp (same.imp Iff.mp), .imp (same.imp Iff.mpr)⟩

theorem SomePair.map_iff {related : γ → γ → Prop} (f : β → γ) {bs : List β} :
    SomePair related (bs.map f) ↔ SomePair (fun a b => related (f a) (f b)) bs := by
  simp [SomePair]

end

/-! ### Voices by their pitches before and after -/

/-- Whether two voices are a fifth apart, or a fifth and octaves, both before and after. -/
def InFifths (lower upper : Int × Int) : Prop :=
  upper.1 - lower.1 ≡ 7 [ZMOD 12] ∧ upper.2 - lower.2 ≡ 7 [ZMOD 12]

def MoveAlike (lower upper : Int × Int) : Prop :=
  lower.1 < lower.2 ∧ upper.1 < upper.2 ∨ lower.2 < lower.1 ∧ upper.2 < upper.1

def MoveBelow (lower upper : Int × Int) : Prop := lower.1 ≠ lower.2 ∧ upper.1 = upper.2

instance : DecidableRel InFifths := fun _ _ => inferInstanceAs (Decidable (_ ∧ _))

instance : DecidableRel MoveAlike := fun _ _ => inferInstanceAs (Decidable (_ ∨ _))

instance : DecidableRel MoveBelow := fun _ _ => inferInstanceAs (Decidable (_ ∧ _))

variable {lower upper : Int × Int}

theorem isFifth_intCast {k : Int} (nonneg : 0 ≤ k) :
    isFifth (k : Rat) = true ↔ k ≡ 7 [ZMOD 12] := by
  have nonneg : (0 : Rat) ≤ k := by exact_mod_cast nonneg
  have reduced : pc (7 : Rat) = 7 := pc_of_bounds (by norm_num) (by norm_num)
  have fifth : (ofNat 7 : Rat) = pc 7 := reduced.symm
  rw [isFifth, equal_iff, magnitude_eq, abs_of_nonneg nonneg, fifth, pc_eq_pc_iff,
    Int.modEq_comm, Int.modEq_iff_dvd]
  refine exists_congr fun n => ?_
  norm_cast

/-- The test on voices of which the one is nowhere above the other. -/
theorem movesInFifths_iff (before : lower.1 ≤ upper.1) (after : lower.2 ≤ upper.2) :
    movesInFifths (lower.map (Int.cast : Int → Rat) Int.cast) (upper.map Int.cast Int.cast) = true ↔
      InFifths lower upper ∧
        (MoveAlike lower upper ∨ lower.1 < lower.2 ∧ upper.1 = upper.2) := by
  have fifth := isFifth_intCast (sub_nonneg.mpr before)
  have fifth' := isFifth_intCast (sub_nonneg.mpr after)
  push_cast at fifth fifth'
  have still : (lower.2 - lower.1 : Rat) = 0 ↔ lower.2 = lower.1 := by
    rw [sub_eq_zero, Int.cast_inj]
  have falls (voice : Int × Int) : (voice.2 - voice.1 : Rat) < 0 ↔ voice.2 < voice.1 := by
    rw [sub_neg, Int.cast_lt]
  simp only [movesInFifths, Prod.map_fst, Prod.map_snd, Bool.and_eq_true, fifth, fifth',
    Bool.not_eq_true', Bool.eq_false_iff, ne_eq, equal_iff, zero_eq, still, falls, beq_iff_eq,
    decide_eq_decide, InFifths, MoveAlike, and_assoc]
  refine and_congr_right fun _ => and_congr_right fun _ => ?_
  omega

variable {source target : List Int}

theorem hasParallelFifths_map {α : Type} [Scalar α] (pitch : Int → α)
    (paired : source.length = target.length) :
    hasParallelFifths (source.map pitch) (target.map pitch) = true ↔
      SomePair (fun lower upper =>
        movesInFifths (lower.map pitch pitch) (upper.map pitch pitch) = true)
        (source.zip target) := by
  simp [hasParallelFifths, paired, List.zip_map, anyPair_iff, SomePair.map_iff]

theorem hasParallelFifths_self (pitches : List Rat) : hasParallelFifths pitches pitches = false := by
  rw [Bool.eq_false_iff]
  intro found
  obtain ⟨i, j, _, _, moves⟩ := anyPair_iff.mp (Bool.and_eq_true_iff.mp found).2
  have stays : equal (0 : Rat) 0 = true := equal_iff.mpr rfl
  simp [movesInFifths, stays] at moves

theorem zip_ascending (ascending : source.Pairwise (· ≤ ·)) (ascending' : target.Pairwise (· ≤ ·)) :
    (source.zip target).Pairwise fun lower upper => lower.1 ≤ upper.1 ∧ lower.2 ≤ upper.2 := by
  rw [List.pairwise_iff_getElem] at ascending ascending' ⊢
  intro i j inside inside' before
  rw [List.length_zip] at inside inside'
  rw [List.getElem_zip, List.getElem_zip]
  exact ⟨ascending i j (by omega) (by omega) before, ascending' i j (by omega) (by omega) before⟩

/-! ### Binary64 -/

namespace Binary64

theorem isFifth_eq_of_value {x : Float} {a : Rat} {j : Nat} (value : value? x = some a)
    (places : HasPlaces j a) (fine : j ≤ 48) : isFifth x = isFifth a := by
  have seven : value? (Float.ofNat 7) = some 7 := by
    have value := value_ofNat (n := 7) (by decide)
    rwa [Nat.cast_ofNat] at value
  exact equal_eq_of_value (value_pc (value_magnitude value) places.magnitude fine) seven

theorem value_ofInt_sub {k l : Int} (first : |k| ≤ 2 ^ 52) (second : |l| ≤ 2 ^ 52) :
    value? (Float.ofInt k - Float.ofInt l) = some ((k - l : Int) : Rat) := by
  rw [abs_le] at first second
  have kept : Representable ((k - l : Int) : Rat) := representable_intCast (by omega)
  rw [Int.cast_sub] at kept ⊢
  exact value_sub (value_ofInt (by omega)) (value_ofInt (by omega)) kept

/-- The test on whole numbers of up to 52 digits is that in exact arithmetic. -/
theorem movesInFifths_ofInt {lower upper : Int × Int}
    (small : |lower.1| ≤ 2 ^ 52 ∧ |lower.2| ≤ 2 ^ 52)
    (small' : |upper.1| ≤ 2 ^ 52 ∧ |upper.2| ≤ 2 ^ 52) :
    movesInFifths (lower.map Float.ofInt Float.ofInt) (upper.map Float.ofInt Float.ofInt) =
      movesInFifths (lower.map (Int.cast : Int → Rat) Int.cast) (upper.map Int.cast Int.cast) := by
  have fifth {k l : Int} (first : |k| ≤ 2 ^ 52) (second : |l| ≤ 2 ^ 52) :
      isFifth (Float.ofInt k - Float.ofInt l) = isFifth (k - l : Rat) := by
    rw [← Int.cast_sub]
    exact isFifth_eq_of_value (value_ofInt_sub first second) (.whole 0 _) (by decide)
  have still : equal (Float.ofInt lower.2 - Float.ofInt lower.1) zero =
      equal (lower.2 - lower.1 : Rat) zero := by
    rw [← Int.cast_sub]
    exact equal_eq_of_value (value_ofInt_sub small.2 small.1) value_zero
  have falls {voice : Int × Int} (small : |voice.1| ≤ 2 ^ 52 ∧ |voice.2| ≤ 2 ^ 52) :
      Float.ofInt voice.2 - Float.ofInt voice.1 < zero ↔ (voice.2 - voice.1 : Rat) < zero := by
    rw [← Int.cast_sub]
    exact lt_iff_of_value (value_ofInt_sub small.2 small.1) value_zero
  simp only [movesInFifths, Prod.map_fst, Prod.map_snd, fifth small'.1 small.1,
    fifth small'.2 small.2, still, falls small, falls small']

end Binary64

/-! ### The verdict -/

theorem hasParallelFifths_iff (ascending : source.Pairwise (· ≤ ·))
    (ascending' : target.Pairwise (· ≤ ·)) (paired : source.length = target.length) :
    hasParallelFifths (source.map (Int.cast : Int → Rat)) (target.map Int.cast) = true ↔
      SomePair (fun lower upper => InFifths lower upper ∧
        (MoveAlike lower upper ∨ lower.1 < lower.2 ∧ upper.1 = upper.2)) (source.zip target) := by
  rw [hasParallelFifths_map _ paired]
  apply SomePair.congr
  exact (zip_ascending ascending ascending').imp fun order => movesInFifths_iff order.1 order.2

theorem hasParallelFifths_ofInt (paired : source.length = target.length)
    (small : ∀ p ∈ source ++ target, |p| ≤ 2 ^ 52) :
    hasParallelFifths (source.map Float.ofInt) (target.map Float.ofInt) =
      hasParallelFifths (source.map (Int.cast : Int → Rat)) (target.map Int.cast) := by
  have small (voice : Int × Int) (member : voice ∈ source.zip target) :
      |voice.1| ≤ 2 ^ 52 ∧ |voice.2| ≤ 2 ^ 52 := by
    obtain ⟨first, second⟩ := List.of_mem_zip member
    exact ⟨small _ (List.mem_append_left _ first), small _ (List.mem_append_right _ second)⟩
  rw [Bool.eq_iff_iff, hasParallelFifths_map _ paired, hasParallelFifths_map _ paired]
  apply SomePair.congr
  refine List.pairwise_of_forall_mem_list fun lower member upper member' => ?_
  rw [Binary64.movesInFifths_ofInt (small lower member) (small upper member')]

/-- Unless a voice moves under one that stays a fifth above it, the voices have to move alike. -/
theorem hasParallelFifths_iff_moveAlike (ascending : source.Pairwise (· ≤ ·))
    (ascending' : target.Pairwise (· ≤ ·)) (paired : source.length = target.length)
    (noneBelow : ¬ SomePair (fun lower upper => InFifths lower upper ∧ MoveBelow lower upper)
      (source.zip target)) :
    hasParallelFifths (source.map (Int.cast : Int → Rat)) (target.map Int.cast) = true ↔
      SomePair (fun lower upper => InFifths lower upper ∧ MoveAlike lower upper)
        (source.zip target) := by
  rw [hasParallelFifths_iff ascending ascending' paired]
  constructor
  · rintro ⟨i, j, before, inside, fifths, alike | ⟨rises, stays⟩⟩
    · exact ⟨i, j, before, inside, fifths, alike⟩
    · exact absurd ⟨i, j, before, inside, fifths, rises.ne, stays⟩ noneBelow
  · rintro ⟨i, j, before, inside, fifths, alike⟩
    exact ⟨i, j, before, inside, fifths, .inl alike⟩

theorem somePair_swap {moves : Int × Int → Int × Int → Prop}
    (back : ∀ lower upper, moves lower.swap upper.swap ↔ moves lower upper) :
    SomePair (fun lower upper => InFifths lower upper ∧ moves lower upper) (target.zip source) ↔
      SomePair (fun lower upper => InFifths lower upper ∧ moves lower upper)
        (source.zip target) := by
  rw [← List.zip_swap, SomePair.map_iff]
  simp only [back, InFifths, Prod.fst_swap, Prod.snd_swap, and_comm]

/-- On sorted voices at whole pitches, parallel fifths are found between voices that form fifths
before and after and rise or fall together, and where the lower one rises and the upper one
stays. Without fifths of which only the lower voice moves the verdict is the documented one, and
the same for the way back. On numbers of up to 52 digits nothing is rounded. -/
theorem hasParallelFifths_whole (ascending : source.Pairwise (· ≤ ·))
    (ascending' : target.Pairwise (· ≤ ·)) (paired : source.length = target.length) :
    (hasParallelFifths (source.map (Int.cast : Int → Rat)) (target.map Int.cast) = true ↔
      SomePair (fun lower upper => InFifths lower upper ∧
        (MoveAlike lower upper ∨ lower.1 < lower.2 ∧ upper.1 = upper.2)) (source.zip target)) ∧
    (¬ SomePair (fun lower upper => InFifths lower upper ∧ MoveBelow lower upper)
        (source.zip target) →
      (hasParallelFifths (source.map (Int.cast : Int → Rat)) (target.map Int.cast) = true ↔
        SomePair (fun lower upper => InFifths lower upper ∧ MoveAlike lower upper)
          (source.zip target)) ∧
      hasParallelFifths (target.map (Int.cast : Int → Rat)) (source.map Int.cast) =
        hasParallelFifths (source.map (Int.cast : Int → Rat)) (target.map Int.cast)) ∧
    ((∀ p ∈ source ++ target, |p| ≤ 2 ^ 52) →
      hasParallelFifths (source.map Float.ofInt) (target.map Float.ofInt) =
        hasParallelFifths (source.map (Int.cast : Int → Rat)) (target.map Int.cast)) := by
  refine ⟨hasParallelFifths_iff ascending ascending' paired, fun noneBelow => ?_,
    hasParallelFifths_ofInt paired⟩
  have forth := hasParallelFifths_iff_moveAlike ascending ascending' paired noneBelow
  have below (lower upper : Int × Int) :
      MoveBelow lower.swap upper.swap ↔ MoveBelow lower upper := by
    simp [MoveBelow, eq_comm]
  have alike (lower upper : Int × Int) :
      MoveAlike lower.swap upper.swap ↔ MoveAlike lower upper := or_comm
  have back := hasParallelFifths_iff_moveAlike ascending' ascending paired.symm
    (mt (somePair_swap below).mp noneBelow)
  exact ⟨forth, Bool.eq_iff_iff.mpr (back.trans ((somePair_swap alike).trans forth.symm))⟩

/-- The fifth is a compound one, and a third voice stays. -/
theorem hasParallelFifths_whole_compound :
    let source : List Int := [-5, 14, 20]
    let target : List Int := [-3, 16, 20]
    let voices := source.zip target
    (source.Pairwise (· ≤ ·) ∧ target.Pairwise (· ≤ ·) ∧ source.length = target.length ∧
        ¬ SomePair (fun lower upper => InFifths lower upper ∧ MoveBelow lower upper) voices ∧
        ∀ p ∈ source ++ target, |p| ≤ 2 ^ 52) ∧
      SomePair (fun lower upper => InFifths lower upper ∧ MoveAlike lower upper) voices ∧
      hasParallelFifths (source.map Float.ofInt) (target.map Float.ofInt) = true ∧
      hasParallelFifths (target.map (Int.cast : Int → Rat)) (source.map Int.cast) = true := by
  intro source target voices
  have ascending : source.Pairwise (· ≤ ·) := by decide
  have ascending' : target.Pairwise (· ≤ ·) := by decide
  have noneBelow :
      ¬ SomePair (fun lower upper => InFifths lower upper ∧ MoveBelow lower upper) voices := by
    decide
  have small : ∀ p ∈ source ++ target, |p| ≤ 2 ^ 52 := by decide
  have some : SomePair (fun lower upper => InFifths lower upper ∧ MoveAlike lower upper) voices := by
    decide
  obtain ⟨-, documented, binary⟩ := hasParallelFifths_whole ascending ascending' rfl
  obtain ⟨forth, back⟩ := documented noneBelow
  exact ⟨⟨ascending, ascending', rfl, noneBelow, small⟩, some, (binary small).trans (forth.mpr some),
    back.trans (forth.mpr some)⟩

/-- The lower voice rises by an octave under a fifth that stays, which is not to move in the
same direction. It is found to be, though not on the way back, and the nearest voicing is
passed over for it. -/
theorem hasParallelFifths_under_stay :
    let source : List Int := [-12, 7]
    let target : List Int := [0, 7]
    (source.Pairwise (· ≤ ·) ∧ target.Pairwise (· ≤ ·) ∧ source.length = target.length) ∧
      ¬ SomePair (fun lower upper => InFifths lower upper ∧ MoveAlike lower upper)
        (source.zip target) ∧
      hasParallelFifths (source.map Float.ofInt) (target.map Float.ofInt) = true ∧
      hasParallelFifths (target.map Float.ofInt) (source.map Float.ofInt) = false ∧
      ((leastMotion.lead (source.map Float.ofInt) (.ofPitches (target.map Float.ofInt)) 12
        true).runFrom .empty).1.toOption = some [7, 12] :=
  ⟨by decide, by decide, by decide +kernel, by decide +kernel, by decide +kernel⟩

end ChordGrammar
