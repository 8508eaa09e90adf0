import Mathlib.Data.Int.ModEq
import ChordGrammar.LongWord
import ChordGrammar.Turtle
import ChordGrammar.Proofs.Values

/-! Revoicing as counting around. The index goes around a cycle of as many voicings as the range
has whole semitones, and a word of 128 bits has room for every index and every step. So only the
sum of the steps matters: their order does not, and a step back undoes a step. -/
namespace ChordGrammar

open Scalar Binary64

/-! ### The whole part of a number -/

def wholePart (a : Rat) : Int := if a < 0 then ⌈a⌉ else ⌊a⌋

def clamped (k : Int) : Int := max Int64.minValue.toInt (min k Int64.maxValue.toInt)

/-- The whole number that a binary64 number is cut down to, which is the nearest of 64 bits.
What is not a number is cut down to zero. -/
inductive CutTo : Float → Int → Prop where
  | finite {x : Float} {a : Rat} (value : value? x = some a) : CutTo x (clamped (wholePart a))
  | infinite {x : Float} (infinite : x.isInf = true) :
    CutTo x (if x < zero then Int64.minValue else Int64.maxValue).toInt
  | notANumber {x : Float} (undefined : x.isNaN = true) : CutTo x 0

theorem toInt_ofIntClamp (k : Int) : (Int64.ofIntClamp k).toInt = clamped k := by
  unfold Int64.ofIntClamp clamped
  split
  · next low =>
    split
    · next high => rw [Int64.toInt_ofIntLE, min_eq_left high, max_eq_right low]
    · next high =>
      rw [min_eq_right (not_le.mp high).le, max_eq_right (by decide)]
  · next low =>
    have below := (not_le.mp low).le
    rw [min_eq_left (below.trans (by decide)), max_eq_left below]

theorem wholePart_of_nonneg {a : Rat} (nonneg : 0 ≤ a) : wholePart a = ⌊a⌋ :=
  if_neg nonneg.not_gt

theorem wholePart_neg (a : Rat) : wholePart (-a) = -wholePart a := by
  unfold wholePart
  rcases lt_trichotomy a 0 with negative | rfl | positive
  · rw [if_neg (by linarith), if_pos negative, Int.floor_neg]
  · simp
  · rw [if_pos (by linarith), if_neg positive.not_gt, Int.ceil_neg]

theorem wholePart_quantity (sign : Float.Model.UnpackedFloat.Sign) (m : Nat) (e : Int) :
    wholePart (quantity sign m e) = sign.apply (numerator m e / denominator e : Nat) := by
  have magnitude : wholePart ((m : Rat) * 2 ^ e) = (numerator m e / denominator e : Nat) := by
    rw [wholePart_of_nonneg (by positivity), magnitude_eq_fraction]
    exact Rat.floor_natCast_div_natCast _ _
  cases sign with
  | positive => exact magnitude
  | negative => rw [quantity_negative, wholePart_neg, magnitude]; rfl

section

variable {x : Float}

theorem unpack_of_isInf (infinite : x.isInf = true) :
    ∃ sign, x.toModel.unpack = .infinity sign := by
  have infinite : x.toModel.unpack.isInf = true := infinite
  cases unpacked : x.toModel.unpack with
  | infinity sign => exact ⟨sign, rfl⟩
  | _ =>
    rw [unpacked] at infinite
    cases infinite

theorem unpack_of_isNaN (undefined : x.isNaN = true) : x.toModel.unpack = .notANumber := by
  have undefined : x.toModel.unpack.isNaN = true := undefined
  cases unpacked : x.toModel.unpack with
  | notANumber => rfl
  | _ =>
    rw [unpacked] at undefined
    cases undefined

theorem truncate_of_value {a : Rat} (value : value? x = some a) :
    (Scalar.truncate x).toInt = clamped (wholePart a) := by
  show (toInt64With _ x).toInt = _
  unfold value? at value
  unfold toInt64With
  cases unpacked : x.toModel.unpack with
  | zero sign =>
    rw [unpacked] at value
    cases value
    rfl
  | finite sign m e pos =>
    rw [unpacked] at value
    cases value
    rw [wholePart_quantity, ← toInt_ofIntClamp]
  | _ =>
    rw [unpacked] at value
    cases value

theorem truncate_of_isInf (infinite : x.isInf = true) :
    (Scalar.truncate x).toInt = (if x < zero then Int64.minValue else Int64.maxValue).toInt := by
  obtain ⟨sign, unpacked⟩ := unpack_of_isInf infinite
  show (toInt64With _ x).toInt = _
  rw [toInt64With, unpacked]
  cases sign with
  | negative =>
    have below : x < zero := by
      rw [lt_iff_compare, unpacked]
      rfl
    rw [if_pos below]
  | positive =>
    have above : ¬ x < zero := by
      rw [lt_iff_compare, unpacked]
      nofun
    rw [if_neg above]

theorem truncate_of_isNaN (undefined : x.isNaN = true) : (Scalar.truncate x).toInt = 0 := by
  show (toInt64With _ x).toInt = _
  rw [toInt64With, unpack_of_isNaN undefined]
  rfl

theorem exists_cutTo (x : Float) : ∃ m, CutTo x m := by
  cases unpacked : x.toModel.unpack with
  | notANumber => exact ⟨_, .notANumber (congrArg (·.isNaN) unpacked)⟩
  | infinity sign => exact ⟨_, .infinite (congrArg (·.isInf) unpacked)⟩
  | _ => exact ⟨_, .finite (congrArg valueOf? unpacked)⟩

/-- Truncation cuts every number down, and there is but one number it is cut down to. -/
theorem cutTo_iff {m : Int} : CutTo x m ↔ m = (Scalar.truncate x).toInt := by
  have truncated {m : Int} (cut : CutTo x m) : m = (Scalar.truncate x).toInt := by
    cases cut with
    | finite value => exact (truncate_of_value value).symm
    | infinite infinite => exact (truncate_of_isInf infinite).symm
    | notANumber undefined => exact (truncate_of_isNaN undefined).symm
  obtain ⟨k, cut⟩ := exists_cutTo x
  constructor
  · exact truncated
  · rintro rfl
    rwa [← truncated cut]

end

/-! ### Turns -/

theorem toInt_max (a b : Int64) : (max a b).toInt = max a.toInt b.toInt := by
  show (if a ≤ b then b else a).toInt = max a.toInt b.toInt
  split
  · next le => rw [max_eq_right (Int64.le_iff_toInt_le.mp le)]
  · next gt => rw [max_eq_left (not_le.mp (mt Int64.le_iff_toInt_le.mpr gt)).le]

theorem toInt_neg {n : Int64} (bounded : n ≠ Int64.minValue) : (-n).toInt = -n.toInt := by
  have low := n.le_toInt
  have high := n.toInt_lt
  have inside : n.toInt ≠ -2 ^ 63 := fun least =>
    bounded (Int64.toInt_inj.mp (least.trans Int64.toInt_minValue.symm))
  rw [Int64.toInt_neg]
  exact Int.bmod_eq_of_le (by omega) (by omega)

namespace Turtle

variable {α : Type} [Scalar α]

/-- Revoicing in machine words: the index and the step are added and counted around in 128 bits,
and the new index is cut down to 64. There is none if one of these operations overflows. -/
def revoiceInWords? (n : Int64) (t : Turtle α) : Option (Turtle α) := do
  let moved ← (LongWord.ofInt64 t.voicing).add? (.ofInt64 n)
  let counted ← moved.emod? (.ofInt64 (max (truncate t.range) 1))
  let voicing ← counted.toInt64?
  return { t with voicing }

def turn (k : Int) (t : Turtle α) : Turtle α :=
  { t with voicing := .ofInt ((t.voicing.toInt + k) % revoicingCycle t.range) }

def revoiceAll (steps : List Int64) (t : Turtle α) : Turtle α :=
  steps.foldl (fun t n => t.revoice n) t

theorem revoice_eq_turn (n : Int64) (t : Turtle α) : t.revoice n = t.turn n.toInt := rfl

theorem toInt_voicing_turn (k : Int) (t : Turtle α) :
    (t.turn k).voicing.toInt = (t.voicing.toInt + k) % revoicingCycle t.range :=
  toInt_ofInt_emod_revoicingCycle _ _

theorem revoiceInWords?_eq (n : Int64) (t : Turtle α) :
    t.revoiceInWords? n = some (t.revoice n) := by
  have cycle : (LongWord.ofInt64 (max (truncate t.range) 1)).toInt = revoicingCycle t.range := by
    rw [LongWord.toInt_ofInt64]
    exact toInt_max _ _
  obtain ⟨moved, sum⟩ := LongWord.exists_sum t.voicing n
  have added : (LongWord.ofInt64 t.voicing).add? (.ofInt64 n) = some moved := by
    rw [LongWord.add?_eq_some_iff, sum, LongWord.toInt_ofInt64, LongWord.toInt_ofInt64]
  have counted : moved.emod? (.ofInt64 (max (truncate t.range) 1)) =
      some (.ofInt64 (t.revoice n).voicing) := by
    apply LongWord.emod?_eq_some
    · rw [cycle]
      exact revoicingCycle_pos t.range
    · rw [cycle, sum, LongWord.toInt_ofInt64, toInt_voicing_revoice]
  have narrowed : (LongWord.ofInt64 (t.revoice n).voicing).toInt64? =
      some (t.revoice n).voicing :=
    LongWord.toInt64?_eq_some_iff.mpr (LongWord.toInt_ofInt64 _).symm
  simp only [revoiceInWords?, added, counted, narrowed, Option.bind_eq_bind, Option.bind_some]
  rfl

theorem turn_turn (j k : Int) (t : Turtle α) : (t.turn j).turn k = t.turn (j + k) := by
  have same : ((t.turn j).voicing.toInt + k) % revoicingCycle t.range =
      (t.voicing.toInt + (j + k)) % revoicingCycle t.range := by
    rw [toInt_voicing_turn, Int.emod_add_emod, add_assoc]
  exact congrArg (fun index => ({ t with voicing := .ofInt index } : Turtle α)) same

theorem turn_zero {t : Turtle α} (nonneg : 0 ≤ t.voicing.toInt)
    (below : t.voicing.toInt < revoicingCycle t.range) : t.turn 0 = t := by
  rw [turn, add_zero, Int.emod_eq_of_lt nonneg below, Int64.ofInt_toInt]

theorem revoiceAll_turn (steps : List Int64) (k : Int) (t : Turtle α) :
    (t.turn k).revoiceAll steps = t.turn (k + (steps.map Int64.toInt).sum) := by
  induction steps generalizing k with
  | nil => rw [List.map_nil, List.sum_nil, add_zero]; rfl
  | cons n steps ih =>
    rw [List.map_cons, List.sum_cons, ← add_assoc, ← ih, ← turn_turn]
    rfl

theorem revoiceAll_eq_turn {steps : List Int64} (some : steps ≠ []) (t : Turtle α) :
    t.revoiceAll steps = t.turn (steps.map Int64.toInt).sum := by
  cases steps with
  | nil => exact absurd rfl some
  | cons n steps => exact revoiceAll_turn steps n.toInt t

theorem revoiceAll_perm {steps others : List Int64} (same : steps.Perm others) (t : Turtle α) :
    t.revoiceAll steps = t.revoiceAll others := by
  by_cases none : steps = []
  · subst none
    rw [same.nil_eq]
  · have some : others ≠ [] := fun empty => none (by simpa [empty] using same)
    rw [revoiceAll_eq_turn none, revoiceAll_eq_turn some, (same.map _).sum_eq]

/-- An index that is counted around is the only one of its class on the cycle. -/
theorem eq_voicing_turn_iff {j k : Int} {t : Turtle α} :
    k = (t.turn j).voicing.toInt ↔
      0 ≤ k ∧ k < revoicingCycle t.range ∧ k ≡ t.voicing.toInt + j [ZMOD revoicingCycle t.range] := by
  have positive := revoicingCycle_pos t.range
  rw [toInt_voicing_turn]
  constructor
  · rintro rfl
    exact ⟨Int.emod_nonneg _ positive.ne', Int.emod_lt_of_pos _ positive, Int.mod_modEq _ _⟩
  · rintro ⟨nonneg, below, same⟩
    rw [← same.eq, Int.emod_eq_of_lt nonneg below]

/-- One step takes the index to the only number on the cycle that is congruent to the sum, and
nothing overflows on the way. Steps come to the same in any order and as their sum, and a step
back undoes a step from an index on the cycle. -/
theorem revoice_counts_around (t : Turtle Float) :
    ∃ m, (∀ k, CutTo t.range k ↔ k = m) ∧
      let cycle := max 1 m
      (∀ n : Int64, t.revoiceInWords? n = some (t.revoice n) ∧
        ∀ k, k = (t.revoice n).voicing.toInt ↔
          0 ≤ k ∧ k < cycle ∧ k ≡ t.voicing.toInt + n.toInt [ZMOD cycle]) ∧
      (∀ steps others : List Int64, steps.Perm others →
        t.revoiceAll steps = t.revoiceAll others) ∧
      (∀ a b sum : Int64, sum.toInt = a.toInt + b.toInt →
        (t.revoice a).revoice b = t.revoice sum) ∧
      ∀ n : Int64, n ≠ Int64.minValue → 0 ≤ t.voicing.toInt → t.voicing.toInt < cycle →
        (t.revoice n).revoice (-n) = t := by
  refine ⟨(Scalar.truncate t.range).toInt, fun k => cutTo_iff, ?_⟩
  intro cycle
  have same : cycle = revoicingCycle t.range := max_comm _ _
  rw [same]
  refine ⟨fun n => ⟨revoiceInWords?_eq n t, fun k => eq_voicing_turn_iff⟩,
    fun steps others same => revoiceAll_perm same t, fun a b sum added => ?_,
    fun n bounded nonneg below => ?_⟩
  · simp only [revoice_eq_turn, turn_turn, added]
  · rw [revoice_eq_turn, revoice_eq_turn, turn_turn, toInt_neg bounded, add_neg_cancel]
    exact turn_zero nonneg below

/-- The range is beyond all indices, so the cycle has as many as there can be, and the index
before the last is counted around by the greatest of all steps. -/
theorem revoice_counts_around_greatest :
    let t : Turtle Float := { initial with range := 1e19, voicing := Int64.maxValue - 1 }
    let steps := [Int64.maxValue, -3, Int64.minValue]
    CutTo t.range Int64.maxValue.toInt ∧
      (t.revoice Int64.maxValue).voicing.toInt = t.voicing.toInt ∧
      (steps.Perm steps.reverse ∧ t.revoiceAll steps = t.revoiceAll steps.reverse) ∧
      ((-1 : Int64).toInt = Int64.maxValue.toInt + Int64.minValue.toInt ∧
        (t.revoice Int64.maxValue).revoice Int64.minValue = t.revoice (-1)) ∧
      Int64.maxValue ≠ Int64.minValue ∧ 0 ≤ t.voicing.toInt ∧
      t.voicing.toInt < max 1 Int64.maxValue.toInt ∧
      (t.revoice Int64.maxValue).revoice (-Int64.maxValue) = t := by
  intro t steps
  obtain ⟨m, cut, turned, ordered, added, back⟩ := revoice_counts_around t
  have value : value? t.range = some (10 ^ 19) := by decide +kernel
  have greatest : clamped (wholePart (10 ^ 19)) = Int64.maxValue.toInt := by decide +kernel
  have range : CutTo t.range Int64.maxValue.toInt := greatest ▸ .finite value
  obtain rfl := (cut _).mp range
  have shuffled : steps.Perm steps.reverse := steps.reverse_perm.symm
  have sum : (-1 : Int64).toInt = Int64.maxValue.toInt + Int64.minValue.toInt := by decide
  refine ⟨range, ?_, ⟨shuffled, ordered _ _ shuffled⟩, ⟨sum, added _ _ _ sum⟩, by decide,
    by decide, by decide, back _ (by decide) (by decide) (by decide)⟩
  exact (((turned Int64.maxValue).2 _).mpr ⟨by decide, by decide, by decide⟩).symm

end Turtle
end ChordGrammar
