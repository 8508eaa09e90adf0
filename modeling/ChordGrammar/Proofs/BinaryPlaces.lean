import ChordGrammar.Proofs.Exact
import ChordGrammar.Proofs.Steady
import ChordGrammar.Proofs.Values

/-! Pitches with few binary places. A pitch class that leaves digits free keeps its value
under octaves, transpositions and reductions, as long as the pitches stay below the power of
two that its places allow. Chords of such pitch classes never drift; a tenth of a semitone
does. -/
namespace ChordGrammar.Binary64

open Scalar
open Float.Model (UnpackedFloat)

/-! ### The remainder -/

theorem emod_fraction {num den : Nat} (pos : 0 < den) (n : Nat) :
    Scalar.emod ((num : Rat) / den) n = (num % (n * den) : Nat) / den := by
  have whole : ⌊(num : Rat) / den / n⌋ = (num / (n * den) : Nat) := by
    rw [div_div, mul_comm (den : Rat), ← Nat.cast_mul]
    exact Rat.floor_natCast_div_natCast num (n * den)
  have parts := Nat.mod_add_div num (n * den)
  have parts : ((num % (n * den) : Nat) : Rat) + n * den * (num / (n * den) : Nat) = num := by
    exact_mod_cast parts
  show (num : Rat) / den - n * ⌊(num : Rat) / den / n⌋ = _
  rw [whole, Int.cast_natCast]
  field_simp
  linarith

/-- Where something is taken off a magnitude, both terms of the remainder are whole numbers
of few digits. -/
theorem remainder_digits {m n : Nat} {e : Int} (canonical : Canonical m e) (pos : 0 < n)
    (size : n < 2 ^ 53) (above : n * denominator e ≤ numerator m e) :
    numerator m e % (n * denominator e) < 2 ^ 53 ∧ denominator e < 2 ^ 53 ∧ -e ≤ 53 := by
  have digits := canonical.digits
  obtain ⟨s, rfl | rfl⟩ := Int.eq_nat_or_neg e
  · have whole : denominator s = 1 := by simp [denominator]
    rw [whole, mul_one]
    exact ⟨(Nat.mod_lt _ pos).trans size, by omega, by omega⟩
  · have plain : numerator m (-s) = m := by simp [numerator]
    have power : denominator (-s) = 2 ^ s := by simp [denominator]
    rw [plain] at above ⊢
    have below : denominator (-s) < 2 ^ 53 :=
      (Nat.le_mul_of_pos_left _ pos).trans_lt (above.trans_lt digits)
    refine ⟨(Nat.mod_le _ _).trans_lt digits, below, ?_⟩
    rw [power] at below
    have scale : s < 53 := (Nat.pow_lt_pow_iff_right (by decide)).mp below
    omega

theorem representable_fraction {k : Nat} {e : Int} (digits : k < 2 ^ 53) (scale : -e ≤ 53) :
    Representable (k / denominator e : Rat) := by
  have whole : (k / denominator e : Rat) = (k : Int) * 2 ^ (-((-e).toNat : Int)) := by
    rw [zpow_neg, zpow_natCast, div_eq_mul_inv]
    simp [denominator]
  rw [whole]
  exact representable_of_digits digits.le (by omega) (by omega)

/-- A remainder is exact. -/
theorem value_remainder {x : Float} {a : Rat} (value : value? x = some a) {n : Nat} (pos : 0 < n)
    (size : n < 2 ^ 53) :
    value? (remainder x n) =
      some (if a < 0 then -Scalar.emod |a| n else Scalar.emod |a| n) := by
  have represents := represents_of_value value
  generalize unpacked : x.toModel.unpack = u at represents
  cases represents with
  | zero sign =>
    have nothing : Scalar.emod (0 : Rat) n = 0 := by
      show (0 : Rat) - n * ⌊(0 : Rat) / n⌋ = 0
      simp
    rw [remainder, unpacked, abs_zero, nothing]
    simpa using value
  | @finite sign m e canonical =>
    have magnitude := canonical.magnitude_pos
    have rest : Scalar.emod ((m : Rat) * 2 ^ e) n =
        (numerator m e % (n * denominator e) : Nat) / denominator e := by
      rw [magnitude_eq_fraction]
      exact emod_fraction (denominator_pos e) n
    rw [remainder, unpacked, abs_quantity, rest]
    dsimp only
    split
    · next below =>
      rw [Nat.mod_eq_of_lt below, ← magnitude_eq_fraction, value]
      cases sign with
      | negative => simp [magnitude]
      | positive => simp [magnitude.not_gt]
    · next above =>
      obtain ⟨digits, digits', scale⟩ :=
        remainder_digits canonical pos size (Nat.le_of_not_lt above)
      have divisor : (denominator e : Rat) ≠ 0 := by exact_mod_cast (denominator_pos e).ne'
      have quotient := value_div (value_ofNat digits) (value_ofNat digits') divisor
        (representable_fraction digits scale)
      cases sign with
      | negative => simpa [magnitude] using value_neg quotient
      | positive => simpa [magnitude.not_gt] using quotient

/-! ### Binary places -/

/-- The multiples of `2 ^ -j`, which have `j` binary places. -/
def HasPlaces (j : Nat) (a : Rat) : Prop := ∃ k : Int, a = k * 2 ^ (-j : Int)

namespace HasPlaces

variable {j : Nat} {a b : Rat}

theorem whole (j : Nat) (n : Int) : HasPlaces j n := by
  refine ⟨n * 2 ^ j, ?_⟩
  rw [zpow_neg, zpow_natCast]
  push_cast
  field_simp

theorem neg (first : HasPlaces j a) : HasPlaces j (-a) := by
  obtain ⟨k, rfl⟩ := first
  exact ⟨-k, by push_cast; ring⟩

theorem magnitude (places : HasPlaces j a) : HasPlaces j (magnitude a) := by
  unfold Scalar.magnitude
  split
  · exact places.neg
  · exact places

theorem add (first : HasPlaces j a) (second : HasPlaces j b) : HasPlaces j (a + b) := by
  obtain ⟨k, rfl⟩ := first
  obtain ⟨l, rfl⟩ := second
  exact ⟨k + l, by push_cast; ring⟩

theorem add_octaves (places : HasPlaces j a) (n : Int) : HasPlaces j (a + 12 * n) := by
  have octaves := whole j (12 * n)
  push_cast at octaves
  exact places.add octaves

theorem pc (places : HasPlaces j a) : HasPlaces j (pc a) := by
  have reduced := places.add_octaves (-⌊a / 12⌋)
  rw [pc_eq]
  push_cast at reduced
  rwa [sub_eq_add_neg, ← mul_neg]

/-- With few places before the point and behind it no digit is lost. -/
theorem representable (places : HasPlaces j a) (fine : j ≤ 48) (bound : |a| ≤ 2 ^ (53 - j)) :
    Representable a := by
  obtain ⟨k, rfl⟩ := places
  refine representable_of_digits ?_ (by omega) (by omega)
  have digits : (2 : Rat) ^ 53 = 2 ^ (53 - j) * 2 ^ j := by
    rw [← pow_add]
    congr 1
    omega
  have unit : (0 : Rat) < 2 ^ j := by positivity
  rw [zpow_neg, zpow_natCast, ← div_eq_mul_inv, abs_div, abs_of_pos unit, div_le_iff₀ unit,
    ← digits, ← Int.cast_abs, Int.abs_eq_natAbs] at bound
  exact_mod_cast bound

end HasPlaces

theorem two_octaves_le {j : Nat} (fine : j ≤ 48) : (24 : Rat) ≤ 2 ^ (53 - j) :=
  calc (24 : Rat) ≤ 2 ^ 5 := by norm_num
    _ ≤ 2 ^ (53 - j) := by
      apply pow_le_pow_right₀ (by norm_num)
      omega

/-! ### Pitch classes -/

theorem pc_eq_of_apart {a b : Rat} (apart : OctavesApart b a) (nonneg : 0 ≤ b) (below : b < 12) :
    pc a = b :=
  (pc_eq_pc_iff.mpr apart.symm).trans (pc_of_bounds nonneg below)

section

variable {x p : Float} {a : Rat} {j : Nat}

theorem value_zero : value? (zero : Float) = some 0 := by
  have value : value? (Float.ofNat 0) = some ((0 : Nat) : Rat) := value_ofNat (by decide)
  rwa [Nat.cast_zero] at value

theorem value_octave : value? (octave : Float) = some 12 := by
  have value : value? (Float.ofNat 12) = some ((12 : Nat) : Rat) := value_ofNat (by decide)
  rwa [Nat.cast_ofNat] at value

theorem value_unsignedZero (value : value? x = some a) : value? (unsignedZero x) = some a := by
  unfold unsignedZero
  split
  · next isZero =>
    obtain ⟨below, above⟩ := equal_iff_le.mp isZero
    have nonpos := (le_iff_of_value value value_zero).mp below
    have nonneg := (le_iff_of_value value_zero value).mp above
    rw [le_antisymm nonpos nonneg]
    exact value_zero
  · exact value

theorem value_magnitude (value : value? x = some a) :
    value? (magnitude x) = some (magnitude a) := by
  have below : x < zero ↔ a < zero := lt_iff_of_value value value_zero
  simp only [magnitude, below]
  split
  · exact value_neg value
  · exact value

/-- Only a negative remainder is added to, and the sum has no more places. -/
theorem value_emod (value : value? x = some a) (places : HasPlaces j a) (fine : j ≤ 48) :
    value? (Scalar.emod x 12) = some (pc a) := by
  have rest := value_remainder value (n := 12) (by decide) (by decide)
  obtain ⟨nonneg, below⟩ := emod_octave_bounds |a|
  have apart : OctavesApart (Scalar.emod |a| 12) |a| :=
    ⟨-⌊|a| / 12⌋, by rw [emod_octave]; push_cast; ring⟩
  generalize Scalar.emod |a| 12 = r at rest nonneg below apart
  show value? (if remainder x 12 < 0 then remainder x 12 + octave else remainder x 12) = _
  by_cases negative : a < 0
  · rw [if_pos negative] at rest
    rw [abs_of_neg negative] at apart
    obtain ⟨n, apart⟩ := apart
    split
    · next short =>
      have positive : -r < 0 := (lt_iff_of_value rest value_zero).mp short
      have whole : -r + 12 = a + 12 * (1 - n : Int) := by push_cast; linarith
      have kept : Representable (-r + 12) := by
        rw [whole]
        apply (places.add_octaves _).representable fine
        rw [← whole, abs_of_nonneg (by linarith)]
        linarith [two_octaves_le fine]
      rw [value_add rest value_octave kept, ← pc_add_octaves a (1 - n), ← whole,
        pc_of_bounds (by linarith) (by linarith)]
    · next level =>
      have nonpos : ¬ -r < 0 := mt (lt_iff_of_value rest value_zero).mpr level
      rw [rest, pc_eq_of_apart (b := -r) ⟨-n, by push_cast; linarith⟩ (by linarith) (by linarith)]
  · rw [if_neg negative] at rest
    rw [abs_of_nonneg (not_lt.mp negative)] at apart
    rw [if_neg, rest, pc_eq_of_apart apart nonneg below]
    exact mt (lt_iff_of_value rest value_zero).mp nonneg.not_gt

theorem value_pc (value : value? x = some a) (places : HasPlaces j a) (fine : j ≤ 48) :
    value? (pc x) = some (pc a) := by
  have reduced := value_emod value places fine
  have inside : ¬ (octave : Float) ≤ Scalar.emod x 12 := by
    rw [le_iff_of_value value_octave reduced, not_le]
    exact pc_lt a
  rw [pc, if_neg inside]
  exact value_unsignedZero reduced

/-- Pitch classes of the same value are the same number, for none is a negative zero. -/
theorem pc_eq_of_value (value : value? (pc x) = some a) (reduced : ∃ y, pc y = p)
    (same : value? p = some a) : pc x = p := by
  obtain ⟨y, rfl⟩ := reduced
  have alike := unsignedZero_eq_of_value value same
  rwa [unsignedZero_pc, unsignedZero_pc] at alike

end

/-! ### Whole numbers -/

theorem exists_pc_ofNat {n : Nat} (below : n < 12) : ∃ y, pc y = Float.ofNat n := by
  have table : ∀ n : Fin 12, pc (Float.ofNat n) = Float.ofNat n := by decide +kernel
  exact ⟨_, table ⟨n, below⟩⟩

theorem pc_eq_ofNat {x : Float} {n : Nat} (value : value? x = some (n : Rat)) :
    pc x = Float.ofNat (n % 12) := by
  have below : n % 12 < 12 := Nat.mod_lt n (by decide)
  have places : HasPlaces 0 (n : Rat) := by exact_mod_cast HasPlaces.whole 0 n
  have same : pc (n : Rat) = (n % 12 : Nat) := by
    refine pc_eq_of_apart ⟨-(n / 12 : Nat), ?_⟩ (Nat.cast_nonneg _) (by exact_mod_cast below)
    have parts : ((n % 12 : Nat) : Rat) + 12 * (n / 12 : Nat) = n := by
      exact_mod_cast Nat.mod_add_div n 12
    rw [Int.cast_neg, Int.cast_natCast]
    linarith
  refine pc_eq_of_value (value_pc value places (by decide)) (exists_pc_ofNat below) ?_
  rw [same]
  exact value_ofNat (by omega)

/-- The sum of two pitch classes is exact. -/
theorem value_ofNat_add {m n : Nat} (below : m < 12) (below' : n < 12) :
    value? (Float.ofNat m + Float.ofNat n) = some ((m + n : Nat) : Rat) := by
  have kept : Representable ((m + n : Nat) : Int) := representable_intCast (by omega)
  rw [Int.cast_natCast, Nat.cast_add] at kept
  rw [Nat.cast_add]
  exact value_add (value_ofNat (by omega)) (value_ofNat (by omega)) kept

/-! ### Chords -/

/-- A pitch class, its value, and how many binary places it has. -/
structure IsPitchClass (j : Nat) (p : Float) (a : Rat) : Prop where
  value : value? p = some a
  places : HasPlaces j a
  nonneg : 0 ≤ a
  below : a < 12

/-- The highest pitch to which an octave can be added at the cost of none of `j` binary
places. -/
def limit (j : Nat) : Float := Float.ofNat (2 ^ (53 - j) - 12)

section

variable {p q : Float} {a b : Rat} {j : Nat}

theorem value_limit (fine : j ≤ 48) : value? (limit j) = some (2 ^ (53 - j) - 12) := by
  have room : 12 ≤ 2 ^ (53 - j) := by
    have octaves := two_octaves_le fine
    have octaves : 24 ≤ 2 ^ (53 - j) := by exact_mod_cast octaves
    omega
  have digits : 2 ^ (53 - j) ≤ 2 ^ 53 := Nat.pow_le_pow_right (by decide) (by omega)
  have value : value? (Float.ofNat (2 ^ (53 - j) - 12)) = some ((2 ^ (53 - j) - 12 : Nat) : Rat) :=
    value_ofNat (by omega)
  rw [Nat.cast_sub room] at value
  exact_mod_cast value

/-- Octaves are added without rounding. -/
theorem IsPitchClass.value_climbs (pitchClass : IsPitchClass j p a) (fine : j ≤ 48)
    {bound v : Float} (bounded : bound ≤ limit j) (climbs : Climbs bound p v) :
    ∃ n : Nat, value? v = some (a + 12 * (n : Int)) ∧ a + 12 * n ≤ 2 ^ (53 - j) - 12 := by
  obtain ⟨value, places, nonneg, below⟩ := pitchClass
  induction climbs with
  | start =>
    refine ⟨0, by simpa using value, ?_⟩
    push_cast
    linarith [two_octaves_le fine]
  | @up v _ room ih =>
    obtain ⟨n, value, inside⟩ := ih
    have next : a + 12 * (n : Int) + 12 = a + 12 * ((n + 1 : Nat) : Int) := by push_cast; ring
    have kept : Representable (a + 12 * (n : Int) + 12) := by
      rw [next]
      apply (places.add_octaves _).representable fine
      rw [← next, abs_of_nonneg (by push_cast; positivity)]
      push_cast
      linarith
    have sum := value_add value value_octave kept
    have reached := (le_iff_of_value sum (value_limit fine)).mp (LawfulOrder.le_trans room bounded)
    rw [next] at sum reached
    exact ⟨n + 1, sum, by exact_mod_cast reached⟩

theorem IsPitchClass.not_octave_le (pitchClass : IsPitchClass j p a) (fine : j ≤ 48) :
    ¬ zero ≤ p - octave := by
  obtain ⟨value, places, nonneg, below⟩ := pitchClass
  have whole : a - 12 = a + 12 * (-1 : Int) := by push_cast; ring
  have kept : Representable (a - 12) := by
    rw [whole]
    apply (places.add_octaves (-1)).representable fine
    rw [← whole]
    exact abs_le.mpr ⟨by linarith [two_octaves_le fine], by linarith [two_octaves_le fine]⟩
  rw [le_iff_of_value value_zero (value_sub value value_octave kept)]
  linarith

/-- A pitch class that is moved down by another one and up again comes back. -/
theorem IsPitchClass.restored (first : IsPitchClass j p a) (root : IsPitchClass j q b)
    (fine : j ≤ 48) (reduced : ∃ y, pc y = p) : pc (pc (p + -q) + q) = p := by
  have room := two_octaves_le fine
  have lowered := first.places.add root.places.neg
  have difference := value_add first.value (value_neg root.value) (lowered.representable fine
    (abs_le.mpr ⟨by linarith [first.nonneg, root.below], by linarith [first.below, root.nonneg]⟩))
  have raised := lowered.pc.add root.places
  have nonneg := pc_nonneg (a + -b)
  have below := pc_lt (a + -b)
  have sum := value_add (value_pc difference lowered fine) root.value (raised.representable fine
    (abs_le.mpr ⟨by linarith [root.nonneg], by linarith [root.below]⟩))
  have back := value_pc sum raised fine
  rw [pc_pc_add, neg_add_cancel_right, pc_of_bounds first.nonneg first.below] at back
  exact pc_eq_of_value back reduced first.value

end

end ChordGrammar.Binary64

namespace ChordGrammar

open Scalar Binary64

/-- Whether no pitch of the chord within a range and an octave above has more than 53 binary
digits. -/
def PitchClassSet.KeepsDigits (chord : PitchClassSet Float) (range : Float) : Prop :=
  ∃ j ≤ 48, (∀ p ∈ chord.voices, ∃ a, IsPitchClass j p a) ∧ range ≤ limit j

theorem PitchClassSet.KeepsDigits.faithful {chord : PitchClassSet Float} {range : Float}
    (digits : chord.KeepsDigits range) : chord.Faithful range := by
  obtain ⟨j, fine, pitchClass, bounded⟩ := digits
  have bounded : unsignedZero range ≤ limit j := by
    unfold unsignedZero
    split
    · rw [le_iff_of_value value_zero (value_limit fine)]
      linarith [two_octaves_le fine]
    · exact bounded
  refine ⟨⟨fun p member => ?_, fun p member => ?_, fun p member v climbs => ?_⟩, ?_⟩
  · obtain ⟨a, isPitchClass⟩ := pitchClass p (mem_sort.mp member)
    exact (le_iff_of_value isPitchClass.value isPitchClass.value).mpr le_rfl
  · obtain ⟨a, isPitchClass⟩ := pitchClass p (mem_sort.mp member)
    exact isPitchClass.not_octave_le fine
  · obtain ⟨a, isPitchClass⟩ := pitchClass p (mem_sort.mp member)
    obtain ⟨n, reached, -⟩ := isPitchClass.value_climbs fine bounded climbs
    have back := value_pc reached (isPitchClass.places.add_octaves n) fine
    rw [pc_add_octaves, pc_of_bounds isPitchClass.nonneg isPitchClass.below] at back
    exact pc_eq_of_value back (chord.reduced p (mem_sort.mp member)) isPitchClass.value
  · intro root rootMember p member
    obtain ⟨b, rootPitchClass⟩ := pitchClass root rootMember
    obtain ⟨a, isPitchClass⟩ := pitchClass p member
    exact isPitchClass.restored rootPitchClass fine (chord.reduced p member)

namespace Turtle

/-- Chords that keep their digits are realized as what they are: whatever is placed or led
to reduces to the content asked for, so writing never fails for the pitches found. -/
theorem writeAll_leastMotion_digits (chords : List (Turtle Float))
    (digits : ∀ chord ∈ chords, chord.pitchClasses.KeepsDigits chord.range) (score : Score Float)
    (cache : VoicingCache Float) :
    (∀ i content pitches, ((writeAll leastMotion chords).runFrom (score, cache)).1 ≠
      .error (.mismatch i content pitches)) ∧
    ∀ chord ∈ chords, ∀ (cache : VoicingCache Float) (pitches : List Float),
      (((chord.place leastMotion).runFrom cache).1 = .ok pitches ∨
        ∃ source avoidParallels, ((leastMotion.lead source chord.pitchClasses chord.range
          avoidParallels).runFrom cache).1 = .ok pitches) →
      (PitchClassSet.ofPitches pitches).canonical = chord.pitchClasses.canonical := by
  have faithful : ∀ chord ∈ chords, chord.pitchClasses.Faithful chord.range := fun chord member =>
    (digits chord member).faithful
  constructor
  · exact writeFrom_ne_mismatch 0 faithful (fun b (none : b ∈ none) => by cases none) score cache
  · rintro chord member cache pitches (placed | ⟨source, avoidParallels, led⟩)
    · exact place_content (faithful chord member) placed
    · exact (faithful chord member).lead led

/-- Halves of semitones have one binary place. -/
theorem writeAll_leastMotion_digits_halves :
    let seventh : Turtle Float :=
      { Turtle.initial with pitchClasses := .ofPitches [0, 4, 7.5], voicing := 5 }
    let fifth : Turtle Float :=
      { Turtle.initial with pitchClasses := .ofPitches [2.5, 9], voiceLead := true }
    (∀ chord ∈ [seventh, fifth], chord.pitchClasses.KeepsDigits chord.range) ∧
    ∀ i content pitches, ((writeAll leastMotion [seventh, fifth]).runFrom (.empty, .empty)).1 ≠
      .error (.mismatch i content pitches) := by
  intro seventh fifth
  have halves (p : Float) (k : Nat) (value : value? p = some (k / 2 : Rat)) (below : k < 24) :
      ∃ a, IsPitchClass 1 p a := by
    refine ⟨_, value, ⟨k, by norm_num [zpow_neg]; ring⟩, by positivity, ?_⟩
    rw [div_lt_iff₀ two_pos]
    exact_mod_cast below
  have voices : seventh.pitchClasses.voices = [0, 4, 7.5] := by decide +kernel
  have voices' : fifth.pitchClasses.voices = [2.5, 9] := by decide +kernel
  have digits : seventh.pitchClasses.KeepsDigits seventh.range := by
    refine ⟨1, by decide, ?_, by decide +kernel⟩
    simp only [voices, List.forall_mem_cons]
    exact ⟨halves 0 0 (by decide +kernel) (by decide), halves 4 8 (by decide +kernel) (by decide),
      halves 7.5 15 (by decide +kernel) (by decide), nofun⟩
  have digits' : fifth.pitchClasses.KeepsDigits fifth.range := by
    refine ⟨1, by decide, ?_, by decide +kernel⟩
    simp only [voices', List.forall_mem_cons]
    exact ⟨halves 2.5 5 (by decide +kernel) (by decide),
      halves 9 18 (by decide +kernel) (by decide), nofun⟩
  have both : ∀ chord ∈ [seventh, fifth], chord.pitchClasses.KeepsDigits chord.range :=
    List.forall_mem_cons.mpr ⟨digits, List.forall_mem_singleton.mpr digits'⟩
  exact ⟨both, (writeAll_leastMotion_digits [seventh, fifth] both .empty .empty).1⟩

/-- A tenth of a semitone has all its digits behind the point: an octave above it the sum is
rounded, and does not reduce to it again. -/
theorem writeAll_leastMotion_tenth :
    let tenth : Turtle Float :=
      { Turtle.initial with pitchClasses := .ofPitches [0.1], voicing := 1 }
    (∀ p ∈ tenth.pitchClasses.voices, 0 ≤ p ∧ p < 12) ∧ tenth.range = 60 ∧
    ∃ i content pitches, ((writeAll leastMotion [tenth]).runFrom (.empty, .empty)).1 =
      .error (.mismatch i content pitches) := by
  intro tenth
  refine ⟨by decide +kernel, by decide +kernel, ?_⟩
  have refused : (match ((writeAll leastMotion [tenth]).runFrom (.empty, .empty)).1 with
    | .error (.mismatch ..) => true
    | _ => false) = true := by decide +kernel
  split at refused
  · next failed => exact ⟨_, _, _, failed⟩
  · cases refused

end Turtle
end ChordGrammar
