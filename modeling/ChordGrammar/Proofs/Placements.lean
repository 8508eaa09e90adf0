import ChordGrammar.Proofs.Exact
import ChordGrammar.Voicing.Odometer

/-! Enumeration as counting. The voicings of a chord are numbered in a mixed radix whose
digits tell how many octaves each voice stands above its pitch class, the first voice
being the least significant digit; one step of the odometer adds one to the number. -/
namespace ChordGrammar

open Scalar

/-- Whether the voices stand for the pitch classes one by one, each whole octaves away
and within `[0, range]`. -/
def IsPlacement (range : Rat) (chord voices : List Rat) : Prop :=
  List.Forall₂ (fun p v => 0 ≤ v ∧ v ≤ range ∧ OctavesApart v p) chord voices

def Placeable (range : Rat) (chord : List Rat) : Prop :=
  ∀ p ∈ chord, 0 ≤ p ∧ p < 12 ∧ p ≤ range

def placements (range p : Rat) : Nat := ⌊(range - p) / 12⌋.toNat + 1

def placementCount (range : Rat) (chord : List Rat) : Nat :=
  (chord.map (placements range)).prod

/-- The placement whose octaves are the digits of a number. -/
def placementAt (range : Rat) : List Rat → Nat → List Rat
  | [], _ => []
  | p :: ps, k =>
    (p + 12 * (k % placements range p : Nat)) :: placementAt range ps (k / placements range p)

@[simp] theorem placementCount_nil (range : Rat) : placementCount range [] = 1 := rfl

@[simp] theorem placementCount_cons (range p : Rat) (ps : List Rat) :
    placementCount range (p :: ps) = placements range p * placementCount range ps := rfl

theorem placements_pos (range p : Rat) : 0 < placements range p := Nat.succ_pos _

theorem placementCount_pos (range : Rat) (chord : List Rat) : 0 < placementCount range chord := by
  induction chord with
  | nil => exact Nat.one_pos
  | cons p ps ih => exact Nat.mul_pos (placements_pos range p) ih

theorem Placeable.head {range p : Rat} {ps : List Rat} (fits : Placeable range (p :: ps)) :
    0 ≤ p ∧ p < 12 ∧ p ≤ range := fits p List.mem_cons_self

theorem Placeable.tail {range p : Rat} {ps : List Rat} (fits : Placeable range (p :: ps)) :
    Placeable range ps := fun q member => fits q (List.mem_cons_of_mem p member)

/-- A number of octaves is a digit exactly when it keeps the voice within the range. -/
theorem lt_placements_iff {range p : Rat} (inside : p ≤ range) (d : Nat) :
    d < placements range p ↔ p + 12 * d ≤ range := by
  have room : 0 ≤ ⌊(range - p) / 12⌋ := Int.floor_nonneg.mpr (by linarith)
  have digit : d < placements range p ↔ (d : Int) ≤ ⌊(range - p) / 12⌋ := by
    unfold placements
    omega
  rw [digit, Int.le_floor, le_div_iff₀ (by norm_num)]
  push_cast
  constructor <;> intro bound <;> linarith

theorem placements_eq_floor {range p : Rat} (inside : p ≤ range) :
    (placements range p : Int) = ⌊(range - p) / 12⌋ + 1 := by
  have room : 0 ≤ ⌊(range - p) / 12⌋ := Int.floor_nonneg.mpr (by linarith)
  unfold placements
  omega

/-- The least significant digit places the first voice and the others place the rest. -/
theorem placementAt_cons {range p : Rat} {d : Nat} (digit : d < placements range p)
    (ps : List Rat) (q : Nat) :
    placementAt range (p :: ps) (d + placements range p * q) =
      (p + 12 * d) :: placementAt range ps q := by
  rw [placementAt, Nat.add_mul_mod_self_left, Nat.mod_eq_of_lt digit,
    Nat.add_mul_div_left _ _ (placements_pos range p), Nat.div_eq_of_lt digit, Nat.zero_add]

theorem lt_placementCount_cons {range p : Rat} {d : Nat} (digit : d < placements range p)
    (ps : List Rat) (q : Nat) :
    d + placements range p * q < placementCount range (p :: ps) ↔ q < placementCount range ps := by
  have rest : (d + placements range p * q) / placements range p = q := by
    rw [Nat.add_mul_div_left _ _ (placements_pos range p), Nat.div_eq_of_lt digit, Nat.zero_add]
  rw [placementCount_cons, Nat.mul_comm (placements range p) (placementCount range ps),
    ← Nat.div_lt_iff_lt_mul (placements_pos range p), rest]

theorem exists_digit (range p : Rat) (k : Nat) :
    ∃ d q, d < placements range p ∧ k = d + placements range p * q :=
  ⟨_, _, Nat.mod_lt k (placements_pos range p), (Nat.mod_add_div k _).symm⟩

theorem placementAt_zero (range : Rat) (chord : List Rat) : placementAt range chord 0 = chord := by
  induction chord with
  | nil => rfl
  | cons p ps ih => simp [placementAt, ih]

theorem placementAt_isPlacement {range : Rat} {chord : List Rat} (fits : Placeable range chord)
    (k : Nat) : IsPlacement range chord (placementAt range chord k) := by
  induction chord generalizing k with
  | nil => exact .nil
  | cons p ps ih =>
    obtain ⟨nonneg, _, inside⟩ := fits.head
    obtain ⟨d, q, digit, rfl⟩ := exists_digit range p k
    rw [placementAt_cons digit]
    exact .cons ⟨by positivity, (lt_placements_iff inside d).mp digit, d, by simp⟩ (ih fits.tail q)

theorem exists_placementAt {range : Rat} {chord voices : List Rat} (fits : Placeable range chord)
    (placed : IsPlacement range chord voices) :
    ∃ k < placementCount range chord, placementAt range chord k = voices := by
  induction placed with
  | nil => exact ⟨0, Nat.one_pos, rfl⟩
  | @cons p v ps vs head _ ih =>
    obtain ⟨_, below, inside⟩ := fits.head
    obtain ⟨nonneg, within, apart⟩ := head
    obtain ⟨d, rfl⟩ := exists_octaves below nonneg apart
    have digit := (lt_placements_iff inside d).mpr within
    obtain ⟨k, bound, rfl⟩ := ih fits.tail
    exact ⟨d + placements range p * k, (lt_placementCount_cons digit ps k).mpr bound,
      placementAt_cons digit ps k⟩

theorem placementAt_injective {range : Rat} {chord : List Rat} {j k : Nat}
    (first : j < placementCount range chord) (second : k < placementCount range chord)
    (same : placementAt range chord j = placementAt range chord k) : j = k := by
  induction chord generalizing j k with
  | nil =>
    rw [placementCount_nil] at first second
    omega
  | cons p ps ih =>
    obtain ⟨c, q, small, rfl⟩ := exists_digit range p j
    obtain ⟨d, r, digit, rfl⟩ := exists_digit range p k
    rw [placementAt_cons small, placementAt_cons digit] at same
    obtain ⟨heads, tails⟩ := List.cons.inj same
    have digits : c = d := by
      exact_mod_cast mul_left_cancel₀ (by norm_num : (12 : Rat) ≠ 0) (add_left_cancel heads)
    have rests := ih ((lt_placementCount_cons small ps q).mp first)
      ((lt_placementCount_cons digit ps r).mp second) tails
    rw [digits, rests]

/-- The odometer adds one to the number of a placement, and is at its top at the last. -/
theorem increment?_placementAt {range : Rat} {chord : List Rat} (fits : Placeable range chord)
    {k : Nat} (bound : k < placementCount range chord) :
    increment? range (placementAt range chord k) =
      if k + 1 < placementCount range chord then some (placementAt range chord (k + 1))
      else none := by
  induction chord generalizing k with
  | nil =>
    rw [placementCount_nil] at bound ⊢
    rw [if_neg (by omega)]
    rfl
  | cons p ps ih =>
    obtain ⟨nonneg, below, inside⟩ := fits.head
    obtain ⟨d, q, digit, rfl⟩ := exists_digit range p k
    have raised : p + 12 * d + octave = p + 12 * (d + 1 : Nat) := by
      rw [octave_eq]
      push_cast
      ring
    rw [placementAt_cons digit, increment?, raised]
    simp only [← lt_placements_iff inside]
    by_cases room : d + 1 < placements range p
    · have next : d + placements range p * q + 1 = (d + 1) + placements range p * q := by omega
      have counted := (lt_placementCount_cons digit ps q).mp bound
      rw [if_pos room, next, if_pos ((lt_placementCount_cons room ps q).mpr counted),
        placementAt_cons room]
    · have next : d + placements range p * q + 1 = 0 + placements range p * (q + 1) := by
        rw [Nat.mul_add, Nat.mul_one]
        omega
      have reduced : pc (p + 12 * d) = p :=
        (pc_add_octaves p d).trans (pc_of_bounds nonneg below)
      have radix := placements_pos range p
      rw [if_neg room, ih fits.tail ((lt_placementCount_cons digit ps q).mp bound), reduced, next]
      simp only [lt_placementCount_cons radix, placementAt_cons radix, Nat.cast_zero, mul_zero,
        add_zero]
      split <;> rfl

/-- Climbing from a placement passes all those with a greater number and no others. -/
theorem climb_placementAt {range : Rat} {chord : List Rat} (fits : Placeable range chord)
    {fuel k : Nat} (bound : k < placementCount range chord)
    (enough : placementCount range chord ≤ k + 1 + fuel) :
    climb range fuel ((List.range (k + 1)).map (placementAt range chord)).reverse
        (placementAt range chord k) =
      ((List.range (placementCount range chord)).map (placementAt range chord)).reverse := by
  induction fuel generalizing k with
  | zero =>
    rw [show placementCount range chord = k + 1 by omega]
    rfl
  | succ fuel ih =>
    rw [climb, increment?_placementAt fits bound]
    by_cases room : k + 1 < placementCount range chord
    · have passed : placementAt range chord (k + 1) ::
          ((List.range (k + 1)).map (placementAt range chord)).reverse =
          ((List.range (k + 1 + 1)).map (placementAt range chord)).reverse := by
        rw [List.range_succ (n := k + 1), List.map_append, List.reverse_append]
        rfl
      rw [if_pos room]
      simp only [passed]
      exact ih room (by omega)
    · rw [if_neg room, show placementCount range chord = k + 1 by omega]

theorem placements_le {range p : Rat} (nonneg : 0 ≤ p) :
    placements range p ≤ units (range / (octave : Rat)) + 2 := by
  have lower : ⌊(range - p) / 12⌋ ≤ ⌊range / 12⌋ := Int.floor_le_floor (by linarith)
  have whole : units (range / (octave : Rat)) = ⌊range / 12⌋.toNat := rfl
  unfold placements
  omega

/-- The steps that are allowed suffice to reach the top. -/
theorem placementCount_le_bound {range : Rat} {chord : List Rat} (fits : Placeable range chord) :
    placementCount range chord ≤ placementBound range chord := by
  have each : ∀ n ∈ chord.map (placements range), n ≤ units (range / (octave : Rat)) + 2 := by
    intro n member
    obtain ⟨p, inChord, rfl⟩ := List.mem_map.mp member
    exact placements_le (fits p inChord).1
  have product := List.prod_le_pow_card _ _ each
  rwa [List.length_map] at product

theorem decrement?_of_lt {range : Rat} {chord : List Rat} (below : ∀ p ∈ chord, p < 12) :
    decrement? range chord = none := by
  rw [decrement?_eq_none_iff]
  intro p member room
  rw [zero_eq, octave_eq] at room
  linarith [below p member]

theorem descend_of_lt {range : Rat} {chord : List Rat} (below : ∀ p ∈ chord, p < 12) (fuel : Nat)
    (bottom : List Rat) : descend range fuel bottom chord = bottom := by
  cases fuel with
  | zero => rfl
  | succ fuel => rw [descend, decrement?_of_lt below]

theorem enumerate_eq {range : Rat} {chord : List Rat} (fits : Placeable range chord) :
    enumerate range chord =
      (List.range (placementCount range chord)).map (placementAt range chord) := by
  have enough := placementCount_le_bound fits
  have climbed := climb_placementAt fits (placementCount_pos range chord)
    (show _ ≤ 0 + 1 + placementBound range chord by omega)
  rw [placementAt_zero] at climbed
  rw [enumerate, descend_of_lt fun p member => (fits p member).2.1]
  rw [show [chord] = ((List.range (0 + 1)).map (placementAt range chord)).reverse by
    simp [placementAt_zero], climbed, List.reverse_reverse]

theorem length_enumerate {range : Rat} {chord : List Rat} (fits : Placeable range chord) :
    (enumerate range chord).length = placementCount range chord := by
  rw [enumerate_eq fits, List.length_map, List.length_range]

theorem getElem_enumerate {range : Rat} {chord : List Rat} (fits : Placeable range chord)
    {k : Nat} (bound : k < (enumerate range chord).length) :
    (enumerate range chord)[k] = placementAt range chord k := by
  simp only [enumerate_eq fits, List.getElem_map, List.getElem_range]

theorem mem_enumerate {range : Rat} {chord voices : List Rat} (fits : Placeable range chord) :
    voices ∈ enumerate range chord ↔ IsPlacement range chord voices := by
  rw [enumerate_eq fits, List.mem_map]
  constructor
  · rintro ⟨k, _, rfl⟩
    exact placementAt_isPlacement fits k
  · intro placed
    obtain ⟨k, bound, same⟩ := exists_placementAt fits placed
    exact ⟨k, List.mem_range.mpr bound, same⟩

theorem nodup_enumerate {range : Rat} {chord : List Rat} (fits : Placeable range chord) :
    (enumerate range chord).Nodup := by
  rw [enumerate_eq fits]
  refine List.Nodup.map_on ?_ List.nodup_range
  intro j first k second same
  exact placementAt_injective (List.mem_range.mp first) (List.mem_range.mp second) same

theorem increment?_enumerate {range : Rat} {chord : List Rat} (fits : Placeable range chord)
    {k : Nat} (bound : k < (enumerate range chord).length) :
    increment? range (enumerate range chord)[k] = (enumerate range chord)[k + 1]? := by
  rw [getElem_enumerate fits bound]
  rw [length_enumerate fits] at bound
  rw [increment?_placementAt fits bound, enumerate_eq fits, List.getElem?_map]
  split
  · next room => rw [List.getElem?_range room]; rfl
  · next top => rw [List.getElem?_eq_none (by rw [List.length_range]; omega)]; rfl

theorem IsPlacement.le_top {range : Rat} {chord voices top : List Rat}
    (placed : IsPlacement range chord voices) (highest : IsPlacement range chord top)
    (full : increment? range top = none) : List.Forall₂ (· ≤ ·) voices top := by
  rw [increment?_eq_none_iff] at full
  induction placed generalizing top with
  | nil => cases highest; exact .nil
  | @cons p v ps vs head _ ih =>
    cases highest with
    | @cons _ w _ ws other rest =>
      refine .cons ?_ (ih rest fun u member => full u (List.mem_cons_of_mem w member))
      have noRoom := full w List.mem_cons_self
      rw [octave_eq] at noRoom
      exact (head.2.2.trans other.2.2.symm).le (by linarith [head.2.1])

end ChordGrammar
