import ChordGrammar.Proofs.Placements

/-! Turning the odometer back. A step up and a step down differ in nothing but the direction:
one voice moves by an octave, and the voices before it go between their highest and their
lowest placement. The lowest is what reduction leaves and the highest is found by division, but
either is the only one with no room on its side, so one relation describes both steps within
every range. -/
namespace ChordGrammar

open Scalar

variable {range : Rat}

/-- The division counts the octaves that fit above the pitch class. -/
theorem highestPlacement_eq_add {pitch : Rat} (fits : pc pitch ≤ range) :
    highestPlacement range pitch = pc pitch + 12 * ⌊(range - pc pitch) / 12⌋ := by
  have octaves : (0 : Rat) ≤ ⌊(range - pc pitch) / 12⌋ := by
    exact_mod_cast Int.floor_nonneg.mpr (by linarith)
  have counted : highestPlacement range pitch =
      pc pitch + (if (0 : Rat) < ⌊(range - pc pitch) / 12⌋
        then (⌊(range - pc pitch) / 12⌋ : Rat) else 0) * 12 := rfl
  rw [counted]
  split
  · ring
  · next none => linarith

/-- Whether a placement within the range has no room above. -/
structure IsHighest (range pitch : Rat) : Prop where
  nonneg : 0 ≤ pitch
  within : pitch ≤ range
  full : range < pitch + 12

theorem highestPlacement_isHighest {pitch : Rat} (fits : pc pitch ≤ range) :
    IsHighest range (highestPlacement range pitch) := by
  have below := Int.floor_le ((range - pc pitch) / 12)
  have above := Int.lt_floor_add_one ((range - pc pitch) / 12)
  have octaves : (0 : Rat) ≤ ⌊(range - pc pitch) / 12⌋ := by
    exact_mod_cast Int.floor_nonneg.mpr (by linarith)
  have reduced := pc_nonneg pitch
  rw [highestPlacement_eq_add fits]
  constructor <;> linarith

theorem highestPlacement_octavesApart {pitch : Rat} (fits : pc pitch ≤ range) :
    OctavesApart (highestPlacement range pitch) pitch := by
  rw [highestPlacement_eq_add fits]
  exact OctavesApart.trans ⟨⌊(range - pc pitch) / 12⌋, by ring⟩ (pc_octavesApart pitch).symm

theorem IsHighest.unique {high other : Rat} (highest : IsHighest range high)
    (highest' : IsHighest range other) (apart : OctavesApart high other) : high = other := by
  apply le_antisymm
  · exact apart.le (by linarith [highest.within, highest'.full])
  · exact apart.symm.le (by linarith [highest'.within, highest.full])

/-- One turn of the odometer, which is a step up and, read backward, a step down. -/
inductive Turn (range : Rat) : List Rat → List Rat → Prop where
  | move {v : Rat} {vs : List Rat} (nonneg : 0 ≤ v) (room : v + 12 ≤ range) :
      Turn range (v :: vs) ((v + 12) :: vs)
  | carry {high low : Rat} {vs ws : List Rat} (highest : IsHighest range high) (nonneg : 0 ≤ low)
      (lowest : low < 12) (apart : OctavesApart high low) (later : Turn range vs ws) :
      Turn range (high :: vs) (low :: ws)

variable {vs ws : List Rat}

theorem Turn.map_pc (turn : Turn range vs ws) : ws.map pc = vs.map pc := by
  induction turn with
  | @move v vs =>
    have raised := pc_add_octaves v 1
    rw [Int.cast_one, mul_one] at raised
    rw [List.map_cons, List.map_cons, raised]
  | carry _ _ _ apart _ ih =>
    rw [List.map_cons, List.map_cons, ih, pc_eq_pc_iff.mpr apart]

theorem Turn.within_iff (turn : Turn range vs ws) :
    (∀ v ∈ vs, 0 ≤ v ∧ v ≤ range) ↔ ∀ w ∈ ws, 0 ≤ w ∧ w ≤ range := by
  induction turn with
  | @move v vs nonneg room =>
    have before : 0 ≤ v ∧ v ≤ range := ⟨nonneg, by linarith⟩
    have after : 0 ≤ v + 12 ∧ v + 12 ≤ range := ⟨by linarith, room⟩
    rw [List.forall_mem_cons, List.forall_mem_cons, and_iff_right before, and_iff_right after]
  | @carry high low vs ws highest nonneg _ apart _ ih =>
    have before : 0 ≤ high ∧ high ≤ range := ⟨highest.nonneg, highest.within⟩
    have after : 0 ≤ low ∧ low ≤ range := by
      refine ⟨nonneg, le_trans (apart.symm.le ?_) highest.within⟩
      linarith [highest.nonneg]
    rw [List.forall_mem_cons, List.forall_mem_cons, and_iff_right before, and_iff_right after, ih]

/-- The induction follows the carry, over the voices that fall to the bottom. -/
theorem increment?_eq_some_iff (inside : ∀ v ∈ vs, 0 ≤ v ∧ v ≤ range) :
    increment? range vs = some ws ↔ Turn range vs ws := by
  induction vs generalizing ws with
  | nil => exact iff_of_false nofun nofun
  | cons v vs ih =>
    obtain ⟨⟨nonneg, within⟩, others⟩ := List.forall_mem_cons.mp inside
    rw [increment?, octave_eq]
    split
    · next room =>
      constructor
      · rintro ⟨⟩
        exact .move nonneg room
      · intro turn
        cases turn with
        | move => rfl
        | carry highest => exact absurd room highest.full.not_ge
    · next full =>
      have highest : IsHighest range v := ⟨nonneg, within, not_le.mp full⟩
      rw [Option.map_eq_some_iff]
      constructor
      · rintro ⟨us, up, rfl⟩
        exact .carry highest (pc_nonneg v) (pc_lt v) (pc_octavesApart v) ((ih others).mp up)
      · intro turn
        cases turn with
        | move _ room => exact absurd room full
        | carry _ nonneg lowest apart later =>
          refine ⟨_, (ih others).mpr later, ?_⟩
          rw [pc_eq_pc_iff.mpr apart, pc_of_bounds nonneg lowest]

/-- The induction follows the borrowing, over the voices that go to the top. -/
theorem decrement?_eq_some_iff (inside : ∀ w ∈ ws, 0 ≤ w ∧ w ≤ range) :
    decrement? range ws = some vs ↔ Turn range vs ws := by
  induction ws generalizing vs with
  | nil => exact iff_of_false nofun nofun
  | cons w ws ih =>
    obtain ⟨⟨nonneg, within⟩, others⟩ := List.forall_mem_cons.mp inside
    rw [decrement?, octave_eq, zero_eq]
    split
    · next room =>
      constructor
      · rintro ⟨⟩
        have raised : w - 12 + 12 = w := sub_add_cancel w 12
        have turn : Turn range ((w - 12) :: ws) ((w - 12 + 12) :: ws) :=
          .move room (raised.trans_le within)
        rwa [raised] at turn
      · intro turn
        cases turn with
        | move => rw [add_sub_cancel_right]
        | carry _ _ lowest => exact absurd room (by linarith)
    · next bottom =>
      have lowest : w < 12 := by linarith
      have reduced : pc w = w := pc_of_bounds nonneg lowest
      have fits : pc w ≤ range := reduced.trans_le within
      rw [Option.map_eq_some_iff]
      constructor
      · rintro ⟨us, down, rfl⟩
        exact .carry (highestPlacement_isHighest fits) nonneg lowest
          (highestPlacement_octavesApart fits) ((ih others).mp down)
      · intro turn
        cases turn with
        | move above => exact absurd above (by linarith)
        | carry highest _ _ apart later =>
          refine ⟨_, (ih others).mpr later, ?_⟩
          rw [(highestPlacement_isHighest fits).unique highest
            ((highestPlacement_octavesApart fits).trans apart.symm)]

/-- Either step undoes the other and keeps to the pitch classes and to the range. The odometer
is at its top when every voice is less than an octave below the end of the range, and at its
bottom when every voice is below the first octave. -/
theorem increment?_decrement?_inverse (inside : ∀ v ∈ vs, 0 ≤ v ∧ v ≤ range) :
    (∀ ws, increment? range vs = some ws →
      (∀ w ∈ ws, 0 ≤ w ∧ w ≤ range) ∧ ws.map pc = vs.map pc ∧ decrement? range ws = some vs) ∧
    (∀ us, decrement? range vs = some us →
      (∀ u ∈ us, 0 ≤ u ∧ u ≤ range) ∧ us.map pc = vs.map pc ∧ increment? range us = some vs) ∧
    (increment? range vs = none ↔ ∀ v ∈ vs, range < v + 12) ∧
    (decrement? range vs = none ↔ ∀ v ∈ vs, v < 12) := by
  refine ⟨fun ws up => ?_, fun us down => ?_, ?_, ?_⟩
  · have turn := (increment?_eq_some_iff inside).mp up
    have within := turn.within_iff.mp inside
    exact ⟨within, turn.map_pc, (decrement?_eq_some_iff within).mpr turn⟩
  · have turn := (decrement?_eq_some_iff inside).mp down
    have within := turn.within_iff.mpr inside
    exact ⟨within, turn.map_pc.symm, (increment?_eq_some_iff within).mpr turn⟩
  · simp only [increment?_eq_none_iff, octave_eq, not_le]
  · simp only [decrement?_eq_none_iff, octave_eq, zero_eq, not_le, sub_neg]

/-- The range coincides with the highest placement of the first voice, and the carry goes
through two voices. -/
theorem increment?_decrement?_inverse_carry :
    let range : Rat := 49 / 2
    let voicing : List Rat := [49 / 2, 16, 7]
    let next : List Rat := [1 / 2, 4, 19]
    (∀ v ∈ voicing, 0 ≤ v ∧ v ≤ range) ∧ increment? range voicing = some next ∧
      decrement? range next = some voicing ∧ next.map pc = voicing.map pc := by
  intro range voicing next
  have inside : ∀ v ∈ voicing, 0 ≤ v ∧ v ≤ range := by decide +kernel
  have up : increment? range voicing = some next := by decide +kernel
  obtain ⟨-, same, down⟩ := (increment?_decrement?_inverse inside).1 next up
  exact ⟨inside, up, down, same⟩

end ChordGrammar
