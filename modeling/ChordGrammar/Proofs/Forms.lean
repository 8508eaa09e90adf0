import ChordGrammar.Proofs.Exact

/-! T, I, K and Q in exact arithmetic. Transpositions and inversions compose as the
maps of pitches do, up to octaves. A scan by a divisor of the octave meets every multiple
of it up to octaves, so Q is decided by forms alone and moves along when the chord and the
stabilizer are transposed together. -/
namespace ChordGrammar

theorem OctavesApart.add_right {x y : Rat} (apart : OctavesApart x y) (n : Rat) :
    OctavesApart (x + n) (y + n) := by
  obtain ⟨k, apart⟩ := apart
  exact ⟨k, by linarith⟩

theorem OctavesApart.sub_left {x y : Rat} (apart : OctavesApart x y) (n : Rat) :
    OctavesApart (n - x) (n - y) := by
  obtain ⟨k, apart⟩ := apart
  exact ⟨-k, by push_cast; linarith⟩

theorem pc_pc_add (x n : Rat) : pc (pc x + n) = pc (x + n) :=
  pc_eq_pc_iff.mpr ((pc_octavesApart x).symm.add_right n)

theorem pc_sub_pc (n x : Rat) : pc (n - pc x) = pc (n - x) :=
  pc_eq_pc_iff.mpr ((pc_octavesApart x).symm.sub_left n)

namespace PitchClassSet

section

variable (s t : PitchClassSet Rat)

theorem map_congr {f g : Rat → Rat} (same : ∀ p, pc (f p) = pc (g p)) : s.map f = s.map g := by
  apply PitchClassSet.ext
  rw [voices_map, voices_map]
  exact List.map_congr_left fun p _ => same p

theorem map_map {f g h : Rat → Rat} (same : ∀ p, pc (g (pc (f p))) = pc (h p)) :
    (s.map f).map g = s.map h := by
  apply PitchClassSet.ext
  rw [voices_map, voices_map, voices_map, List.map_map]
  exact List.map_congr_left fun p _ => same p

theorem transpose_transpose (m n : Rat) : (s.transpose m).transpose n = s.transpose (m + n) :=
  map_map s fun p => (pc_pc_add (p + m) n).trans (congrArg pc (add_assoc p m n))

theorem transpose_comm (m n : Rat) :
    (s.transpose m).transpose n = (s.transpose n).transpose m := by
  rw [transpose_transpose, transpose_transpose, add_comm]

theorem transpose_invert (n m : Rat) : (s.transpose n).invert m = s.invert (m - n) :=
  map_map s fun p => (pc_sub_pc m (p + n)).trans (congrArg pc (by ring))

theorem invert_transpose (m n : Rat) : (s.invert m).transpose n = s.invert (m + n) :=
  map_map s fun p => (pc_pc_add (m - p) n).trans (congrArg pc (by ring))

theorem invert_invert (m n : Rat) : (s.invert m).invert n = s.transpose (n - m) :=
  map_map s fun p => (pc_sub_pc n (m - p)).trans (congrArg pc (by ring))

theorem transpose_congr {m n : Rat} (apart : OctavesApart m n) : s.transpose m = s.transpose n := by
  refine s.map_congr fun p => pc_eq_pc_iff.mpr ?_
  obtain ⟨k, apart⟩ := apart
  exact ⟨k, by linarith⟩

theorem invert_congr {m n : Rat} (apart : OctavesApart m n) : s.invert m = s.invert n := by
  refine s.map_congr fun p => pc_eq_pc_iff.mpr ?_
  obtain ⟨k, apart⟩ := apart
  exact ⟨k, by linarith⟩

theorem transpose_zero : s.transpose 0 = s := by
  apply PitchClassSet.ext
  simp only [transpose, voices_map, add_zero, map_pc_voices]

theorem transpose_neg_cancel (n : Rat) : (s.transpose n).transpose (-n) = s := by
  rw [transpose_transpose, add_neg_cancel, transpose_zero]

theorem map_perm {α : Type} [Scalar α] {s t : PitchClassSet α} (same : s.voices.Perm t.voices)
    (f : α → α) : (s.map f).voices.Perm (t.map f).voices := by
  rw [voices_map, voices_map]
  exact same.map _

theorem transpose_perm {α : Type} [Scalar α] {s t : PitchClassSet α}
    (same : s.voices.Perm t.voices) (n : α) : (s.transpose n).voices.Perm (t.transpose n).voices :=
  map_perm same (· + n)

theorem sameContent_transpose (n : Rat) :
    (s.transpose n).sameContent (t.transpose n) = s.sameContent t := by
  rw [Bool.eq_iff_iff, sameContent_iff, sameContent_iff]
  refine ⟨fun same => ?_, fun same => transpose_perm same n⟩
  have back := transpose_perm same (-n)
  rwa [transpose_neg_cancel, transpose_neg_cancel] at back

theorem sameContent_invert (n : Rat) : (s.invert n).sameContent (t.invert n) = s.sameContent t := by
  rw [Bool.eq_iff_iff, sameContent_iff, sameContent_iff]
  refine ⟨fun same => ?_, fun same => map_perm same (n - ·)⟩
  have back : ((s.invert n).invert n).voices.Perm ((t.invert n).invert n).voices :=
    map_perm same (n - ·)
  rwa [invert_invert, invert_invert, sub_self, transpose_zero, transpose_zero] at back

end

theorem anyStep_iff {generator : Rat} (positive : 0 < generator) (accepts : Rat → Bool)
    (fuel : Nat) (n : Rat) :
    anyStep generator accepts fuel n = true ↔
      ∃ j < fuel, n + j * generator < 12 ∧ accepts (n + j * generator) = true := by
  induction fuel generalizing n with
  | zero => simp [anyStep]
  | succ fuel ih =>
    have next (j : Nat) : n + generator + j * generator = n + (j + 1 : Nat) * generator := by
      push_cast
      ring
    simp only [anyStep, Bool.and_eq_true, Bool.or_eq_true, decide_eq_true_eq]
    constructor
    · rintro ⟨below, here | later⟩
      · exact ⟨0, Nat.succ_pos fuel, by simpa using below, by simpa using here⟩
      · obtain ⟨j, bound, inside, found⟩ := (ih (n + generator)).mp later
        rw [next] at inside found
        exact ⟨j + 1, Nat.succ_lt_succ bound, inside, found⟩
    · rintro ⟨j, bound, inside, found⟩
      have steps : 0 ≤ j * generator := by positivity
      refine ⟨lt_of_le_of_lt (le_add_of_nonneg_right steps) inside, ?_⟩
      cases j with
      | zero => exact .inl (by simpa using found)
      | succ j =>
        rw [← next] at inside found
        exact .inr ((ih (n + generator)).mpr ⟨j, Nat.lt_of_succ_lt_succ bound, inside, found⟩)

theorem anyMultiple_iff {generator : Rat} (positive : 0 < generator) (accepts : Rat → Bool) :
    anyMultiple generator accepts = true ↔
      ∃ j : Nat, j * generator < 12 ∧ accepts (j * generator) = true := by
  unfold anyMultiple
  rw [Bool.and_eq_true, decide_eq_true_eq, anyStep_iff positive]
  constructor
  · rintro ⟨-, j, -, inside, found⟩
    rw [zero_eq, zero_add] at inside found
    exact ⟨j, inside, found⟩
  · rintro ⟨j, inside, found⟩
    refine ⟨positive, j, ?_, ?_, ?_⟩
    · have whole : (j : Int) ≤ ⌊(12 : Rat) / generator⌋ :=
        Int.le_floor.mpr ((le_div_iff₀ positive).mpr (by exact_mod_cast inside.le))
      show j < (⌊(12 : Rat) / generator⌋).toNat + 2
      omega
    · rwa [zero_eq, zero_add]
    · rwa [zero_eq, zero_add]

/-- The multiples of a divisor of the octave are those below the octave, up to octaves. -/
theorem exists_multiple_below {g : Nat} (divides : g ∣ 12) (k : Int) :
    ∃ j : Nat, (j * g : Rat) < 12 ∧ OctavesApart (j * g : Rat) (k * g : Rat) := by
  obtain ⟨q, octave⟩ := divides
  have positive : 0 < g ∧ 0 < q := CanonicallyOrderedAdd.mul_pos.mp (by omega)
  have size : (12 : Rat) = g * q := by exact_mod_cast octave
  have steps : (0 : Int) < q := by exact_mod_cast positive.2
  obtain ⟨j, remainder⟩ := Int.eq_ofNat_of_zero_le (Int.emod_nonneg k steps.ne')
  have below : j < q := by
    have bound := Int.emod_lt_of_pos k steps
    rw [remainder] at bound
    exact_mod_cast bound
  refine ⟨j, ?_, -(k / q), ?_⟩
  · have below : (j : Rat) < q := by exact_mod_cast below
    rw [size, mul_comm (g : Rat)]
    exact mul_lt_mul_of_pos_right below (by exact_mod_cast positive.1)
  · have parts : (j : Rat) + q * (k / q : Int) = k := by
      have parts := Int.emod_add_mul_ediv k q
      rw [remainder] at parts
      exact_mod_cast parts
    rw [size, ← parts]
    push_cast
    ring

/-- A scan by a divisor of the octave decides whether any multiple is accepted, if octaves
do not count. -/
theorem anyMultiple_iff_of_periodic {g : Nat} (divides : g ∣ 12) {accepts : Rat → Bool}
    (periodic : ∀ m n, OctavesApart m n → accepts m = accepts n) :
    anyMultiple (g : Rat) accepts = true ↔ ∃ k : Int, accepts (k * g) = true := by
  have positive : 0 < g := Nat.pos_of_dvd_of_pos divides (by decide)
  rw [anyMultiple_iff (by exact_mod_cast positive)]
  constructor
  · rintro ⟨j, -, found⟩
    exact ⟨j, found⟩
  · rintro ⟨k, found⟩
    obtain ⟨j, below, apart⟩ := exists_multiple_below divides k
    exact ⟨j, below, (periodic _ _ apart).trans found⟩

section

variable (s t : PitchClassSet Rat)

/-- T-forms keep under a common transposition, whatever the generator: the same
transpositions match. -/
theorem isTForm_transpose (generator n : Rat) :
    (s.transpose n).isTForm generator (t.transpose n) = s.isTForm generator t := by
  unfold isTForm
  congr 1
  funext m
  rw [transpose_comm, sameContent_transpose]

theorem isTForm_iff {g : Nat} (divides : g ∣ 12) :
    s.isTForm (g : Rat) t = true ↔ ∃ k : Int, (t.transpose (k * g : Rat)).sameContent s = true :=
  anyMultiple_iff_of_periodic divides fun _ _ apart =>
    congrArg (sameContent · s) (transpose_congr t apart)

theorem isIForm_iff {g : Nat} (divides : g ∣ 12) :
    s.isIForm (g : Rat) t = true ↔ ∃ k : Int, (t.invert (k * g : Rat)).sameContent s = true :=
  anyMultiple_iff_of_periodic divides fun _ _ apart =>
    congrArg (sameContent · s) (invert_congr t apart)

/-- The axes that match move by twice the transposition, which has to be a multiple of
the generator again. -/
theorem isIForm_transpose {g : Nat} (divides : g ∣ 12) (m : Int) :
    (s.transpose (m * g : Rat)).isIForm (g : Rat) (t.transpose (m * g : Rat)) =
      s.isIForm (g : Rat) t := by
  have moved (k : Int) :
        ((t.transpose (m * g : Rat)).invert (k * g : Rat)).sameContent (s.transpose (m * g : Rat)) =
      (t.invert ((k - 2 * m : Int) * g : Rat)).sameContent s := by
    rw [transpose_invert, ← sameContent_transpose (t.invert _) s (m * g), invert_transpose]
    congr 2
    push_cast
    ring
  rw [Bool.eq_iff_iff, isIForm_iff _ _ divides, isIForm_iff _ _ divides]
  constructor
  · rintro ⟨k, found⟩
    exact ⟨k - 2 * m, (moved k).symm.trans found⟩
  · rintro ⟨k, found⟩
    refine ⟨k + 2 * m, (moved (k + 2 * m)).trans ?_⟩
    rwa [add_sub_cancel_right]

theorem contextualTranspose?_transpose {g : Nat} (divides : g ∣ 12) (m : Int) (n : Rat) :
    (s.transpose (m * g : Rat)).contextualTranspose? (g : Rat) (t.transpose (m * g : Rat)) n =
      (s.contextualTranspose? (g : Rat) t n).map (transpose (m * g : Rat)) := by
  unfold contextualTranspose?
  rw [isTForm_transpose, isIForm_transpose s t divides]
  cases s.isTForm (g : Rat) t
  · cases s.isIForm (g : Rat) t
    · rfl
    · exact congrArg some (transpose_comm s _ _)
  · exact congrArg some (transpose_comm s _ _)

/-- K commutes with a map of pitches along which its axis moves as the inversion does. -/
theorem exchange?_map {f : Rat → Rat}
    (axis : ∀ first second : Rat,
      (s.map f).invert (pc (f first) + pc (f second)) = (s.invert (first + second)).map f) :
    (s.map f).exchange? = s.exchange?.map (map f) := by
  unfold exchange?
  rw [voices_map]
  match s.voices with
  | [] | [_] => rfl
  | first :: second :: _ => exact congrArg some (axis first second)

theorem exchange?_transpose (n : Rat) :
    (s.transpose n).exchange? = s.exchange?.map (transpose n) := by
  refine s.exchange?_map fun first second => ?_
  have axis : OctavesApart (pc (first + n) + pc (second + n) - n) (first + second + n) := by
    obtain ⟨a, lowered⟩ := pc_octavesApart (first + n)
    obtain ⟨b, other⟩ := pc_octavesApart (second + n)
    exact ⟨-(a + b), by push_cast; linarith⟩
  calc (s.transpose n).invert (pc (first + n) + pc (second + n))
      = s.invert (pc (first + n) + pc (second + n) - n) := transpose_invert s n _
    _ = s.invert (first + second + n) := s.invert_congr axis
    _ = (s.invert (first + second)).transpose n := (invert_transpose s (first + second) n).symm

theorem exchange?_invert (n : Rat) : (s.invert n).exchange? = s.exchange?.map (invert n) := by
  refine s.exchange?_map fun first second => ?_
  have axis : OctavesApart (pc (n - first) + pc (n - second) - n) (n - (first + second)) := by
    obtain ⟨a, lowered⟩ := pc_octavesApart (n - first)
    obtain ⟨b, other⟩ := pc_octavesApart (n - second)
    exact ⟨-(a + b), by push_cast; linarith⟩
  calc (s.invert n).invert (pc (n - first) + pc (n - second))
      = s.transpose (pc (n - first) + pc (n - second) - n) := invert_invert s n _
    _ = s.transpose (n - (first + second)) := s.transpose_congr axis
    _ = (s.invert (first + second)).invert n := (invert_invert s (first + second) n).symm

end

end PitchClassSet
end ChordGrammar
