import ChordGrammar.Oracle.LeastMotion
import ChordGrammar.Proofs.Voicings

/-! Leading voices by least motion. Sorted voices are paired from the bottom up, and no
other pairing of the same voices moves less, so the nearest sorted voicing is nearest
under every assignment of voices. -/
namespace ChordGrammar

open Scalar

/-- The summed distances of voices paired in order. -/
def gap (source target : List Rat) : Rat :=
  (List.zipWith (fun s t => |t - s|) source target).sum

@[simp] theorem gap_cons (s t : Rat) (source target : List Rat) :
    gap (s :: source) (t :: target) = |t - s| + gap source target := rfl

theorem gap_self (pitches : List Rat) : gap pitches pitches = 0 := by
  simp [gap, List.zipWith_self]

theorem gap_nonneg (source target : List Rat) : 0 ≤ gap source target := by
  induction source generalizing target with
  | nil => exact le_refl 0
  | cons s source ih =>
    cases target with
    | nil => exact le_refl 0
    | cons t target =>
      rw [gap_cons]
      exact add_nonneg (abs_nonneg _) (ih target)

theorem eq_of_gap_nonpos {source target : List Rat} (paired : source.length = target.length)
    (near : gap source target ≤ 0) : source = target := by
  induction source generalizing target with
  | nil => exact (List.length_eq_zero_iff.mp paired.symm).symm
  | cons s source ih =>
    cases target with
    | nil => cases paired
    | cons t target =>
      rw [gap_cons] at near
      have first := abs_nonneg (t - s)
      have others := gap_nonneg source target
      have still : t - s = 0 := abs_nonpos_iff.mp (by linarith)
      rw [sub_eq_zero.mp still, ih (Nat.succ.inj paired) (by linarith)]

theorem total_eq_sum (as : List Rat) : total as = as.sum := by
  have folded (start : Rat) : as.foldl (· + ·) start = start + as.sum := by
    induction as generalizing start with
    | nil => simp
    | cons a as ih => rw [List.foldl_cons, ih, List.sum_cons, add_assoc]
  exact (folded 0).trans (zero_add _)

theorem motion_eq_gap {source target : List Rat} (paired : source.length = target.length) :
    motion source target = gap source target := by
  rw [motion, if_pos paired, total_eq_sum]
  simp only [magnitude_eq]
  rfl

/-- Uncrossing two pairs does not lengthen them. -/
theorem uncross_le {a a' c b : Rat} (lower : a ≤ a') (upper : c ≤ b) :
    |c - a| + |b - a'| ≤ |b - a| + |c - a'| := by
  rcases abs_cases (c - a) with first | first <;> rcases abs_cases (b - a') with second | second <;>
    rcases abs_cases (b - a) with third | third <;> rcases abs_cases (c - a') with fourth | fourth <;>
    linarith

theorem gap_insertSorted_le {source target : List Rat} (t : Rat)
    (sorted : source.Pairwise (· ≤ ·)) (paired : source.length = target.length + 1) :
    gap source (insertSorted t target) ≤ gap source (t :: target) := by
  induction target generalizing source with
  | nil => exact le_refl _
  | cons u target ih =>
    unfold insertSorted
    split
    · exact le_refl _
    · next after =>
      have before : u ≤ t := le_of_not_ge (mt sortsBefore_iff.mpr after)
      obtain _ | ⟨s, _ | ⟨s', source⟩⟩ := source
      · simp at paired
      · simp at paired
      · obtain ⟨least, rest⟩ := List.pairwise_cons.mp sorted
        have shorter := ih rest (by simpa using paired)
        have exchanged := uncross_le (least s' List.mem_cons_self) before
        simp only [gap_cons] at shorter ⊢
        linarith

theorem gap_sort_le {source target : List Rat} (sorted : source.Pairwise (· ≤ ·))
    (paired : source.length = target.length) : gap source (sort target) ≤ gap source target := by
  induction target generalizing source with
  | nil => exact le_refl _
  | cons t target ih =>
    obtain _ | ⟨s, source⟩ := source
    · simp at paired
    · have length : source.length = target.length := by simpa using paired
      have shorter := ih (List.pairwise_cons.mp sorted).2 length
      have longer : (s :: source).length = (sort target).length + 1 := by
        rw [length_sort, List.length_cons, length]
      calc gap (s :: source) (sort (t :: target))
          ≤ gap (s :: source) (t :: sort target) := gap_insertSorted_le t sorted longer
        _ ≤ gap (s :: source) (t :: target) := by
            rw [gap_cons, gap_cons]
            linarith

theorem gap_le_of_pairs (pairs : List (Rat × Rat)) :
    gap (sort (pairs.map Prod.fst)) (sort (pairs.map Prod.snd)) ≤
      (pairs.map fun pair => |pair.2 - pair.1|).sum := by
  let ordered := pairs.mergeSort fun p q => decide (p.1 ≤ q.1)
  have same : ordered.Perm pairs := List.mergeSort_perm pairs _
  have sorted : (ordered.map Prod.fst).Pairwise (· ≤ ·) := by
    rw [List.pairwise_map]
    have order : ordered.Pairwise fun p q => decide (p.1 ≤ q.1) = true := by
      apply List.pairwise_mergeSort
      · intro p q r first second
        simp only [decide_eq_true_eq] at first second ⊢
        exact first.trans second
      · intro p q
        simpa using le_total p.1 q.1
    exact order.imp of_decide_eq_true
  have lower : sort (pairs.map Prod.fst) = ordered.map Prod.fst := by
    rw [← sort_of_sorted sorted]
    exact sort_eq_sort_iff.mpr (same.map Prod.fst).symm
  have upper : sort (pairs.map Prod.snd) = sort (ordered.map Prod.snd) :=
    sort_eq_sort_iff.mpr (same.map Prod.snd).symm
  calc gap (sort (pairs.map Prod.fst)) (sort (pairs.map Prod.snd))
      ≤ gap (ordered.map Prod.fst) (ordered.map Prod.snd) := by
        rw [lower, upper]
        exact gap_sort_le sorted (by rw [List.length_map, List.length_map])
    _ = (ordered.map fun pair => |pair.2 - pair.1|).sum := by
        rw [gap, List.zipWith_map, List.zipWith_self]
    _ = (pairs.map fun pair => |pair.2 - pair.1|).sum := (same.map _).sum_eq

/-- No assignment of target voices to source voices moves less than the sorted one. -/
theorem gap_le_of_assignment (source target : List Rat)
    (assigned : Fin source.length ≃ Fin target.length) :
    gap (sort source) (sort target) ≤ ∑ i, |source[i] - target[assigned i]| := by
  let pairs := (List.finRange source.length).map fun i => (source[i], target[assigned i])
  have lower : pairs.map Prod.fst = source := by
    simp [pairs, Function.comp_def]
  have permuted : ((List.finRange source.length).map assigned).Perm (List.finRange target.length) := by
    refine (List.perm_ext_iff_of_nodup ?_ (List.nodup_finRange _)).mpr fun j => ?_
    · exact (List.nodup_finRange _).map assigned.injective
    · simp only [List.mem_map, List.mem_finRange, true_and, iff_true]
      exact assigned.surjective j
  have upper : (pairs.map Prod.snd).Perm target := by
    have listed := permuted.map fun j => target[j]
    simpa [pairs, Function.comp_def] using listed
  have bound := gap_le_of_pairs pairs
  rw [lower, sort_eq_sort_iff.mpr upper] at bound
  refine bound.trans (le_of_eq ?_)
  rw [List.map_map, Fin.sum_univ_def]
  simp only [Function.comp_def, abs_sub_comm]

/-- Whether an element is the first of the least distant among the eligible ones. -/
def FirstLeast {β : Type} (distance : β → Rat) (eligible : β → Prop) (bs : List β) (b : β) : Prop :=
  ∃ before after, bs = before ++ b :: after ∧ eligible b ∧
    (∀ a ∈ before, eligible a → distance b < distance a) ∧
    ∀ a ∈ after, eligible a → distance b ≤ distance a

section

variable {β : Type} {distance : β → Rat} {eligible : β → Prop}

theorem FirstLeast.mem {bs : List β} {b : β}
    (chosen : FirstLeast distance eligible bs b) : b ∈ bs := by
  obtain ⟨before, after, rfl, -⟩ := chosen
  simp

theorem FirstLeast.least {bs : List β} {b : β}
    (chosen : FirstLeast distance eligible bs b) {a : β} (member : a ∈ bs) (fits : eligible a) :
    distance b ≤ distance a := by
  obtain ⟨before, after, rfl, -, strict, least⟩ := chosen
  rcases List.mem_append.mp member with member | member
  · exact (strict a member fits).le
  · rcases List.mem_cons.mp member with rfl | member
    · exact le_refl _
    · exact least a member fits

theorem FirstLeast.cons {bs : List β} {b first : β} (chosen : FirstLeast distance eligible bs b)
    (farther : eligible first → distance b < distance first) :
    FirstLeast distance eligible (first :: bs) b := by
  obtain ⟨before, after, rfl, fits, strict, least⟩ := chosen
  refine ⟨first :: before, after, rfl, fits, ?_, least⟩
  intro a member
  rcases List.mem_cons.mp member with rfl | member
  · exact farther
  · exact strict a member

theorem FirstLeast.second {bs : List β} {b first other : β}
    (chosen : FirstLeast distance eligible (first :: bs) b) (fits : eligible first)
    (farther : distance first ≤ distance other) :
    FirstLeast distance eligible (first :: other :: bs) b := by
  obtain ⟨_ | ⟨head, before⟩, after, whole, chosen, strict, least⟩ := chosen
  · obtain ⟨rfl, rfl⟩ := List.cons.inj whole
    refine ⟨[], other :: bs, rfl, chosen, by simp, ?_⟩
    intro a member eligible
    rcases List.mem_cons.mp member with rfl | member
    · exact farther
    · exact least a member eligible
  · obtain ⟨rfl, rfl⟩ := List.cons.inj whole
    have nearer := strict first List.mem_cons_self fits
    refine ⟨first :: other :: before, after, rfl, chosen, ?_, least⟩
    intro a member eligible
    rcases List.mem_cons.mp member with rfl | member
    · exact nearer
    · rcases List.mem_cons.mp member with rfl | member
      · exact nearer.trans_le farther
      · exact strict a (List.mem_cons_of_mem first member) eligible

theorem leastFrom_spec (distance : β → Rat) (best : β) (bs : List β) :
    FirstLeast distance (fun _ => True) (best :: bs)
      (leastFrom distance best (distance best) bs) := by
  induction bs generalizing best with
  | nil => exact ⟨[], [], rfl, trivial, by simp, by simp⟩
  | cons b bs ih =>
    rw [leastFrom]
    split
    · next nearer =>
      have chosen := ih b
      have least := chosen.least List.mem_cons_self trivial
      exact chosen.cons fun _ => least.trans_lt nearer
    · next farther =>
      exact (ih best).second trivial (le_of_not_gt farther)

theorem leastBy?_spec (distance : β → Rat) {bs : List β} (some : bs ≠ []) :
    ∃ b, leastBy? distance bs = .some b ∧ FirstLeast distance (fun _ => True) bs b := by
  cases bs with
  | nil => exact absurd rfl some
  | cons best bs => exact ⟨_, rfl, leastFrom_spec distance best bs⟩

theorem FirstLeast.of_filter {accepts : β → Bool} {bs : List β} {b : β}
    (chosen : FirstLeast distance (fun _ => True) (bs.filter accepts) b) :
    FirstLeast distance (fun a => accepts a = true) bs b := by
  obtain ⟨before, after, whole, -, strict, least⟩ := chosen
  obtain ⟨first, rest, rfl, rfl, tail⟩ := List.filter_eq_append_iff.mp whole
  obtain ⟨skipped, last, rfl, none, accepted, rfl⟩ := List.filter_eq_cons_iff.mp tail
  refine ⟨first ++ skipped, last, by rw [List.append_assoc], accepted, ?_, ?_⟩
  · intro a member eligible
    rcases List.mem_append.mp member with member | member
    · exact strict a (List.mem_filter.mpr ⟨member, eligible⟩) trivial
    · exact absurd eligible (none a member)
  · intro a member eligible
    exact least a (List.mem_filter.mpr ⟨member, eligible⟩) trivial

theorem FirstLeast.congr {alike : β → Prop} {bs : List β} {b : β}
    (chosen : FirstLeast distance eligible bs b) (same : ∀ a ∈ bs, eligible a ↔ alike a) :
    FirstLeast distance alike bs b := by
  obtain ⟨before, after, rfl, fits, strict, least⟩ := chosen
  refine ⟨before, after, rfl, (same b (by simp)).mp fits, ?_, ?_⟩
  · intro a member eligible
    exact strict a member ((same a (by simp [member])).mpr eligible)
  · intro a member eligible
    exact least a member ((same a (by simp [member])).mpr eligible)

theorem FirstLeast.exists_index {bs : List β} {b : β}
    (chosen : FirstLeast distance eligible bs b) :
    ∃ k, ∃ bound : k < bs.length, bs[k] = b ∧ eligible b ∧
      ∀ j (before : j < k), eligible bs[j] → distance b < distance bs[j] := by
  obtain ⟨before, after, rfl, fits, strict, -⟩ := chosen
  refine ⟨before.length, by simp, by simp, fits, fun j early eligible => ?_⟩
  rw [List.getElem_append_left early] at eligible ⊢
  exact strict _ (List.getElem_mem early) eligible

end

/-- Whether a voicing may be chosen: any may, but where parallel fifths are to be avoided
and some voicing avoids them, only those that do. -/
def Eligible (source : List Rat) (avoidParallels : Bool) (voicings : List (List Rat))
    (v : List Rat) : Prop :=
  avoidParallels = true → (∃ w ∈ voicings, hasParallelFifths source w = false) →
    hasParallelFifths source v = false

theorem nearestVoicing?_spec (source : List Rat) (avoidParallels : Bool)
    {voicings : List (List Rat)} (some : voicings ≠ []) :
    ∃ v, nearestVoicing? source avoidParallels voicings = .some v ∧
      FirstLeast (motion source) (Eligible source avoidParallels voicings) voicings v := by
  obtain ⟨v, nearest, chosen⟩ := leastBy?_spec (motion source) some
  cases avoidParallels with
  | false =>
    refine ⟨v, nearest, chosen.congr fun a _ => ?_⟩
    simp [Eligible]
  | true =>
    by_cases clean : voicings.filter (fun v => !hasParallelFifths source v) = []
    · refine ⟨v, ?_, chosen.congr fun a _ => ?_⟩
      · simp only [nearestVoicing?, if_true, clean]
        exact nearest
      · rw [List.filter_eq_nil_iff] at clean
        simp only [true_iff]
        rintro - ⟨w, member, avoids⟩
        exact absurd (by rw [avoids]; rfl) (clean w member)
    · obtain ⟨w, first, best⟩ := leastBy?_spec (motion source) clean
      have ⟨u, member⟩ := List.exists_mem_of_ne_nil _ clean
      obtain ⟨inside, avoids⟩ := List.mem_filter.mp member
      refine ⟨w, ?_, best.of_filter.congr fun a _ => ?_⟩
      · simp only [nearestVoicing?, if_true, first]
        rfl
      · simp only [Bool.not_eq_true'] at avoids ⊢
        constructor
        · intro fits _ _
          exact fits
        · intro fits
          exact fits rfl ⟨u, inside, avoids⟩

theorem IsPlacement.perm {range : Rat} {chord other voices : List Rat} (same : other.Perm chord)
    (placed : IsPlacement range chord voices) :
    ∃ v, IsPlacement range other v ∧ v.Perm voices :=
  List.perm_comp_forall₂ same placed

theorem IsPlacement.map_pc {range : Rat} {chord voices : List Rat}
    (reduced : ∀ p ∈ chord, 0 ≤ p ∧ p < 12) (placed : IsPlacement range chord voices) :
    voices.map pc = chord := by
  induction placed with
  | nil => rfl
  | @cons p v ps vs head _ ih =>
    obtain ⟨nonneg, below⟩ := reduced p List.mem_cons_self
    rw [List.map_cons, ih fun q member => reduced q (List.mem_cons_of_mem p member),
      pc_eq_pc_iff.mpr head.2.2, pc_of_bounds nonneg below]

theorem IsPlacement.bounds {range : Rat} {chord voices : List Rat}
    (placed : IsPlacement range chord voices) : ∀ v ∈ voices, 0 ≤ v ∧ v ≤ range := by
  induction placed with
  | nil => simp
  | cons head _ ih =>
    intro v member
    rcases List.mem_cons.mp member with rfl | member
    · exact ⟨head.1, head.2.1⟩
    · exact ih v member

section

variable {range : Rat} {target : PitchClassSet Rat}

/-- The sorted voicings are the sorted placements, in whatever order the voices are. -/
theorem mem_sorted_voicings (fits : target.Voiceable range) {v : List Rat} :
    v ∈ (enumerate range target.canonical.voices).map sort ↔
      ∃ w, IsPlacement range target.voices w ∧ sort w = v := by
  rw [List.mem_map]
  constructor
  · rintro ⟨w, member, rfl⟩
    obtain ⟨u, placed, same⟩ := ((mem_enumerate fits.placeable).mp member).perm target.canonical_perm.symm
    exact ⟨u, placed, sort_eq_sort_iff.mpr same⟩
  · rintro ⟨w, placed, rfl⟩
    obtain ⟨u, placed, same⟩ := placed.perm target.canonical_perm
    exact ⟨u, (mem_enumerate fits.placeable).mpr placed, sort_eq_sort_iff.mpr same⟩

theorem sameContent_of_placement {v : List Rat} (placed : IsPlacement range target.voices v)
    {pitches : List Rat} (same : pitches.Perm v) :
    (PitchClassSet.ofPitches pitches).sameContent target = true := by
  have reduced := placed.map_pc fun p member => PitchClassSet.voice_bounds member
  rw [PitchClassSet.sameContent_iff, PitchClassSet.voices_ofPitches, ← reduced]
  exact same.map pc

/-- What makes a list of pitches a realization of a chord within its range. -/
structure Realizes (pitches : List Rat) (target : PitchClassSet Rat) (range : Rat) : Prop where
  ascending : pitches.Pairwise (· ≤ ·)
  within : ∀ p ∈ pitches, 0 ≤ p ∧ p ≤ range
  content : (PitchClassSet.ofPitches pitches).sameContent target = true

theorem Realizes.perm {pitches : List Rat} (realizes : Realizes pitches target range) :
    (pitches.map pc).Perm target.voices :=
  PitchClassSet.sameContent_iff.mp realizes.content

theorem realizes_of_mem (fits : target.Voiceable range) {v : List Rat}
    (member : v ∈ (enumerate range target.canonical.voices).map sort) :
    Realizes v target range := by
  obtain ⟨w, placed, rfl⟩ := (mem_sorted_voicings fits).mp member
  refine ⟨sort_pairwise w, fun p voice => ?_, sameContent_of_placement placed (sort_perm w)⟩
  exact placed.bounds p (mem_sort.mp voice)

theorem Realizes.voiceable {pitches : List Rat} (realizes : Realizes pitches target range)
    (voiced : pitches ≠ []) : target.Voiceable range := by
  refine ⟨fun none => ?_, fun p member => ?_⟩
  · have same := realizes.perm
    rw [none] at same
    exact voiced (List.map_eq_nil_iff.mp same.eq_nil)
  · obtain ⟨x, inside, rfl⟩ := List.mem_map.mp (realizes.perm.mem_iff.mpr member)
    obtain ⟨nonneg, below⟩ := realizes.within x inside
    exact (pc_le nonneg).trans below

theorem Realizes.mem_voicings {pitches : List Rat} (realizes : Realizes pitches target range)
    (voiced : pitches ≠ []) : pitches ∈ (enumerate range target.canonical.voices).map sort := by
  have placed : IsPlacement range (pitches.map pc) pitches := by
    refine List.forall₂_map_left_iff.mpr (List.forall₂_same.mpr fun x member => ?_)
    obtain ⟨nonneg, below⟩ := realizes.within x member
    exact ⟨nonneg, below, pc_octavesApart x⟩
  obtain ⟨v, placed, same⟩ := placed.perm realizes.perm.symm
  refine (mem_sorted_voicings (realizes.voiceable voiced)).mpr ⟨v, placed, ?_⟩
  rw [sort_eq_of_perm same, sort_of_sorted realizes.ascending]

end

section

variable {α : Type} [Scalar α]

theorem runFrom_lead {source : List α} (voiced : source ≠ []) (target : PitchClassSet α)
    (range : α) (avoidParallels : Bool) (cache : VoicingCache α) :
    (leastMotion.lead source target range avoidParallels).runFrom cache =
      (match ((VoicingCache.voicings target range).runFrom cache).1 with
        | .error cause => .error (.voicing cause)
        | .ok voicings =>
          match nearestVoicing? (sort source) avoidParallels (voicings.map sort) with
          | some pitches => .ok pitches
          | none => .error (.noCandidate target range),
        ((VoicingCache.voicings target range).runFrom cache).2) := by
  have some : source.isEmpty = false := by simpa using voiced
  simp only [leastMotion, some, Bool.false_eq_true, if_false, Attempt.runFrom_bind,
    Attempt.runFrom_mapError]
  generalize (VoicingCache.voicings target range).runFrom cache = outcome
  obtain ⟨cause | voicings, after⟩ := outcome
  · rfl
  · simp only [Except.mapError]
    cases nearestVoicing? (sort source) avoidParallels (voicings.map sort) <;> rfl

end

variable {cache : VoicingCache Rat} {source : List Rat} {target : PitchClassSet Rat} {range : Rat}

theorem lead_nearest (reached : cache.Reached) (voiced : source ≠ [])
    (fits : target.Voiceable range) (avoidParallels : Bool) :
    ∃ pitches,
      ((leastMotion.lead source target range avoidParallels).runFrom cache).1 = .ok pitches ∧
      FirstLeast (motion (sort source))
        (Eligible (sort source) avoidParallels ((enumerate range target.canonical.voices).map sort))
        ((enumerate range target.canonical.voices).map sort) pitches := by
  have some : (enumerate range target.canonical.voices).map sort ≠ [] := by
    have positive := placementCount_pos range target.canonical.voices
    rw [← length_enumerate fits.placeable, ← List.length_map (f := sort)] at positive
    exact List.ne_nil_of_length_pos positive
  obtain ⟨pitches, nearest, chosen⟩ := nearestVoicing?_spec (sort source) avoidParallels some
  refine ⟨pitches, ?_, chosen⟩
  rw [runFrom_lead voiced, reached.answer_of_voiceable fits]
  simp only [nearest]

theorem lead_of_any_cache (voiced : source ≠ []) (fits : target.Voiceable range)
    (avoidParallels : Bool) (cache cache' : VoicingCache Rat) :
    ((leastMotion.lead source target range avoidParallels).runFrom cache).1 =
      ((leastMotion.lead source target range avoidParallels).runFrom cache').1 := by
  rw [runFrom_lead voiced, runFrom_lead voiced, VoicingCache.answer_of_voiceable fits,
    VoicingCache.answer_of_voiceable fits]

theorem lead_refused (reached : cache.Reached) (voiced : source ≠ [])
    (unfit : ¬ target.Voiceable range) (avoidParallels : Bool) :
    ∃ cause,
      ((leastMotion.lead source target range avoidParallels).runFrom cache).1 = .error cause := by
  obtain ⟨cause, refused⟩ := reached.answer_of_not_voiceable unfit
  exact ⟨_, by rw [runFrom_lead voiced, refused]⟩

theorem VoicingCache.Reached.lead (reached : cache.Reached) (voiced : source ≠ [])
    (avoidParallels : Bool) :
    ((leastMotion.lead source target range avoidParallels).runFrom cache).2.Reached := by
  rw [runFrom_lead voiced]
  exact .asked _ _ reached

/-- Leading is optimal among all placements of the target and all assignments of voices. -/
theorem lead_optimal (reached : cache.Reached) (voiced : source ≠ [])
    (named : target.voices ≠ []) (inside : ∀ p ∈ target.voices, p ≤ range)
    (avoidParallels : Bool) :
    let distance := motion (sort source)
    let parallels (v : List Rat) := hasParallelFifths (sort source) (sort v)
    ∃ voicings pitches,
      ((VoicingCache.voicings target range).runFrom cache).1 = .ok voicings ∧
      ((leastMotion.lead source target range avoidParallels).runFrom cache).1 = .ok pitches ∧
      Realizes pitches target range ∧
      (avoidParallels = false → ∀ v, IsPlacement range target.voices v →
        distance pitches ≤ distance (sort v) ∧
        ∀ assigned : Fin source.length ≃ Fin v.length,
          distance pitches ≤ ∑ i, |source[i] - v[assigned i]|) ∧
      (avoidParallels = true →
        ((∃ v, IsPlacement range target.voices v ∧ parallels v = false) →
          parallels pitches = false ∧
          ∀ v, IsPlacement range target.voices v → parallels v = false →
            distance pitches ≤ distance (sort v)) ∧
        ((∀ v, IsPlacement range target.voices v → parallels v = true) →
          ∀ v, IsPlacement range target.voices v → distance pitches ≤ distance (sort v))) ∧
      ∃ k, ∃ bound : k < voicings.length, sort voicings[k] = pitches ∧
        ∀ j (before : j < k),
          Eligible (sort source) avoidParallels (voicings.map sort) (sort voicings[j]) →
          distance pitches < distance (sort voicings[j]) := by
  intro distance parallels
  have fits : target.Voiceable range := ⟨named, inside⟩
  obtain ⟨pitches, led, chosen⟩ := lead_nearest reached voiced fits avoidParallels
  have realizes := realizes_of_mem fits chosen.mem
  have fixed : sort pitches = pitches := sort_of_sorted realizes.ascending
  have nearest (v : List Rat) (placed : IsPlacement range target.voices v)
      (eligible : Eligible (sort source) avoidParallels
        ((enumerate range target.canonical.voices).map sort) (sort v)) :
      distance pitches ≤ distance (sort v) :=
    chosen.least ((mem_sorted_voicings fits).mpr ⟨v, placed, rfl⟩) eligible
  obtain ⟨k, bound, found, chooseable, strict⟩ := chosen.exists_index
  refine ⟨enumerate range target.canonical.voices, pitches, reached.answer_of_voiceable fits, led,
    realizes, ?_, ?_, ?_⟩
  · rintro rfl v placed
    have near := nearest v placed (fun avoid => absurd avoid Bool.false_ne_true)
    refine ⟨near, fun assigned => near.trans ?_⟩
    have paired : source.length = v.length := by simpa using Fintype.card_congr assigned
    have even : (sort source).length = (sort v).length := by rw [length_sort, length_sort, paired]
    rw [show distance (sort v) = gap (sort source) (sort v) from motion_eq_gap even]
    exact gap_le_of_assignment source v assigned
  · rintro rfl
    constructor
    · rintro ⟨w, placed, avoids⟩
      have clean := chooseable rfl
        ⟨sort w, (mem_sorted_voicings fits).mpr ⟨w, placed, rfl⟩, avoids⟩
      refine ⟨by simp only [parallels, fixed, clean], fun v placed avoids => ?_⟩
      exact nearest v placed fun _ _ => avoids
    · intro all v placed
      refine nearest v placed fun _ some => ?_
      obtain ⟨w, member, avoids⟩ := some
      obtain ⟨u, placed, rfl⟩ := (mem_sorted_voicings fits).mp member
      exact absurd avoids (by simp only [parallels] at all; rw [all u placed]; decide)
  · rw [List.length_map] at bound
    rw [List.getElem_map] at found
    refine ⟨k, bound, found, fun j before eligible => ?_⟩
    have farther := strict j before
    rw [List.getElem_map] at farther
    exact farther eligible

theorem lead_optimal_fifth :
    let cache := ((VoicingCache.voicings (.ofPitches [2, 9]) 24).runFrom
      (.empty : VoicingCache Rat)).2
    let fifth : PitchClassSet Rat := .ofPitches [9, 2]
    cache.Reached ∧ ∃ pitches,
      ((leastMotion.lead [0, 7] fifth 24 true).runFrom cache).1 = .ok pitches ∧
      Realizes pitches fifth 24 ∧ hasParallelFifths [0, 7] pitches = false := by
  intro cache fifth
  have reached : cache.Reached := .asked _ _ .empty
  have inside : ∀ p ∈ fifth.voices, p ≤ 24 := by decide +kernel
  obtain ⟨voicings, pitches, -, led, realizes, -, avoiding, -⟩ :=
    lead_optimal reached (by simp : [(0 : Rat), 7] ≠ []) (by simp [fifth]) inside true
  have other : IsPlacement 24 fifth.voices [9, 14] :=
    .cons ⟨by norm_num, by norm_num, 0, by decide +kernel⟩
      (.cons ⟨by norm_num, by norm_num, 1, by decide +kernel⟩ .nil)
  have clean : hasParallelFifths (sort [0, 7]) (sort pitches) = false :=
    ((avoiding rfl).1 ⟨[9, 14], other, by decide +kernel⟩).1
  rw [sort_of_sorted realizes.ascending, show sort [(0 : Rat), 7] = [0, 7] by decide +kernel]
    at clean
  exact ⟨reached, pitches, led, realizes, clean⟩

end ChordGrammar
