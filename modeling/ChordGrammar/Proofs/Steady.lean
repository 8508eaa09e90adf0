import ChordGrammar.Proofs.Transparency
import ChordGrammar.Proofs.Writing

/-! Placements that keep their pitch classes. The odometer adds octaves to a pitch class
and reduces on its way back, and a chord is classified by moving it down and up again. Where
no such step rounds, the pitches that are found have the content of their chord, and
writing never stops at the check of it. -/
namespace ChordGrammar

open Scalar

section

variable {α : Type} [Scalar α]

/-- What adding octaves to a pitch class leads to within a bound. -/
inductive Climbs (bound p : α) : α → Prop
  | start : Climbs bound p p
  | up {v : α} : Climbs bound p v → v + octave ≤ bound → Climbs bound p (v + octave)

/-- Whether voices stand at the bottom and reduce to themselves wherever octaves lead. -/
structure Steady (bound : α) (voices : List α) : Prop where
  number : ∀ p ∈ voices, IsNumber p
  lowest : ∀ p ∈ voices, ¬ zero ≤ p - octave
  returns : ∀ p ∈ voices, ∀ v, Climbs bound p v → pc v = p

variable {bound : α} {voices : List α}

theorem increment?_climbs {v w : List α} (returns : ∀ p ∈ voices, ∀ v, Climbs bound p v → pc v = p)
    (placed : List.Forall₂ (Climbs bound) voices v) (next : increment? bound v = some w) :
    List.Forall₂ (Climbs bound) voices w := by
  induction placed generalizing w with
  | nil => cases next
  | @cons p v ps vs climbs rest ih =>
    rw [List.forall_mem_cons] at returns
    unfold increment? at next
    split at next
    · next room =>
      cases next
      exact .cons (climbs.up room) rest
    · obtain ⟨us, turned, rfl⟩ := Option.map_eq_some_iff.mp next
      refine .cons ?_ (ih returns.2 turned)
      rw [returns.1 v climbs]
      exact .start

theorem climb_climbs (returns : ∀ p ∈ voices, ∀ v, Climbs bound p v → pc v = p) (fuel : Nat)
    {passed : List (List α)} {v : List α}
    (before : ∀ w ∈ passed, List.Forall₂ (Climbs bound) voices w)
    (placed : List.Forall₂ (Climbs bound) voices v) :
    ∀ w ∈ climb bound fuel passed v, List.Forall₂ (Climbs bound) voices w := by
  induction fuel generalizing passed v with
  | zero => exact before
  | succ fuel ih =>
    unfold climb
    split
    · exact before
    · next w turned =>
      have placed := increment?_climbs returns placed turned
      exact ih (List.forall_mem_cons.mpr ⟨placed, before⟩) placed

theorem descend_of_lowest (lowest : ∀ p ∈ voices, ¬ zero ≤ p - octave) (fuel : Nat) :
    descend bound fuel voices voices = voices := by
  cases fuel with
  | zero => rfl
  | succ fuel => rw [descend, decrement?_eq_none_iff.mpr lowest]

theorem map_pc_of_climbs (returns : ∀ p ∈ voices, ∀ v, Climbs bound p v → pc v = p) {w : List α}
    (placed : List.Forall₂ (Climbs bound) voices w) : w.map pc = voices := by
  induction placed with
  | nil => rfl
  | cons climbs _ ih =>
    rw [List.forall_mem_cons] at returns
    rw [List.map_cons, returns.1 _ climbs, ih returns.2]

/-- Every voicing reduces to the pitch classes, voice by voice. -/
theorem Steady.map_pc (steady : Steady bound voices) {w : List α}
    (member : w ∈ enumerate bound voices) : w.map pc = voices := by
  have start : List.Forall₂ (Climbs bound) voices voices :=
    List.forall₂_same.mpr fun _ _ => .start
  rw [enumerate, descend_of_lowest steady.lowest, List.mem_reverse] at member
  refine map_pc_of_climbs steady.returns (climb_climbs steady.returns _ ?_ start w member)
  intro v single
  rw [List.mem_singleton.mp single]
  exact start

namespace VoicingCache

theorem voicings_map_pc {cache : VoicingCache α} {chord : PitchClassSet α} {range : α}
    {all : List (List α)} (steady : Steady (unsignedZero range) chord.canonical.voices)
    (answered : ((voicings chord range).runFrom cache).1 = .ok all) :
    ∀ w ∈ all, w.map pc = chord.canonical.voices := by
  obtain ⟨entry, rfl, found⟩ := exists_entry answered
  obtain ⟨-, voices, bound⟩ := find?_eq_some found
  rw [entry.sound, voices, bound]
  exact fun w member => steady.map_pc member

end VoicingCache

section

variable {β : Type} {distance : β → α}

theorem leastFrom_mem (best : β) (least : α) (bs : List β) :
    leastFrom distance best least bs ∈ best :: bs := by
  induction bs generalizing best least with
  | nil => exact List.mem_cons_self
  | cons b bs ih =>
    unfold leastFrom
    split
    · exact List.mem_cons_of_mem best (ih b _)
    · rcases List.mem_cons.mp (ih best least) with same | member
      · rw [same]
        exact List.mem_cons_self
      · exact List.mem_cons_of_mem best (List.mem_cons_of_mem b member)

theorem leastBy?_mem {bs : List β} {b : β} (found : leastBy? distance bs = some b) : b ∈ bs := by
  cases bs with
  | nil => cases found
  | cons best bs =>
    obtain rfl := Option.some.inj found
    exact leastFrom_mem best _ bs

end

theorem nearestVoicing?_mem {source v : List α} {avoidParallels : Bool}
    {voicings : List (List α)} (found : nearestVoicing? source avoidParallels voicings = some v) :
    v ∈ voicings := by
  rcases Option.or_eq_some_iff.mp found with clean | ⟨-, any⟩
  · have member := leastBy?_mem clean
    split at member
    · exact List.mem_of_mem_filter member
    · cases member
  · exact leastBy?_mem any

theorem place_eq_ok {primeForm : PitchClassSet α} {transposition range : α} {voicing : Int64}
    {cache : VoicingCache α} {pitches : List α}
    (placed : ((leastMotion.place primeForm transposition voicing range).runFrom cache).1 =
      .ok pitches) :
    ∃ all, ((VoicingCache.voicings (primeForm.transpose transposition) range).runFrom cache).1 =
      .ok all ∧ ∃ w ∈ all, pitches = sort w := by
  rw [runFrom_place] at placed
  cases answered : ((VoicingCache.voicings (primeForm.transpose transposition) range).runFrom
      cache).1 with
  | error cause =>
    rw [answered] at placed
    cases placed
  | ok all =>
    obtain ⟨k, inside, -, voice⟩ := VoicingCache.voice_of_voicings voicing answered
    rw [VoicingCache.runFrom_voice, answered] at voice
    rw [answered] at placed
    refine ⟨all, rfl, all[k], List.getElem_mem inside, ?_⟩
    rw [← Except.ok.inj voice]
    exact (Except.ok.inj placed).symm

theorem lead_eq_ok {source : List α} {target : PitchClassSet α} {range : α}
    {avoidParallels : Bool} {cache : VoicingCache α} {pitches : List α}
    (led : ((leastMotion.lead source target range avoidParallels).runFrom cache).1 =
      .ok pitches) :
    ∃ all, ((VoicingCache.voicings target range).runFrom cache).1 = .ok all ∧
      ∃ w ∈ all, pitches = sort w := by
  by_cases voiced : source = []
  · rw [voiced] at led
    cases led
  rw [runFrom_lead voiced] at led
  split at led
  · cases led
  · next all answered =>
    split at led
    · next v chosen =>
      obtain ⟨w, member, sorted⟩ := List.mem_map.mp (nearestVoicing?_mem chosen)
      exact ⟨all, answered, w, member, (Except.ok.inj led).symm.trans sorted.symm⟩
    · cases led

/-- Whether every voice is given back by moving down by a voice and up again. -/
def PitchClassSet.Restored (chord : PitchClassSet α) : Prop :=
  ∀ root ∈ chord.voices, ∀ p ∈ chord.voices, pc (pc (p + -root) + root) = p

theorem PitchClassSet.Restored.voices_classify {chord : PitchClassSet α} {c : Classification α}
    (restored : chord.Restored) (found : classify? chord = some c) :
    (c.primeForm.transpose c.transposition).voices.Perm chord.voices := by
  obtain ⟨root, member, rfl⟩ := classify?_eq_some found
  have lowered := (canonical_perm _).trans (transpose_perm chord.canonical_perm (-root))
  have raised := transpose_perm lowered root
  have back : ((chord.transpose (-root)).transpose root).voices = chord.voices := by
    rw [transpose, voices_map, transpose, voices_map, List.map_map]
    exact (List.map_congr_left (restored root (mem_sort.mp member))).trans (List.map_id _)
  rwa [back] at raised

/-- Whether the pitches found for a chord within a range can not drift from it. -/
structure PitchClassSet.Faithful (chord : PitchClassSet α) (range : α) : Prop where
  steady : Steady (unsignedZero range) chord.canonical.voices
  restored : chord.Restored

section

variable [LawfulSort α] {chord : PitchClassSet α} {range : α} {cache : VoicingCache α}
  {pitches : List α}

theorem canonical_ofPitches_sort {w : List α} (same : w.map pc = chord.canonical.voices) :
    (PitchClassSet.ofPitches (sort w)).canonical = chord.canonical := by
  apply PitchClassSet.canonical_eq_of_perm
  have sorted := (sort_perm w).map pc
  rw [same] at sorted
  exact sorted.trans chord.canonical_perm

theorem PitchClassSet.Faithful.place (faithful : chord.Faithful range) {c : Classification α}
    (found : classify? chord = some c) {voicing : Int64}
    (placed : ((leastMotion.place c.primeForm c.transposition voicing range).runFrom cache).1 =
      .ok pitches) :
    (PitchClassSet.ofPitches pitches).canonical = chord.canonical := by
  have same := PitchClassSet.canonical_eq_of_perm (faithful.restored.voices_classify found)
  have steady := faithful.steady
  rw [← same] at steady ⊢
  obtain ⟨all, answered, w, member, rfl⟩ := place_eq_ok placed
  exact canonical_ofPitches_sort (VoicingCache.voicings_map_pc steady answered w member)

theorem PitchClassSet.Faithful.lead (faithful : chord.Faithful range) {source : List α}
    {avoidParallels : Bool}
    (led : ((leastMotion.lead source chord range avoidParallels).runFrom cache).1 = .ok pitches) :
    (PitchClassSet.ofPitches pitches).canonical = chord.canonical := by
  obtain ⟨all, answered, w, member, rfl⟩ := lead_eq_ok led
  exact canonical_ofPitches_sort
    (VoicingCache.voicings_map_pc faithful.steady answered w member)

end

namespace Turtle

variable [LawfulOrder α] [LawfulSort α] {chord : Turtle α} {before : Option (Turtle α)}
  {cache : VoicingCache α} {pitches : List α}

/-- What has been written sounds as its content. -/
def Matches (before : Turtle α) : Prop :=
  ∀ pitches, before.realized = some pitches →
    (PitchClassSet.ofPitches pitches).sameContent before.pitchClasses = true

omit [LawfulSort α] in
theorem sameContent_of_canonical {content : PitchClassSet α}
    (numbers : ∀ p ∈ content.canonical.voices, IsNumber p)
    (same : (PitchClassSet.ofPitches pitches).canonical = content.canonical) :
    (PitchClassSet.ofPitches pitches).sameContent content = true := by
  rw [PitchClassSet.sameContent, same]
  exact (equalLists_iff_unsignedZero numbers numbers).mpr rfl

omit [LawfulOrder α] in
theorem place_content (faithful : chord.pitchClasses.Faithful chord.range)
    (placed : ((chord.place leastMotion).runFrom cache).1 = .ok pitches) :
    (PitchClassSet.ofPitches pitches).canonical = chord.pitchClasses.canonical := by
  rw [runFrom_place_leastMotion] at placed
  split at placed
  · cases placed
  · next found => exact faithful.place found placed

/-- However the pitches of a chord are found, they have its content. -/
theorem realize_content (faithful : chord.pitchClasses.Faithful chord.range)
    (matched : ∀ b ∈ before, Matches b)
    (realized : ((chord.realize leastMotion before).runFrom cache).1 = .ok pitches) :
    (PitchClassSet.ofPitches pitches).sameContent chord.pitchClasses = true := by
  have kept {found : List α}
      (same : (PitchClassSet.ofPitches found).canonical = chord.pitchClasses.canonical) :
      (PitchClassSet.ofPitches found).sameContent chord.pitchClasses = true :=
    sameContent_of_canonical faithful.steady.number same
  cases before with
  | none => exact kept (place_content faithful realized)
  | some b =>
    cases sounding : b.realized with
    | none =>
      rw [realize_after_silence sounding] at realized
      exact kept (place_content faithful realized)
    | some earlier =>
      rw [realize_after sounding] at realized
      split at realized
      · split at realized
        · next tied =>
          cases realized
          exact PitchClassSet.sameContent_trans (matched b rfl _ sounding) tied
        · exact kept (faithful.lead realized)
      · exact kept (place_content faithful realized)

theorem writeFrom_ne_mismatch (index : Nat) {chords : List (Turtle α)}
    (faithful : ∀ chord ∈ chords, chord.pitchClasses.Faithful chord.range)
    (matched : ∀ b ∈ before, Matches b) (score : Score α) (cache : VoicingCache α) (i : Nat)
    (content : PitchClassSet α) (pitches : List α) :
    ((writeFrom leastMotion index before chords).runFrom (score, cache)).1 ≠
      .error (.mismatch i content pitches) := by
  induction chords generalizing index before score cache with
  | nil => nofun
  | cons chord rest ih =>
    rw [List.forall_mem_cons] at faithful
    have step := writeFrom_step leastMotion index before chord rest score cache
    generalize (writeFrom leastMotion index before (chord :: rest)).runFrom _ = outcome at step ⊢
    cases step with
    | refused => nofun
    | mismatched asked content =>
      rw [realize_content faithful.1 matched (congrArg Prod.fst asked)] at content
      cases content
    | @written found after written others _ _ content kept rested =>
      have matches' : ∀ b ∈ some written, Matches b := by
        rintro _ ⟨⟩ _ sounding
        rw [kept] at sounding ⊢
        cases sounding
        exact content
      have later := ih (index + 1) faithful.2 matches' (written.write score) after
      rw [rested] at later
      cases others with
      | error e => exact later
      | ok others => nofun

end Turtle

end

end ChordGrammar
