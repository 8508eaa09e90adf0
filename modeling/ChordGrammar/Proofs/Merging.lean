import ChordGrammar.Proofs.ScoreOrder

/-! Tying notes. Time sounds where some event of the note sounds, so an event may take in
a later one only where no silence lies between them. -/
namespace ChordGrammar

open Scalar

namespace Event

/-- Whether one event is the other with at most a longer duration. -/
def Prolongs (e longer : Event Rat) : Prop :=
  longer = { e with duration := longer.duration } ∧ e.duration ≤ longer.duration

theorem Prolongs.refl (e : Event Rat) : e.Prolongs e := ⟨rfl, le_refl _⟩

theorem Prolongs.trans {e longer longest : Event Rat} (first : e.Prolongs longer)
    (second : longer.Prolongs longest) : e.Prolongs longest := by
  obtain ⟨same, grown⟩ := first
  obtain ⟨alike, further⟩ := second
  refine ⟨?_, grown.trans further⟩
  rw [alike, same]

theorem Prolongs.time_eq {e longer : Event Rat} (prolongs : e.Prolongs longer) :
    longer.time = e.time := by
  rw [prolongs.1]

def SameNote (a b : Event Rat) : Prop := a.key = b.key ∧ a.instrument = b.instrument

theorem sameNote_iff {e later : Event Rat} : e.sameNote later = true ↔ e.SameNote later := by
  rw [sameNote, decide_eq_true_iff, equal_iff, SameNote, eq_comm (a := later.key),
    eq_comm (a := later.instrument)]

theorem Prolongs.sameNote_iff {e longer : Event Rat} (prolongs : e.Prolongs longer)
    (other : Event Rat) : longer.SameNote other ↔ e.SameNote other := by
  rw [prolongs.1]
  rfl

theorem exists_prolonged {kept survivors : List (Event Rat)}
    (prolongs : List.Forall₂ Prolongs kept survivors) {survivor : Event Rat}
    (member : survivor ∈ survivors) : ∃ e ∈ kept, e.Prolongs survivor := by
  induction prolongs with
  | nil => cases member
  | @cons e longer kept survivors head _ ih =>
    rcases List.mem_cons.mp member with rfl | member
    · exact ⟨e, List.mem_cons_self, head⟩
    · obtain ⟨event, kept, grown⟩ := ih member
      exact ⟨event, List.mem_cons_of_mem e kept, grown⟩

def Covers (e : Event Rat) (x : Rat) : Prop := e.time ≤ x ∧ x < e.time + e.duration

theorem extend_prolongs (e later : Event Rat) : e.Prolongs (e.extend later) := by
  unfold extend
  split
  · next longer =>
    refine ⟨rfl, ?_⟩
    simp only [offTime] at longer ⊢
    linarith
  · exact .refl e

theorem covers_extend {e later : Event Rat} (order : e.time ≤ later.time)
    (overlap : later.time < e.offTime) (x : Rat) :
    (e.extend later).Covers x ↔ e.Covers x ∨ later.Covers x := by
  unfold extend
  split
  · next longer =>
    simp only [Covers, offTime] at longer overlap ⊢
    constructor
    · rintro ⟨begun, open'⟩
      rcases lt_or_ge x (e.time + e.duration) with early | late
      · exact .inl ⟨begun, early⟩
      · exact .inr ⟨by linarith, by linarith⟩
    · rintro (⟨begun, open'⟩ | ⟨begun, open'⟩) <;> constructor <;> linarith
  · next shorter =>
    simp only [Covers, offTime, not_lt] at shorter overlap ⊢
    constructor
    · exact .inl
    · rintro (covered | ⟨begun, open'⟩)
      · exact covered
      · constructor <;> linarith

end Event

open Event

/-- Whether some event of the key and channel sounds at an instant. -/
def Sounds (events : List (Event Rat)) (key : Rat) (channel : Nat) (x : Rat) : Prop :=
  ∃ e ∈ events, e.key = key ∧ e.instrument = channel ∧ e.Covers x

theorem sounds_cons {e : Event Rat} {events : List (Event Rat)} {key : Rat} {channel : Nat}
    {x : Rat} : Sounds (e :: events) key channel x ↔
      (e.key = key ∧ e.instrument = channel ∧ e.Covers x) ∨ Sounds events key channel x := by
  simp [Sounds]

theorem Sounds.perm {first second : List (Event Rat)} (same : first.Perm second) {key : Rat}
    {channel : Nat} {x : Rat} : Sounds first key channel x ↔ Sounds second key channel x := by
  simp only [Sounds, same.mem_iff]

/-- What an event leaves of those after it when it has taken in what overlaps it. -/
structure Absorbed (e : Event Rat) (events : List (Event Rat)) (longer : Event Rat)
    (rest : List (Event Rat)) : Prop where
  prolongs : e.Prolongs longer
  sublist : rest.Sublist events
  apart : ∀ later ∈ rest, e.SameNote later → longer.offTime ≤ later.time
  sounds : ∀ key channel x,
    Sounds (e :: events) key channel x ↔ Sounds (longer :: rest) key channel x

theorem Absorbed.pass_over {e later longer : Event Rat} {events rest : List (Event Rat)}
    (absorbed : Absorbed e events longer rest) (other : ¬ e.SameNote later) :
    Absorbed e (later :: events) longer (later :: rest) := by
  refine ⟨absorbed.prolongs, absorbed.sublist.cons_cons later, ?_, ?_⟩
  · intro event member same
    rcases List.mem_cons.mp member with rfl | member
    · exact absurd same other
    · exact absorbed.apart event member same
  · intro key channel x
    have sounds := absorbed.sounds key channel x
    rw [sounds_cons, sounds_cons] at sounds
    rw [sounds_cons, sounds_cons, sounds_cons, sounds_cons, or_left_comm, sounds, or_left_comm]

theorem Absorbed.take_in {e later longer : Event Rat} {events rest : List (Event Rat)}
    (absorbed : Absorbed (e.extend later) events longer rest) (same : e.SameNote later)
    (order : e.time ≤ later.time) (overlap : later.time < e.offTime) :
    Absorbed e (later :: events) longer rest := by
  have prolongs := extend_prolongs e later
  refine ⟨prolongs.trans absorbed.prolongs, absorbed.sublist.cons later, ?_, ?_⟩
  · intro event member alike
    exact absorbed.apart event member ((prolongs.sameNote_iff event).mpr alike)
  · intro key channel x
    rw [← absorbed.sounds, sounds_cons, sounds_cons, sounds_cons, ← or_assoc,
      covers_extend order overlap]
    have note : (e.extend later).key = e.key ∧ (e.extend later).instrument = e.instrument :=
      ⟨by rw [prolongs.1], by rw [prolongs.1]⟩
    rw [note.1, note.2, ← same.1, ← same.2, ← and_or_left, ← and_or_left]

theorem absorb_absorbed {e : Event Rat} {events : List (Event Rat)}
    (ordered : (e :: events).Pairwise (·.time ≤ ·.time)) :
    Absorbed e events (e.absorb events).1 (e.absorb events).2 := by
  induction events generalizing e with
  | nil => exact ⟨.refl e, .refl [], by simp [absorb], fun _ _ _ => Iff.rfl⟩
  | cons later rest ih =>
    obtain ⟨first, after⟩ := List.pairwise_cons.mp ordered
    obtain ⟨following, order⟩ := List.pairwise_cons.mp after
    have early (event : Event Rat) (member : event ∈ rest) : e.time ≤ event.time :=
      first event (List.mem_cons_of_mem later member)
    unfold absorb
    split
    · next other =>
      have other : ¬ e.SameNote later := by simpa [← sameNote_iff] using other
      exact (ih (List.pairwise_cons.mpr ⟨early, order⟩)).pass_over other
    · split
      · next ended =>
        refine ⟨.refl e, .refl _, ?_, fun _ _ _ => Iff.rfl⟩
        intro event member _
        rcases List.mem_cons.mp member with rfl | member
        · exact ended
        · exact ended.trans (following event member)
      · next same overlap =>
        have same : e.SameNote later := by simpa [← sameNote_iff] using same
        have extended : (e.extend later :: rest).Pairwise (·.time ≤ ·.time) := by
          refine List.pairwise_cons.mpr ⟨fun event member => ?_, order⟩
          rw [(extend_prolongs e later).time_eq]
          exact early event member
        exact (ih extended).take_in same (first later List.mem_cons_self) (lt_of_not_ge overlap)

/-- The result of merging: survivors that do not overlap, that only have become longer,
and that sound exactly when the events sounded before. -/
structure Merged (events survivors : List (Event Rat)) : Prop where
  sounds : ∀ key channel x, Sounds events key channel x ↔ Sounds survivors key channel x
  apart : survivors.Pairwise fun a b => a.SameNote b → a.offTime ≤ b.time
  kept : ∃ kept, kept.Sublist events ∧ List.Forall₂ Prolongs kept survivors

theorem merge_merged {events : List (Event Rat)}
    (ordered : events.Pairwise (·.time ≤ ·.time)) : Merged events (merge events) := by
  induction events using merge.induct with
  | case1 =>
    rw [merge]
    exact ⟨fun _ _ _ => Iff.rfl, .nil, [], .refl [], .nil⟩
  | case2 e rest ih =>
    have absorbed := absorb_absorbed ordered
    have order : (e.absorb rest).2.Pairwise (·.time ≤ ·.time) :=
      (List.pairwise_cons.mp ordered).2.sublist absorbed.sublist
    obtain ⟨sounds, apart, kept, sublist, prolongs⟩ := ih order
    rw [merge]
    refine ⟨?_, List.pairwise_cons.mpr ⟨?_, apart⟩, e :: kept, ?_, ?_⟩
    · intro key channel x
      rw [absorbed.sounds, sounds_cons, sounds, sounds_cons]
    · intro survivor member same
      obtain ⟨later, remains, grown⟩ := exists_prolonged prolongs member
      have note : e.SameNote survivor := (absorbed.prolongs.sameNote_iff survivor).mp same
      rw [grown.1] at note
      rw [grown.time_eq]
      exact absorbed.apart later (sublist.subset remains) note
    · exact (sublist.trans absorbed.sublist).cons_cons e
    · exact .cons absorbed.prolongs prolongs

namespace Score

/-- Merging neither gains nor loses sounding time and leaves no overlap, in whatever
order the events were appended. -/
theorem merge_preserves_sounding_time (events : List (Event Rat)) :
    let score := events.foldl Score.append Score.empty
    let survivors := score.mergeOverlapping.events.toList
    score.events.toList.Perm events ∧
    (∀ key channel x, Sounds events key channel x ↔ Sounds survivors key channel x) ∧
    survivors.Pairwise (fun a b => a.SameNote b → a.time + a.duration ≤ b.time) ∧
    ∃ kept, kept.Sublist score.events.toList ∧ List.Forall₂ Prolongs kept survivors ∧
      kept.length + score.mergedAway = score.size := by
  intro score survivors
  obtain ⟨ordered, same⟩ := appendAll_spec empty_inOrder events
  have same : score.events.toList.Perm events := same.trans (.of_eq (List.append_nil events))
  obtain ⟨sounds, apart, kept, sublist, prolongs⟩ : Merged score.events.toList survivors :=
    merge_merged ordered
  refine ⟨same, ?_, apart, kept, sublist, prolongs, ?_⟩
  · intro key channel x
    rw [← sounds, Sounds.perm same]
  · have lengths := prolongs.length_eq
    have bound := sublist.length_le
    have size : score.size = score.events.toList.length := Array.length_toList.symm
    have left : score.mergeOverlapping.size = survivors.length := Array.length_toList.symm
    rw [mergedAway, left, size]
    omega

end Score
end ChordGrammar
