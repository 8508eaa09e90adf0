import ChordGrammar.Proofs.NoteByNote

/-! Tying what has been tied. An event takes in later ones up to the first of its note that
begins when it has ended, and the end that is compared is the end that it is left with, rounded
or not. So after the scan no event reaches into the next one of its note, and a second scan
finds nothing to tie. -/
namespace ChordGrammar

open Scalar

variable {α : Type} [Scalar α]

namespace Event

/-- Whether an event has ended when the next one of its note begins. It may be the last one. -/
def EndsInTime (e : Event α) (events : List (Event α)) : Prop :=
  ∀ next, events.find? e.sameNote = some next → e.offTime ≤ next.time

variable {e : Event α} {events : List (Event α)}

theorem EndsInTime.absorb (ends : e.EndsInTime events) : e.absorb events = (e, events) := by
  induction events with
  | nil => rfl
  | cons later rest ih =>
    unfold Event.absorb
    by_cases same : e.sameNote later = true
    · have ended : e.offTime ≤ later.time := ends later (List.find?_cons_of_pos same)
      simp [same, ended]
    · have others : e.EndsInTime rest := fun next found =>
        ends next ((List.find?_cons_of_neg same).trans found)
      simp [same, ih others]

/-- What has taken in all it can ends in time. -/
theorem absorb_endsInTime (e : Event α) (events : List (Event α)) :
    (e.absorb events).1.EndsInTime (e.absorb events).2 := by
  induction events generalizing e with
  | nil => exact fun next none => absurd none (by simp [absorb])
  | cons later rest ih =>
    unfold absorb
    split
    · next other =>
      intro next found
      have alike : (e.absorb rest).1.sameNote = e.sameNote :=
        funext (absorb_sameButDuration e rest).sameNote_eq
      rw [List.find?_cons_of_neg (by simpa [alike] using other)] at found
      exact ih e next found
    · next same =>
      split
      · next ended =>
        intro next found
        rw [List.find?_cons_of_pos (by simpa using same)] at found
        exact Option.some.inj found ▸ ended
      · exact ih (e.extend later)

variable [LawfulOrder α]

theorem find?_absorb_of_apart {first : Event α} (other : ¬ e.sameNote first = true)
    (events : List (Event α)) :
    (first.absorb events).2.find? e.sameNote = events.find? e.sameNote := by
  have apart (later : Event α) (same : first.sameNote later = true) :
      e.sameNote later = false := by
    rw [Bool.eq_false_iff]
    intro alike
    simp only [sameNote, decide_eq_true_eq] at same alike other
    exact other ⟨equal_trans (equal_symm same.1) alike.1, same.2.symm.trans alike.2⟩
  rw [← List.head?_filter, ← List.head?_filter, filter_absorb_of_apart apart]

/-- The next event of the note survives as the next one, at its onset. -/
theorem EndsInTime.merge (ends : e.EndsInTime events) : e.EndsInTime (merge events) := by
  induction events using merge.induct with
  | case1 => simpa [ChordGrammar.merge] using ends
  | case2 first rest ih =>
    have longer := absorb_sameButDuration first rest
    have alike := longer.sameNote_left e
    rw [merge_cons]
    intro next found
    by_cases same : e.sameNote first = true
    · rw [List.find?_cons_of_pos (alike.trans same)] at found
      rw [← Option.some.inj found, longer.time_eq]
      exact ends first (List.find?_cons_of_pos same)
    · rw [List.find?_cons_of_neg (by rwa [alike])] at found
      apply ih _ next found
      intro following left
      rw [find?_absorb_of_apart same] at left
      exact ends following ((List.find?_cons_of_neg same).trans left)

end Event

open Event

theorem merge_merge [LawfulOrder α] (events : List (Event α)) :
    merge (merge events) = merge events := by
  induction events using merge.induct with
  | case1 => simp [merge]
  | case2 e rest ih =>
    have ends := (absorb_endsInTime e rest).merge
    rw [merge_cons, merge_cons, ends.absorb, ih]

namespace Score

/-- Merging again takes nothing away and leaves every number of every event as it is, the
sign of a zero included. Onsets, durations and keys may be rounded, infinite or no numbers,
and the events need not be in order. -/
theorem mergeOverlapping_idempotent (score : Score Float) :
    score.mergeOverlapping.mergedAway = 0 ∧
      score.mergeOverlapping.mergeOverlapping = score.mergeOverlapping := by
  have again : score.mergeOverlapping.mergeOverlapping = score.mergeOverlapping := by
    simp only [mergeOverlapping, merge_merge]
  exact ⟨by rw [mergedAway, again, Nat.sub_self], again⟩

end Score
end ChordGrammar
