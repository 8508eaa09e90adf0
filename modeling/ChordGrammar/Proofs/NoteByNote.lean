import ChordGrammar.Proofs.Order
import ChordGrammar.Score

/-! Tying note by note. The scan over the score looks at events of all notes, but those of
one note are tied as if there were no others: in a single pass that remembers nothing but
the event that still sounds. No order of the events is assumed, and times need not be
numbers. -/
namespace ChordGrammar

open Scalar

variable {α : Type}

def Event.SameButDuration (e other : Event α) : Prop := other = { e with duration := other.duration }

theorem Event.SameButDuration.trans {e longer longest : Event α} (first : e.SameButDuration longer)
    (second : longer.SameButDuration longest) : e.SameButDuration longest := by
  unfold SameButDuration at first second ⊢
  rw [second, first]

theorem Event.SameButDuration.time_eq {e longer : Event α} (same : e.SameButDuration longer) :
    longer.time = e.time := by
  rw [same]

variable [Scalar α]

def Event.isNote (key : α) (channel : Nat) (e : Event α) : Bool :=
  equal e.key key && e.instrument == channel

/-- Whether the key is none, so that an event is not of any note. -/
def Event.keyless (e : Event α) : Bool := !equal e.key e.key

/-- Adds one event to those that are tied, the latest first. It follows the latest one
if that has ended. Otherwise it is dropped, and the latest one lasts to the later end. -/
def tieNext (tied : List (Event α)) (next : Event α) : List (Event α) :=
  match tied with
  | [] => [next]
  | current :: done =>
    if current.offTime ≤ next.time then next :: current :: done
    else if current.offTime < next.offTime then
      { current with duration := next.offTime - current.time } :: done
    else current :: done

/-- Ties events of one note in a single pass. -/
def tieAll (events : List (Event α)) : List (Event α) := (events.foldl tieNext []).reverse

namespace Event

/-! What does not read the duration is the same for an event and a longer one. -/

section

variable {e longer : Event α} (same : e.SameButDuration longer)
include same

theorem SameButDuration.isNote_eq (key : α) (channel : Nat) :
    longer.isNote key channel = e.isNote key channel := by
  rw [same]
  rfl

theorem SameButDuration.keyless_eq : longer.keyless = e.keyless := by
  rw [same]
  rfl

theorem SameButDuration.sameNote_eq (later : Event α) :
    longer.sameNote later = e.sameNote later := by
  rw [same]
  rfl

theorem SameButDuration.sameNote_left (earlier : Event α) :
    earlier.sameNote longer = earlier.sameNote e := by
  rw [same]
  rfl

end

theorem extend_sameButDuration (e later : Event α) : e.SameButDuration (e.extend later) := by
  unfold extend
  split <;> rfl

@[simp] theorem extend_isNote (e later : Event α) (key : α) (channel : Nat) :
    (e.extend later).isNote key channel = e.isNote key channel :=
  (extend_sameButDuration e later).isNote_eq key channel

@[simp] theorem extend_sameNote (e later other : Event α) :
    (e.extend later).sameNote other = e.sameNote other :=
  (extend_sameButDuration e later).sameNote_eq other

theorem absorb_sameButDuration (e : Event α) (events : List (Event α)) :
    e.SameButDuration (e.absorb events).1 := by
  induction events generalizing e with
  | nil => rfl
  | cons later rest ih =>
    unfold absorb
    split
    · exact ih e
    · split
      · rfl
      · exact (extend_sameButDuration e later).trans (ih (e.extend later))

theorem absorb_sublist (e : Event α) (events : List (Event α)) :
    (e.absorb events).2.Sublist events := by
  induction events generalizing e with
  | nil => exact .refl []
  | cons later rest ih =>
    unfold absorb
    split
    · exact (ih e).cons_cons later
    · split
      · exact .refl _
      · exact (ih (e.extend later)).cons later

theorem absorb_alone {e : Event α} {events : List (Event α)}
    (alone : ∀ later ∈ events, e.sameNote later = false) : e.absorb events = (e, events) := by
  induction events with
  | nil => rfl
  | cons later rest ih =>
    obtain ⟨first, others⟩ := List.forall_mem_cons.mp alone
    simp [absorb, first, ih others]

theorem filter_absorb_of_apart {e : Event α} {chosen : Event α → Bool}
    (apart : ∀ later, e.sameNote later = true → chosen later = false) (events : List (Event α)) :
    (e.absorb events).2.filter chosen = events.filter chosen := by
  induction events generalizing e with
  | nil => rfl
  | cons later rest ih =>
    unfold absorb
    split
    · simp [List.filter_cons, ih apart]
    · next same =>
      have dropped : chosen later = false := apart later (by simpa using same)
      split
      · rfl
      · have apart' : ∀ other, (e.extend later).sameNote other = true → chosen other = false := by
          simpa using apart
        simp [dropped, ih apart']

variable [LawfulOrder α] {key : α} {channel : Nat} {e : Event α}

theorem sameNote_eq_isNote (note : e.isNote key channel = true) (later : Event α) :
    e.sameNote later = later.isNote key channel := by
  simp only [isNote, Bool.and_eq_true, beq_iff_eq] at note
  obtain ⟨keys, channels⟩ := note
  have alike : equal later.key e.key = true ↔ equal later.key key = true :=
    ⟨fun same => equal_trans same keys, fun same => equal_trans same (equal_symm keys)⟩
  rw [Bool.eq_iff_iff]
  simp [sameNote, isNote, alike, channels]

theorem apart_of_not_isNote (other : e.isNote key channel = false) (later : Event α)
    (same : e.sameNote later = true) : later.isNote key channel = false := by
  rw [Bool.eq_false_iff] at other ⊢
  intro note
  apply other
  simp only [sameNote, isNote, Bool.and_eq_true, beq_iff_eq, decide_eq_true_eq] at same note ⊢
  exact ⟨equal_trans (equal_symm same.1) note.1, same.2 ▸ note.2⟩

theorem keyed_of_sameNote {later : Event α} (same : e.sameNote later = true) :
    e.keyless = false ∧ later.keyless = false := by
  have keys : equal later.key e.key = true := (of_decide_eq_true same).1
  constructor
  · simp [keyless, equal_trans (equal_symm keys) keys]
  · simp [keyless, equal_trans keys (equal_symm keys)]

/-- To take in events of the own note, those of other notes need not be looked at. -/
theorem absorb_filter_isNote (note : e.isNote key channel = true) (events : List (Event α)) :
    e.absorb (events.filter (isNote key channel)) =
      ((e.absorb events).1, (e.absorb events).2.filter (isNote key channel)) := by
  induction events generalizing e with
  | nil => rfl
  | cons later rest ih =>
    have same := sameNote_eq_isNote note later
    by_cases chosen : later.isNote key channel = true
    · rw [List.filter_cons_of_pos chosen, absorb, absorb]
      simp only [same, chosen, Bool.not_true, Bool.false_eq_true, if_false]
      split
      · simp [chosen]
      · exact ih (by simpa using note)
    · rw [List.filter_cons_of_neg chosen, absorb]
      simp [same, chosen, ih note]

end Event

open Event

theorem merge_cons (e : Event α) (events : List (Event α)) :
    merge (e :: events) = (e.absorb events).1 :: merge (e.absorb events).2 := by
  rw [merge]

/-- What survives is a selection of the events in their order, changed in duration alone. -/
theorem merge_selects (events : List (Event α)) :
    ∃ kept, kept.Sublist events ∧ List.Forall₂ SameButDuration kept (merge events) := by
  induction events using merge.induct with
  | case1 => exact ⟨[], .refl [], by simp [merge]⟩
  | case2 e rest ih =>
    obtain ⟨kept, sublist, same⟩ := ih
    refine ⟨e :: kept, (sublist.trans (absorb_sublist e rest)).cons_cons e, ?_⟩
    rw [merge_cons]
    exact .cons (absorb_sameButDuration e rest) same

variable [LawfulOrder α]

theorem filter_merge_isNote (key : α) (channel : Nat) (events : List (Event α)) :
    (merge events).filter (isNote key channel) = merge (events.filter (isNote key channel)) := by
  induction events using merge.induct with
  | case1 => simp [merge]
  | case2 e rest ih =>
    have kept := (absorb_sameButDuration e rest).isNote_eq key channel
    rw [merge_cons]
    by_cases note : e.isNote key channel = true
    · rw [List.filter_cons_of_pos (kept.trans note), List.filter_cons_of_pos note, merge_cons,
        absorb_filter_isNote note, ih]
    · have other : e.isNote key channel = false := by simpa using note
      rw [List.filter_cons_of_neg (by simp [kept, other]), List.filter_cons_of_neg note, ih,
        filter_absorb_of_apart (apart_of_not_isNote other)]

theorem filter_merge_keyless (events : List (Event α)) :
    (merge events).filter keyless = events.filter keyless := by
  induction events using merge.induct with
  | case1 => simp [merge]
  | case2 e rest ih =>
    have kept := (absorb_sameButDuration e rest).keyless_eq
    have rests : (e.absorb rest).2.filter keyless = rest.filter keyless :=
      filter_absorb_of_apart (fun _ same => (keyed_of_sameNote same).2) rest
    rw [merge_cons]
    by_cases none : e.keyless = true
    · have alone : e.absorb rest = (e, rest) := by
        apply absorb_alone
        intro later _
        rw [Bool.eq_false_iff]
        intro same
        simp [(keyed_of_sameNote same).1] at none
      rw [alone] at ih ⊢
      rw [List.filter_cons_of_pos none, List.filter_cons_of_pos none, ih]
    · rw [List.filter_cons_of_neg (by simpa [kept] using none), List.filter_cons_of_neg none, ih,
        rests]

/-- On events of one note the scan is the single pass. -/
theorem foldl_tieNext {key : α} {channel : Nat} {e : Event α} (note : e.isNote key channel = true)
    {events : List (Event α)} (notes : ∀ later ∈ events, later.isNote key channel = true)
    (done : List (Event α)) :
    (events.foldl tieNext (e :: done)).reverse = done.reverse ++ merge (e :: events) := by
  induction events generalizing e done with
  | nil => simp [merge, absorb]
  | cons later rest ih =>
    obtain ⟨first, others⟩ := List.forall_mem_cons.mp notes
    have same : e.sameNote later = true := by rw [sameNote_eq_isNote note, first]
    rw [List.foldl_cons, merge_cons, absorb]
    simp only [same, Bool.not_true, Bool.false_eq_true, if_false]
    by_cases ended : e.offTime ≤ later.time
    · have follows : tieNext (e :: done) later = later :: e :: done := by simp [tieNext, ended]
      rw [follows, ih first others]
      simp [ended]
    · have prolonged : tieNext (e :: done) later = e.extend later :: done := by
        simp only [tieNext, if_neg ended, extend]
        split <;> rfl
      rw [prolonged, ih (by simpa using note) others, if_neg ended, merge_cons]

theorem merge_eq_tieAll {key : α} {channel : Nat} {events : List (Event α)}
    (notes : ∀ e ∈ events, e.isNote key channel = true) : merge events = tieAll events := by
  cases events with
  | nil => simp [merge, tieAll]
  | cons e rest =>
    obtain ⟨first, others⟩ := List.forall_mem_cons.mp notes
    exact (foldl_tieNext first others []).symm

namespace Score

/-- Merging ties each note in a single pass over its own events, and comes to the same when
there are no other events. It leaves events without a key as they are, and changes neither
the order of the survivors nor anything about them but the duration. -/
theorem mergeOverlapping_ties_each_note (score : Score α) :
    let events := score.events.toList
    let survivors := score.mergeOverlapping.events.toList
    (∀ key channel, survivors.filter (isNote key channel) =
      tieAll (events.filter (isNote key channel))) ∧
    (∀ key channel,
      (Score.mk (events.filter (isNote key channel)).toArray).mergeOverlapping.events.toList =
        survivors.filter (isNote key channel)) ∧
    survivors.filter keyless = events.filter keyless ∧
    ∃ kept, kept.Sublist events ∧ List.Forall₂ SameButDuration kept survivors := by
  intro events survivors
  have alone (key : α) (channel : Nat) := filter_merge_isNote key channel events
  refine ⟨fun key channel => ?_, fun key channel => ?_, ?_, ?_⟩
  · apply (alone key channel).trans
    exact merge_eq_tieAll fun e member => (List.mem_filter.mp member).2
  · exact (alone key channel).symm
  · exact filter_merge_keyless events
  · exact merge_selects events

/-- The keys are zeros of either sign and one that is not a number, and the events are not in
order. -/
theorem mergeOverlapping_ties_each_note_zeros :
    let event (time duration key : Float) : Event Float := ⟨time, duration, noteOn, 0, key, 60, 0⟩
    let none : Float := 0 / 0
    let score : Score Float :=
      ⟨#[event 2 2 0, event 1 9 none, event 0 5 (-0), event 3 1 none, event 5 1 0]⟩
    score.mergeOverlapping.events.toList.filter (isNote 0 0) = [event 2 3 0, event 5 1 0] ∧
      score.mergeOverlapping.events.toList.filter keyless = [event 1 9 none, event 3 1 none] := by
  intro event none score
  obtain ⟨tied, -, kept, -⟩ := mergeOverlapping_ties_each_note score
  constructor
  · rw [tied]
    decide +kernel
  · rw [kept]
    decide +kernel

end Score
end ChordGrammar
