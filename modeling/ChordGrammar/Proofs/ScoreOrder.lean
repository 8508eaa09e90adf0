import ChordGrammar.Proofs.Exact
import ChordGrammar.Proofs.Order
import ChordGrammar.Score

/-! Where an event is put. The search halves the score, so it finds the place only where
the events that begin no later come first; appending keeps that order, and of events that
begin together it keeps the order in which they came. -/
namespace ChordGrammar

open Scalar

namespace Score

/-- On positions of which the accepted ones come first, the search ends at the last
accepted one, or at the beginning if there is none. -/
theorem bisect_last {accepts : Nat → Bool}
    (closed : ∀ i j, i ≤ j → accepts j = true → accepts i = true) {base size : Nat}
    (start : base = 0 ∨ accepts base = true)
    (stop : ∀ i, base + size ≤ i → accepts i = false) :
    (bisect accepts base size = 0 ∨ accepts (bisect accepts base size) = true) ∧
      accepts (bisect accepts base size + 1) = false := by
  induction base, size using bisect.induct accepts with
  | case1 base size small =>
    rw [bisect, if_pos small]
    exact ⟨start, stop _ (by omega)⟩
  | case2 base size large middle ih =>
    rw [bisect, if_neg large]
    by_cases accepted : accepts middle = true
    · rw [dif_pos accepted] at ih
      simp only [middle] at ih accepted ⊢
      rw [if_pos accepted]
      exact ih (.inr accepted) fun i beyond => stop i (by omega)
    · rw [dif_neg accepted] at ih
      simp only [middle] at ih accepted ⊢
      rw [if_neg accepted]
      refine ih start fun i beyond => ?_
      refine Bool.eq_false_of_not_eq_true fun later => accepted ?_
      exact closed _ i (by omega) later

section

variable {α : Type} [Scalar α] {score : Score α} {time : α}

/-- Whether the events that begin no later than `time` come first. -/
def PartitionedAt (score : Score α) (time : α) : Prop :=
  score.events.toList.Pairwise fun a b => b.time ≤ time → a.time ≤ time

theorem PartitionedAt.getElem (parted : score.PartitionedAt time) {i j : Nat} {a b : Event α}
    (before : i ≤ j) (first : score.events[i]? = some a) (second : score.events[j]? = some b)
    (early : b.time ≤ time) : a.time ≤ time := by
  rw [← Array.getElem?_toList] at first second
  rcases Nat.eq_or_lt_of_le before with rfl | before
  · cases first.symm.trans second
    exact early
  · obtain ⟨inside, rfl⟩ := List.getElem?_eq_some_iff.mp first
    obtain ⟨inside', rfl⟩ := List.getElem?_eq_some_iff.mp second
    exact List.pairwise_iff_getElem.mp parted i j inside inside' before early

/-- An event belongs after exactly those events that begin no later. -/
theorem position_spec (parted : score.PartitionedAt time) :
    score.position time ≤ score.events.size ∧
      ∀ i a, score.events[i]? = some a → (i < score.position time ↔ a.time ≤ time) := by
  let accepts (i : Nat) : Bool := score.events[i]?.any (·.time ≤ time)
  have accepted (i : Nat) :
      accepts i = true ↔ ∃ a, score.events[i]? = some a ∧ a.time ≤ time := by
    simp [accepts, Option.any_eq_true]
  have closed (i j : Nat) (before : i ≤ j) (later : accepts j = true) : accepts i = true := by
    obtain ⟨b, second, early⟩ := (accepted j).mp later
    obtain ⟨inside, _⟩ := Array.getElem?_eq_some_iff.mp second
    have first : score.events[i]? = some score.events[i] :=
      Array.getElem?_eq_getElem (Nat.lt_of_le_of_lt before inside)
    exact (accepted i).mpr ⟨_, first, parted.getElem before first second early⟩
  have stop (i : Nat) (beyond : 0 + score.events.size ≤ i) : accepts i = false := by
    have outside : score.events[i]? = none := Array.getElem?_eq_none (by omega)
    simp [accepts, outside]
  obtain ⟨found, last⟩ := bisect_last closed (.inl rfl) stop
  have place : score.position time =
      if accepts (bisect accepts 0 score.events.size) then bisect accepts 0 score.events.size + 1
      else bisect accepts 0 score.events.size := rfl
  generalize bisect accepts 0 score.events.size = p at found last place
  have below (i : Nat) : i < score.position time ↔ accepts i = true := by
    rw [place]
    by_cases inside : accepts p = true
    · rw [if_pos inside]
      constructor
      · intro early
        exact closed i p (by omega) inside
      · intro early
        by_contra late
        rw [closed (p + 1) i (by omega) early] at last
        cases last
    · have none : p = 0 := found.resolve_right inside
      rw [if_neg inside, none]
      constructor
      · intro early
        omega
      · intro early
        exact absurd (closed p i (by omega) early) inside
  refine ⟨?_, fun i a first => ?_⟩
  · by_contra late
    have outside := stop score.events.size (by omega)
    rw [(below score.events.size).mp (by omega)] at outside
    cases outside
  · rw [below, accepted]
    constructor
    · rintro ⟨b, second, early⟩
      cases first.symm.trans second
      exact early
    · intro early
      exact ⟨a, first, early⟩

theorem early_of_mem_take (parted : score.PartitionedAt time) {a : Event α}
    (member : a ∈ score.events.toList.take (score.position time)) : a.time ≤ time := by
  obtain ⟨inside, early⟩ := position_spec parted
  have size : score.events.size = score.events.toList.length := Array.length_toList.symm
  obtain ⟨i, bound, rfl⟩ := List.mem_take_iff_getElem.mp member
  refine (early i _ ?_).mp (by omega)
  rw [← Array.getElem?_toList, List.getElem?_eq_getElem (by omega)]

theorem late_of_mem_drop (parted : score.PartitionedAt time) {a : Event α}
    (member : a ∈ score.events.toList.drop (score.position time)) : ¬ a.time ≤ time := by
  obtain ⟨inside, early⟩ := position_spec parted
  have size : score.events.size = score.events.toList.length := Array.length_toList.symm
  obtain ⟨i, bound, rfl⟩ := List.mem_drop_iff_getElem.mp member
  refine mt (early (score.position time + i) _ ?_).mpr (by omega)
  rw [← Array.getElem?_toList, List.getElem?_eq_getElem (by omega)]

theorem insertIdx_eq_take_drop {β : Type} {bs : List β} {n : Nat} (inside : n ≤ bs.length)
    (b : β) : bs.insertIdx n b = bs.take n ++ b :: bs.drop n := by
  induction bs generalizing n with
  | nil =>
    cases Nat.le_zero.mp inside
    rfl
  | cons a bs ih =>
    cases n with
    | zero => rfl
    | succ n => simpa using ih (Nat.le_of_succ_le_succ inside)

theorem append_toList (score : Score α) (e : Event α) :
    (score.append e).events.toList =
      score.events.toList.insertIdx (score.position e.time) e := by
  rw [append, Array.insertIdxIfInBounds]
  split
  · rw [Array.toList_insertIdx]
  · next outside =>
    have outside : score.events.toList.length < score.position e.time := by
      simpa using outside
    rw [List.insertIdx_of_length_lt outside]

/-- Appending splits the score: what begins no later stays before the new event. -/
theorem append_split {e : Event α} (parted : score.PartitionedAt e.time) :
    ∃ before after, score.events.toList = before ++ after ∧
      (score.append e).events.toList = before ++ e :: after ∧
      (∀ a ∈ before, a.time ≤ e.time) ∧ ∀ a ∈ after, ¬ a.time ≤ e.time := by
  have inside : score.position e.time ≤ score.events.toList.length := by
    simpa using (position_spec parted).1
  refine ⟨_, _, (List.take_append_drop (score.position e.time) _).symm, ?_, ?_, ?_⟩
  · rw [append_toList, insertIdx_eq_take_drop inside]
  · exact fun a => early_of_mem_take parted
  · exact fun a => late_of_mem_drop parted

theorem append_perm {e : Event α} (parted : score.PartitionedAt e.time) :
    (score.append e).events.toList.Perm (e :: score.events.toList) := by
  obtain ⟨before, after, whole, appended, -, -⟩ := append_split parted
  rw [whole, appended]
  exact List.perm_middle

/-- Events in the order of their onsets. Those of the same onset are in the order of
the notes. -/
structure StablyOrdered (notes events : List (Event α)) : Prop where
  perm : events.Perm notes
  ordered : events.Pairwise (·.time ≤ ·.time)
  stable : ∀ time, events.filter (equal ·.time time) = notes.filter (equal ·.time time)

variable {notes : List (Event α)}

theorem StablyOrdered.nil : StablyOrdered ([] : List (Event α)) [] := ⟨.nil, .nil, fun _ => rfl⟩

theorem eq_of_filters {events others : List (Event α)} (alike : events.Perm others)
    (ordered : events.Pairwise (·.time ≤ ·.time)) (ordered' : others.Pairwise (·.time ≤ ·.time))
    (numbers : ∀ e ∈ events, IsNumber e.time)
    (filters : ∀ time, events.filter (equal ·.time time) = others.filter (equal ·.time time)) :
    events = others := by
  induction events generalizing others with
  | nil => exact alike.nil_eq
  | cons e events ih =>
    cases others with
    | nil => exact absurd alike.symm.nil_eq (List.cons_ne_nil e events).symm
    | cons other others =>
      obtain ⟨least, rest⟩ := List.pairwise_cons.mp ordered
      obtain ⟨least', rest'⟩ := List.pairwise_cons.mp ordered'
      obtain ⟨number, known⟩ := List.forall_mem_cons.mp numbers
      have before : e.time ≤ other.time := by
        rcases List.mem_cons.mp (alike.mem_iff.mpr List.mem_cons_self) with rfl | later
        · exact number
        · exact least other later
      have after : other.time ≤ e.time := by
        rcases List.mem_cons.mp (alike.mem_iff.mp List.mem_cons_self) with rfl | later
        · exact number
        · exact least' e later
      have own : equal e.time e.time = true := equal_iff_le.mpr ⟨number, number⟩
      have same : equal other.time e.time = true := equal_iff_le.mpr ⟨after, before⟩
      have heads := filters e.time
      simp only [List.filter_cons, own, same, if_true] at heads
      obtain ⟨rfl, -⟩ := List.cons.inj heads
      rw [ih alike.cons_inv rest rest' known]
      intro time
      have split := filters time
      by_cases same : equal e.time time = true
      · simpa [same] using split
      · simpa [same] using split

theorem StablyOrdered.unique {events others : List (Event α)}
    (first : StablyOrdered notes events) (second : StablyOrdered notes others)
    (numbers : ∀ note ∈ notes, IsNumber note.time) : events = others := by
  apply eq_of_filters (first.perm.trans second.perm.symm) first.ordered second.ordered
  · intro e member
    exact numbers e (first.perm.subset member)
  · intro time
    rw [first.stable, second.stable]

variable [LawfulOrder α]

theorem partitionedAt_of_ordered (ordered : score.events.toList.Pairwise (·.time ≤ ·.time))
    (time : α) : score.PartitionedAt time :=
  ordered.imp LawfulOrder.le_trans

theorem StablyOrdered.append {e : Event α} (sorted : StablyOrdered notes score.events.toList)
    (numbers : ∀ note ∈ notes, IsNumber note.time) (number : IsNumber e.time) :
    StablyOrdered (notes ++ [e]) (score.append e).events.toList := by
  have parted := partitionedAt_of_ordered sorted.ordered e.time
  obtain ⟨before, after, whole, appended, early, late⟩ := append_split parted
  have ordered := sorted.ordered
  have stable := sorted.stable
  rw [whole] at ordered stable
  obtain ⟨first, second, across⟩ := List.pairwise_append.mp ordered
  constructor
  · apply (append_perm parted).trans
    apply (sorted.perm.cons e).trans
    exact (List.perm_append_singleton e notes).symm
  · rw [appended]
    refine List.pairwise_append.mpr ⟨first, List.pairwise_cons.mpr ⟨?_, second⟩, ?_⟩
    · intro a member
      have kept : a ∈ notes := sorted.perm.subset (by simp [whole, member])
      exact (LawfulOrder.le_total (numbers a kept) number).resolve_left (late a member)
    · intro a member b other
      rcases List.mem_cons.mp other with rfl | other
      · exact early a member
      · exact across a member b other
  · intro time
    rw [appended, List.filter_append, List.filter_append, ← stable, List.filter_append]
    by_cases here : equal e.time time = true
    · have none : after.filter (equal ·.time time) = [] := by
        apply List.filter_eq_nil_iff.mpr
        intro a member same
        apply late a member
        exact LawfulOrder.le_trans (equal_iff_le.mp same).1 (equal_iff_le.mp here).2
      simp [here, none]
    · simp [here]

theorem StablyOrdered.appendAll (sorted : StablyOrdered notes score.events.toList)
    (events : List (Event α))
    (numbers : ∀ note ∈ notes ++ events, IsNumber note.time) :
    StablyOrdered (notes ++ events) (events.foldl Score.append score).events.toList := by
  induction events generalizing notes score with
  | nil => simpa using sorted
  | cons e events ih =>
    rw [List.append_cons] at numbers ⊢
    apply ih _ numbers
    apply sorted.append
    · intro note member
      exact numbers note (by simp [member])
    · exact numbers e (by simp)

end

def InOrder (score : Score Rat) : Prop := score.events.toList.Pairwise (·.time ≤ ·.time)

/-- However events are appended, the score holds them in order and no others. -/
theorem appendAll_spec {score : Score Rat} (ordered : score.InOrder) (events : List (Event Rat)) :
    (events.foldl Score.append score).InOrder ∧
      (events.foldl Score.append score).events.toList.Perm (events ++ score.events.toList) := by
  have sorted : StablyOrdered score.events.toList score.events.toList :=
    ⟨.refl _, ordered, fun _ => rfl⟩
  have appended := sorted.appendAll events fun note _ => le_refl note.time
  exact ⟨appended.ordered, appended.perm.trans List.perm_append_comm⟩

theorem empty_inOrder : (Score.empty : Score Rat).InOrder := .nil

end Score
end ChordGrammar
