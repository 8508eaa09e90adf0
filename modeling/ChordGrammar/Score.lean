import ChordGrammar.Scalar

/-! Events in time order. Appending keeps events of the same onset in the order in
which they came; merging ties events of the same key and channel that overlap. -/
namespace ChordGrammar

open Scalar

/-- A note. Its instrument is also its channel. -/
structure Event (α : Type) where
  time : α
  duration : α
  status : UInt8
  instrument : Nat
  key : α
  velocity : α
  pan : α
  deriving DecidableEq, Repr

def noteOn : UInt8 := 144

structure Score (α : Type) where
  events : Array (Event α)
  deriving DecidableEq, Repr

variable {α : Type} [Scalar α]

namespace Event

def offTime (e : Event α) : α := e.time + e.duration

/-- Whether two events can be tied: the same channel, and keys of the same quantity. -/
def sameNote (e later : Event α) : Bool :=
  equal later.key e.key ∧ later.instrument = e.instrument

/-- Prolongs an event to the end of a later one that ends after it. -/
def extend (e later : Event α) : Event α :=
  if e.offTime < later.offTime then { e with duration := later.offTime - e.time } else e

/-- Lets `e` take in the events of the same note that begin before it ends, up to the
first one that does not, and gives the events that remain. -/
def absorb (e : Event α) : List (Event α) → Event α × List (Event α)
  | [] => (e, [])
  | later :: rest =>
    if !e.sameNote later then ((e.absorb rest).1, later :: (e.absorb rest).2)
    else if e.offTime ≤ later.time then (e, later :: rest)
    else (e.extend later).absorb rest

theorem length_absorb (e : Event α) (events : List (Event α)) :
    (e.absorb events).2.length ≤ events.length := by
  induction events generalizing e with
  | nil => simp [absorb]
  | cons later rest ih =>
    unfold absorb
    split
    · simpa using ih e
    · split
      · exact Nat.le_refl _
      · exact Nat.le_succ_of_le (ih _)

end Event

/-- Ties events from left to right, each taking in later ones before the next. -/
def merge : List (Event α) → List (Event α)
  | [] => []
  | e :: rest => (e.absorb rest).1 :: merge (e.absorb rest).2
termination_by events => events.length
decreasing_by exact Nat.lt_succ_of_le (e.length_absorb rest)

namespace Score

def empty : Score α := ⟨#[]⟩

instance : Inhabited (Score α) := ⟨empty⟩

def size (score : Score α) : Nat := score.events.size

def isEmpty (score : Score α) : Bool := score.events.isEmpty

/-- Halves the `size` positions from `base` on, keeping the upper half whenever it
begins with an accepted one. On positions of which the accepted ones come first this
ends at the last accepted one, or at `base`. -/
def bisect (accepts : Nat → Bool) (base size : Nat) : Nat :=
  if size ≤ 1 then base
  else
    let middle := base + size / 2
    bisect accepts (if accepts middle then middle else base) (size - size / 2)
termination_by size

/-- Where an event with the given onset belongs: after all that do not begin later. -/
def position (score : Score α) (time : α) : Nat :=
  let accepts (i : Nat) : Bool := score.events[i]?.any (·.time ≤ time)
  let last := bisect accepts 0 score.size
  if accepts last then last + 1 else last

def append (score : Score α) (e : Event α) : Score α :=
  ⟨score.events.insertIdxIfInBounds (score.position e.time) e⟩

def mergeOverlapping (score : Score α) : Score α := ⟨(merge score.events.toList).toArray⟩

theorem mergeOverlapping_empty : (empty : Score α).mergeOverlapping = empty := by
  simp [mergeOverlapping, empty, merge]

def mergedAway (score : Score α) : Nat := score.size - score.mergeOverlapping.size

end Score
end ChordGrammar
