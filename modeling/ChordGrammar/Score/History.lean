import ChordGrammar.Score

/-! A score in use. Events are appended to it, tied and removed in any order. Events of
different calls can be alike, and tying makes some of them longer, so a log beside the score
keeps which call each event goes back to. -/
namespace ChordGrammar

variable {α : Type}

namespace Score

inductive Action (α : Type) where
  | append (e : Event α)
  | merge
  | clear
  deriving DecidableEq, Repr

def Action.brings : Action α → Option (Event α)
  | .append e => some e
  | .merge | .clear => none

def sinceClear (history : List (Action α)) : List (Action α) :=
  history.foldl (fun recent action =>
    match action with
    | .clear => []
    | action => recent ++ [action]) []

/-- The events appended since the last clearing, in the order of the calls. -/
def appended (history : List (Action α)) : List (Event α) :=
  (sinceClear history).filterMap Action.brings

@[simp] theorem appended_nil : appended ([] : List (Action α)) = [] := rfl

@[simp] theorem appended_append (history : List (Action α)) (e : Event α) :
    appended (history ++ [.append e]) = appended history ++ [e] := by
  simp [appended, sinceClear, Action.brings]

@[simp] theorem appended_merge (history : List (Action α)) :
    appended (history ++ [.merge]) = appended history := by
  simp [appended, sinceClear, Action.brings]

@[simp] theorem appended_clear (history : List (Action α)) :
    appended (history ++ [.clear]) = [] := by
  simp [appended, sinceClear]

/-- An event and which of the calls since the last clearing appended it. -/
structure Entry (α : Type) where
  call : Nat
  event : Event α
  deriving DecidableEq, Repr

/-- The number of calls since the last clearing, and an entry for each event of a score. -/
structure Log (α : Type) where
  calls : Nat
  entries : List (Entry α)
  deriving DecidableEq, Repr

namespace Log

def empty : Log α := ⟨0, []⟩

def score (log : Log α) : Score α := ⟨(log.entries.map Entry.event).toArray⟩

@[simp] theorem score_toList (log : Log α) :
    log.score.events.toList = log.entries.map Entry.event := rfl

end Log

variable [Scalar α]

def act (score : Score α) : Action α → Score α
  | .append e => score.append e
  | .merge => score.mergeOverlapping
  | .clear => .empty

def after (history : List (Action α)) : Score α := history.foldl act .empty

@[simp] theorem after_nil : after ([] : List (Action α)) = .empty := rfl

@[simp] theorem after_snoc (history : List (Action α)) (action : Action α) :
    after (history ++ [action]) = (after history).act action := by
  simp [after]

end Score

open Score

variable [Scalar α]

/-- The entries that remain when an event takes in others. -/
def Event.absorbEntries (e : Event α) : List (Entry α) → List (Entry α)
  | [] => []
  | later :: rest =>
    if !e.sameNote later.event then later :: e.absorbEntries rest
    else if e.offTime ≤ later.event.time then later :: rest
    else (e.extend later.event).absorbEntries rest

theorem Event.absorbEntries_sublist (e : Event α) (entries : List (Entry α)) :
    (e.absorbEntries entries).Sublist entries := by
  induction entries generalizing e with
  | nil => exact .refl []
  | cons later rest ih =>
    unfold absorbEntries
    split
    · exact (ih e).cons_cons later
    · split
      · exact .refl _
      · exact (ih (e.extend later.event)).cons later

/-- Ties entries. One that takes in others goes back to the same call as before. -/
def mergeEntries : List (Entry α) → List (Entry α)
  | [] => []
  | entry :: rest =>
    { entry with event := (entry.event.absorb (rest.map Entry.event)).1 } ::
      mergeEntries (entry.event.absorbEntries rest)
termination_by entries => entries.length
decreasing_by exact Nat.lt_succ_of_le (entry.event.absorbEntries_sublist rest).length_le

namespace Score

namespace Log

/-- Keeps the log of an action. A new entry is put where the score puts its event. -/
def act (log : Log α) : Action α → Log α
  | .append e =>
    ⟨log.calls + 1, log.entries.insertIdx (log.score.position e.time) ⟨log.calls, e⟩⟩
  | .merge => { log with entries := mergeEntries log.entries }
  | .clear => empty

def after (history : List (Action α)) : Log α := history.foldl act empty

@[simp] theorem after_nil : after ([] : List (Action α)) = empty := rfl

@[simp] theorem after_snoc (history : List (Action α)) (action : Action α) :
    after (history ++ [action]) = (after history).act action := by
  simp [after]

end Log

end Score
end ChordGrammar
