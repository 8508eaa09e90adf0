import ChordGrammar.Proofs.Idempotence
import ChordGrammar.Proofs.Merging

/-! Tying what is repeated. Notes that are played again and again become one long note each if
every one lasts beyond the onset of the next, and stay as they are if none does. -/
namespace ChordGrammar

open Scalar

namespace Event

def movedTo (e : Event Rat) (time : Rat) : Event Rat := { e with time }

def lasting (e : Event Rat) (duration : Rat) : Event Rat := { e with duration }

/-- Whether the later event begins while the earlier one sounds, and ends after it. -/
def Legato (e later : Event Rat) : Prop := later.time < e.offTime ∧ e.offTime < later.offTime

variable {e later : Event Rat} {events : List (Event Rat)}

theorem extend_of_lt (longer : e.offTime < later.offTime) :
    e.extend later = e.lasting (later.offTime - e.time) :=
  if_pos longer

theorem extend_self (e : Event Rat) : e.extend e = e := if_neg (lt_irrefl e.offTime)

theorem Legato.offTime_extend (legato : e.Legato later) :
    (e.extend later).offTime = later.offTime := by
  simp [extend_of_lt legato.2, lasting, offTime]

/-- An event takes in all of its note that follow legato. What is between them stays. -/
theorem absorb_legato (chain : (e :: events.filter e.sameNote).IsChain Legato) :
    e.absorb events =
      ((events.filter e.sameNote).foldl extend e, events.filter (!e.sameNote ·)) := by
  induction events generalizing e with
  | nil => rfl
  | cons later rest ih =>
    by_cases same : e.sameNote later = true
    · rw [List.filter_cons_of_pos same] at chain ⊢
      obtain ⟨legato, others⟩ := List.isChain_cons_cons.mp chain
      have alike : (e.extend later).sameNote = e.sameNote := funext fun other => by simp
      have longer : (e.extend later :: rest.filter e.sameNote).IsChain Legato := by
        refine others.imp_head fun next => ?_
        simpa only [Legato, legato.offTime_extend] using next
      rw [← alike] at longer
      rw [absorb, ih longer, alike]
      simp [same, not_le.mpr legato.1]
    · rw [List.filter_cons_of_neg same] at chain ⊢
      simp [absorb, same, ih chain]

end Event

open Event

theorem merge_of_apart {events : List (Event Rat)}
    (apart : events.Pairwise fun a b => a.SameNote b → a.offTime ≤ b.time) :
    merge events = events := by
  induction events with
  | nil => simp [merge]
  | cons e events ih =>
    obtain ⟨first, others⟩ := List.pairwise_cons.mp apart
    have ends : e.EndsInTime events := fun next found =>
      first next (List.mem_of_find?_eq_some found) (sameNote_iff.mp (List.find?_some found))
    rw [merge_cons, ends.absorb, ih others]

def onsets (step : Rat) (n : Nat) : List Rat := (List.range n).map fun i : Nat => i * step

def playedAt (times : List Rat) (notes : List (Event Rat)) : List (Event Rat) :=
  times.flatMap fun time => notes.map (·.movedTo time)

section

variable {step : Rat} {notes : List (Event Rat)} {e : Event Rat}

theorem onsets_cons (step : Rat) (n : Nat) :
    ∃ later, onsets step (n + 1) = 0 :: later := by
  simp [onsets, List.range_succ_eq_map]

theorem playedAt_cons (time : Rat) (times : List Rat) (notes : List (Event Rat)) :
    playedAt (time :: times) notes = notes.map (·.movedTo time) ++ playedAt times notes :=
  List.flatMap_cons

@[simp] theorem sameNote_movedTo (e other : Event Rat) (time : Rat) :
    e.sameNote (other.movedTo time) = e.sameNote other := rfl

@[simp] theorem movedTo_sameNote (e : Event Rat) (time : Rat) :
    (e.movedTo time).sameNote = e.sameNote := rfl

theorem sameNote_self (e : Event Rat) : e.sameNote e = true := sameNote_iff.mpr ⟨rfl, rfl⟩

theorem filter_sameNote_playedAt (others : ∀ note ∈ notes, e.sameNote note = false)
    (times : List Rat) :
    (playedAt times (e :: notes)).filter e.sameNote = times.map e.movedTo := by
  induction times with
  | nil => rfl
  | cons time times ih =>
    have none : (notes.map (·.movedTo time)).filter e.sameNote = [] := by
      simpa [List.filter_eq_nil_iff] using others
    simp [playedAt_cons, sameNote_self, none, ih]

theorem filter_not_sameNote_playedAt (others : ∀ note ∈ notes, e.sameNote note = false)
    (times : List Rat) :
    (playedAt times (e :: notes)).filter (!e.sameNote ·) = playedAt times notes := by
  induction times with
  | nil => rfl
  | cons time times ih =>
    have all : (notes.map (·.movedTo time)).filter (!e.sameNote ·) = notes.map (·.movedTo time) := by
      simpa [List.filter_eq_self] using others
    simp [playedAt_cons, sameNote_self, all, ih]

theorem foldl_extend_onsets (forward : 0 < step) (n : Nat) :
    ((onsets step (n + 1)).map e.movedTo).foldl extend (e.movedTo 0) =
      (e.movedTo 0).lasting (n * step + e.duration) := by
  induction n with
  | zero => simp [onsets, extend_self, lasting, movedTo]
  | succ n ih =>
    have later : onsets step (n + 1 + 1) = onsets step (n + 1) ++ [(n + 1 : Nat) * step] := by
      simp [onsets, List.range_succ]
    have further : ((e.movedTo 0).lasting (n * step + e.duration)).offTime <
        (e.movedTo ((n + 1 : Nat) * step)).offTime := by
      simp only [offTime, lasting, movedTo]
      push_cast
      linarith
    rw [later, List.map_append, List.foldl_append, ih, List.map_singleton, List.foldl_cons,
      List.foldl_nil, extend_of_lt further]
    simp [lasting, offTime, movedTo]

theorem isChain_onsets (forward : 0 < step) (legato : step < e.duration) (n : Nat) :
    ((onsets step (n + 1)).map e.movedTo).IsChain Legato := by
  rw [onsets, List.map_map, List.isChain_map, List.isChain_range_succ]
  intro i _
  simp only [Legato, movedTo, offTime, Function.comp_apply, Nat.succ_eq_add_one]
  push_cast
  constructor <;> linarith

/-- What holds of notes at one onset, and of any notes at an earlier and a later one. -/
theorem pairwise_playedAt {R : Event Rat → Event Rat → Prop}
    (together : ∀ time, notes.Pairwise fun e e' => R (e.movedTo time) (e'.movedTo time))
    (across : ∀ i j : Nat, i < j → ∀ e ∈ notes, ∀ e' ∈ notes,
      R (e.movedTo (i * step)) (e'.movedTo (j * step))) (n : Nat) :
    (playedAt (onsets step n) notes).Pairwise R := by
  refine List.pairwise_flatMap.mpr ⟨fun time _ => List.pairwise_map.mpr (together time), ?_⟩
  refine List.pairwise_map.mpr (List.pairwise_lt_range.imp fun {i j} before a first b second => ?_)
  obtain ⟨e, member, rfl⟩ := List.mem_map.mp first
  obtain ⟨e', member', rfl⟩ := List.mem_map.mp second
  exact across i j before e member e' member'

theorem playedAt_ordered (forward : 0 < step) (notes : List (Event Rat)) (n : Nat) :
    (playedAt (onsets step n) notes).Pairwise (·.time ≤ ·.time) := by
  refine pairwise_playedAt (fun time => ?_) (fun i j before e _ e' _ => ?_) n
  · exact List.pairwise_of_forall fun e e' => le_refl time
  · exact mul_le_mul_of_nonneg_right (by exact_mod_cast before.le) forward.le

/-- Detached notes are not tied, whoever plays them. -/
theorem merge_playedAt_detached (apart : notes.Pairwise fun a b => a.sameNote b = false)
    (detached : ∀ e ∈ notes, 0 ≤ e.duration ∧ e.duration ≤ step) (n : Nat) :
    merge (playedAt (onsets step n) notes) = playedAt (onsets step n) notes := by
  apply merge_of_apart
  refine pairwise_playedAt (fun time => ?_) (fun i j before e member e' _ _ => ?_) n
  · refine apart.imp fun distinct same => ?_
    rw [← sameNote_iff, movedTo_sameNote, sameNote_movedTo, distinct] at same
    cases same
  · obtain ⟨nonneg, short⟩ := detached e member
    have later : (i + 1) * step ≤ j * step :=
      mul_le_mul_of_nonneg_right (by exact_mod_cast before) (nonneg.trans short)
    simp only [offTime, movedTo]
    linarith

/-- Legato notes become one long note each. The induction is on the notes: the first one takes in
all that is played of it, and leaves the others as if they were played alone. -/
theorem merge_playedAt_legato (apart : notes.Pairwise fun a b => a.sameNote b = false)
    (forward : 0 < step) (legato : ∀ e ∈ notes, step < e.duration) (n : Nat) :
    merge (playedAt (onsets step (n + 1)) notes) =
      notes.map fun e => (e.movedTo 0).lasting (n * step + e.duration) := by
  obtain ⟨later, times⟩ := onsets_cons step n
  induction notes with
  | nil =>
    have silent : playedAt (onsets step (n + 1)) [] = [] := by simp [playedAt]
    rw [silent, merge, List.map_nil]
  | cons e notes ih =>
    obtain ⟨others, apart⟩ := List.pairwise_cons.mp apart
    obtain ⟨long, legato⟩ := List.forall_mem_cons.mp legato
    let rest := notes.map (·.movedTo 0) ++ playedAt later (e :: notes)
    have first : playedAt (onsets step (n + 1)) (e :: notes) = e.movedTo 0 :: rest := by
      rw [times, playedAt_cons, List.map_cons, List.cons_append]
    have own := filter_sameNote_playedAt others (onsets step (n + 1))
    have left := filter_not_sameNote_playedAt others (onsets step (n + 1))
    have chain := isChain_onsets forward long n
    have whole := foldl_extend_onsets (e := e) forward n
    simp only [first, List.filter_cons, sameNote_movedTo, sameNote_self, if_true] at own
    simp only [first, List.filter_cons, sameNote_movedTo, sameNote_self, Bool.not_true,
      Bool.false_eq_true, if_false] at left
    rw [← own] at chain whole
    rw [List.foldl_cons, extend_self] at whole
    rw [first, merge_cons, absorb_legato chain]
    simp only [movedTo_sameNote, whole, left, ih apart legato, List.map_cons]

end
end ChordGrammar
