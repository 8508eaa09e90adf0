import ChordGrammar.Proofs.NoteByNote
import ChordGrammar.Proofs.ScoreOrder
import ChordGrammar.Score.History

/-! A score in use stays in a stable order. The place of a new event is found in a score that
is in order, and what survives tying keeps its onset and its place among the others, so both
can be done in any order. The order of the calls is read from the log. -/
namespace ChordGrammar

open Scalar Score

variable {α : Type} [Scalar α]

/-! Tying entries is tying their events. -/

theorem Event.map_absorbEntries (e : Event α) (entries : List (Entry α)) :
    (e.absorbEntries entries).map Entry.event = (e.absorb (entries.map Entry.event)).2 := by
  induction entries generalizing e with
  | nil => rfl
  | cons later rest ih =>
    rw [absorbEntries, List.map_cons, absorb]
    split
    · simpa using ih e
    · split
      · rfl
      · exact ih (e.extend later.event)

theorem map_mergeEntries (entries : List (Entry α)) :
    (mergeEntries entries).map Entry.event = merge (entries.map Entry.event) := by
  induction entries using mergeEntries.induct with
  | case1 => simp [mergeEntries, merge]
  | case2 entry rest ih =>
    rw [mergeEntries, List.map_cons, List.map_cons, merge_cons, ih, Event.map_absorbEntries]

/-- An entry that survives goes back to the same call, and its event is changed in duration
alone. -/
theorem mergeEntries_origin {entries : List (Entry α)} {entry : Entry α}
    (survives : entry ∈ mergeEntries entries) :
    ∃ origin ∈ entries, entry.call = origin.call ∧
      origin.event.SameButDuration entry.event := by
  induction entries using mergeEntries.induct with
  | case1 => simp [mergeEntries] at survives
  | case2 first rest ih =>
    rw [mergeEntries, List.mem_cons] at survives
    rcases survives with rfl | survives
    · exact ⟨first, List.mem_cons_self, rfl, Event.absorb_sameButDuration _ _⟩
    · obtain ⟨origin, member, same⟩ := ih survives
      have kept := (first.event.absorbEntries_sublist rest).subset member
      exact ⟨origin, List.mem_cons_of_mem first kept, same⟩

namespace Score

/-- Whether an entry belongs before another: its event begins earlier, or at the same onset
and was appended earlier. -/
def Entry.Precedes (a b : Entry α) : Prop :=
  a.event.time ≤ b.event.time ∧ (equal a.event.time b.event.time = true → a.call < b.call)

theorem Entry.Precedes.of_same {a b a' b' : Entry α} (precedes : a.Precedes b)
    (call : a'.call = a.call) (time : a'.event.time = a.event.time) (call' : b'.call = b.call)
    (time' : b'.event.time = b.event.time) : a'.Precedes b' := by
  unfold Precedes
  rw [call, call', time, time']
  exact precedes

theorem mergeEntries_ordered {entries : List (Entry α)}
    (ordered : entries.Pairwise Entry.Precedes) :
    (mergeEntries entries).Pairwise Entry.Precedes := by
  induction entries using mergeEntries.induct with
  | case1 => simp [mergeEntries]
  | case2 first rest ih =>
    obtain ⟨least, others⟩ := List.pairwise_cons.mp ordered
    have kept := first.event.absorbEntries_sublist rest
    rw [mergeEntries]
    refine List.pairwise_cons.mpr ⟨fun entry survives => ?_, ih (others.sublist kept)⟩
    obtain ⟨origin, member, call, same⟩ := mergeEntries_origin survives
    have longer := Event.absorb_sameButDuration first.event (rest.map Entry.event)
    exact (least origin (kept.subset member)).of_same rfl longer.time_eq call same.time_eq

namespace Log

theorem score_act (log : Log α) (action : Action α) :
    (log.act action).score = log.score.act action := by
  cases action with
  | append e =>
    have events : (log.act (.append e)).score.events = (log.score.append e).events := by
      apply Array.toList_inj.mp
      rw [append_toList, score_toList, score_toList]
      exact List.map_insertIdx ..
    exact congrArg Score.mk events
  | merge => exact congrArg (fun events => Score.mk events.toArray) (map_mergeEntries log.entries)
  | clear => rfl

theorem score_after (history : List (Action α)) : (after history).score = Score.after history := by
  induction history using List.reverseRecOn with
  | nil => rfl
  | append_singleton history action ih =>
    rw [after_snoc, score_act, ih, Score.after_snoc]

/-- What the log says when these events have been appended since the last clearing: each entry
goes back to a call and differs from what was appended in duration alone. -/
structure Valid (calls : List (Event α)) (log : Log α) : Prop where
  counted : log.calls = calls.length
  brought : ∀ entry ∈ log.entries, ∃ e, calls[entry.call]? = some e ∧
    e.SameButDuration entry.event
  ordered : log.entries.Pairwise Entry.Precedes

variable {calls : List (Event α)} {log : Log α}

theorem Valid.empty : Valid ([] : List (Event α)) Log.empty :=
  ⟨rfl, by simp [Log.empty], .nil⟩

theorem Valid.call_lt (valid : Valid calls log) {entry : Entry α} (member : entry ∈ log.entries) :
    entry.call < log.calls := by
  obtain ⟨e, found, -⟩ := valid.brought entry member
  exact valid.counted ▸ (List.getElem?_eq_some_iff.mp found).1

theorem Valid.number (valid : Valid calls log) (numbers : ∀ e ∈ calls, IsNumber e.time)
    {entry : Entry α} (member : entry ∈ log.entries) : IsNumber entry.event.time := by
  obtain ⟨e, found, same⟩ := valid.brought entry member
  rw [same.time_eq]
  exact numbers e (List.mem_of_getElem? found)

theorem Valid.merge (valid : Valid calls log) : Valid calls (log.act .merge) := by
  refine ⟨valid.counted, fun entry survives => ?_, mergeEntries_ordered valid.ordered⟩
  obtain ⟨origin, member, call, same⟩ := mergeEntries_origin survives
  obtain ⟨e, found, first⟩ := valid.brought origin member
  exact ⟨e, call ▸ found, first.trans same⟩

theorem Valid.ordered_events (valid : Valid calls log) :
    log.score.events.toList.Pairwise (·.time ≤ ·.time) :=
  List.pairwise_map.mpr (valid.ordered.imp And.left)

theorem append_split {e : Event α} (parted : log.score.PartitionedAt e.time) :
    ∃ before after, log.entries = before ++ after ∧
      (log.act (.append e)).entries = before ++ ⟨log.calls, e⟩ :: after ∧
      (∀ a ∈ before, a.event.time ≤ e.time) ∧ ∀ a ∈ after, ¬ a.event.time ≤ e.time := by
  have inside : log.score.position e.time ≤ log.entries.length := by
    simpa [score] using (position_spec parted).1
  refine ⟨_, _, (List.take_append_drop (log.score.position e.time) _).symm,
    insertIdx_eq_take_drop inside _, fun a member => ?_, fun a member => ?_⟩
  · apply early_of_mem_take parted
    rw [score_toList, ← List.map_take]
    exact List.mem_map_of_mem member
  · apply late_of_mem_drop parted
    rw [score_toList, ← List.map_drop]
    exact List.mem_map_of_mem member

variable [LawfulOrder α]

theorem Valid.append (valid : Valid calls log) (numbers : ∀ e ∈ calls, IsNumber e.time)
    {e : Event α} (number : IsNumber e.time) : Valid (calls ++ [e]) (log.act (.append e)) := by
  have parted := partitionedAt_of_ordered valid.ordered_events e.time
  obtain ⟨before, after, whole, appended, early, late⟩ := append_split parted
  constructor
  case counted => simp [act, valid.counted]
  case brought =>
    intro entry member
    rcases List.eq_or_mem_of_mem_insertIdx member with rfl | member
    · exact ⟨e, by simp [valid.counted], rfl⟩
    · obtain ⟨brought, found, same⟩ := valid.brought entry member
      have earlier : entry.call < calls.length := valid.counted ▸ valid.call_lt member
      exact ⟨brought, (List.getElem?_append_left earlier).trans found, same⟩
  case ordered =>
    have ordered := valid.ordered
    rw [whole] at ordered
    obtain ⟨first, second, across⟩ := List.pairwise_append.mp ordered
    rw [appended]
    refine List.pairwise_append.mpr ⟨first, List.pairwise_cons.mpr ⟨?_, second⟩, ?_⟩
    · intro b member
      have known : IsNumber b.event.time := valid.number numbers (by simp [whole, member])
      refine ⟨(LawfulOrder.le_total known number).resolve_left (late b member), fun same => ?_⟩
      exact absurd (equal_iff_le.mp same).2 (late b member)
    · intro a member b other
      rcases List.mem_cons.mp other with rfl | other
      · exact ⟨early a member, fun _ => valid.call_lt (by simp [whole, member])⟩
      · exact across a member b other

end Log

variable [LawfulOrder α] {history : List (Action α)}

/-- Every history leaves a valid log, if the onsets since the last clearing are numbers. -/
theorem Log.valid_after (numbers : ∀ e ∈ appended history, IsNumber e.time) :
    Valid (appended history) (Log.after history) := by
  induction history using List.reverseRecOn with
  | nil => exact .empty
  | append_singleton history action ih =>
    rw [Log.after_snoc]
    cases action with
    | append e =>
      rw [appended_append] at numbers ⊢
      obtain ⟨earlier, last⟩ := List.forall_mem_append.mp numbers
      exact (ih earlier).append earlier (last e List.mem_cons_self)
    | merge =>
      rw [appended_merge] at numbers ⊢
      exact (ih numbers).merge
    | clear =>
      rw [appended_clear]
      exact .empty

/-- As long as nothing is tied, a score holds what was appended, in a stable order. -/
theorem stablyOrdered_after (numbers : ∀ e ∈ appended history, IsNumber e.time)
    (untied : .merge ∉ sinceClear history) :
    StablyOrdered (appended history) (after history).events.toList := by
  induction history using List.reverseRecOn with
  | nil => exact .nil
  | append_singleton history action ih =>
    rw [after_snoc]
    cases action with
    | append e =>
      rw [appended_append] at numbers ⊢
      obtain ⟨earlier, last⟩ := List.forall_mem_append.mp numbers
      have sorted := ih earlier (by simpa [sinceClear] using untied)
      exact sorted.append earlier (last e List.mem_cons_self)
    | merge => simp [sinceClear] at untied
    | clear =>
      rw [appended_clear]
      exact .nil

/-- Whatever is appended, tied and cleared, the events are in the order of their onsets, and
those of the same onset in the order of the calls that appended them. Until something is tied
they are all that was appended since the last clearing, in the one stable order there is.
What was appended before that need not have begun at a number. -/
theorem after_stable (history : List (Action α))
    (numbers : ∀ e ∈ appended history, IsNumber e.time) :
    let entries := (Log.after history).entries
    let calls := appended history
    let events := (after history).events.toList
    entries.map Entry.event = events ∧
    (∀ entry ∈ entries, ∃ e, calls[entry.call]? = some e ∧ e.SameButDuration entry.event) ∧
    events.Pairwise (·.time ≤ ·.time) ∧
    entries.Pairwise (fun a b => equal a.event.time b.event.time = true → a.call < b.call) ∧
    (.merge ∉ sinceClear history →
      StablyOrdered calls events ∧ ∀ others, StablyOrdered calls others → others = events) := by
  intro entries calls events
  have valid : Log.Valid calls (Log.after history) := Log.valid_after numbers
  have score : (Log.after history).score = after history := Log.score_after history
  have ordered := valid.ordered_events
  rw [score] at ordered
  refine ⟨congrArg (·.events.toList) score, valid.brought, ordered, valid.ordered.imp And.right,
    fun untied => ?_⟩
  have stable : StablyOrdered calls events := stablyOrdered_after numbers untied
  exact ⟨stable, fun others second => second.unique stable numbers⟩

/-- Zeros of either sign are one onset, and what is cleared away did not begin at a number. -/
theorem after_stable_zeros :
    let event (time key : Float) : Event Float := ⟨time, 2, noteOn, 0, key, 60, 0⟩
    let history : List (Action Float) :=
      [.append (event (0 / 0) 60), .clear, .append (event 1 60), .append (event 0 62),
        .append (event (1 / 0) 60), .append (event (-0) 60), .append (event 1 60)]
    let tied := history ++ [.merge, .append (event 0 60)]
    (∀ others, StablyOrdered (appended history) others → others =
      [event 0 62, event (-0) 60, event 1 60, event 1 60, event (1 / 0) 60]) ∧
    (Log.after tied).entries.map Entry.call = [1, 3, 5, 2] ∧
    (Log.after tied).entries.Pairwise
      (fun a b => equal a.event.time b.event.time = true → a.call < b.call) := by
  intro event history tied
  obtain ⟨-, -, -, -, untied⟩ := after_stable history (by decide +kernel)
  obtain ⟨-, -, -, ordered, -⟩ := after_stable tied (by decide +kernel)
  refine ⟨fun others stable => ?_, by decide +kernel, ordered⟩
  rw [(untied (by decide +kernel)).2 others stable]
  decide +kernel

end Score
end ChordGrammar
