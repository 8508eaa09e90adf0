import ChordGrammar.Oracle.LeastMotion
import ChordGrammar.Oracle.Recorded
import ChordGrammar.Proofs.ScoreOrder
import ChordGrammar.Realization

/-! What is written, whatever the oracle does. Chords are realized one after the other, up
to the first for which that fails or gives pitches of another content. The score holds the
notes of the chords before it and no others, in the order of their onsets, and an onset is
the sum of the durations before it: what a chord sounds longer or shorter does not count. -/
namespace ChordGrammar

open Scalar Score

variable {α σ : Type} [Scalar α]

namespace Turtle

/-- When the chord with this index begins. The durations are added from left to right. -/
def onset (chords : List (Turtle α)) (i : Nat) : α := total ((chords.take i).map duration)

/-- Chords as they are written with the given pitches, as far as these go. -/
def writtenWith (chords : List (Turtle α)) (pitches : List (List α)) : List (Turtle α) :=
  (chords.zip pitches).mapIdx fun i (chord, keys) =>
    { chord with time := onset chords i, realized := some keys }

def notesAt (start : α) (chord : Turtle α) (keys : List α) : List (Event α) :=
  keys.mapIdx fun voice key =>
    { time := start, duration := chord.writtenDuration, status := 144,
      instrument := chord.instruments.forVoice voice, key, velocity := chord.loudness,
      pan := ofNat voice }

def notesWith (chords : List (Turtle α)) (pitches : List (List α)) : List (Event α) :=
  ((chords.zip pitches).mapIdx fun i (chord, keys) => notesAt (onset chords i) chord keys).flatten

section

variable (oracle : Oracle α σ) (chords : List (Turtle α)) (s : σ)

/-- The chords from the first one on are realized with these pitches, which have their
content. In the end the oracle is in the given state. -/
inductive Realized : List (List α) → σ → Prop where
  | start : Realized [] s
  | next {pitches : List (List α)} {chord : Turtle α} {keys : List α} {t u : σ} :
      Realized pitches t → chords[pitches.length]? = some chord →
      (chord.realize oracle (writtenWith chords pitches).getLast?).runFrom t = (.ok keys, u) →
      (PitchClassSet.ofPitches keys).sameContent chord.pitchClasses = true →
      Realized (pitches ++ [keys]) u

/-- The chord after those that are realized can not be, which gives the error. -/
inductive Unrealized (pitches : List (List α)) (t : σ) : GenerationError α → Prop where
  | refused {chord : Turtle α} {cause : OracleError α} {u : σ} :
      chords[pitches.length]? = some chord →
      (chord.realize oracle (writtenWith chords pitches).getLast?).runFrom t = (.error cause, u) →
      Unrealized pitches t (.realization pitches.length chord.pitchClasses cause)
  | mismatched {chord : Turtle α} {keys : List α} {u : σ} :
      chords[pitches.length]? = some chord →
      (chord.realize oracle (writtenWith chords pitches).getLast?).runFrom t = (.ok keys, u) →
      (PitchClassSet.ofPitches keys).sameContent chord.pitchClasses = false →
      Unrealized pitches t (.mismatch pitches.length chord.pitchClasses keys)

end

section

variable {chords : List (Turtle α)} {pitches : List (List α)} {chord : Turtle α} {keys : List α}

theorem onset_succ {i : Nat} (here : chords[i]? = some chord) :
    onset chords (i + 1) = onset chords i + chord.duration := by
  simp [onset, total, List.take_add_one, here]

theorem zip_append_singleton {β γ : Type} {bs : List β} {cs : List γ} {b : β} (c : γ)
    (here : bs[cs.length]? = some b) : bs.zip (cs ++ [c]) = bs.zip cs ++ [(b, c)] := by
  induction cs generalizing bs with
  | nil =>
    cases bs with
    | nil => simp at here
    | cons b' bs => simpa using here
  | cons c' cs ih =>
    cases bs with
    | nil => simp at here
    | cons b' bs => simpa using ih (by simpa using here)

theorem length_zip_of_getElem? {β γ : Type} {bs : List β} {cs : List γ} {b : β}
    (here : bs[cs.length]? = some b) : (bs.zip cs).length = cs.length := by
  obtain ⟨inside, -⟩ := List.getElem?_eq_some_iff.mp here
  rw [List.length_zip]
  omega

theorem writtenWith_next (keys : List α) (here : chords[pitches.length]? = some chord) :
    writtenWith chords (pitches ++ [keys]) = writtenWith chords pitches ++
      [{ chord with time := onset chords pitches.length, realized := some keys }] := by
  simp [writtenWith, zip_append_singleton keys here, length_zip_of_getElem? here]

theorem notesWith_next (keys : List α) (here : chords[pitches.length]? = some chord) :
    notesWith chords (pitches ++ [keys]) = notesWith chords pitches ++
      notesAt (onset chords pitches.length) chord keys := by
  simp [notesWith, zip_append_singleton keys here, length_zip_of_getElem? here]

theorem time_of_mem_notesWith {note : Event α} (member : note ∈ notesWith chords pitches) :
    ∃ i < chords.length, note.time = onset chords i := by
  obtain ⟨notes, listed, member⟩ := List.mem_flatten.mp member
  obtain ⟨i, inside, rfl⟩ := List.mem_mapIdx.mp listed
  obtain ⟨voice, _, rfl⟩ := List.mem_mapIdx.mp member
  rw [List.length_zip] at inside
  exact ⟨i, by omega, rfl⟩

variable {oracle : Oracle α σ} {s t : σ}

theorem Realized.length_le (realized : Realized oracle chords s pitches t) :
    pitches.length ≤ chords.length := by
  cases realized with
  | start => exact Nat.zero_le _
  | next _ here =>
    obtain ⟨inside, -⟩ := List.getElem?_eq_some_iff.mp here
    simpa using inside

theorem Unrealized.length_eq {n : Nat} {content : PitchClassSet α} {cause : OracleError α}
    (unrealized : Unrealized oracle chords pitches t (.realization n content cause)) :
    pitches.length = n := by
  cases unrealized
  rfl

theorem Realized.onsetAfter_eq (realized : Realized oracle chords s pitches t) :
    onsetAfter (writtenWith chords pitches).getLast? = onset chords pitches.length := by
  cases realized with
  | start => simp [writtenWith, onsetAfter, onset, total]
  | next _ here => simp [writtenWith_next _ here, onsetAfter, onset_succ here]

/-- How the rest of the chords is written after those that are realized. -/
structure WritesOn (oracle : Oracle α σ) (chords : List (Turtle α)) (s : σ)
    (pitches : List (List α)) (outcome : Except (GenerationError α) (List (Turtle α)) × Score α × σ)
    (all : List (List α)) (t : σ) : Prop where
  realized : Realized oracle chords s all t
  score : StablyOrdered (notesWith chords all) outcome.2.1.events.toList
  answer :
    (all.length = chords.length ∧ ∃ written, outcome.1 = .ok written ∧
      writtenWith chords all = writtenWith chords pitches ++ written) ∨
    ∃ e, outcome.1 = .error e ∧ Unrealized oracle chords all t e

theorem WritesOn.cons {start : α} {others : List (Turtle α)} {after : Score α × σ}
    {all : List (List α)} (later : WritesOn oracle chords s (pitches ++ [keys]) (.ok others, after) all t)
    (here : chords[pitches.length]? = some chord) (begins : start = onset chords pitches.length) :
    WritesOn oracle chords s pitches
      (.ok ({ chord with time := start, realized := some keys } :: others), after) all t := by
  obtain ⟨realized, score, answer⟩ := later
  refine ⟨realized, score, ?_⟩
  rcases answer with ⟨complete, _, finished, written⟩ | ⟨e, failed, -⟩
  · cases finished
    refine .inl ⟨complete, _, rfl, ?_⟩
    rw [written, writtenWith_next keys here, begins, List.append_assoc, List.singleton_append]
  · cases failed

theorem WritesOn.failed {e : GenerationError α} {after : Score α × σ} {all : List (List α)}
    (later : WritesOn oracle chords s (pitches ++ [keys]) (.error e, after) all t) :
    WritesOn oracle chords s pitches (.error e, after) all t := by
  obtain ⟨realized, score, answer⟩ := later
  refine ⟨realized, score, .inr ?_⟩
  rcases answer with ⟨-, _, finished, -⟩ | unrealized
  · cases finished
  · exact unrealized

variable [LawfulOrder α]

theorem write_stablyOrdered {score : Score α} {start : α}
    (sorted : StablyOrdered (notesWith chords pitches) score.events.toList)
    (numbers : ∀ i < chords.length, IsNumber (onset chords i))
    (here : chords[pitches.length]? = some chord) (keys : List α)
    (begins : start = onset chords pitches.length) :
    StablyOrdered (notesWith chords (pitches ++ [keys]))
      (({ chord with time := start, realized := some keys }).write score).events.toList := by
  have same : ({ chord with time := start, realized := some keys }).notes =
      notesAt (onset chords pitches.length) chord keys := by
    rw [begins]
    rfl
  have whole := notesWith_next keys here
  rw [Turtle.write, same, whole]
  apply sorted.appendAll
  intro note member
  rw [← whole] at member
  obtain ⟨i, inside, time⟩ := time_of_mem_notesWith member
  rw [time]
  exact numbers i inside

/-- The induction is on the chords that are left. What holds before a chord is written holds
after it with one chord more. -/
theorem writeFrom_writesOn (oracle : Oracle α σ)
    (numbers : ∀ i < chords.length, IsNumber (onset chords i)) (rest : List (Turtle α))
    (left : chords.drop pitches.length = rest)
    (realized : Realized oracle chords s pitches t) {score : Score α}
    (sorted : StablyOrdered (notesWith chords pitches) score.events.toList) :
    ∃ all u, WritesOn oracle chords s pitches
      ((writeFrom oracle pitches.length (writtenWith chords pitches).getLast? rest).runFrom
        (score, t)) all u := by
  induction rest generalizing pitches score t with
  | nil =>
    have done : chords.length ≤ pitches.length := List.drop_eq_nil_iff.mp left
    have complete : pitches.length = chords.length := Nat.le_antisymm realized.length_le done
    exact ⟨pitches, t, realized, sorted, .inl ⟨complete, [], rfl, (List.append_nil _).symm⟩⟩
  | cons chord rest ih =>
    have here : chords[pitches.length]? = some chord := by
      rw [← List.head?_drop, left, List.head?_cons]
    have begins := realized.onsetAfter_eq
    have step := writeFrom_step oracle pitches.length (writtenWith chords pitches).getLast? chord
      rest score t
    generalize (writeFrom oracle pitches.length _ (chord :: rest)).runFrom _ = outcome at step ⊢
    cases step with
    | refused asked => exact ⟨pitches, t, realized, sorted, .inr ⟨_, rfl, .refused here asked⟩⟩
    | mismatched asked content =>
      exact ⟨pitches, t, realized, sorted, .inr ⟨_, rfl, .mismatched here asked content⟩⟩
    | @written keys u _ ended after asked content kept rested =>
      have others : chords.drop (pitches ++ [keys]).length = rest := by
        rw [List.length_append, ← List.drop_drop, left, List.length_singleton, List.drop_one,
          List.tail_cons]
      have next := realized.next here asked content
      obtain ⟨all, v, later⟩ :=
        ih others next (write_stablyOrdered sorted numbers here keys begins)
      rw [writtenWith_next keys here, List.getLast?_concat, List.length_append,
        List.length_singleton, ← begins, ← kept, rested] at later
      cases ended with
      | error e => exact ⟨all, v, later.failed⟩
      | ok others =>
        rw [kept]
        exact ⟨all, v, later.cons here begins⟩

end

/-- Chords are written up to the first that can not be realized, whose index the error has.
The score then holds exactly the notes of the chords before it, in the order of their onsets.
Chords that are written are those that were captured but for the time and the pitches. -/
theorem writeAll_writes_realized [LawfulOrder α] (oracle : Oracle α σ) (chords : List (Turtle α))
    (s : σ) (numbers : ∀ i < chords.length, IsNumber (onset chords i)) :
    let outcome := (writeAll oracle chords).runFrom (.empty, s)
    ∃ pitches t, Realized oracle chords s pitches t ∧
      StablyOrdered (notesWith chords pitches) outcome.2.1.events.toList ∧
      ((pitches.length = chords.length ∧ outcome.1 = .ok (writtenWith chords pitches)) ∨
        ∃ e, outcome.1 = .error e ∧ Unrealized oracle chords pitches t e) := by
  intro outcome
  have nothing : StablyOrdered (notesWith chords []) (Score.empty : Score α).events.toList := by
    simpa [notesWith, Score.empty] using StablyOrdered.nil
  have unwritten : writtenWith chords [] = [] := by simp [writtenWith]
  obtain ⟨pitches, t, realized, score, answer⟩ :=
    writeFrom_writesOn oracle numbers chords rfl .start nothing
  rw [unwritten] at score answer
  refine ⟨pitches, t, realized, score, ?_⟩
  rcases answer with ⟨complete, written, finished, all⟩ | failed
  · rw [all]
    exact .inl ⟨complete, finished⟩
  · exact .inr failed

/-- The second chord sounds before the first, and the third one is refused. -/
theorem writeAll_writes_realized_backwards :
    let oracle : Oracle Float (VoicingCache Float) :=
      leastMotion.withAnswers { lead := some (.refusal "no way there") }
    let fifth : Turtle Float :=
      { Turtle.initial with pitchClasses := .ofPitches [0, 7], duration := -2, overlap := 3 }
    let third : Turtle Float := { fifth with pitchClasses := .ofPitches [0, 4], voiceLead := true }
    let chords := [fifth, fifth, third]
    let outcome := (writeAll oracle chords).runFrom (.empty, .empty)
    (∀ i < chords.length, IsNumber (onset chords i)) ∧ onset chords 1 < onset chords 0 ∧
      ∃ pitches t, Realized oracle chords .empty pitches t ∧ pitches.length = 2 ∧
        StablyOrdered (notesWith chords pitches) outcome.2.1.events.toList ∧
        outcome.2.1.events.toList.map (fun note => (note.time, note.key)) =
          [(-2, 0), (-2, 7), (0, 0), (0, 7)] ∧
        outcome.1 = .error (.realization 2 third.pitchClasses (.refused "no way there")) := by
  intro oracle fifth third chords outcome
  have numbers : ∀ i < chords.length, IsNumber (onset chords i) := by decide +kernel
  have backwards : onset chords 1 < onset chords 0 := by decide +kernel
  have notes : outcome.2.1.events.toList.map (fun note => (note.time, note.key)) =
      [(-2, 0), (-2, 7), (0, 0), (0, 7)] := by decide +kernel
  have error : (match outcome.1 with
      | .error (.realization index chord (.refused reason)) =>
        decide (index = 2 ∧ chord.voices = third.pitchClasses.voices ∧ reason = "no way there")
      | _ => false) = true := by decide +kernel
  have claimed := writeAll_writes_realized oracle chords VoicingCache.empty numbers
  generalize ran : (writeAll oracle chords).runFrom (.empty, VoicingCache.empty) = result at claimed
  have same : outcome = result := ran
  clear_value outcome
  subst same
  obtain ⟨pitches, t, realized, score, answer⟩ := claimed
  split at error
  · next index chord reason refused =>
    obtain ⟨rfl, voices, rfl⟩ := of_decide_eq_true error
    have same : chord = third.pitchClasses := PitchClassSet.ext voices
    rw [same] at refused
    refine ⟨numbers, backwards, pitches, t, realized, ?_, score, notes, refused⟩
    rcases answer with ⟨-, written⟩ | ⟨e, failed, unrealized⟩
    · cases written.symm.trans refused
    · rw [Except.error.inj (failed.symm.trans refused)] at unrealized
      exact unrealized.length_eq
  · cases error

end Turtle
end ChordGrammar
