import ChordGrammar.Proofs.Legato
import ChordGrammar.Proofs.Writing
import ChordGrammar.Proofs.WrittenNotes

/-! Writing the same chord again and again. Placed anew or led from the copy before, every copy
has the pitches of the first one. So the copies are tied exactly if they are legato. -/
namespace ChordGrammar.Turtle

open Scalar Score

variable {chord : Turtle Rat} {keys : List Rat} {cache : VoicingCache Rat}

theorem mapIdx_replicate {β γ : Type} (f : Nat → β → γ) (b : β) (n : Nat) :
    (List.replicate n b).mapIdx f = (List.range n).map (f · b) := by
  apply List.ext_getElem <;> simp

theorem writtenWith_replicate (chord : Turtle Rat) (keys : List Rat) {m n : Nat} (part : m ≤ n) :
    writtenWith (List.replicate n chord) (List.replicate m keys) =
      (List.range m).map fun i =>
        { chord with time := onset (List.replicate n chord) i, realized := some keys } := by
  rw [writtenWith, List.zip_replicate, Nat.min_eq_right part, mapIdx_replicate]

theorem notesWith_replicate (chord : Turtle Rat) (keys : List Rat) (n : Nat) :
    notesWith (List.replicate n chord) (List.replicate n keys) =
      (List.range n).flatMap fun i => notesAt (onset (List.replicate n chord) i) chord keys := by
  rw [notesWith, List.zip_replicate', mapIdx_replicate, List.flatMap_def]

theorem onset_replicate (chord : Turtle Rat) {i n : Nat} (inside : i ≤ n) :
    onset (List.replicate n chord) i = i * chord.duration := by
  simp [onset, total_eq_sum, List.take_replicate, Nat.min_eq_left inside]

section

variable (placed : ∀ cache, ((chord.place leastMotion).runFrom cache).1 = .ok keys) {n : Nat}
  {pitches : List (List Rat)} {t : VoicingCache Rat}
include placed

theorem realize_copy {prior : Option (Turtle Rat)}
    (alike : ∀ before ∈ prior, ∃ start, before = { chord with time := start, realized := some keys })
    (cache : VoicingCache Rat) : ((chord.realize leastMotion prior).runFrom cache).1 = .ok keys := by
  cases prior with
  | none => exact placed cache
  | some before =>
    obtain ⟨start, rfl⟩ := alike before rfl
    rw [realize_after rfl]
    by_cases led : chord.voiceLead = true
    · simp [led, PitchClassSet.sameContent_iff]
    · simp [led, placed]

theorem realize_next {next : Turtle Rat} {u : VoicingCache Rat}
    {answer : Except (OracleError Rat) (List Rat)}
    (copies : pitches = List.replicate pitches.length keys)
    (here : (List.replicate n chord)[pitches.length]? = some next)
    (asked : (next.realize leastMotion
      (writtenWith (List.replicate n chord) pitches).getLast?).runFrom t = (answer, u)) :
    next = chord ∧ answer = .ok keys := by
  obtain ⟨inside, rfl⟩ : pitches.length < n ∧ chord = next := by
    simpa [List.getElem?_replicate, Option.ite_none_right_eq_some] using here
  have alike : ∀ before ∈ (writtenWith (List.replicate n chord) pitches).getLast?,
      ∃ start, before = { chord with time := start, realized := some keys } := by
    intro before last
    rw [copies, writtenWith_replicate chord keys inside.le] at last
    obtain ⟨i, -, rfl⟩ := List.mem_map.mp (List.mem_of_getLast? last)
    exact ⟨_, rfl⟩
  have same := realize_copy placed alike t
  rw [asked] at same
  exact ⟨rfl, same⟩

theorem Realized.eq_replicate
    (realized : Realized leastMotion (List.replicate n chord) cache pitches t) :
    pitches = List.replicate pitches.length keys := by
  induction realized with
  | start => rfl
  | next _ here asked _ ih =>
    obtain ⟨-, same⟩ := realize_next placed ih here asked
    rw [ih, Except.ok.inj same]
    simp [← List.replicate_succ']

theorem not_unrealized {e : GenerationError Rat}
    (content : (PitchClassSet.ofPitches keys).sameContent chord.pitchClasses = true)
    (copies : pitches = List.replicate pitches.length keys) :
    ¬ Unrealized leastMotion (List.replicate n chord) pitches t e := by
  intro unrealized
  cases unrealized with
  | refused here asked =>
    obtain ⟨-, refusal⟩ := realize_next placed copies here asked
    cases refusal
  | mismatched here asked other =>
    obtain ⟨rfl, same⟩ := realize_next placed copies here asked
    rw [Except.ok.inj same, content] at other
    cases other

end

theorem notesAt_eq_map (chord : Turtle Rat) (keys : List Rat) (start : Rat) :
    notesAt start chord keys = (notesAt 0 chord keys).map (·.movedTo start) := by
  apply List.ext_getElem <;> simp [notesAt, Event.movedTo]

theorem flatMap_notesAt (chord : Turtle Rat) (keys : List Rat) (n : Nat) :
    (List.range n).flatMap (fun i : Nat => notesAt (i * chord.duration) chord keys) =
      playedAt (onsets chord.duration n) (notesAt 0 chord keys) := by
  simp only [playedAt, onsets, List.flatMap_map, ← notesAt_eq_map]

/-- Voices that have not both the instrument and the key of another one. -/
theorem notesAt_apart
    (distinct : (keys.mapIdx fun voice key => (chord.instruments.forVoice voice, key)).Nodup)
    (start : Rat) : (notesAt start chord keys).Pairwise fun a b => a.sameNote b = false := by
  have named : (notesAt start chord keys).map (fun e => (e.instrument, e.key)) =
      keys.mapIdx fun voice key => (chord.instruments.forVoice voice, key) := by
    apply List.ext_getElem <;> simp [notesAt]
  rw [← named] at distinct
  refine (List.pairwise_map.mp distinct).imp fun {a b} other => ?_
  refine Bool.eq_false_of_not_eq_true fun same => other ?_
  obtain ⟨keys, instruments⟩ := Event.sameNote_iff.mp same
  rw [keys, instruments]

theorem duration_of_mem_notesAt {start : Rat} {note : Event Rat}
    (member : note ∈ notesAt start chord keys) : note.duration = chord.writtenDuration := by
  obtain ⟨voice, _, rfl⟩ := List.mem_mapIdx.mp member
  rfl

theorem writtenDuration_legato (lasting : 0 < chord.duration) (legato : 0 < chord.overlap) :
    chord.writtenDuration = chord.duration + chord.overlap := by
  have sounds : ¬ chord.duration + chord.overlap < 0 := by linarith
  exact if_neg sounds

theorem writtenDuration_detached (lasting : 0 < chord.duration) (detached : chord.overlap ≤ 0) :
    0 ≤ chord.writtenDuration ∧ chord.writtenDuration ≤ chord.duration := by
  by_cases short : chord.duration + chord.overlap < 0
  · have half : chord.writtenDuration = chord.duration / 2 := if_pos short
    rw [half]
    constructor <;> linarith
  · have whole : chord.writtenDuration = chord.duration + chord.overlap := if_neg short
    rw [whole]
    constructor <;> linarith

/-- Copies of a chord that has room are written, with the pitches it is placed at. -/
theorem writeAll_replicate (placed : ∀ cache, ((chord.place leastMotion).runFrom cache).1 = .ok keys)
    (content : (PitchClassSet.ofPitches keys).sameContent chord.pitchClasses = true) (n : Nat)
    (lasting : 0 < chord.duration) (cache : VoicingCache Rat) :
    let outcome := (writeAll leastMotion (List.replicate n chord)).runFrom (.empty, cache)
    outcome.1 = .ok ((List.range n).map fun i : Nat =>
      { chord with time := i * chord.duration, realized := some keys }) ∧
    outcome.2.1.events.toList =
      (List.range n).flatMap fun i : Nat => notesAt (i * chord.duration) chord keys := by
  intro outcome
  let chords := List.replicate n chord
  have nothing : StablyOrdered (notesWith chords []) (Score.empty : Score Rat).events.toList := by
    simpa [notesWith, Score.empty] using StablyOrdered.nil
  have unwritten : writtenWith chords [] = [] := by simp [writtenWith]
  obtain ⟨pitches, t, realized, score, answer⟩ := writeFrom_writesOn leastMotion
    (fun i _ => le_refl (onset chords i)) chords rfl (.start (s := cache)) nothing
  rw [unwritten] at score answer
  have copies := realized.eq_replicate placed
  rcases answer with ⟨complete, written, finished, all⟩ | ⟨e, -, unrealized⟩
  · rw [List.length_replicate] at complete
    rw [complete] at copies
    subst copies
    have regular {i : Nat} (member : i ∈ List.range n) : onset chords i = i * chord.duration :=
      onset_replicate chord (List.mem_range.mp member).le
    constructor
    · have found : outcome.1 = .ok written := finished
      rw [found, ← List.nil_append written, ← all, writtenWith_replicate chord keys (le_refl n)]
      exact congrArg Except.ok (List.map_congr_left fun i member => by rw [regular member])
    · have notes : notesWith chords (List.replicate n keys) =
          (List.range n).flatMap fun i : Nat => notesAt (i * chord.duration) chord keys := by
        rw [notesWith_replicate]
        exact List.flatMap_congr fun i member => by rw [regular member]
      rw [notes] at score
      have ordered := playedAt_ordered lasting (notesAt 0 chord keys) n
      rw [← flatMap_notesAt] at ordered
      exact score.unique ⟨.refl _, ordered, fun _ => rfl⟩ fun note _ => le_refl note.time
  · exact absurd unrealized (not_unrealized placed content copies)

@[simp] theorem length_notesAt (start : Rat) (chord : Turtle Rat) (keys : List Rat) :
    (notesAt start chord keys).length = keys.length := by
  simp [notesAt]

theorem notesAt_movedTo_zero (chord : Turtle Rat) (keys : List Rat) (duration : Rat) :
    (notesAt 0 chord keys).map (fun e => (e.movedTo 0).lasting duration) =
      (notesAt 0 chord keys).map (·.lasting duration) := by
  rw [notesAt_eq_map chord keys 0, List.map_map, List.map_map]
  rfl

section

variable (distinct : (keys.mapIdx fun voice key => (chord.instruments.forVoice voice, key)).Nodup)
  (lasting : 0 < chord.duration)
include distinct lasting

theorem merge_copies_legato (legato : 0 < chord.overlap) {n : Nat} (positive : 0 < n) :
    merge (playedAt (onsets chord.duration n) (notesAt 0 chord keys)) =
      (notesAt 0 chord keys).map (·.lasting (n * chord.duration + chord.overlap)) := by
  obtain ⟨later, rfl⟩ := Nat.exists_eq_succ_of_ne_zero positive.ne'
  have written (note : Event Rat) (member : note ∈ notesAt 0 chord keys) :
      note.duration = chord.duration + chord.overlap :=
    (duration_of_mem_notesAt member).trans (writtenDuration_legato lasting legato)
  have long : ∀ note ∈ notesAt 0 chord keys, chord.duration < note.duration := by
    intro note member
    rw [written note member]
    linarith
  rw [merge_playedAt_legato (notesAt_apart distinct 0) lasting long, ← notesAt_movedTo_zero]
  refine List.map_congr_left fun note member => ?_
  rw [written note member, Nat.cast_succ]
  congr 1
  ring

theorem merge_copies_detached (detached : chord.overlap ≤ 0) (n : Nat) :
    merge (playedAt (onsets chord.duration n) (notesAt 0 chord keys)) =
      playedAt (onsets chord.duration n) (notesAt 0 chord keys) := by
  refine merge_playedAt_detached (notesAt_apart distinct 0) (fun note member => ?_) n
  rw [duration_of_mem_notesAt member]
  exact writtenDuration_detached lasting detached

end

/-- Copies of a chord, written one after the other, are tied exactly if they are legato: then one
note of every voice is left, which lasts as long as all copies together and the overlap of the
last one. Otherwise merging takes nothing away. It does not matter whether the copies are led. -/
theorem copies_tied_exactly_if_legato (fits : chord.pitchClasses.Voiceable chord.range)
    (lasting : 0 < chord.duration) {n : Nat} (positive : 0 < n) (cache : VoicingCache Rat) :
    let outcome := (writeAll leastMotion (List.replicate n chord)).runFrom (.empty, cache)
    let score := outcome.2.1
    ∃ keys, (∀ cache', ((chord.place leastMotion).runFrom cache').1 = .ok keys) ∧
      Realizes keys chord.pitchClasses chord.range ∧
      keys.length = chord.pitchClasses.voices.length ∧
      outcome.1 = .ok ((List.range n).map fun i : Nat =>
        { chord with time := i * chord.duration, realized := some keys }) ∧
      score.events.toList =
        ((List.range n).flatMap fun i : Nat => notesAt (i * chord.duration) chord keys) ∧
      score.size = n * keys.length ∧
      ((keys.mapIdx fun voice key => (chord.instruments.forVoice voice, key)).Nodup →
        (0 < chord.overlap →
          score.mergeOverlapping.events.toList = (notesAt 0 chord keys).map
            (·.lasting (n * chord.duration + chord.overlap)) ∧
          score.mergeOverlapping.size = keys.length) ∧
        (chord.overlap ≤ 0 → score.mergeOverlapping = score ∧ score.mergedAway = 0)) := by
  intro outcome score
  obtain ⟨keys, realizes, placed⟩ := place_voiceable fits
  obtain ⟨written, events⟩ := writeAll_replicate placed realizes.content n lasting cache
  have played : score.events.toList = playedAt (onsets chord.duration n) (notesAt 0 chord keys) :=
    events.trans (flatMap_notesAt chord keys n)
  refine ⟨keys, placed, realizes, by simpa using realizes.perm.length_eq, written, events, ?_,
    fun distinct => ⟨fun legato => ?_, fun detached => ?_⟩⟩
  · rw [Score.size, ← Array.length_toList, events]
    simp [List.length_flatMap]
  · have tied : score.mergeOverlapping.events.toList = (notesAt 0 chord keys).map
        (·.lasting (n * chord.duration + chord.overlap)) := by
      rw [mergeOverlapping, played, merge_copies_legato distinct lasting legato positive]
    exact ⟨tied, by rw [Score.size, ← Array.length_toList, tied, List.length_map, length_notesAt]⟩
  · have kept : score.mergeOverlapping = score := by
      rw [mergeOverlapping, played, merge_copies_detached distinct lasting detached, ← played]
    exact ⟨kept, by rw [mergedAway, kept, Nat.sub_self]⟩

theorem copies_tied_exactly_if_legato_triad :
    let legato : Turtle Rat :=
      { Turtle.initial with pitchClasses := .ofPitches [0, 4, 7], overlap := 1 / 4 }
    let detached : Turtle Rat := { legato with overlap := -1 / 4, voiceLead := true }
    let score (chord : Turtle Rat) :=
      ((writeAll leastMotion (List.replicate 3 chord)).runFrom (.empty, .empty)).2.1
    (legato.pitchClasses.Voiceable legato.range ∧ 0 < legato.duration ∧
      (score legato).size = 9 ∧
      (score legato).mergeOverlapping.events.toList =
        [⟨0, 13 / 4, noteOn, 0, 0, 60, 0⟩, ⟨0, 13 / 4, noteOn, 1, 4, 60, 1⟩,
          ⟨0, 13 / 4, noteOn, 2, 7, 60, 2⟩]) ∧
    (detached.pitchClasses.Voiceable detached.range ∧ 0 < detached.duration ∧
      (score detached).events.toList.map (fun note => (note.time, note.duration, note.key)) =
        [(0, 3 / 4, 0), (0, 3 / 4, 4), (0, 3 / 4, 7), (1, 3 / 4, 0), (1, 3 / 4, 4), (1, 3 / 4, 7),
          (2, 3 / 4, 0), (2, 3 / 4, 4), (2, 3 / 4, 7)] ∧
      (score detached).mergeOverlapping = score detached ∧ (score detached).mergedAway = 0) := by
  intro legato detached score
  have lowest (keys : List Rat) {chord : Turtle Rat}
      (placed : ∀ cache, ((chord.place leastMotion).runFrom cache).1 = .ok keys)
      (found : ((chord.place leastMotion).runFrom .empty).1.toOption = some [0, 4, 7]) :
      keys = [0, 4, 7] := by
    rw [placed] at found
    exact Option.some.inj found
  constructor
  · have fits : legato.pitchClasses.Voiceable legato.range := ⟨by decide, by decide +kernel⟩
    have lasting : 0 < legato.duration := by decide +kernel
    obtain ⟨keys, placed, -, -, -, -, size, tied⟩ :=
      copies_tied_exactly_if_legato fits lasting (n := 3) (by decide) .empty
    obtain rfl := lowest keys placed (by decide +kernel)
    obtain ⟨notes, -⟩ := (tied (by decide +kernel)).1 (by decide +kernel)
    refine ⟨fits, lasting, size, notes.trans ?_⟩
    decide +kernel
  · have fits : detached.pitchClasses.Voiceable detached.range := ⟨by decide, by decide +kernel⟩
    have lasting : 0 < detached.duration := by decide +kernel
    obtain ⟨keys, placed, -, -, -, events, -, tied⟩ :=
      copies_tied_exactly_if_legato fits lasting (n := 3) (by decide) .empty
    obtain rfl := lowest keys placed (by decide +kernel)
    have apart := (tied (by decide +kernel)).2 (by decide +kernel)
    refine ⟨fits, lasting, ?_, apart⟩
    rw [events]
    decide +kernel

end ChordGrammar.Turtle
