import ChordGrammar.Oracle.Recorded
import ChordGrammar.Proofs.ParallelFifths

/-! Ties. A chord that is led from one of the same content keeps its pitches, and no oracle
is asked for them. A run of ties can therefore not fail, however long it is, and whatever
else the chords bring along. The oracle of least motion would have answered with the same
pitches, for no voicing is as near as the one that sounds, if the range has room for it. -/
namespace ChordGrammar

open Scalar

/-- Whether an error is about the captured chord with this index. -/
inductive GenerationError.AtChord {α : Type} [Scalar α] (i : Nat) : GenerationError α → Prop
  | realization (content : PitchClassSet α) (cause : OracleError α) :
    AtChord i (.realization i content cause)
  | mismatch (content : PitchClassSet α) (pitches : List α) : AtChord i (.mismatch i content pitches)

namespace Turtle

section

variable {α σ : Type} [Scalar α]

def held (before : Turtle α) : List (Turtle α) → List (Turtle α)
  | [] => []
  | tie :: ties =>
    let next := { tie with time := onsetAfter (some before), realized := before.realized }
    next :: held next ties

def writeEach (chords : List (Turtle α)) (score : Score α) : Score α :=
  chords.foldl (fun score chord => chord.write score) score

/-- Whether a chord is led from one of the given content. -/
def TiedTo (content : PitchClassSet α) (tie : Turtle α) : Prop :=
  tie.voiceLead = true ∧ content.sameContent tie.pitchClasses = true

/-- A chord as it is written with pitches of its content. -/
structure IsWritten (chord : Turtle α) (pitches : List α) (written : Turtle α) : Prop where
  kept : written = { chord with time := written.time, realized := some pitches }
  content : (PitchClassSet.ofPitches pitches).sameContent chord.pitchClasses = true

theorem IsWritten.realized_eq {chord written : Turtle α} {pitches : List α}
    (kept : IsWritten chord pitches written) : written.realized = some pitches := by
  rw [kept.kept]

theorem IsWritten.pitchClasses_eq {chord written : Turtle α} {pitches : List α}
    (kept : IsWritten chord pitches written) : written.pitchClasses = chord.pitchClasses := by
  rw [kept.kept]

variable {oracle : Oracle α σ} {index : Nat} {prior : Option (Turtle α)}
  {chord before : Turtle α} {front ties written : List (Turtle α)} {pitches : List α}
  {score after : Score α} {s t : σ}

theorem held_spec (sounding : before.realized = some pitches) (ties : List (Turtle α)) :
    List.Forall₂ (fun tie next => next = { tie with time := next.time, realized := some pitches })
      ties (held before ties) := by
  induction ties generalizing before with
  | nil => exact .nil
  | cons tie ties ih =>
    refine .cons ?_ (ih sounding)
    rw [sounding]

theorem map_realized_held (before : Turtle α) (ties : List (Turtle α)) :
    (held before ties).map realized = List.replicate ties.length before.realized := by
  induction ties generalizing before with
  | nil => rfl
  | cons tie ties ih => rw [held, List.map_cons, ih, List.length_cons, List.replicate_succ]

theorem exists_last
    (ran : (writeFrom oracle index prior (front ++ [chord])).runFrom (score, s) =
      (.ok written, after, t)) :
    ∃ last pitches, written.getLast? = some last ∧ IsWritten chord pitches last := by
  rw [writeFrom_append] at ran
  obtain ⟨earlier, ⟨between, u⟩, -, ran⟩ := Attempt.exists_of_runFrom_bind ran
  obtain ⟨latest, ⟨between', u'⟩, single, ran⟩ := Attempt.exists_of_runFrom_bind ran
  cases ran
  have step := writeFrom_step oracle (index + front.length) (earlier.getLast?.or prior) chord []
    between u
  generalize (writeFrom oracle (index + front.length) _ [chord]).runFrom _ = outcome at step single
  cases step with
  | refused => cases single
  | mismatched => cases single
  | @written pitches _ last _ _ _ content kept rested =>
    cases rested
    cases single
    refine ⟨last, pitches, List.getLast?_concat, ?_, content⟩
    rw [kept]

theorem writeFrom_error {e : GenerationError α} {chords : List (Turtle α)}
    (failed : ((writeFrom oracle index prior chords).runFrom (score, s)).1 = .error e) :
    ∃ i, index ≤ i ∧ e.AtChord i := by
  induction chords generalizing index prior score s with
  | nil => cases failed
  | cons chord rest ih =>
    have step := writeFrom_step oracle index prior chord rest score s
    generalize (writeFrom oracle index prior (chord :: rest)).runFrom _ = outcome at step failed
    cases step with
    | refused =>
      cases failed
      exact ⟨index, le_refl _, .realization _ _⟩
    | mismatched =>
      cases failed
      exact ⟨index, le_refl _, .mismatch _ _⟩
    | @written _ _ _ others _ _ _ _ ended =>
      cases others with
      | error e =>
        cases failed
        obtain ⟨i, later, about⟩ := ih (congrArg Prod.fst ended)
        exact ⟨i, (Nat.le_succ index).trans later, about⟩
      | ok others => cases failed

theorem writeAll_go_on
    (ran : (writeAll oracle front).runFrom (score, s) = (.ok written, after, t))
    (later : List (Turtle α)) :
    (writeAll oracle (front ++ later)).runFrom (score, s) =
      (do return written ++ (← writeFrom oracle front.length written.getLast? later)).runFrom
        (after, t) := by
  rw [writeAll] at ran
  rw [writeAll, writeFrom_append, Attempt.runFrom_bind_of_ok ran, Option.or_none, Nat.zero_add]

variable [LawfulOrder α]

/-- Ties are written alike by every oracle, which stays in its state. The induction is on the
ties: each is written with pitches of its content, and the others are tied to it. -/
theorem IsWritten.runFrom_ties (kept : IsWritten chord pitches before) (oracle : Oracle α σ)
    (tied : ∀ tie ∈ ties, TiedTo chord.pitchClasses tie) (index : Nat) (score : Score α) (s : σ) :
    (writeFrom oracle index (some before) ties).runFrom (score, s) =
      (.ok (held before ties), writeEach (held before ties) score, s) := by
  induction ties generalizing chord before index score with
  | nil => rfl
  | cons tie ties ih =>
    obtain ⟨⟨led, same⟩, others⟩ := List.forall_mem_cons.mp tied
    let next := { tie with time := onsetAfter (some before), realized := some pitches }
    have content := PitchClassSet.sameContent_trans kept.content same
    have linked : ∀ other ∈ ties, TiedTo tie.pitchClasses other := fun other member =>
      ⟨(others other member).1,
        PitchClassSet.sameContent_trans (PitchClassSet.sameContent_symm same)
          (others other member).2⟩
    have later := ih (⟨rfl, content⟩ : IsWritten tie pitches next) linked (index + 1)
      (next.write score)
    have taken : (realize oracle (some before)
        { tie with time := onsetAfter (some before) }).runFrom s = (.ok pitches, s) := by
      rw [realize_after kept.realized_eq, kept.pitchClasses_eq, if_pos led, if_pos same,
        Attempt.runFrom_pure]
    simp only [runFrom_writeFrom_cons, taken, if_pos content]
    rw [later]
    simp only [held, kept.realized_eq]
    rfl

theorem writeAll_through_ties {last : Turtle α}
    (upTo : (writeAll oracle (front ++ [chord])).runFrom (score, s) = (.ok written, after, t))
    (latest : written.getLast? = some last) (kept : IsWritten chord pitches last)
    (tied : ∀ tie ∈ ties, TiedTo chord.pitchClasses tie) (rest : List (Turtle α)) :
    (writeAll oracle (front ++ chord :: (ties ++ rest))).runFrom (score, s) =
      (do
        let others ← writeFrom oracle (front.length + 1 + ties.length)
          ((held last ties).getLast?.or (some last)) rest
        return written ++ held last ties ++ others).runFrom (writeEach (held last ties) after, t) := by
  have through := writeAll_go_on upTo (ties ++ rest)
  rw [List.append_assoc, List.singleton_append, List.length_append, List.length_singleton,
    latest, writeFrom_append, bind_assoc,
    Attempt.runFrom_bind_of_ok (kept.runFrom_ties oracle tied _ after t)] at through
  simp only [through, bind_assoc, pure_bind, List.append_assoc]

/-- However many chords are tied to one that is written, each of them keeps its pitches in their
order. No oracle is asked for them, so any other one in any state would do as well, and the rest of
the run finds the oracle as the chord has left it. If the run fails, then at a later chord. -/
theorem writeAll_ties (oracle : Oracle α σ)
    (upTo : (writeAll oracle (front ++ [chord])).runFrom (score, s) = (.ok written, after, t))
    (tied : ∀ tie ∈ ties, TiedTo chord.pitchClasses tie) :
    ∃ last pitches, written.getLast? = some last ∧ last.realized = some pitches ∧
      List.Forall₂ (fun tie next => next = { tie with time := next.time, realized := some pitches })
        ties (held last ties) ∧
      (∀ {τ : Type} (other : Oracle α τ) (u : τ),
        (writeFrom other (front.length + 1) (some last) ties).runFrom (after, u) =
          (.ok (held last ties), writeEach (held last ties) after, u)) ∧
      ∀ rest,
        let run := (writeAll oracle (front ++ chord :: (ties ++ rest))).runFrom (score, s)
        let latest := (held last ties).getLast?.or (some last)
        run = (do
          let others ← writeFrom oracle (front.length + 1 + ties.length) latest rest
          return written ++ held last ties ++ others).runFrom
            (writeEach (held last ties) after, t) ∧
        ∀ e, run.1 = .error e → ∃ i, front.length + ties.length < i ∧ e.AtChord i := by
  obtain ⟨last, pitches, latest, kept⟩ := exists_last upTo
  refine ⟨last, pitches, latest, kept.realized_eq, held_spec kept.realized_eq ties,
    fun other u => kept.runFrom_ties other tied _ after u, ?_⟩
  intro rest run following
  have through : run = _ := writeAll_through_ties upTo latest kept tied rest
  refine ⟨through, fun e failed => ?_⟩
  rw [through, Attempt.runFrom_bind] at failed
  rcases ended : (writeFrom oracle (front.length + 1 + ties.length) following rest).runFrom
      (writeEach (held last ties) after, t) with ⟨e' | others, final⟩
  · simp only [following, ended] at failed
    cases failed
    obtain ⟨i, later, about⟩ := writeFrom_error (congrArg Prod.fst ended)
    exact ⟨i, by omega, about⟩
  · simp only [following, ended] at failed
    cases failed

end

/-- The pitches are not sorted, a tie has no voicing within its range, and the oracle refuses to
lead to anything. Its two calls are those for the first chord. -/
theorem writeAll_ties_unsorted :
    let oracle : Oracle Float (VoicingCache Float) :=
      leastMotion.withAnswers
        { place := some (.pitches [19, 0]), lead := some (.refusal "no way there") }
    let chord : Turtle Float := { Turtle.initial with pitchClasses := .ofPitches [0, 7] }
    let ties : List (Turtle Float) :=
      [{ chord with pitchClasses := .ofPitches [7, 0], voiceLead := true, range := 3, voicing := 5 },
        { chord with voiceLead := true, duration := -2, overlap := 1 }]
    let run (chords : List (Turtle Float)) :=
      (writeAll oracle.recorded chords).runFrom (.empty, .empty, #[])
    (run [chord]).1.isOk = true ∧ (∀ tie ∈ ties, TiedTo chord.pitchClasses tie) ∧
      (run [chord]).2.2.2.size = 2 ∧
      (run (chord :: ties)).2.2 = (run [chord]).2.2 ∧
      ∃ written kept, (run (chord :: ties)).1 = .ok (written ++ kept) ∧
        kept.map realized = [some [19, 0], some [19, 0]] := by
  intro oracle chord ties run
  have succeeds : (run [chord]).1.isOk = true := by decide +kernel
  have sounds : (run [chord]).1.toOption.map (·.getLast?.map realized) =
      some (some (some [19, 0])) := by decide +kernel
  have tied : ∀ tie ∈ ties, TiedTo chord.pitchClasses tie :=
    List.forall_mem_cons.mpr ⟨⟨rfl, by decide +kernel⟩,
      List.forall_mem_cons.mpr ⟨⟨rfl, by decide +kernel⟩, nofun⟩⟩
  have calls : (run [chord]).2.2.2.size = 2 := by decide +kernel
  rcases ran : run [chord] with ⟨e | written, after, cache, record⟩
  · rw [ran] at succeeds
    cases succeeds
  have upTo : run ([] ++ [chord]) = _ := ran
  obtain ⟨last, pitches, latest, kept, -, -, goesOn⟩ := writeAll_ties oracle.recorded upTo tied
  obtain ⟨through, -⟩ := goesOn []
  simp only [List.nil_append, List.append_nil, writeFrom, pure_bind, Attempt.runFrom_pure] at through
  simp only [ran, Except.toOption, Option.map_some, latest, kept, Option.some.injEq] at sounds
  change run (chord :: ties) = _ at through
  rw [ran] at succeeds calls
  rw [through]
  refine ⟨succeeds, tied, calls, rfl, written, held last ties, rfl, ?_⟩
  rw [map_realized_held, kept, sounds]
  rfl

end Turtle

/-! ### What the oracle of least motion would answer -/

section

variable {pitches : List Rat} {target : PitchClassSet Rat} {range : Rat}

/-- Asked to lead voices to what they sound already, the oracle lets them stay. -/
theorem Realizes.lead_stays (realizes : Realizes pitches target range) (voiced : pitches ≠ [])
    (avoidParallels : Bool) (cache : VoicingCache Rat) :
    ((leastMotion.lead pitches target range avoidParallels).runFrom cache).1 = .ok pitches := by
  have fits := realizes.voiceable voiced
  obtain ⟨nearest, led, chosen⟩ := lead_nearest .empty voiced fits avoidParallels
  rw [lead_of_any_cache voiced fits avoidParallels cache .empty, led]
  rw [sort_of_sorted realizes.ascending] at chosen
  have paired : pitches.length = nearest.length := by
    have there := (realizes_of_mem fits chosen.mem).perm.length_eq
    have here := realizes.perm.length_eq
    rw [List.length_map] at here there
    rw [here, there]
  have near := chosen.least (realizes.mem_voicings voiced)
    fun _ _ => hasParallelFifths_self pitches
  rw [motion_eq_gap paired, motion_eq_gap rfl, gap_self] at near
  rw [eq_of_gap_nonpos paired near]

end

namespace Turtle

/-- The chord that a run of the oracle of least motion has written last has its pitches in
ascending order. -/
theorem IsWritten.ascending {front written : List (Turtle Rat)} {chord last : Turtle Rat}
    {pitches : List Rat} {score : Score Rat} {cache : VoicingCache Rat}
    {final : Score Rat × VoicingCache Rat} (kept : IsWritten chord pitches last)
    (reached : cache.Reached)
    (upTo : (writeAll leastMotion (front ++ [chord])).runFrom (score, cache) = (.ok written, final))
    (latest : written.getLast? = some last) : pitches ≠ [] ∧ pitches.Pairwise (· ≤ ·) := by
  have unsounded : ∀ b ∈ (none : Option (Turtle Rat)), Sounding b := nofun
  have outcome := writeFrom_outcome reached unsounded 0 (front ++ [chord]) score
  rw [writeAll] at upTo
  simp only [upTo] at outcome
  rcases outcome with ⟨_, finished, length, each⟩ | ⟨i, _, cause, failed, -⟩
  · cases finished
    rw [List.length_append, List.length_singleton] at length
    rw [List.getLast?_eq_getElem?, length, Nat.add_sub_cancel] at latest
    obtain ⟨-, w, found, keys, same, suits⟩ := each front.length chord List.getElem?_concat_length
    rw [latest] at found
    cases found
    have sounding := kept.realized_eq
    rw [same] at sounding
    cases sounding
    exact ⟨suits.voiced, suits.ascending⟩
  · cases failed

/-- If the range has room for what sounds already, leading to its content answers with the same
pitches, whether or not parallels are avoided and whatever is kept. So a tie is written with the
pitches that the oracle would have found, if those of the chord before it lie within its range. -/
theorem tie_agrees_with_lead :
    (∀ (pitches : List Rat) (target : PitchClassSet Rat) (range : Rat), pitches ≠ [] →
      Realizes pitches target range → ∀ avoidParallels cache,
        ((leastMotion.lead pitches target range avoidParallels).runFrom cache).1 = .ok pitches) ∧
    ∀ (front written : List (Turtle Rat)) (chord tie : Turtle Rat) (score : Score Rat)
      (cache : VoicingCache Rat) (final : Score Rat × VoicingCache Rat),
      cache.Reached →
      (writeAll leastMotion (front ++ [chord])).runFrom (score, cache) = (.ok written, final) →
      TiedTo chord.pitchClasses tie →
      ∃ last pitches, written.getLast? = some last ∧ last.realized = some pitches ∧
        ((writeAll leastMotion (front ++ [chord, tie])).runFrom (score, cache)).1 =
          .ok (written ++
            [{ tie with time := onsetAfter (some last), realized := some pitches }]) ∧
        ((∀ p ∈ pitches, 0 ≤ p ∧ p ≤ tie.range) → ∀ avoidParallels cache,
          ((leastMotion.lead pitches tie.pitchClasses tie.range avoidParallels).runFrom cache).1 =
            .ok pitches) := by
  refine ⟨fun _ _ _ voiced realizes => realizes.lead_stays voiced, ?_⟩
  intro front written chord tie score cache ⟨after, cache'⟩ reached upTo tied
  obtain ⟨last, pitches, latest, kept⟩ := exists_last upTo
  obtain ⟨voiced, ascending⟩ := kept.ascending reached upTo latest
  refine ⟨last, pitches, latest, kept.realized_eq, ?_, fun within => ?_⟩
  · have through := writeAll_through_ties upTo latest kept (List.forall_mem_singleton.mpr tied) []
    have single : held last [tie] =
        [{ tie with time := onsetAfter (some last), realized := some pitches }] := by
      rw [held, held, kept.realized_eq]
    rw [List.append_nil, writeFrom, pure_bind, List.append_nil, single] at through
    exact congrArg Prod.fst through
  · have content := PitchClassSet.sameContent_trans kept.content tied.2
    exact Realizes.lead_stays ⟨ascending, within, content⟩ voiced

/-- The voices of the tie come in another order, and the range ends at the highest pitch. -/
theorem tie_agrees_with_lead_triad :
    let chord : Turtle Rat :=
      { Turtle.initial with pitchClasses := .ofPitches [0, 4, 7], voicing := 1 }
    let tie : Turtle Rat :=
      { chord with pitchClasses := .ofPitches [7, 12, 4], voiceLead := true, range := 12 }
    let run (chords : List (Turtle Rat)) :=
      (writeAll leastMotion chords).runFrom (.empty, VoicingCache.empty)
    (VoicingCache.empty : VoicingCache Rat).Reached ∧ (run [chord]).1.isOk = true ∧
      TiedTo chord.pitchClasses tie ∧ Realizes [4, 7, 12] tie.pitchClasses 12 ∧
      ((leastMotion.lead [4, 7, 12] tie.pitchClasses 12 false).runFrom .empty).1 =
        .ok [4, 7, 12] ∧
      ∃ written next, (run [chord, tie]).1 = .ok (written ++ [next]) ∧
        next.realized = some [4, 7, 12] := by
  intro chord tie run
  have succeeds : (run [chord]).1.isOk = true := by decide +kernel
  have sounds : (run [chord]).1.toOption.map (·.getLast?.map realized) =
      some (some (some [4, 7, 12])) := by decide +kernel
  have tied : TiedTo chord.pitchClasses tie := ⟨rfl, by decide +kernel⟩
  have realizes : Realizes [4, 7, 12] tie.pitchClasses 12 :=
    ⟨by decide +kernel, by decide +kernel, by decide +kernel⟩
  rcases ran : run [chord] with ⟨e | written, final⟩
  · rw [ran] at succeeds
    cases succeeds
  obtain ⟨stays, agrees⟩ := tie_agrees_with_lead
  obtain ⟨last, pitches, latest, kept, held, -⟩ :=
    agrees [] written chord tie .empty .empty final .empty ran tied
  simp only [ran, Except.toOption, Option.map_some, latest, kept, Option.some.injEq] at sounds
  rw [ran] at succeeds
  subst sounds
  exact ⟨.empty, succeeds, tied, realizes, stays _ _ _ (by simp) realizes false .empty, written, _,
    held, rfl⟩

end Turtle
end ChordGrammar
