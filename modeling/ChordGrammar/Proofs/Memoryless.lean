import ChordGrammar.Oracle.LeastMotion
import ChordGrammar.Proofs.Agreement
import ChordGrammar.Proofs.Voicings
import ChordGrammar.Scalar.Float

/-! Runs of a generator do not hear of each other. All that the oracle of least motion
takes from one run to the next is its cache, and its answers do not depend on what the
cache holds. So it agrees with itself from any two caches in use, and a generator runs as
if it were new. -/
namespace ChordGrammar

open Scalar Attempt

variable {α : Type} [Scalar α] [LawfulZero α]

namespace VoicingCache

/-- Two caches in use, which need not hold the same. -/
def BothWithinRange (cache other : VoicingCache α) : Prop :=
  cache.WithinRange ∧ other.WithinRange

theorem voicings_agrees (chord : PitchClassSet α) (range : α) :
    (voicings chord range).Agrees BothWithinRange (voicings chord range) := by
  rintro cache other ⟨first, second⟩
  rw [answer_of_withinRange first, answer_of_withinRange second]
  exact ⟨rfl, withinRange_voicings first chord range, withinRange_voicings second chord range⟩

theorem voice_agrees (chord : PitchClassSet α) (index : Int64) (range : α) :
    (voice chord index range).Agrees BothWithinRange (voice chord index range) :=
  (voicings_agrees chord range).bind fun _ => .pure _

end VoicingCache

open VoicingCache

theorem leastMotion_agrees :
    (leastMotion : Oracle α (VoicingCache α)).Agrees BothWithinRange leastMotion where
  classify chord := by
    simp only [leastMotion]
    split
    · exact .pure _
    · exact .throw _
  place primeForm transposition voicing range :=
    ((voice_agrees (primeForm.transpose transposition) voicing range).mapError _).bind
      fun _ => .pure _
  lead source target range avoidParallels := by
    simp only [leastMotion]
    split
    · exact .throw _
    · refine ((voicings_agrees target range).mapError _).bind fun all => ?_
      split
      · exact .pure _
      · exact .throw _

namespace Generator

theorem act_withinRange {g : Generator α (VoicingCache α)} (within : g.oracleState.WithinRange)
    (action : Action) : (g.act leastMotion action).oracleState.WithinRange := by
  cases action with
  | generate => exact (generate_agrees leastMotion_agrees (.refl g) ⟨within, within⟩).2.2.1
  | _ => exact within

theorem after_withinRange (history : List Action) {g : Generator α (VoicingCache α)}
    (within : g.oracleState.WithinRange) :
    (after leastMotion history g).oracleState.WithinRange := by
  induction history generalizing g with
  | nil => exact within
  | cons action history ih => exact ih (act_withinRange within action)

/-- Whatever was done with a generator before, a run of it gives the same answer and the
same results as a run of a fresh one with the same seed, the same rules, added in any order,
as many iterations and the same choice about merging. -/
theorem generate_memoryless (history : List Action) (table : RuleTable)
    (options : GeneratorOptions) :
    let used : Generator α (VoicingCache α) := after leastMotion history (.initial .empty)
    let fresh : Generator α (VoicingCache α) :=
      { Generator.initial VoicingCache.empty with
        seed := used.seed, rules := table, iterations := used.iterations, options := options }
    (∀ token, table.replacement? token = used.rules.replacement? token) →
    options.mergeOverlapping = used.options.mergeOverlapping →
      ((generate leastMotion).runFrom used).1 = ((generate leastMotion).runFrom fresh).1 ∧
      ((generate leastMotion).runFrom used).2.results =
        ((generate leastMotion).runFrom fresh).2.results := by
  intro used fresh sameRules sameMerging
  have alike : used.Alike fresh := ⟨rfl, fun token => (sameRules token).symm, rfl, sameMerging.symm⟩
  have within : used.oracleState.WithinRange := after_withinRange history withinRange_empty
  have run := generate_agrees leastMotion_agrees alike ⟨within, withinRange_empty⟩
  exact ⟨run.1, run.2.1⟩

/-- Here a run has failed before the rules were complete, and left voicings behind. -/
theorem generate_memoryless_after_failure :
    let history : List Action :=
      [.setSeed "A R2 WC", .addRule "A" "S(0,4,7) WC B", .generate, .addRule "B" "W2 R60"]
    let used : Generator Float (VoicingCache Float) := after leastMotion history (.initial .empty)
    let options := { used.options with avoidParallelFifths := true, rescaleTimes := true }
    let fresh : Generator Float (VoicingCache Float) :=
      { Generator.initial VoicingCache.empty with
        seed := used.seed, rules := used.rules, iterations := used.iterations, options := options }
    options.mergeOverlapping = used.options.mergeOverlapping ∧
      ((generate leastMotion).runFrom used).1 = ((generate leastMotion).runFrom fresh).1 ∧
      ((generate leastMotion).runFrom used).2.results =
        ((generate leastMotion).runFrom fresh).2.results := by
  intro history used options fresh
  have merging (o : GeneratorOptions) :
      { o with avoidParallelFifths := true, rescaleTimes := true }.mergeOverlapping =
        o.mergeOverlapping := rfl
  exact ⟨merging used.options,
    generate_memoryless history used.rules options (fun _ => rfl) (merging used.options)⟩

end Generator
end ChordGrammar
