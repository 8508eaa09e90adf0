import ChordGrammar.Voicing.Cache

/-! A cache in use. It is asked in any order for all voicings of a chord or for one of
them. -/
namespace ChordGrammar

open Scalar

variable {α : Type} [Scalar α]

namespace VoicingCache

inductive Query (α : Type) [Scalar α] where
  | voicings (chord : PitchClassSet α) (range : α)
  | voice (chord : PitchClassSet α) (index : Int64) (range : α)

namespace Query

def chord : Query α → PitchClassSet α
  | .voicings chord _ | .voice chord _ _ => chord

def range : Query α → α
  | .voicings _ range | .voice _ _ range => range

/-- A single voicing is given as a list of one. -/
def ask : Query α → Attempt (VoicingError α) (VoicingCache α) (List (List α))
  | .voicings chord range => VoicingCache.voicings chord range
  | .voice chord index range => do return [← VoicingCache.voice chord index range]

/-- What of the voicings of the chord is asked for. -/
def pick : Query α → List (List α) → List (List α)
  | .voicings _ _, all => all
  | .voice _ index _, all => [all.getD (index.toInt % all.length).toNat []]

def key (query : Query α) : List α × α :=
  (query.chord.canonical.voices, unsignedZero query.range)

end Query

def keys (cache : VoicingCache α) : List (List α × α) :=
  cache.entries.map fun entry => (entry.voices, entry.range)

@[simp] theorem keys_empty : (empty : VoicingCache α).keys = [] := rfl

theorem length_keys (cache : VoicingCache α) : cache.keys.length = cache.size := by
  simp [keys, size]

def after (cache : VoicingCache α) (history : List (Query α)) : VoicingCache α :=
  history.foldl (fun cache query => (query.ask.runFrom cache).2) cache

@[simp] theorem after_nil (cache : VoicingCache α) : cache.after [] = cache := rfl

@[simp] theorem after_cons (cache : VoicingCache α) (query : Query α) (later : List (Query α)) :
    cache.after (query :: later) = (query.ask.runFrom cache).2.after later := rfl

/-- What no question spoils no history spoils. -/
theorem after_induction (holds : VoicingCache α → Prop)
    (step : ∀ {cache}, holds cache → ∀ query : Query α, holds (query.ask.runFrom cache).2)
    {cache : VoicingCache α} (start : holds cache) (history : List (Query α)) :
    holds (cache.after history) := by
  induction history generalizing cache with
  | nil => exact start
  | cons query later ih => exact ih (step start query)

def granted (cache : VoicingCache α) : List (Query α) → List (Query α)
  | [] => []
  | query :: later =>
    match query.ask.runFrom cache with
    | (.ok _, next) => query :: next.granted later
    | (.error _, next) => next.granted later

end VoicingCache
end ChordGrammar
