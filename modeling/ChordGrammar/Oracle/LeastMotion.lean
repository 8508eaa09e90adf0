import ChordGrammar.Group
import ChordGrammar.Oracle

/-! The oracle that leads voices by least motion. A chord is classified by the least
of its transpositions onto zero, and a voicing is chosen by comparing all voicings of
the target; the first of several equally good ones is taken. Its only state is the
cache of voicings. -/
namespace ChordGrammar

open Scalar

variable {α : Type} [Scalar α]

/-- The lexicographic order, strictly, of which a proper beginning is less. -/
def precedes : List α → List α → Bool
  | a :: as, b :: bs =>
    if !sortsBefore b a then true
    else if !sortsBefore a b then false
    else precedes as bs
  | [], _ :: _ => true
  | _, [] => false

def classificationAt (chord : PitchClassSet α) (root : α) : Classification α :=
  ⟨(chord.canonical.transpose (-root)).canonical, root⟩

def classify? (chord : PitchClassSet α) : Option (Classification α) :=
  match chord.canonical.voices.map (classificationAt chord) with
  | [] => none
  | first :: rest => some <| rest.foldl (fun best candidate =>
      if precedes candidate.primeForm.voices best.primeForm.voices then candidate else best) first

def total (as : List α) : α := as.foldl (· + ·) zero

def nearestDistance (source : List α) (pitch : α) : α :=
  match source.map fun s => magnitude (pitch - s) with
  | [] => zero
  | d :: ds => ds.foldl lesser d

/-- How far the voices move: in pairs if there are equally many on both sides, else
each target voice from the nearest source. -/
def motion (source target : List α) : α :=
  if source.length = target.length then
    total (List.zipWith (fun s t => magnitude (t - s)) source target)
  else total (target.map (nearestDistance source))

def isFifth (interval : α) : Bool := equal (pc (magnitude interval)) (ofNat 7)

/-- Whether a lower and an upper voice, each given by its pitches before and after,
move from one fifth to another in the same direction. An upper voice that stays
counts as rising. -/
def movesInFifths (lower upper : α × α) : Bool :=
  isFifth (upper.1 - lower.1) && isFifth (upper.2 - lower.2) &&
    !equal (lower.2 - lower.1) zero &&
    decide (lower.2 - lower.1 < zero) == decide (upper.2 - upper.1 < zero)

def anyPair {β : Type} (related : β → β → Bool) : List β → Bool
  | [] => false
  | b :: bs => bs.any (related b) || anyPair related bs

def hasParallelFifths (source target : List α) : Bool :=
  source.length == target.length && anyPair movesInFifths (source.zip target)

def leastFrom {β : Type} (distance : β → α) : β → α → List β → β
  | best, _, [] => best
  | best, least, b :: bs =>
    if distance b < least then leastFrom distance b (distance b) bs
    else leastFrom distance best least bs

def leastBy? {β : Type} (distance : β → α) : List β → Option β
  | [] => none
  | b :: bs => some (leastFrom distance b (distance b) bs)

/-- The nearest voicing without parallel fifths if they are to be avoided and can be,
else the nearest voicing. -/
def nearestVoicing? (source : List α) (avoidParallels : Bool) (voicings : List (List α)) :
    Option (List α) :=
  let clean := if avoidParallels then voicings.filter fun v => !hasParallelFifths source v else []
  (leastBy? (motion source) clean).or (leastBy? (motion source) voicings)

def leastMotion : Oracle α (VoicingCache α) where
  classify chord :=
    match classify? chord with
    | some classification => pure classification
    | none => throw .nothingToClassify
  place primeForm transposition voicing range := do
    let pitches ←
      (VoicingCache.voice (primeForm.transpose transposition) voicing range).mapError .voicing
    return sort pitches
  lead source target range avoidParallels :=
    if source.isEmpty then throw (.nothingToLeadFrom target)
    else do
      let voicings ← (VoicingCache.voicings target range).mapError .voicing
      match nearestVoicing? (sort source) avoidParallels (voicings.map sort) with
      | some pitches => return pitches
      | none => throw (.noCandidate target range)

end ChordGrammar
