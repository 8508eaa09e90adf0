import ChordGrammar.Proofs.Order
import ChordGrammar.Proofs.Voicings
import ChordGrammar.Voicing.History

/-! A cache is not noticed. Whatever it was asked before, it answers as an empty one does,
and it has one entry for each chord and range for which it has answered. That an entry is
kept under the sorted chord and the range without the sign of a zero tells apart what are
different quantities, and nothing else. -/
namespace ChordGrammar

open Scalar

section

variable {α : Type} [Scalar α]

/-- Ranges that bound every placement alike. -/
structure BoundAlike (range other : α) : Prop where
  le_iff (pitch : α) : pitch ≤ range ↔ pitch ≤ other
  highest (pitch : α) : highestPlacement range pitch = highestPlacement other pitch
  octaves : units (range / octave) = units (other / octave)

namespace BoundAlike

variable {range other : α} (alike : BoundAlike range other)
include alike

theorem increment?_eq (vs : List α) : increment? range vs = increment? other vs := by
  induction vs with
  | nil => rfl
  | cons v vs ih => simp only [increment?, alike.le_iff, ih]

theorem decrement?_eq (vs : List α) : decrement? range vs = decrement? other vs := by
  induction vs with
  | nil => rfl
  | cons v vs ih => simp only [decrement?, alike.highest, ih]

theorem climb_eq (fuel : Nat) (passed : List (List α)) (v : List α) :
    climb range fuel passed v = climb other fuel passed v := by
  induction fuel generalizing passed v with
  | zero => rfl
  | succ fuel ih => simp only [climb, alike.increment?_eq, ih]

theorem descend_eq (fuel : Nat) (bottom v : List α) :
    descend range fuel bottom v = descend other fuel bottom v := by
  induction fuel generalizing bottom v with
  | zero => rfl
  | succ fuel ih => simp only [descend, alike.decrement?_eq, ih]

theorem enumerate_eq (voices : List α) : enumerate range voices = enumerate other voices := by
  simp only [enumerate, placementBound, alike.octaves, alike.climb_eq, alike.descend_eq]

end BoundAlike

theorem climb_ne_nil {range : α} {passed : List (List α)} (begun : passed ≠ []) (fuel : Nat)
    (v : List α) : climb range fuel passed v ≠ [] := by
  induction fuel generalizing passed v with
  | zero => exact begun
  | succ fuel ih =>
    unfold climb
    split
    · exact begun
    · exact ih (List.cons_ne_nil _ _) _

theorem enumerate_ne_nil (range : α) (voices : List α) : enumerate range voices ≠ [] :=
  mt List.reverse_eq_nil_iff.mp (climb_ne_nil (List.cons_ne_nil _ _) _ _)

@[simp] theorem unsignedZero_pc (pitch : α) : unsignedZero (pc pitch) = pc pitch := by
  simp only [pc]
  split
  · exact unsignedZero_zero
  · exact unsignedZero_unsignedZero _

namespace PitchClassSet

theorem map_unsignedZero (chord : PitchClassSet α) :
    chord.voices.map unsignedZero = chord.voices := by
  have alike : ∀ p ∈ chord.voices, unsignedZero p = id p := by
    intro p member
    obtain ⟨pitch, rfl⟩ := chord.reduced p member
    exact unsignedZero_pc pitch
  exact (List.map_congr_left alike).trans (List.map_id _)

end PitchClassSet

end

namespace Binary64

theorem unpack_neg_zero : (-zero : Float).toModel.unpack = .zero .negative := rfl

theorem eq_zero_or_neg_zero {x : Float} (isZero : equal x zero = true) :
    x = zero ∨ x = -zero := by
  obtain ⟨sign, unpacked⟩ := unpack_of_equal_zero isZero
  cases sign with
  | positive => exact .inl (eq_of_unpack (unpacked.trans unpack_zero.symm))
  | negative => exact .inr (eq_of_unpack (unpacked.trans unpack_neg_zero.symm))

theorem le_neg_zero_iff (x : Float) : x ≤ -zero ↔ x ≤ zero := by
  simp only [le_iff_place, unpack_neg_zero, unpack_zero, place]

theorem sub_eq_pack (x y : Float) :
    x - y = ⟨.pack (.sub .binary64 x.toModel.unpack y.toModel.unpack)⟩ := rfl

theorem neg_zero_sub {x : Float} (nonzero : equal x zero = false) : -zero - x = zero - x := by
  rw [sub_eq_pack, sub_eq_pack, unpack_neg_zero, unpack_zero]
  cases unpacked : x.toModel.unpack with
  | zero sign =>
    rw [equal_zero_of_unpack unpacked] at nonzero
    cases nonzero
  | _ => rfl

/-- The differences to a zero are zeros of either sign, and neither leaves room for an
octave. -/
theorem highestPlacement_neg_zero (pitch : Float) :
    highestPlacement (-zero) pitch = highestPlacement zero pitch := by
  unfold highestPlacement
  by_cases isZero : equal (pc pitch) zero = true
  · rcases eq_zero_or_neg_zero isZero with same | same <;> rw [same] <;> decide +kernel
  · rw [neg_zero_sub (Bool.eq_false_of_not_eq_true isZero)]

theorem boundAlike_neg_zero : BoundAlike (-zero : Float) zero where
  le_iff := le_neg_zero_iff
  highest := highestPlacement_neg_zero
  octaves := by decide +kernel

theorem enumerate_unsignedZero (range : Float) (voices : List Float) :
    enumerate (unsignedZero range) voices = enumerate range voices := by
  unfold unsignedZero
  split
  · next isZero =>
    rcases eq_zero_or_neg_zero isZero with rfl | rfl
    · rfl
    · exact (boundAlike_neg_zero.enumerate_eq voices).symm
  · rfl

end Binary64

namespace VoicingCache

section

variable {α : Type} [Scalar α] {cache : VoicingCache α}

theorem find?_eq_none_iff {voices : List α} {range : α} :
    cache.find? voices range = none ↔ (voices, range) ∉ cache.keys := by
  simp only [find?, keys, List.find?_eq_none, List.mem_map, decide_eq_true_eq, Prod.mk.injEq,
    not_exists, not_and]

theorem mem_keys_of_find? {voices : List α} {range : α} {entry : VoicingEntry α}
    (found : cache.find? voices range = some entry) : (voices, range) ∈ cache.keys := by
  by_contra missing
  rw [find?_eq_none_iff.mpr missing] at found
  cases found

theorem Query.runFrom_ask (query : Query α) (cache : VoicingCache α) :
    query.ask.runFrom cache =
      (((VoicingCache.voicings query.chord query.range).runFrom cache).1.map query.pick,
        ((VoicingCache.voicings query.chord query.range).runFrom cache).2) := by
  cases query with
  | voicings chord range =>
    simp only [ask, Query.chord, Query.range]
    generalize (VoicingCache.voicings chord range).runFrom cache = outcome
    obtain ⟨e | all, next⟩ := outcome <;> rfl
  | voice chord index range =>
    simp only [ask, Attempt.runFrom_bind, runFrom_voice, Query.chord, Query.range]
    generalize (VoicingCache.voicings chord range).runFrom cache = outcome
    obtain ⟨e | all, next⟩ := outcome <;> rfl

/-- A question is refused, or answered from the entry of its key, or answered with a first
entry for its key. -/
theorem Query.ask_cases (query : Query α) (cache : VoicingCache α) :
    (∃ e, query.ask.runFrom cache = (.error e, cache)) ∨
    (∃ answer, query.key ∈ cache.keys ∧ query.ask.runFrom cache = (.ok answer, cache)) ∨
    (∃ answer entry, query.key ∉ cache.keys ∧ (entry.voices, entry.range) = query.key ∧
      query.ask.runFrom cache = (.ok answer, ⟨entry :: cache.entries⟩)) := by
  rw [runFrom_ask]
  rcases voicings_cases query.chord query.range cache with
    ⟨-, asked⟩ | ⟨-, -, asked⟩ | ⟨-, entry, found, asked⟩ |
      ⟨-, -, entry, missing, voices, range, asked⟩
  · rw [asked]
    exact .inl ⟨_, rfl⟩
  · rw [asked]
    exact .inl ⟨_, rfl⟩
  · rw [asked]
    exact .inr (.inl ⟨query.pick entry.voicings, mem_keys_of_find? found, rfl⟩)
  · rw [asked]
    have kept : (entry.voices, entry.range) = query.key := by rw [voices, range, Query.key]
    exact .inr (.inr ⟨_, entry, find?_eq_none_iff.mp missing, kept, rfl⟩)

theorem find?_ask {voices : List α} {range : α} {entry : VoicingEntry α}
    (found : cache.find? voices range = some entry) (query : Query α) :
    (query.ask.runFrom cache).2.find? voices range = some entry := by
  rcases query.ask_cases cache with
    ⟨e, asked⟩ | ⟨answer, -, asked⟩ | ⟨answer, first, missing, kept, asked⟩
  · rwa [asked]
  · rwa [asked]
  · have other : ¬ (first.voices = voices ∧ first.range = range) := by
      rintro ⟨rfl, rfl⟩
      rw [← kept] at missing
      exact missing (mem_keys_of_find? found)
    rw [asked, find?, List.find?_cons_of_neg (by simpa using other)]
    exact found

theorem find?_after {voices : List α} {range : α} {entry : VoicingEntry α}
    (found : cache.find? voices range = some entry) (later : List (Query α)) :
    (cache.after later).find? voices range = some entry :=
  after_induction (·.find? voices range = some entry) find?_ask found later

theorem voicings_eq_of_perm [LawfulSort α] {chord other : PitchClassSet α}
    (same : chord.voices.Perm other.voices) (range : α) :
    voicings chord range = voicings other range := by
  have canonical := PitchClassSet.canonical_eq_of_perm same
  have noVoice : chord.isEmpty = other.isEmpty := same.isEmpty_eq
  simp only [voicings, exceeds, canonical, noVoice]
  rfl

theorem exists_entry {chord : PitchClassSet α} {range : α} {all : List (List α)}
    (answered : ((voicings chord range).runFrom cache).1 = .ok all) :
    ∃ entry, entry.voicings = all ∧
      ((voicings chord range).runFrom cache).2.find? chord.canonical.voices
        (unsignedZero range) = some entry := by
  rcases voicings_cases chord range cache with
    ⟨-, asked⟩ | ⟨-, -, asked⟩ | ⟨-, entry, found, asked⟩ |
      ⟨-, -, entry, -, voices, bound, asked⟩
  · rw [asked] at answered
    cases answered
  · rw [asked] at answered
    cases answered
  · rw [asked] at answered ⊢
    cases answered
    exact ⟨entry, rfl, found⟩
  · rw [asked] at answered ⊢
    cases answered
    refine ⟨entry, rfl, ?_⟩
    rw [find?, List.find?_cons_of_pos (by simp [voices, bound])]

theorem voice_of_voicings {chord : PitchClassSet α} {range : α} {all : List (List α)}
    (index : Int64) (answered : ((voicings chord range).runFrom cache).1 = .ok all) :
    ∃ (k : Nat) (inside : k < all.length), (k : Int) = index.toInt % all.length ∧
      ((voice chord index range).runFrom cache).1 = .ok all[k] := by
  obtain ⟨entry, rfl, -⟩ := exists_entry answered
  have positive : 0 < (entry.voicings.length : Int) := by
    rw [entry.sound]
    exact_mod_cast List.length_pos_iff.mpr (enumerate_ne_nil entry.range entry.voices)
  have low := Int.emod_nonneg index.toInt positive.ne'
  have high := Int.emod_lt_of_pos index.toInt positive
  have inside : (index.toInt % entry.voicings.length).toNat < entry.voicings.length := by omega
  refine ⟨_, inside, Int.toNat_of_nonneg low, ?_⟩
  rw [runFrom_voice, answered, Except.map, List.getD_eq_getElem _ _ inside]

theorem withinRange_ask [LawfulZero α] (within : cache.WithinRange) (query : Query α) :
    (query.ask.runFrom cache).2.WithinRange := by
  rw [Query.runFrom_ask]
  exact withinRange_voicings within query.chord query.range

theorem nodup_keys_ask (distinct : cache.keys.Nodup) (query : Query α) :
    (query.ask.runFrom cache).2.keys.Nodup := by
  rcases query.ask_cases cache with
    ⟨e, asked⟩ | ⟨answer, -, asked⟩ | ⟨answer, entry, missing, kept, asked⟩
  · rwa [asked]
  · rwa [asked]
  · rw [asked, keys, List.map_cons, kept]
    exact List.nodup_cons.mpr ⟨missing, distinct⟩

theorem mem_keys_ask (query : Query α) (key : List α × α) :
    key ∈ (query.ask.runFrom cache).2.keys ↔
      key ∈ cache.keys ∨ (∃ answer, (query.ask.runFrom cache).1 = .ok answer) ∧ query.key = key := by
  rcases query.ask_cases cache with
    ⟨e, asked⟩ | ⟨answer, hit, asked⟩ | ⟨answer, entry, -, kept, asked⟩
  · simp [asked]
  · simp only [asked, Except.ok.injEq, exists_eq', true_and, iff_self_or]
    rintro rfl
    exact hit
  · rw [asked, keys, List.map_cons, kept]
    simp [or_comm, eq_comm, keys]

theorem mem_granted_cons {query other : Query α} {later : List (Query α)} :
    other ∈ cache.granted (query :: later) ↔
      ((∃ answer, (query.ask.runFrom cache).1 = .ok answer) ∧ other = query) ∨
        other ∈ (query.ask.runFrom cache).2.granted later := by
  rw [granted]
  split
  · next asked => simp [asked]
  · next asked => simp [asked]

theorem mem_of_mem_granted {query : Query α} {history : List (Query α)}
    (member : query ∈ cache.granted history) : query ∈ history := by
  induction history generalizing cache with
  | nil => exact member
  | cons first later ih =>
    rcases mem_granted_cons.mp member with ⟨-, rfl⟩ | member
    · exact List.mem_cons_self
    · exact List.mem_cons_of_mem first (ih member)

/-- What has an entry had one before or was granted since. -/
theorem mem_keys_after (history : List (Query α)) (key : List α × α) :
    key ∈ (cache.after history).keys ↔
      key ∈ cache.keys ∨ ∃ query ∈ cache.granted history, query.key = key := by
  induction history generalizing cache with
  | nil => simp [granted]
  | cons query later ih =>
    rw [after_cons, ih, mem_keys_ask]
    simp only [mem_granted_cons, or_and_right, exists_or, or_assoc, and_assoc, exists_and_left,
      exists_eq_left]

namespace Query

/-- The same quantities: chords of the same content, and ranges that are equal. -/
def Alike (query other : Query α) : Prop :=
  query.chord.sameContent other.chord = true ∧ equal query.range other.range = true

structure Numeric (query : Query α) : Prop where
  voices : ∀ p ∈ query.chord.voices, IsNumber p
  range : IsNumber query.range

instance (query : Query α) : Decidable query.Numeric :=
  decidable_of_iff ((∀ p ∈ query.chord.voices, IsNumber p) ∧ IsNumber query.range)
    ⟨fun both => ⟨both.1, both.2⟩, fun numeric => ⟨numeric.voices, numeric.range⟩⟩

theorem alike_iff_key_eq [LawfulOrder α] {query other : Query α} (first : query.Numeric)
    (second : other.Numeric) : query.Alike other ↔ query.key = other.key := by
  have numbers {query : Query α} (numeric : query.Numeric) :
      ∀ p ∈ query.chord.canonical.voices, IsNumber p := fun p member =>
    numeric.voices p (query.chord.canonical_perm.mem_iff.mp member)
  rw [Alike, PitchClassSet.sameContent, PitchClassSet.equalVoices,
    equalLists_iff_unsignedZero (numbers first) (numbers second),
    PitchClassSet.map_unsignedZero, PitchClassSet.map_unsignedZero,
    equal_iff_unsignedZero_eq first.range second.range, key, key, Prod.mk.injEq]

end Query

/-- One of each of the questions that ask for the same quantities. -/
structure Distinguishes (asked distinct : List (Query α)) : Prop where
  subset : distinct ⊆ asked
  apart : distinct.Pairwise fun query other => ¬ query.Alike other
  covers : ∀ query ∈ asked, ∃ other ∈ distinct, query.Alike other

variable [LawfulOrder α]

theorem exists_distinguishes {asked : List (Query α)} (numeric : ∀ query ∈ asked, query.Numeric) :
    ∃ distinct, Distinguishes asked distinct := by
  let apart (query other : Query α) : Prop := query.key ≠ other.key
  have subset : asked.pwFilter apart ⊆ asked := List.pwFilter_subset asked
  refine ⟨asked.pwFilter apart, subset, ?_, ?_⟩
  · apply (List.pairwise_pwFilter asked).imp_of_mem
    intro query other member member' differ
    rwa [Query.alike_iff_key_eq (numeric _ (subset member)) (numeric _ (subset member'))]
  · intro query member
    by_contra alone
    push Not at alone
    have away : ∀ other ∈ asked.pwFilter apart, apart query other := by
      intro other kept
      have differ := alone other kept
      rwa [Query.alike_iff_key_eq (numeric _ member) (numeric _ (subset kept))] at differ
    rw [List.forall_mem_pwFilter] at away
    · exact away query member rfl
    · intro a b c differ
      by_contra same
      simp only [apart, not_or, not_not] at same differ
      exact differ (same.1.trans same.2)

theorem size_eq_of_distinguishes {history distinct : List (Query α)}
    (numeric : ∀ query ∈ history, query.Numeric)
    (distinguishes : Distinguishes ((empty : VoicingCache α).granted history) distinct) :
    (empty.after history).size = distinct.length := by
  obtain ⟨subset, apart, covers⟩ := distinguishes
  have numeric' : ∀ query ∈ (empty : VoicingCache α).granted history, query.Numeric :=
    fun query member => numeric query (mem_of_mem_granted member)
  have once : (distinct.map Query.key).Nodup := by
    apply List.pairwise_map.mpr
    apply apart.imp_of_mem
    intro query other member member' differ
    rwa [Query.alike_iff_key_eq (numeric' _ (subset member)) (numeric' _ (subset member'))]
      at differ
  have held : (empty.after history).keys.Nodup := by
    apply after_induction (·.keys.Nodup) nodup_keys_ask
    simp
  have same : (empty.after history).keys.Perm (distinct.map Query.key) := by
    rw [List.perm_ext_iff_of_nodup held once]
    intro key
    rw [mem_keys_after, List.mem_map]
    constructor
    · rintro (entered | ⟨query, member, rfl⟩)
      · simp at entered
      · obtain ⟨other, kept, alike⟩ := covers query member
        rw [Query.alike_iff_key_eq (numeric' _ member) (numeric' _ (subset kept))] at alike
        exact ⟨other, kept, alike.symm⟩
    · rintro ⟨query, member, rfl⟩
      exact .inr ⟨query, subset member, rfl⟩
  rw [← length_keys, same.length_eq, List.length_map]

end

variable {α : Type} [Scalar α]

/-- What the user of a cache can count on, whatever it holds. -/
structure Transparent (cache : VoicingCache α) : Prop where
  fresh (query : Query α) : (query.ask.runFrom cache).1 = (query.ask.runFrom empty).1
  enumerated (chord : PitchClassSet α) (range : α) :
    ((voicings chord range).runFrom cache).1 =
      if chord.isEmpty then .error .emptyChord
      else if exceeds chord range then .error (.noVoicing chord.canonical range)
      else .ok (enumerate range chord.canonical.voices)
  permuted {chord other : PitchClassSet α} (range : α) : chord.voices.Perm other.voices →
    (voicings chord range).runFrom cache = (voicings other range).runFrom cache
  /-- The index counts around the voicings and is in bounds. -/
  indexed {chord : PitchClassSet α} {range : α} {all : List (List α)} (index : Int64) :
    ((voicings chord range).runFrom cache).1 = .ok all →
      ∃ (k : Nat) (inside : k < all.length), (k : Int) = index.toInt % all.length ∧
        ((voice chord index range).runFrom cache).1 = .ok all[k]
  unindexed {chord : PitchClassSet α} {range : α} {e : VoicingError α} (index : Int64) :
    ((voicings chord range).runFrom cache).1 = .error e →
      ((voice chord index range).runFrom cache).1 = .error e
  refused {query : Query α} {e : VoicingError α} :
    (query.ask.runFrom cache).1 = .error e → (query.ask.runFrom cache).2 = cache
  /-- An answer is kept, and what is kept stays as it is. -/
  kept {chord : PitchClassSet α} {range : α} {all : List (List α)} (later : List (Query α)) :
    ((voicings chord range).runFrom cache).1 = .ok all →
      ∃ entry, entry.voicings = all ∧
        (((voicings chord range).runFrom cache).2.after later).find? chord.canonical.voices
          (unsignedZero range) = some entry
  unchanged {voices : List α} {range : α} {entry : VoicingEntry α} (later : List (Query α)) :
    cache.find? voices range = some entry → (cache.after later).find? voices range = some entry

theorem WithinRange.transparent {cache : VoicingCache Float} (within : cache.WithinRange) :
    Transparent cache where
  fresh query := by
    rw [Query.runFrom_ask, Query.runFrom_ask, answer_of_withinRange within,
      answer_of_withinRange withinRange_empty]
  enumerated chord range := by
    rw [answer_of_withinRange within, Binary64.enumerate_unsignedZero]
  permuted range same := by rw [voicings_eq_of_perm same]
  indexed := voice_of_voicings
  unindexed index failed := by
    rw [runFrom_voice, failed]
    rfl
  refused {query e} failed := by
    rcases query.ask_cases cache with
      ⟨_, asked⟩ | ⟨answer, -, asked⟩ | ⟨answer, entry, -, -, asked⟩
    · rw [asked]
    · rw [asked]
    · rw [asked] at failed
      cases failed
  kept later answered := by
    obtain ⟨entry, held, found⟩ := exists_entry answered
    exact ⟨entry, held, find?_after found later⟩
  unchanged later found := find?_after found later

/-- Whatever a cache was asked since it was new, it answers as a new one, and its size is the
number of different questions that it has granted. -/
theorem transparent_after (history : List (Query Float)) :
    let cache := VoicingCache.empty.after history
    Transparent cache ∧ ((∀ query ∈ history, query.Numeric) →
      ∃ distinct, Distinguishes (empty.granted history) distinct ∧
        cache.size = distinct.length) := by
  intro cache
  have within : cache.WithinRange :=
    after_induction WithinRange withinRange_ask withinRange_empty history
  refine ⟨within.transparent, fun numeric => ?_⟩
  have numeric' : ∀ query ∈ (empty : VoicingCache Float).granted history, query.Numeric :=
    fun query member => numeric query (mem_of_mem_granted member)
  obtain ⟨distinct, distinguishes⟩ := exists_distinguishes numeric'
  exact ⟨distinct, distinguishes, size_eq_of_distinguishes numeric distinguishes⟩

/-- A fifth in either order of its voices is asked for within zeros of either sign, where it
has no voicing, and a unison, which has one. -/
theorem transparent_after_zeros :
    let fifth (voices : List Float) : PitchClassSet Float := .ofPitches voices
    let history : List (Query Float) :=
      [.voicings (fifth [0, 7]) 12, .voice (fifth [7, 0]) (-1) 12, .voicings (fifth [0, 7]) (-0.0),
        .voice (fifth [0]) 5 (-0.0), .voicings (fifth [-12]) 0, .voicings .empty 12]
    let cache := VoicingCache.empty.after history
    (∀ query ∈ history, query.Numeric) ∧ cache.size = 2 ∧ Transparent cache ∧
      ∃ distinct, Distinguishes (empty.granted history) distinct ∧
        cache.size = distinct.length := by
  intro fifth history cache
  have numeric : ∀ query ∈ history, query.Numeric := by decide +kernel
  have two : cache.size = 2 := by decide +kernel
  obtain ⟨transparent, counted⟩ := transparent_after history
  exact ⟨numeric, two, transparent, counted numeric⟩

end VoicingCache
end ChordGrammar
