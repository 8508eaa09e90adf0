import ChordGrammar.Scalar

/-! Pitches reduced modulo the octave, and chords of such pitch classes. A chord
keeps the order of its voices; as a set of pitch classes it is compared by its
canonical form, which is sorted. -/
namespace ChordGrammar

open Scalar

variable {α : Type} [Scalar α]

def octave : α := ofNat 12

/-- The pitch class of a pitch. A remainder that was rounded up to the octave and a
negative zero are both the pitch class zero. -/
def pc (pitch : α) : α :=
  let remainder := emod pitch 12
  if octave ≤ remainder then zero else unsignedZero remainder

/-- The pitch classes of a chord in the order of its voices. -/
@[ext] structure PitchClassSet (α : Type) [Scalar α] where
  voices : List α
  reduced : ∀ p ∈ voices, ∃ x, pc x = p

namespace PitchClassSet

def ofPitches (pitches : List α) : PitchClassSet α where
  voices := pitches.map pc
  reduced p h := by obtain ⟨x, _, e⟩ := List.mem_map.1 h; exact ⟨x, e⟩

def empty : PitchClassSet α := ⟨[], by simp⟩

instance : Inhabited (PitchClassSet α) := ⟨empty⟩

def size (s : PitchClassSet α) : Nat := s.voices.length

def isEmpty (s : PitchClassSet α) : Bool := s.voices.isEmpty

def map (f : α → α) (s : PitchClassSet α) : PitchClassSet α := ofPitches (s.voices.map f)

def canonical (s : PitchClassSet α) : PitchClassSet α where
  voices := sort s.voices
  reduced p h := s.reduced p (mem_sort.1 h)

def equalVoices (s t : PitchClassSet α) : Bool := equalLists s.voices t.voices

/-- Whether both have the same pitch classes, in whatever order of voices. -/
def sameContent (s t : PitchClassSet α) : Bool := s.canonical.equalVoices t.canonical

@[simp] theorem voices_ofPitches (pitches : List α) :
    (ofPitches pitches).voices = pitches.map pc := rfl

@[simp] theorem voices_map (f : α → α) (s : PitchClassSet α) :
    (s.map f).voices = s.voices.map (fun p => pc (f p)) := by
  simp [map, Function.comp_def]

@[simp] theorem voices_canonical (s : PitchClassSet α) : s.canonical.voices = sort s.voices := rfl

theorem canonical_perm (s : PitchClassSet α) : s.canonical.voices.Perm s.voices :=
  sort_perm _

end PitchClassSet
end ChordGrammar
