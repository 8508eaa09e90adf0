import ChordGrammar.ChordName
import ChordGrammar.Text.Bytes

/-! Spellings of chords: the parts that a chord name is put together from, and what they stand
for. Beside them, the reading of a name that is cut at byte offsets. -/
namespace ChordGrammar

open Scalar

/-- The letters that name a root, and its pitch class. -/
def rootLetters : List (Char × Nat) :=
  [('C', 0), ('D', 2), ('E', 4), ('F', 5), ('G', 7), ('A', 9), ('B', 11),
    ('c', 0), ('d', 2), ('e', 4), ('f', 5), ('g', 7), ('a', 9), ('b', 11)]

/-- The accidentals, and the semitones that they move a root by. -/
def accidentals : List (Char × Int) := [('#', 1), ('♯', 1), ('b', -1), ('♭', -1)]

def suffixTable : List (String × List Nat) :=
  chordSuffixes.flatMap fun entry => entry.1.map fun name => (name, entry.2)

/-- The parts of a chord name, in the order in which they are written. -/
@[ext] structure Spelling where
  letter : Char × Nat
  accidental : Option (Char × Int)
  apostrophe : Bool
  suffix : String × List Nat
  letter_mem : letter ∈ rootLetters
  accidental_mem : ∀ a ∈ accidental, a ∈ accidentals
  suffix_mem : suffix ∈ suffixTable

namespace Spelling

def ending (s : Spelling) : List Char :=
  (if s.apostrophe then ['\''] else []) ++ s.suffix.1.toList

def text (s : Spelling) : List Char :=
  s.letter.1 :: (s.accidental.toList.map Prod.fst ++ s.ending)

/-- Whether a text is the spelling with blanks around it. -/
def Spells (s : Spelling) (name : List Char) : Prop :=
  ∃ before after, (∀ c ∈ before, isBlank c = true) ∧ (∀ c ∈ after, isBlank c = true) ∧
    name = before ++ s.text ++ after

def shift (s : Spelling) : Int := (s.accidental.map Prod.snd).getD 0

def root (s : Spelling) : Nat := ((s.letter.2 + s.shift) % 12).toNat

def intervals (s : Spelling) : List Nat := s.suffix.2

def chord {α : Type} [Scalar α] (s : Spelling) : PitchClassSet α :=
  (PitchClassSet.ofPitches (s.intervals.map ofNat)).transpose (ofNat s.root)

end Spelling

/-- The root of a name and the text behind it, which is cut off at a byte offset. There is no
answer if the offset lies inside of a character. -/
def cutRoot? (name : String) : Option (Except ChordNameError (Nat × String)) :=
  match indexed 0 name.toList with
  | [] => some (.error .emptyName)
  | (_, letter) :: rest =>
    match rootLetter? letter with
    | none => some (.error (.noRoot name letter))
    | some root =>
      match rest with
      | [] => some (.ok (root, ""))
      | (offset, c) :: _ =>
        if c = '#' ∨ c = '♯' then
          (fromByte? name (offset + c.utf8Size)).map fun rest => .ok ((root + 1) % 12, rest)
        else if c = 'b' ∨ c = '♭' then
          (fromByte? name (offset + c.utf8Size)).map fun rest => .ok ((root + 11) % 12, rest)
        else (fromByte? name offset).map fun rest => .ok (root, rest)

/-- Reads a name by the text that is cut off behind its root. -/
def PitchClassSet.ofCutName? {α : Type} [Scalar α] (name : String) :
    Option (Except ChordNameError (PitchClassSet α)) :=
  (cutRoot? (String.ofList (trim name.toList))).map fun cut => do
    let (root, rest) ← cut
    let suffix := dropApostrophe rest.toList
    match suffixIntervals? suffix with
    | none => throw (.unknownSuffix (String.ofList suffix))
    | some intervals => return (ofPitches (intervals.map ofNat)).transpose (ofNat root)

end ChordGrammar
