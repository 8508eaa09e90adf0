import ChordGrammar.Group
import ChordGrammar.Text.Blank

/-! Chord names: a root letter, an accidental if any, and a suffix that gives the
intervals above the root. An apostrophe may stand before the suffix. -/
namespace ChordGrammar

open Scalar

/-- Suffixes that name the same chord, and its intervals in semitones. -/
def chordSuffixes : List (List String × List Nat) := [
  (["", "M", "maj", "major"], [0, 4, 7]),
  (["aug", "+"], [0, 4, 8]),
  (["6", "M6"], [0, 4, 7, 9]),
  (["69"], [0, 4, 7, 9, 14]),
  (["M7", "maj7", "Δ7"], [0, 4, 7, 11]),
  (["M9", "maj9"], [0, 4, 7, 11, 14]),
  (["add9"], [0, 4, 7, 14]),
  (["7", "dom7"], [0, 4, 7, 10]),
  (["7b5"], [0, 4, 6, 10]),
  (["7#5"], [0, 4, 8, 10]),
  (["7b9"], [0, 4, 7, 10, 13]),
  (["9"], [0, 4, 7, 10, 14]),
  (["m", "min", "minor", "-"], [0, 3, 7]),
  (["o", "dim"], [0, 3, 6]),
  (["m6"], [0, 3, 7, 9]),
  (["m7b5", "ø"], [0, 3, 6, 10]),
  (["m7", "min7", "-7"], [0, 3, 7, 10]),
  (["m9"], [0, 3, 7, 10, 14]),
  (["o7", "dim7"], [0, 3, 6, 9]),
  (["mM7"], [0, 3, 7, 11]),
  (["5"], [0, 7]),
  (["sus2"], [0, 2, 7]),
  (["sus4"], [0, 5, 7]),
  (["7sus4"], [0, 5, 7, 10])]

def suffixIntervals? (suffix : List Char) : Option (List Nat) :=
  (chordSuffixes.find? fun entry => entry.1.any (·.toList = suffix)).map Prod.snd

/-- All suffixes but the empty one, sorted, in one line. -/
def chordNames : String :=
  let names := (chordSuffixes.flatMap Prod.fst).filter (· ≠ "")
  ", ".intercalate (names.mergeSort (· ≤ ·))

inductive ChordNameError where
  | emptyName
  | noRoot (name : String) (letter : Char)
  | unknownSuffix (suffix : String)
  deriving DecidableEq, Repr

def rootLetter? (c : Char) : Option Nat :=
  match c.toUpper with
  | 'C' => some 0
  | 'D' => some 2
  | 'E' => some 4
  | 'F' => some 5
  | 'G' => some 7
  | 'A' => some 9
  | 'B' => some 11
  | _ => none

/-- Splits an accidental off: the semitones it adds, and the rest. -/
def takeAccidental : List Char → Nat × List Char
  | '#' :: cs | '♯' :: cs => (1, cs)
  | 'b' :: cs | '♭' :: cs => (11, cs)
  | cs => (0, cs)

def dropApostrophe : List Char → List Char
  | '\'' :: cs => cs
  | cs => cs

/-- The root and the intervals of a name without blanks around it. -/
def chordOfName (name : List Char) : Except ChordNameError (Nat × List Nat) :=
  match name with
  | [] => .error .emptyName
  | letter :: rest =>
    match rootLetter? letter with
    | none => .error (.noRoot (String.ofList name) letter)
    | some root =>
      let suffix := dropApostrophe (takeAccidental rest).2
      match suffixIntervals? suffix with
      | none => .error (.unknownSuffix (String.ofList suffix))
      | some intervals => .ok ((root + (takeAccidental rest).1) % 12, intervals)

namespace PitchClassSet

variable {α : Type} [Scalar α]

/-- The chord with a given name, around which blanks do not count. -/
def ofName (name : List Char) : Except ChordNameError (PitchClassSet α) :=
  (chordOfName (trim name)).map fun chord =>
    (ofPitches (chord.2.map ofNat)).transpose (ofNat chord.1)

end PitchClassSet
end ChordGrammar
