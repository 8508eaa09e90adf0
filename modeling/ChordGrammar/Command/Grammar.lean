import ChordGrammar.ChordName
import ChordGrammar.Command
import ChordGrammar.Text.Pattern

/-! The grammar of commands: one pattern for each kind of command, and the command that a
derivation stands for. Not every derivation stands for one, since a whole number may be too
large and a chord may have no such name. -/
namespace ChordGrammar

open Scalar

namespace Pattern

abbrev sign : Pattern := .one (.among ['+', '-'])

abbrev digit : Pattern := .one (.among ['0', '1', '2', '3', '4', '5', '6', '7', '8', '9'])

abbrev integer : Pattern := digit.plus

/-- Digits with a fraction if any, which may have no digits, or a fraction that has some. -/
abbrev mantissa : Pattern :=
  .alt (.seq digit.plus (.opt (.seq (char '.') (.many digit)))) (.seq (char '.') digit.plus)

abbrev exponent : Pattern := .seq (.one (.among ['e', 'E'])) (.seq (.opt sign) digit.plus)

abbrev number : Pattern := .seq (.opt sign) (.seq mantissa (.opt exponent))

abbrev numbers : Pattern := .seq number (.many (.seq (char ',') number))

abbrev list : Pattern :=
  .alt (.seq (char '(') (.seq (.opt numbers) (char ')')))
    (.seq (char '[') (.seq (.opt numbers) (char ']')))

abbrev scaling : Pattern := .seq (.alt (char '*') (char '/')) (.opt number)

abbrev name : Pattern := (Pattern.one .all).plus

end Pattern

namespace Derivation

open Pattern

def whole : Derivation mantissa → List Char
  | .left (.seq digits _) => digits.text
  | .right _ => []

def fraction : Derivation mantissa → List Char
  | .left (.seq _ .skip) => []
  | .left (.seq _ (.take (.seq _ digits))) | .right (.seq _ digits) => digits.text

def power : Derivation (.opt exponent) → Int
  | .skip => 0
  | .take (.seq _ (.seq sign digits)) =>
    if sign.text = ['-'] then -(digitsValue digits.text : Int) else digitsValue digits.text

def decimal : Derivation number → Decimal
  | .seq sign (.seq mantissa exponent) =>
    ⟨sign.text = ['-'], digitsValue (mantissa.whole ++ mantissa.fraction),
      exponent.power - mantissa.fraction.length⟩

def value (d : Derivation integer) : Nat := digitsValue d.text

def others (d : Derivation (.many (.seq (char ',') number))) : List Decimal :=
  d.each.map fun | .seq _ n => n.decimal

def elements : Derivation (.opt numbers) → List Decimal
  | .skip => []
  | .take (.seq first rest) => first.decimal :: rest.others

def decimals : Derivation list → List Decimal
  | .left (.seq _ (.seq inner _)) | .right (.seq _ (.seq inner _)) => inner.elements

def given {p : Pattern} : Derivation (.opt p) → Bool
  | .skip => false
  | .take _ => true

def copies : Derivation (.opt integer) → Option Nat
  | .skip => some 1
  | .take n => if n.value < UInt64.size then some n.value else none

variable {α : Type} [Scalar α]

def scalar (d : Derivation number) : α := ofDecimal d.decimal

def scalarOr (missing : α) : Derivation (.opt number) → α
  | .skip => missing
  | .take n => n.scalar

def scaling : Derivation Pattern.scaling → Scaling α
  | .seq (.left _) factor => .multiply (factor.scalarOr (ofNat 2))
  | .seq (.right _) factor => .divide (factor.scalarOr (ofNat 2))

def chord : Derivation (.alt list number) → PitchClassSet α
  | .left pitches => .ofPitches (pitches.decimals.map ofDecimal)
  | .right pitch => .ofPitches [pitch.scalar]

end Derivation

namespace Command

open Pattern

/-- The kinds of commands, in the order in which they are tried. -/
inductive Rule where
  | push
  | pop
  | duration
  | instrument
  | exchange
  | loudness
  | overlap
  | prime
  | contextual
  | range
  | set
  | transpose
  | revoice
  | write

namespace Rule

def all : List Rule :=
  [push, pop, duration, instrument, exchange, loudness, overlap, prime, contextual, range, set,
    transpose, revoice, write]

@[reducible] def pattern : Rule → Pattern
  | push => char '['
  | pop => char ']'
  | duration => .seq (char 'D') scaling
  | instrument => .seq (char 'I') (.seq integer (.seq (char '=') integer))
  | exchange => char 'K'
  | loudness => .seq (char 'L') scaling
  | overlap => .seq (char 'O') number
  | prime => .seq (char 'P') (.alt (.seq (char '=') name) (.alt list number))
  | contextual => .seq (char 'Q') number
  | range => .seq (char 'R') number
  | set => .seq (char 'S') (.alt list number)
  | transpose => .seq (char 'T') (.opt number)
  | revoice => .seq (char 'V') (.alt number sign)
  | write => .seq (char 'W') (.seq (.opt (char 'C')) (.opt integer))

end Rule

/-- A way to make a token by the grammar. -/
structure Tree where
  rule : Rule
  derivation : Derivation rule.pattern

namespace Tree

def text (tree : Tree) : List Char := tree.derivation.text

/-- Reads the beginning of a text by a rule. -/
def fit? (cs : List Char) (rule : Rule) : Option (Tree × List Char) :=
  (rule.pattern.read? cs).map fun (derivation, rest) => (⟨rule, derivation⟩, rest)

/-- Reads a token by the first rule that fits its beginning, which has to fit all of it. -/
def read? (cs : List Char) : Option Tree :=
  match Rule.all.findSome? (fit? cs) with
  | some (tree, []) => some tree
  | _ => none

/-- Whether the whole numbers fit 64 bits and the name is that of a chord. -/
def Admissible : Tree → Prop
  | ⟨.instrument, .seq _ (.seq voice (.seq _ other))⟩ =>
    voice.value < UInt64.size ∧ other.value < UInt64.size
  | ⟨.prime, .seq _ (.left (.seq _ name))⟩ => ∃ chord, chordOfName (trim name.text) = .ok chord
  | ⟨.write, .seq _ (.seq _ (.take n))⟩ => n.value < UInt64.size
  | _ => True

variable {α : Type} [Scalar α]

def command? : Tree → Option (Command α)
  | ⟨.push, _⟩ => some .push
  | ⟨.pop, _⟩ => some .pop
  | ⟨.duration, .seq _ scaling⟩ => some (.duration scaling.scaling)
  | ⟨.instrument, .seq _ (.seq voice (.seq _ other))⟩ =>
    if voice.value < UInt64.size ∧ other.value < UInt64.size then
      some (.instrument voice.value other.value)
    else none
  | ⟨.exchange, _⟩ => some .exchange
  | ⟨.loudness, .seq _ scaling⟩ => some (.loudness scaling.scaling)
  | ⟨.overlap, .seq _ n⟩ => some (.overlap n.scalar)
  | ⟨.prime, .seq _ (.left (.seq _ name))⟩ =>
    (PitchClassSet.ofName name.text).toOption.map .prime
  | ⟨.prime, .seq _ (.right chord)⟩ => some (.prime chord.chord)
  | ⟨.contextual, .seq _ n⟩ => some (.contextualTranspose n.scalar)
  | ⟨.range, .seq _ n⟩ => some (.range n.scalar)
  | ⟨.set, .seq _ chord⟩ => some (.set chord.chord)
  | ⟨.transpose, .seq _ n⟩ => some (.transpose (n.scalarOr (ofNat 1)))
  | ⟨.revoice, .seq _ (.left n)⟩ => some (.revoice (round (n.scalar : α)))
  | ⟨.revoice, .seq _ (.right sign)⟩ => some (.revoice (if sign.text = ['-'] then -1 else 1))
  | ⟨.write, .seq _ (.seq fixed n)⟩ => n.copies.map (.write · !fixed.given)

end Tree
end Command
end ChordGrammar
