import ChordGrammar.ChordName
import ChordGrammar.Command
import ChordGrammar.Text.Blank

/-! Reading a token as a command. The whole token has to fit; whatever does not is
the command `unknown`, so a token of a rule may be any word. -/
namespace ChordGrammar

open Scalar

variable {α : Type} [Scalar α]

namespace Command

def number? (cs : List Char) : Option α := (Decimal.read? cs).map ofDecimal

def integer? (cs : List Char) : Option Nat := (digits? cs).filter (· < UInt64.size)

/-- The text between round or between square brackets. -/
def bracketed? : List Char → Option (List Char)
  | '(' :: cs => if cs.getLast? = some ')' then some cs.dropLast else none
  | '[' :: cs => if cs.getLast? = some ']' then some cs.dropLast else none
  | _ => none

def numbers? (cs : List Char) : Option (List α) :=
  if cs = [] then some [] else (splitAt (· = ',') cs).mapM number?

def chord? (cs : List Char) : Option (PitchClassSet α) :=
  match bracketed? cs with
  | some inner => (numbers? inner).map .ofPitches
  | none => (number? cs).map fun pitch => .ofPitches [pitch]

def scaling? : List Char → Option (Scaling α)
  | ['*'] => some (.multiply (ofNat 2))
  | ['/'] => some (.divide (ofNat 2))
  | '*' :: cs => (number? cs).map .multiply
  | '/' :: cs => (number? cs).map .divide
  | _ => none

def binding? (cs : List Char) : Option (Command α) :=
  match cs.dropWhile (· ≠ '=') with
  | '=' :: rest => do
    let voice ← integer? (cs.takeWhile (· ≠ '='))
    let instrument ← integer? rest
    return .instrument voice instrument
  | _ => none

def copies? (cs : List Char) : Option Nat := if cs = [] then some 1 else integer? cs

def read? : List Char → Option (Command α)
  | ['['] => some .push
  | [']'] => some .pop
  | 'D' :: cs => (scaling? cs).map .duration
  | 'I' :: cs => binding? cs
  | ['K'] => some .exchange
  | 'L' :: cs => (scaling? cs).map .loudness
  | 'O' :: cs => (number? cs).map .overlap
  | 'P' :: '=' :: name => (PitchClassSet.ofName name).toOption.map .prime
  | 'P' :: cs => (chord? cs).map .prime
  | 'Q' :: cs => (number? cs).map .contextualTranspose
  | 'R' :: cs => (number? cs).map .range
  | 'S' :: cs => (chord? cs).map .set
  | ['T'] => some (.transpose (ofNat 1))
  | 'T' :: cs => (number? cs).map .transpose
  | ['V', '+'] => some (.revoice 1)
  | ['V', '-'] => some (.revoice (-1))
  | 'V' :: cs => (number? cs).map fun (n : α) => .revoice (round n)
  | 'W' :: 'C' :: cs => (copies? cs).map (.write · false)
  | 'W' :: cs => (copies? cs).map (.write · true)
  | _ => none

def ofToken (token : String) : Command α := (read? token.toList).getD .unknown

theorem binding?_eq_some {cs : List Char} {command : Command α} (read : binding? cs = some command) :
    ∃ voice instrument, command = .instrument voice instrument := by
  unfold binding? at read
  split at read
  · obtain ⟨voice, -, read⟩ := Option.bind_eq_some_iff.mp read
    obtain ⟨instrument, -, read⟩ := Option.bind_eq_some_iff.mp read
    exact ⟨voice, instrument, (Option.some.inj read).symm⟩
  · cases read

theorem bracket_of_read? {cs : List Char} {command : Command α} (read : read? cs = some command) :
    (command = .push → cs = ['[']) ∧ (command = .pop → cs = [']']) := by
  unfold read? at read
  split at read
  case h_1 =>
    cases read
    exact ⟨fun _ => rfl, nofun⟩
  case h_2 =>
    cases read
    exact ⟨nofun, fun _ => rfl⟩
  case h_4 =>
    obtain ⟨voice, instrument, rfl⟩ := binding?_eq_some read
    exact ⟨nofun, nofun⟩
  all_goals constructor <;> rintro rfl <;> simp at read

theorem read?_of_ofToken {token : String} {command : Command α} (read : ofToken token = command)
    (known : command ≠ .unknown) : read? token.toList = some command := by
  unfold ofToken at read
  cases found : read? (α := α) token.toList with
  | none => exact absurd (by rw [← read, found]; rfl) known
  | some other => rw [← read, found, Option.getD_some]

/-- Only the bracket itself is read as a bracket. -/
theorem ofToken_eq_push_iff {token : String} : ofToken token = (.push : Command α) ↔ token = "[" := by
  constructor
  · intro read
    exact String.toList_inj.mp ((bracket_of_read? (read?_of_ofToken read nofun)).1 rfl)
  · rintro rfl
    rfl

theorem ofToken_eq_pop_iff {token : String} : ofToken token = (.pop : Command α) ↔ token = "]" := by
  constructor
  · intro read
    exact String.toList_inj.mp ((bracket_of_read? (read?_of_ofToken read nofun)).2 rfl)
  · rintro rfl
    rfl

end Command
end ChordGrammar
