import ChordGrammar.Generator

/-! A generator in use. It is configured and run in any order; its results are those
that can be read between two actions. -/
namespace ChordGrammar

variable {α σ : Type} [Scalar α]

namespace Generator

inductive Action where
  | setSeed (text : String)
  | addRule (token replacement : String)
  | setIterations (n : Nat)
  | setOptions (options : GeneratorOptions)
  | generate
  deriving DecidableEq, Repr

def act (oracle : Oracle α σ) (g : Generator α σ) : Action → Generator α σ
  | .setSeed text => { g with seed := text }
  | .addRule token replacement => g.addRule token replacement
  | .setIterations n => { g with iterations := n }
  | .setOptions options => { g with options }
  | .generate => ((generate oracle).runFrom g).2

def after (oracle : Oracle α σ) (history : List Action) (g : Generator α σ) : Generator α σ :=
  history.foldl (act oracle) g

theorem after_append (oracle : Oracle α σ) (history later : List Action) (g : Generator α σ) :
    after oracle (history ++ later) g = after oracle later (after oracle history g) :=
  List.foldl_append

structure Results (α : Type) [Scalar α] where
  production : String
  chords : Array (Turtle α)
  score : Score α

def results (g : Generator α σ) : Results α := ⟨g.production, g.chords, g.score⟩

def noResults : Results α := ⟨"", #[], .empty⟩

end Generator
end ChordGrammar
