import ChordGrammar.Interpreter

/-! An interpreter in use. It is given productions and single commands in any order, and a call
that fails leaves a state like any other, from which the next one goes on. -/
namespace ChordGrammar

variable {α σ : Type} [Scalar α]

namespace Interpreter

inductive Action (α : Type) [Scalar α] where
  | interpret (production : String)
  | execute (token : String) (command : Command α)

def act (oracle : Oracle α σ) : Action α → Attempt (GenerationError α) (Interpreter α × σ) Unit
  | .interpret production => interpret oracle production
  | .execute token command => execute oracle token command

def after (oracle : Oracle α σ) (history : List (Action α)) (start : Interpreter α × σ) :
    Interpreter α × σ :=
  history.foldl (fun state action => ((act oracle action).runFrom state).2) start

@[simp] theorem after_cons (oracle : Oracle α σ) (action : Action α) (later : List (Action α))
    (start : Interpreter α × σ) :
    after oracle (action :: later) start = after oracle later ((act oracle action).runFrom start).2 :=
  rfl

end Interpreter
end ChordGrammar
