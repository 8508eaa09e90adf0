/-! Steps that may fail and that keep, failing or not, the state they have reached. -/
namespace ChordGrammar

abbrev Attempt (ε σ β : Type) := ExceptT ε (StateM σ) β

namespace Attempt

variable {ε ε' σ β γ : Type}

def of (step : σ → Except ε β × σ) : Attempt ε σ β := ExceptT.mk (m := StateM σ) step

/-- The result of a step taken in a given state, and the state it leaves. -/
def runFrom (m : Attempt ε σ β) (s : σ) : Except ε β × σ := (ExceptT.run m : StateM σ _) s

def mapError (f : ε → ε') (m : Attempt ε σ β) : Attempt ε' σ β :=
  of fun s => ((m.runFrom s).1.mapError f, (m.runFrom s).2)

@[simp] theorem runFrom_of (step : σ → Except ε β × σ) (s : σ) : (of step).runFrom s = step s := rfl

@[simp] theorem runFrom_pure (b : β) (s : σ) :
    (pure b : Attempt ε σ β).runFrom s = (.ok b, s) := rfl

@[simp] theorem runFrom_modify (f : σ → σ) (s : σ) :
    (modify f : Attempt ε σ PUnit).runFrom s = (.ok ⟨⟩, f s) := rfl

theorem runFrom_mapError (f : ε → ε') (m : Attempt ε σ β) (s : σ) :
    (m.mapError f).runFrom s = ((m.runFrom s).1.mapError f, (m.runFrom s).2) := rfl

/-- A sequence stops at its first failure, in the state of that failure. -/
theorem runFrom_bind (m : Attempt ε σ β) (f : β → Attempt ε σ γ) (s : σ) :
    (m >>= f).runFrom s =
      match m.runFrom s with
      | (.ok b, s') => (f b).runFrom s'
      | (.error e, s') => (.error e, s') := by
  show (ExceptT.bindCont f (m.runFrom s).1 : StateM σ _) (m.runFrom s).2 = _
  generalize m.runFrom s = r
  obtain ⟨r | r, s'⟩ := r <;> rfl

theorem runFrom_bind_of_ok {m : Attempt ε σ β} {s t : σ} {b : β} (ran : m.runFrom s = (.ok b, t))
    (f : β → Attempt ε σ γ) : (m >>= f).runFrom s = (f b).runFrom t := by
  rw [runFrom_bind, ran]

/-- A sequence that succeeds has succeeded at each step. -/
theorem exists_of_runFrom_bind {m : Attempt ε σ β} {f : β → Attempt ε σ γ} {s t : σ} {c : γ}
    (ran : (m >>= f).runFrom s = (.ok c, t)) :
    ∃ b u, m.runFrom s = (.ok b, u) ∧ (f b).runFrom u = (.ok c, t) := by
  rw [runFrom_bind] at ran
  rcases first : m.runFrom s with ⟨e | b, u⟩
  · rw [first] at ran
    cases ran
  · rw [first] at ran
    exact ⟨b, u, rfl, ran⟩

end Attempt
end ChordGrammar
