import Mathlib.Data.List.Basic
import ChordGrammar.Interpreter.Trace

/-! What holds of an interpreter in use, however it is used. What is captured and what is on the
stack only depends on when it was put there, the modality on what was assigned last, and no
command writes what is only known when a chord is realized. -/
namespace ChordGrammar

open Scalar

variable {α σ : Type} [Scalar α]

/-- What no command changes, or not for the worse. -/
structure Turtle.IsUnwritten (t : Turtle α) : Prop where
  time : t.time = zero
  voiceLead : t.voiceLead = false
  realized : t.realized = none
  voicing : 0 ≤ t.voicing.toInt
  instruments : ∀ voice < 12, voice ∈ t.instruments.voices

namespace Turtle.IsUnwritten

variable {t : Turtle α}

protected theorem initial : (Turtle.initial : Turtle α).IsUnwritten where
  time := rfl
  voiceLead := rfl
  realized := rfl
  voicing := Int.le_refl 0
  instruments voice low := by simpa [Turtle.initial, Instruments.default, Instruments.voices] using low

protected theorem assignInstrument (h : t.IsUnwritten) (voice instrument : Nat) :
    (t.assignInstrument voice instrument).IsUnwritten where
  time := h.time
  voiceLead := h.voiceLead
  realized := h.realized
  voicing := h.voicing
  instruments bound low := Instruments.mem_voices_assign.mpr (.inr (h.instruments bound low))

protected theorem revoice (h : t.IsUnwritten) (n : Int64) : (t.revoice n).IsUnwritten where
  time := h.time
  voiceLead := h.voiceLead
  realized := h.realized
  voicing := by
    rw [toInt_voicing_revoice]
    exact Int.emod_nonneg _ (Int.ne_of_gt (revoicingCycle_pos t.range))
  instruments := h.instruments

end Turtle.IsUnwritten

namespace Interpreter

def AllUnwritten (i : Interpreter α) : Prop := ∀ turtle ∈ i.turtle :: i.stack, turtle.IsUnwritten

theorem allUnwritten_initial : (initial : Interpreter α).AllUnwritten := by
  simpa [AllUnwritten, initial] using Turtle.IsUnwritten.initial

namespace AllUnwritten

variable {i : Interpreter α}

theorem onTurtle (h : i.AllUnwritten) {f : Turtle α → Turtle α}
    (keeps : ∀ t : Turtle α, t.IsUnwritten → (f t).IsUnwritten) : (i.onTurtle f).AllUnwritten := by
  simp only [AllUnwritten, List.forall_mem_cons] at h ⊢
  exact ⟨keeps i.turtle h.1, h.2⟩

theorem moveTo (h : i.AllUnwritten) (chord : PitchClassSet α) : (i.moveTo chord).AllUnwritten :=
  h.onTurtle (f := fun t => { t with pitchClasses := chord }) fun _ unwritten =>
    ⟨unwritten.time, unwritten.voiceLead, unwritten.realized, unwritten.voicing, unwritten.instruments⟩

theorem step (h : i.AllUnwritten) (command : Command α) : (i.step command).AllUnwritten := by
  cases command with
  | push => simpa [AllUnwritten, Interpreter.step] using h
  | pop =>
    obtain ⟨turtle, stack, modality, chords⟩ := i
    cases stack with
    | nil => exact h
    | cons top rest => exact (List.forall_mem_cons.mp h).2
  | instrument voice instrument =>
    exact h.onTurtle fun _ unwritten => unwritten.assignInstrument voice instrument
  | revoice n => exact h.onTurtle fun _ unwritten => unwritten.revoice n
  | set chord => exact h.moveTo chord
  | write | prime | unknown => exact h
  | _ => exact h.onTurtle fun _ unwritten =>
    ⟨unwritten.time, unwritten.voiceLead, unwritten.realized, unwritten.voicing, unwritten.instruments⟩

end AllUnwritten

/-- How the state `j` has come about from `i` by what was performed. -/
structure Continues (oracle : Oracle α σ) (performed : List (Performed α σ)) (i j : Interpreter α) :
    Prop where
  chords : j.chords.toList = i.chords.toList ++ performed.flatMap Performed.captured
  stack : j.stack = performed.foldl Performed.bracket i.stack
  depth : j.depth + performed.countP Performed.closes = i.depth + performed.countP Performed.opens
  modality :
    j.modality = (performed.reverse.findSome? (Performed.assigned oracle)).getD i.modality
  unwritten : i.AllUnwritten → j.AllUnwritten

namespace Continues

variable {oracle : Oracle α σ} {performed earlier later : List (Performed α σ)}
  {i j k : Interpreter α}

theorem refl (oracle : Oracle α σ) (i : Interpreter α) : Continues oracle [] i i where
  chords := by simp
  stack := rfl
  depth := rfl
  modality := rfl
  unwritten h := h

theorem trans (first : Continues oracle earlier i j) (rest : Continues oracle later j k) :
    Continues oracle (earlier ++ later) i k where
  chords := by simp [rest.chords, first.chords]
  stack := by simp [rest.stack, first.stack]
  depth := by
    have := first.depth
    have := rest.depth
    simp only [List.countP_append]
    omega
  modality := by
    rw [rest.modality, first.modality, List.reverse_append, List.findSome?_append]
    cases later.reverse.findSome? (Performed.assigned oracle) <;> rfl
  unwritten h := rest.unwritten (first.unwritten h)

theorem single (oracle : Oracle α σ) (p : Performed α σ) :
    Continues oracle [p] p.before.1 (p.after oracle).1 := by
  obtain ⟨token, command, i, s⟩ := p
  cases command with
  | prime chord =>
    rcases asked : (prime oracle i.turtle chord).runFrom s with ⟨cause | moved, s'⟩
    · have same : (Performed.after oracle ⟨token, .prime chord, i, s⟩).1 = i := by
        simp [Performed.after, Performed.ran, runFrom_execute_prime, asked]
      rw [same]
      constructor
      case modality => simp [Performed.assigned, asked, Except.toOption]
      case chords => exact (List.append_nil _).symm
      case unwritten => exact id
      all_goals rfl
    · have led : (Performed.after oracle ⟨token, .prime chord, i, s⟩).1 = i.moveTo moved := by
        simp [Performed.after, Performed.ran, runFrom_execute_prime, asked]
      rw [led]
      constructor
      case modality => simp [Performed.assigned, asked, Except.toOption, Interpreter.moveTo]
      case chords => exact (List.append_nil _).symm
      case unwritten => exact (·.moveTo moved)
      all_goals rfl
  | pop =>
    obtain ⟨turtle, stack, modality, chords⟩ := i
    constructor
    case chords => cases stack <;> exact (List.append_nil _).symm
    case unwritten => exact (·.step .pop)
    all_goals cases stack <;> rfl
  | write copies voiceLead =>
    constructor
    case chords =>
      show (i.capture copies voiceLead).chords.toList = _
      simp [Interpreter.capture, Performed.captured]
    case unwritten => exact (·.step (.write copies voiceLead))
    all_goals rfl
  | _ =>
    constructor
    case chords => exact (List.append_nil _).symm
    case unwritten => exact (·.step _)
    all_goals rfl

theorem of_linked {start final : Interpreter α × σ} (linked : Linked oracle start performed final) :
    Continues oracle performed start.1 final.1 := by
  induction linked with
  | nil state => exact refl oracle state.1
  | @cons p performed final _ ih => exact (single oracle p).trans ih

end Continues

/-- What a history that starts with a new interpreter says of the state it leads to. -/
structure Accounts (oracle : Oracle α σ) (performed : List (Performed α σ)) (i : Interpreter α) :
    Prop where
  unwritten : i.AllUnwritten
  chords : i.chords.toList = performed.flatMap Performed.captured
  stack : i.stack = performed.foldl Performed.bracket []
  depth : i.depth + performed.countP Performed.closes = performed.countP Performed.opens
  modality : i.modality = (performed.reverse.findSome? (Performed.assigned oracle)).getD .empty

theorem Linked.accounts {oracle : Oracle α σ} {performed : List (Performed α σ)} {s : σ}
    {final : Interpreter α × σ} (linked : Linked oracle (initial, s) performed final) :
    Accounts oracle performed final.1 := by
  have continued := Continues.of_linked linked
  constructor
  case unwritten => exact continued.unwritten allUnwritten_initial
  case chords => simpa [initial] using continued.chords
  case stack => exact continued.stack
  case depth => simpa [initial, depth] using continued.depth
  case modality => exact continued.modality

/-- A history accounts for every state that an interpreter comes to, between calls and within
them. From there on chords are only added at the end, and the stack only changes at the top. -/
theorem trace_accounts (oracle : Oracle α σ) (s : σ) (history : List (Action α)) :
    let performed := trace oracle history (initial, s)
    let reached := after oracle history (initial, s)
    Accounts oracle performed reached.1 ∧
      (∀ n, ∃ state, Linked oracle (initial, s) (performed.take n) state ∧
        Accounts oracle (performed.take n) state.1 ∧
        Linked oracle state (performed.drop n) reached ∧
        Continues oracle (performed.drop n) state.1 reached.1) ∧
      ∀ later,
        trace oracle (history ++ later) (initial, s) = performed ++ trace oracle later reached ∧
        Continues oracle (trace oracle later reached) reached.1
          (after oracle (history ++ later) (initial, s)).1 := by
  intro performed reached
  have linked : Linked oracle (initial, s) performed reached := linked_trace oracle history _
  refine ⟨linked.accounts, fun n => ?_, fun later => ⟨trace_append oracle history later _, ?_⟩⟩
  · obtain ⟨state, before, since⟩ := linked.split n
    exact ⟨state, before, before.accounts, since, .of_linked since⟩
  · rw [after_append]
    exact .of_linked (linked_trace oracle later reached)

end Interpreter
end ChordGrammar
