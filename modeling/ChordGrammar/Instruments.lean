/-! The assignment of instruments to voices. -/
namespace ChordGrammar

/-- Which instruments play which voices, in ascending order of the voices. -/
structure Instruments where
  bindings : List (Nat × Nat)
  ascending : bindings.Pairwise (·.1 < ·.1)
  deriving DecidableEq

namespace Instruments

/-- The first twelve voices have instruments of their own number. -/
def default : Instruments where
  bindings := (List.range 12).map fun voice => (voice, voice)
  ascending := by decide

/-- Puts a binding in its place, or in the place of the old one. -/
def insert (voice instrument : Nat) : List (Nat × Nat) → List (Nat × Nat)
  | [] => [(voice, instrument)]
  | b :: bs =>
    if voice < b.1 then (voice, instrument) :: b :: bs
    else if voice = b.1 then (voice, instrument) :: bs
    else b :: insert voice instrument bs

theorem mem_insert {voice instrument : Nat} {b : Nat × Nat} {bs : List (Nat × Nat)}
    (h : b ∈ insert voice instrument bs) : b = (voice, instrument) ∨ b ∈ bs := by
  induction bs with
  | nil => simpa [insert] using h
  | cons c cs ih => grind [insert]

theorem insert_ascending {voice instrument : Nat} {bs : List (Nat × Nat)}
    (h : bs.Pairwise (·.1 < ·.1)) : (insert voice instrument bs).Pairwise (·.1 < ·.1) := by
  induction bs with
  | nil => simp [insert]
  | cons c cs ih =>
    have later : ∀ b ∈ insert voice instrument cs, b = (voice, instrument) ∨ b ∈ cs :=
      fun _ => mem_insert
    grind [insert, List.pairwise_cons]

def assign (voice instrument : Nat) (i : Instruments) : Instruments :=
  ⟨insert voice instrument i.bindings, insert_ascending i.ascending⟩

def voices (i : Instruments) : List Nat := i.bindings.map (·.1)

theorem mem_voices_assign {voice instrument bound : Nat} {i : Instruments} :
    bound ∈ (i.assign voice instrument).voices ↔ bound = voice ∨ bound ∈ i.voices := by
  simp only [voices, assign]
  induction i.bindings with
  | nil => simp [insert]
  | cons b bs ih =>
    by_cases earlier : voice < b.1
    · simp [insert, earlier]
    · by_cases same : voice = b.1
      · simp [insert, same]
      · simp only [insert, earlier, same, if_false, List.map_cons, List.mem_cons, ih]
        exact or_left_comm

/-- A voice without a binding has the instrument of its own number. -/
def forVoice (i : Instruments) (voice : Nat) : Nat := (i.bindings.lookup voice).getD voice

end Instruments

end ChordGrammar
