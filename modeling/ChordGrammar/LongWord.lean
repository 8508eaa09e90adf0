/-! Signed words of 128 bits. An operation gives nothing where a word of that length has no room
for the result, and otherwise the word of the result: what is computed in words is what is
computed in whole numbers. -/
namespace ChordGrammar

abbrev LongWord := BitVec 128

namespace LongWord

def ofInt64 (a : Int64) : LongWord := a.toBitVec.signExtend 128

def add? (a b : LongWord) : Option LongWord :=
  if a.saddOverflow b then none else some (a + b)

/-- The remainder counted from below. There is none for the divisor zero, nor where the
quotient overflows. -/
def emod? (a b : LongWord) : Option LongWord :=
  if b = 0 ∨ a = .intMin 128 ∧ b = -1 then none
  else if (a.srem b).slt 0#128 then some (a.srem b + b.abs)
  else some (a.srem b)

/-- The low 64 bits, unless the number is not the same in them. -/
def toInt64? (a : LongWord) : Option Int64 :=
  let low := Int64.ofBitVec (a.setWidth 64)
  if ofInt64 low = a then some low else none

@[simp] theorem toInt_ofInt64 (a : Int64) : (ofInt64 a).toInt = a.toInt :=
  (BitVec.toInt_signExtend_of_le (by decide)).trans a.toInt_toBitVec

theorem exists_sum (a b : Int64) : ∃ c : LongWord, c.toInt = a.toInt + b.toInt := by
  have low := a.le_toInt
  have low' := b.le_toInt
  have high := a.toInt_lt
  have high' := b.toInt_lt
  refine ⟨.ofInt 128 (a.toInt + b.toInt), BitVec.toInt_ofInt_eq_self (by decide) ?_ ?_⟩ <;> omega

theorem add_eq_of_toInt {a b c : LongWord} (sum : c.toInt = a.toInt + b.toInt) : a + b = c := by
  rw [← BitVec.ofInt_toInt (x := c), sum, BitVec.ofInt_add, BitVec.ofInt_toInt, BitVec.ofInt_toInt]

theorem add?_eq_some_iff {a b c : LongWord} :
    a.add? b = some c ↔ c.toInt = a.toInt + b.toInt := by
  unfold add?
  split
  · next overflows =>
    have low := c.le_toInt
    have high := c.toInt_lt
    simp only [BitVec.saddOverflow, Bool.or_eq_true, decide_eq_true_eq] at overflows
    exact iff_of_false nofun (by omega)
  · next fits =>
    rw [Option.some.injEq, ← BitVec.toInt_inj, BitVec.toInt_add_of_not_saddOverflow fits, eq_comm]

/-- A negative remainder toward zero is one divisor short. -/
theorem emod_eq_tmod_add {m n : Int} (positive : 0 < n) :
    m % n = if m.tmod n < 0 then m.tmod n + n else m.tmod n := by
  have low := Int.emod_nonneg m (Int.ne_of_gt positive)
  have high := Int.emod_lt_of_pos m positive
  rw [Int.tmod_eq_emod]
  split <;> split <;> omega

theorem emod?_eq_some {a b c : LongWord} (positive : 0 < b.toInt)
    (remains : c.toInt = a.toInt % b.toInt) : a.emod? b = some c := by
  have defined : ¬ (b = 0 ∨ a = .intMin 128 ∧ b = -1) := by
    rintro (rfl | ⟨-, rfl⟩) <;> exact absurd positive (by decide)
  have magnitude : b.abs = b := by
    rw [BitVec.abs, BitVec.msb_eq_toInt, decide_eq_false (Int.not_lt.mpr (Int.le_of_lt positive))]
    rfl
  rw [emod_eq_tmod_add positive, ← BitVec.toInt_srem] at remains
  simp only [emod?, defined, if_false, BitVec.slt_iff_toInt_lt, magnitude, BitVec.toInt_zero]
  split at remains
  · next negative =>
    rw [if_pos negative, add_eq_of_toInt remains]
  · next nonneg =>
    rw [if_neg nonneg, Option.some.injEq, ← BitVec.toInt_inj, remains]

theorem setWidth_ofInt64 (a : Int64) : (ofInt64 a).setWidth 64 = a.toBitVec := by
  ext i bit
  have inside : i < 128 := by omega
  rw [ofInt64, BitVec.getElem_setWidth, BitVec.getLsbD_signExtend, if_pos bit,
    decide_eq_true inside, Bool.true_and, BitVec.getLsbD_eq_getElem]

theorem toInt64?_eq_some_iff {a : LongWord} {b : Int64} :
    a.toInt64? = some b ↔ b.toInt = a.toInt := by
  constructor
  · intro kept
    simp only [toInt64?, Option.ite_none_right_eq_some] at kept
    obtain ⟨same, low⟩ := kept
    rw [← toInt_ofInt64, ← Option.some.inj low, same]
  · intro same
    have extended : a = ofInt64 b := BitVec.toInt_inj.mp (same.symm.trans (toInt_ofInt64 b).symm)
    simp [toInt64?, extended, setWidth_ofInt64]

end LongWord
end ChordGrammar
