/-! Texts as bytes in UTF-8. A text can be cut at the byte offsets at which a character begins,
and at its end. -/
namespace ChordGrammar

/-- The characters, each beside the offset of its first byte. -/
def indexed (offset : Nat) : List Char → List (Nat × Char)
  | [] => []
  | c :: cs => (offset, c) :: indexed (offset + c.utf8Size) cs

/-- The text from a byte offset on. There is none if the offset lies inside of a character or
beyond the end. -/
def fromByte? (text : String) (offset : Nat) : Option String :=
  if begins : String.Pos.Raw.IsValid text ⟨offset⟩ then
    some (text.sliceFrom ⟨⟨offset⟩, begins⟩).copy
  else none

theorem fromByte?_append (front rest : String) :
    fromByte? (front ++ rest) front.utf8ByteSize = some rest := by
  have begins : String.Pos.Raw.IsValid (front ++ rest) ⟨front.utf8ByteSize⟩ :=
    String.Pos.Raw.isValid_iff_exists_append.mpr ⟨front, rest, rfl, rfl⟩
  have splits : (⟨⟨front.utf8ByteSize⟩, begins⟩ : (front ++ rest).Pos).Splits front rest :=
    ⟨rfl, rfl⟩
  rw [fromByte?, dif_pos begins, splits.copy_sliceFrom_eq]

end ChordGrammar
