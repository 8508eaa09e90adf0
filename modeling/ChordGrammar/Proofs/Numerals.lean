import ChordGrammar.Command.Grammar
import ChordGrammar.Proofs.Predictive

/-! Numerals as texts and as derivations. What is read as a numeral has a derivation by the
grammar, and each derivation is read as the number that it stands for. -/
namespace ChordGrammar

theorem isDigit_iff_has (c : Char) :
    c.isDigit = true ↔
      (Letters.among ['0', '1', '2', '3', '4', '5', '6', '7', '8', '9']).has c = true := by
  rw [Letters.has, List.contains_iff_mem]
  constructor
  · intro isDigit
    obtain ⟨low, high⟩ := Char.isDigit_iff_toNat.mp isDigit
    have low : 48 ≤ c.toNat := low
    have high : c.toNat ≤ 57 := high
    rw [← Char.ofNat_toNat c]
    have places : ∀ n < 10, Char.ofNat (48 + n) ∈
        ['0', '1', '2', '3', '4', '5', '6', '7', '8', '9'] := by decide
    have place := places (c.toNat - 48) (by omega)
    rwa [Nat.add_sub_cancel' low] at place
  · have all : ['0', '1', '2', '3', '4', '5', '6', '7', '8', '9'].all Char.isDigit = true := by
      decide
    exact List.all_eq_true.mp all c

theorem unsigned_of_isDigit {c : Char} (isDigit : c.isDigit = true) : c ≠ '+' ∧ c ≠ '-' := by
  constructor <;> rintro rfl <;> cases isDigit

theorem span_digits {digits rest : List Char} (all : ∀ c ∈ digits, c.isDigit = true)
    (ends : ∀ c ∈ rest.head?, c.isDigit = false) :
    (digits ++ rest).takeWhile Char.isDigit = digits ∧
      (digits ++ rest).dropWhile Char.isDigit = rest := by
  rw [List.takeWhile_append_of_pos all, List.dropWhile_append_of_pos all]
  cases rest with
  | nil => simp
  | cons c rest => simp [ends c rfl]

namespace Derivation

open Pattern

/-! ### Letters and digits -/

theorem eq_of_char {c letter : Char} (accepted : (Letters.among [letter]).has c = true) :
    c = letter := by
  simpa [Letters.has] using accepted

@[simp] theorem text_char {letter : Char} : (d : Derivation (char letter)) → d.text = [letter]
  | .one _ accepted => by rw [text, eq_of_char accepted]

theorem text_char_seq {letter : Char} {p : Pattern} (first : Derivation (char letter))
    (second : Derivation p) : (Derivation.seq first second).text = letter :: second.text := by
  rw [text, text_char, List.singleton_append]

theorem isDigit_of_many : (d : Derivation (.many digit)) → ∀ c ∈ d.text, c.isDigit = true
  | .stop => nofun
  | .next (.one c accepted) others => by
    rw [text, List.forall_mem_append]
    refine ⟨?_, isDigit_of_many others⟩
    simpa [text] using (isDigit_iff_has c).mpr accepted

theorem isDigit_of_plus : (d : Derivation digit.plus) →
    d.text ≠ [] ∧ ∀ c ∈ d.text, c.isDigit = true
  | .seq (.one c accepted) others => ⟨nofun, isDigit_of_many (.next (.one c accepted) others)⟩

theorem exists_many {cs : List Char} (all : ∀ c ∈ cs, c.isDigit = true) :
    ∃ d : Derivation (.many digit), d.text = cs := by
  induction cs with
  | nil => exact ⟨.stop, rfl⟩
  | cons c cs ih =>
    obtain ⟨isDigit, others⟩ := List.forall_mem_cons.mp all
    obtain ⟨d, rfl⟩ := ih others
    exact ⟨.next (.one c ((isDigit_iff_has c).mp isDigit)) d, rfl⟩

theorem exists_plus {cs : List Char} (some : cs ≠ []) (all : ∀ c ∈ cs, c.isDigit = true) :
    ∃ d : Derivation digit.plus, d.text = cs := by
  obtain ⟨c, cs, rfl⟩ := List.exists_cons_of_ne_nil some
  obtain ⟨isDigit, others⟩ := List.forall_mem_cons.mp all
  obtain ⟨d, rfl⟩ := exists_many others
  exact ⟨.seq (.one c ((isDigit_iff_has c).mp isDigit)) d, rfl⟩

theorem digits?_text (d : Derivation digit.plus) :
    digits? d.text = some (digitsValue d.text) := by
  obtain ⟨some, all⟩ := isDigit_of_plus d
  exact digits?_eq_some_iff.mpr ⟨some, List.all_eq_true.mpr all, rfl⟩

theorem exists_of_digits? {cs : List Char} {n : Nat} (read : digits? cs = some n) :
    ∃ d : Derivation digit.plus, d.text = cs ∧ digitsValue d.text = n := by
  obtain ⟨some, all, rfl⟩ := digits?_eq_some_iff.mp read
  obtain ⟨d, rfl⟩ := exists_plus some (List.all_eq_true.mp all)
  exact ⟨d, rfl, rfl⟩

/-! ### The parts of a numeral -/

theorem takeSign_text {body : List Char} (unsigned : ∀ c ∈ body.head?, c ≠ '+' ∧ c ≠ '-') :
    (d : Derivation (.opt sign)) →
      Decimal.takeSign (d.text ++ body) = (decide (d.text = ['-']), body)
  | .skip => by
    show Decimal.takeSign body = _
    unfold Decimal.takeSign
    split
    · exact absurd rfl (unsigned '-' rfl).2
    · exact absurd rfl (unsigned '+' rfl).1
    · rfl
  | .take (.one c accepted) => by
    have either : c = '+' ∨ c = '-' := by simpa [Letters.has] using accepted
    rcases either with rfl | rfl <;> rfl

theorem exists_sign (cs : List Char) :
    ∃ d : Derivation (.opt sign), d.text ++ (Decimal.takeSign cs).2 = cs := by
  unfold Decimal.takeSign
  split
  · exact ⟨.take (.one '-' rfl), rfl⟩
  · exact ⟨.take (.one '+' rfl), rfl⟩
  · exact ⟨.skip, rfl⟩

theorem exponent?_text : (d : Derivation (.opt exponent)) →
    Decimal.exponent? d.text = some d.power
  | .skip => rfl
  | .take (.seq (.one c accepted) (.seq sign digits)) => by
    have either : c = 'e' ∨ c = 'E' := by simpa [Letters.has] using accepted
    have unsigned : ∀ c ∈ digits.text.head?, c ≠ '+' ∧ c ≠ '-' := fun c head =>
      unsigned_of_isDigit ((isDigit_of_plus digits).2 c (List.mem_of_head? head))
    show Decimal.exponent? (c :: (sign.text ++ digits.text)) = _
    rw [Decimal.exponent?, if_pos either, takeSign_text unsigned, digits?_text]
    simp [power]

theorem exists_exponent {cs : List Char} {n : Int} (read : Decimal.exponent? cs = some n) :
    ∃ d : Derivation (.opt exponent), d.text = cs := by
  cases cs with
  | nil => exact ⟨.skip, rfl⟩
  | cons c cs =>
    rw [Decimal.exponent?] at read
    split at read
    · next either =>
      obtain ⟨_, read, -⟩ := Option.map_eq_some_iff.mp read
      obtain ⟨_, read, -⟩ := Option.bind_eq_some_iff.mp read
      obtain ⟨digits, same, -⟩ := exists_of_digits? read
      obtain ⟨sign, whole⟩ := exists_sign cs
      have accepted : (Letters.among ['e', 'E']).has c = true := by simpa [Letters.has] using either
      refine ⟨.take (.seq (.one c accepted) (.seq sign digits)), ?_⟩
      rw [← whole, ← same]
      rfl
    · cases read

theorem isDigit_of_begin {rest : List Char} (after : (Letters.among ['e', 'E']).Begin rest) :
    (∀ c ∈ rest.head?, c.isDigit = false) ∧ Decimal.takeFraction rest = ([], rest) := by
  cases rest with
  | nil => exact ⟨nofun, rfl⟩
  | cons c rest =>
    have either : c = 'e' ∨ c = 'E' := by simpa [Letters.has] using after c rfl
    rcases either with rfl | rfl
    · exact ⟨by rintro _ ⟨⟩; rfl, rfl⟩
    · exact ⟨by rintro _ ⟨⟩; rfl, rfl⟩

/-- The digits on either side of the point, and what is left after them. -/
theorem takeFraction_text {rest : List Char} (after : (Letters.among ['e', 'E']).Begin rest) :
    (d : Derivation mantissa) →
      (d.text ++ rest).takeWhile Char.isDigit = d.whole ∧
      Decimal.takeFraction ((d.text ++ rest).dropWhile Char.isDigit) = (d.fraction, rest) ∧
      ¬ (d.whole = [] ∧ d.fraction = [])
  | .left (.seq digits .skip) => by
    obtain ⟨ends, fraction⟩ := isDigit_of_begin after
    obtain ⟨some, all⟩ := isDigit_of_plus digits
    obtain ⟨taken, dropped⟩ := span_digits all ends
    rw [text, text, text, List.append_nil, taken, dropped, fraction]
    exact ⟨rfl, rfl, fun none => some none.1⟩
  | .left (.seq digits (.take (.seq point others))) => by
    obtain ⟨some, all⟩ := isDigit_of_plus digits
    have ends : ∀ c ∈ ('.' :: (others.text ++ rest)).head?, c.isDigit = false := by
      rintro _ ⟨⟩
      rfl
    obtain ⟨taken, dropped⟩ := span_digits all ends
    obtain ⟨takenAfter, droppedAfter⟩ :=
      span_digits (isDigit_of_many others) (isDigit_of_begin after).1
    have text : (Derivation.left (.seq digits (.take (.seq point others))) :
        Derivation mantissa).text ++ rest = digits.text ++ '.' :: (others.text ++ rest) := by
      simp [Derivation.text]
    rw [text, taken, dropped, Decimal.takeFraction, takenAfter, droppedAfter]
    exact ⟨rfl, rfl, fun none => some none.1⟩
  | .right (.seq point digits) => by
    obtain ⟨some, all⟩ := isDigit_of_plus digits
    obtain ⟨taken, dropped⟩ := span_digits all (isDigit_of_begin after).1
    have text : (Derivation.right (.seq point digits) : Derivation mantissa).text ++ rest =
        '.' :: (digits.text ++ rest) := by
      simp [Derivation.text]
    have start : ¬ Char.isDigit '.' = true := by decide
    rw [text, List.takeWhile_cons_of_neg start, List.dropWhile_cons_of_neg start,
      Decimal.takeFraction, taken, dropped]
    exact ⟨rfl, rfl, fun none => some none.2⟩

theorem begin_exponent (d : Derivation (.opt exponent)) :
    (Letters.among ['e', 'E']).Begin d.text := by
  have begins := d.begin_text_append (Letters.begin_nil (.among []))
  rwa [List.append_nil] at begins

theorem unsigned_mantissa (d : Derivation mantissa) (rest : List Char) :
    ∀ c ∈ (d.text ++ rest).head?, c ≠ '+' ∧ c ≠ '-' := by
  intro c head
  have anywhere : Letters.all.Begin rest := fun _ _ => rfl
  have begins := d.begin_text_append anywhere c head
  constructor <;> rintro rfl <;> cases begins

theorem exists_mantissa {body fraction rest : List Char}
    (read : Decimal.takeFraction (body.dropWhile Char.isDigit) = (fraction, rest))
    (some : ¬ (body.takeWhile Char.isDigit = [] ∧ fraction = [])) :
    ∃ d : Derivation mantissa, d.text ++ rest = body := by
  have digits (cs : List Char) : ∀ c ∈ cs.takeWhile Char.isDigit, c.isDigit = true :=
    List.all_eq_true.mp List.all_takeWhile
  rw [← List.takeWhile_append_dropWhile (p := Char.isDigit) (l := body)]
  generalize body.takeWhile Char.isDigit = whole, body.dropWhile Char.isDigit = after,
    digits body = all at some read
  unfold Decimal.takeFraction at read
  split at read
  · next after =>
    cases read
    by_cases none : whole = []
    · obtain ⟨d, same⟩ := exists_plus (fun none' => some ⟨none, none'⟩) (digits after)
      refine ⟨.right (.seq (.one '.' rfl) d), ?_⟩
      simp [text, same, none]
    · obtain ⟨d, rfl⟩ := exists_plus none all
      obtain ⟨others, same⟩ := exists_many (digits after)
      refine ⟨.left (.seq d (.take (.seq (.one '.' rfl) others))), ?_⟩
      simp [text, same]
  · cases read
    obtain ⟨d, rfl⟩ := exists_plus (fun none => some ⟨none, rfl⟩) all
    refine ⟨.left (.seq d .skip), ?_⟩
    simp [text]

/-! ### Numerals -/

/-- Each derivation of a numeral is read as the number that it stands for. -/
theorem read?_text : (d : Derivation number) → Decimal.read? d.text = some d.decimal
  | .seq sign (.seq mantissa exponent) => by
    obtain ⟨whole, fraction, some⟩ := takeFraction_text (begin_exponent exponent) mantissa
    show Decimal.read? (sign.text ++ (mantissa.text ++ exponent.text)) = _
    unfold Decimal.read?
    rw [takeSign_text (unsigned_mantissa mantissa exponent.text)]
    simp only [whole, fraction, if_neg some, exponent?_text]
    rfl

theorem exists_of_read? {cs : List Char} {n : Decimal} (read : Decimal.read? cs = some n) :
    ∃ d : Derivation number, d.text = cs := by
  unfold Decimal.read? at read
  obtain ⟨sign, body⟩ := exists_sign cs
  generalize (Decimal.takeSign cs).2 = unsigned at read body
  obtain ⟨fraction, rest, parts⟩ : ∃ fraction rest,
    Decimal.takeFraction (unsigned.dropWhile Char.isDigit) = (fraction, rest) := ⟨_, _, rfl⟩
  simp only [parts] at read
  split at read
  · cases read
  · next some =>
    obtain ⟨_, read, -⟩ := Option.map_eq_some_iff.mp read
    obtain ⟨exponent, rfl⟩ := exists_exponent read
    obtain ⟨mantissa, rfl⟩ := exists_mantissa parts some
    exact ⟨.seq sign (.seq mantissa exponent), body⟩

end Derivation
end ChordGrammar
