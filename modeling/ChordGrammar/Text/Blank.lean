/-! Blank characters and the words between them. -/
namespace ChordGrammar

/-- The characters with the Unicode property `White_Space`. -/
def isBlank (c : Char) : Bool :=
  let n := c.toNat
  0x9 ≤ n ∧ n ≤ 0xd ∨ n = 0x20 ∨ n = 0x85 ∨ n = 0xa0 ∨ n = 0x1680 ∨
    0x2000 ≤ n ∧ n ≤ 0x200a ∨ n = 0x2028 ∨ n = 0x2029 ∨ n = 0x202f ∨ n = 0x205f ∨ n = 0x3000

/-- Splits at the characters that `separates` accepts. Adjacent separators have an
empty piece between them. -/
def pieces (separates : Char → Bool) (cs : List Char) : List Char × List (List Char) :=
  cs.foldr (fun c p => if separates c then ([], p.1 :: p.2) else (c :: p.1, p.2)) ([], [])

def splitAt (separates : Char → Bool) (cs : List Char) : List (List Char) :=
  (pieces separates cs).1 :: (pieces separates cs).2

/-- The words of a text: its maximal runs of characters that are not blank. -/
def wordsOf (cs : List Char) : List (List Char) :=
  (splitAt isBlank cs).filter (· ≠ [])

def words (text : String) : List String := (wordsOf text.toList).map String.ofList

theorem mem_splitAt {separates : Char → Bool} {cs piece : List Char} {c : Char}
    (h : piece ∈ splitAt separates cs) (hc : c ∈ piece) : c ∈ cs ∧ separates c = false := by
  induction cs generalizing piece with
  | nil =>
    have : piece = [] := by simpa [splitAt, pieces] using h
    simp [this] at hc
  | cons d cs ih =>
    by_cases hd : separates d
    · have : piece = [] ∨ piece ∈ splitAt separates cs := by
        simpa [splitAt, pieces, hd] using h
      rcases this with rfl | h
      · simp at hc
      · exact ⟨.tail _ (ih h hc).1, (ih h hc).2⟩
    · have : piece = d :: (pieces separates cs).1 ∨ piece ∈ (pieces separates cs).2 := by
        simpa [splitAt, pieces, hd] using h
      rcases this with rfl | h
      · rcases List.mem_cons.1 hc with rfl | hc
        · exact ⟨.head _, by simpa using hd⟩
        · have := ih (.head _) hc
          exact ⟨.tail _ this.1, this.2⟩
      · have := ih (.tail _ h) hc
        exact ⟨.tail _ this.1, this.2⟩

theorem mem_wordsOf {cs word : List Char} (h : word ∈ wordsOf cs) :
    word ≠ [] ∧ ∀ c ∈ word, isBlank c = false := by
  have h := List.mem_filter.1 h
  exact ⟨by simpa using h.2, fun c hc => (mem_splitAt h.1 hc).2⟩

theorem wordsOf_cons_of_isBlank {c : Char} (h : isBlank c) (cs : List Char) :
    wordsOf (c :: cs) = wordsOf cs := by
  simp [wordsOf, splitAt, pieces, h]

def trim (cs : List Char) : List Char :=
  ((cs.dropWhile isBlank).reverse.dropWhile isBlank).reverse

theorem exists_trim (cs : List Char) :
    ∃ before after, (∀ c ∈ before, isBlank c = true) ∧ (∀ c ∈ after, isBlank c = true) ∧
      cs = before ++ trim cs ++ after := by
  have blank (cs : List Char) : ∀ c ∈ cs.takeWhile isBlank, isBlank c = true :=
    fun c member => List.all_eq_true.mp List.all_takeWhile c member
  refine ⟨cs.takeWhile isBlank, ((cs.dropWhile isBlank).reverse.takeWhile isBlank).reverse,
    blank cs, fun c member => blank _ c (List.mem_reverse.mp member), ?_⟩
  rw [trim, List.append_assoc, ← List.reverse_append, List.takeWhile_append_dropWhile,
    List.reverse_reverse, List.takeWhile_append_dropWhile]

theorem dropWhile_isBlank_append {before cs : List Char}
    (blank : ∀ c ∈ before, isBlank c = true) (begins : ∀ c ∈ cs.head?, isBlank c = false) :
    (before ++ cs).dropWhile isBlank = cs := by
  rw [List.dropWhile_append_of_pos blank]
  cases cs with
  | nil => rfl
  | cons c cs => exact List.dropWhile_cons_of_neg (Bool.eq_false_iff.mp (begins c rfl))

/-- All blanks are removed, and nothing from between them. -/
theorem trim_append {before core after : List Char} (some : core ≠ [])
    (blank : ∀ c ∈ before, isBlank c = true) (blank' : ∀ c ∈ after, isBlank c = true)
    (inside : ∀ c ∈ core, isBlank c = false) : trim (before ++ core ++ after) = core := by
  have begins : ∀ c ∈ (core ++ after).head?, isBlank c = false := by
    obtain ⟨first, rest, rfl⟩ := List.exists_cons_of_ne_nil some
    rintro c ⟨⟩
    exact inside first (.head rest)
  have ends : ∀ c ∈ core.reverse.head?, isBlank c = false := fun c last =>
    inside c (List.mem_reverse.mp (List.mem_of_head? last))
  have blanks : ∀ c ∈ after.reverse, isBlank c = true := fun c member =>
    blank' c (List.mem_reverse.mp member)
  rw [trim, List.append_assoc, dropWhile_isBlank_append blank begins, List.reverse_append,
    dropWhile_isBlank_append blanks ends, List.reverse_reverse]

end ChordGrammar
