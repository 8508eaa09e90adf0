import ChordGrammar.ChordName.Spelling
import ChordGrammar.Proofs.BinaryPlaces

/-! Chord names can be read in one way only. No suffix begins with an accidental or an apostrophe,
so what is taken for one never belongs to the suffix: the names that are read are the texts of
the spellings, and no two spellings have the same text. The root ends where a character begins,
so that the text behind it can be cut off. -/
namespace ChordGrammar

open Scalar

/-! ### Letters -/

theorem eq_or_eq_of_toUpper {c capital : Char} (upper : c.toUpper = capital) :
    c = capital ∨ c = Char.ofNat (capital.toNat + 32) := by
  unfold Char.toUpper at upper
  split at upper
  · next small =>
    right
    have first : 97 ≤ c.val.toNat := UInt32.le_iff_toNat_le.mp small.1
    have below : c.val.toNat < 2 ^ 32 := c.val.toNat_lt
    have back : ('A'.val - 'a'.val).toNat = 2 ^ 32 - 32 := by decide
    have lowered : c.toNat = capital.toNat + 32 := by
      subst upper
      show c.val.toNat = (c.val + ('A'.val - 'a'.val)).toNat + 32
      rw [UInt32.toNat_add, back]
      omega
    rw [← lowered, Char.ofNat_toNat]
  · exact .inl upper

theorem rootLetter?_eq_some_iff {letter : Char} {root : Nat} :
    rootLetter? letter = some root ↔ (letter, root) ∈ rootLetters := by
  constructor
  · intro found
    unfold rootLetter? at found
    split at found <;> cases found
    all_goals
      rename_i upper
      obtain rfl | rfl := eq_or_eq_of_toUpper upper <;> decide
  · have table : ∀ entry ∈ rootLetters, rootLetter? entry.1 = some entry.2 := by decide
    exact table (letter, root)

theorem rootLetters_nodup : (rootLetters.map Prod.fst).Nodup := by decide

theorem rootLetters_lt : ∀ entry ∈ rootLetters, entry.2 < 12 := by decide

/-! ### Suffixes -/

theorem mem_suffixTable {name : String} {intervals : List Nat} :
    (name, intervals) ∈ suffixTable ↔
      ∃ names, (names, intervals) ∈ chordSuffixes ∧ name ∈ names := by
  simp [suffixTable]

theorem suffixTable_nodup : (suffixTable.map Prod.fst).Nodup := by decide

theorem mem_of_suffixIntervals? {suffix : List Char} {intervals : List Nat}
    (found : suffixIntervals? suffix = some intervals) :
    (String.ofList suffix, intervals) ∈ suffixTable := by
  obtain ⟨⟨names, _⟩, entry, rfl⟩ := Option.map_eq_some_iff.mp found
  have named := List.find?_some entry
  obtain ⟨name, member, same⟩ := List.any_eq_true.mp named
  obtain rfl := of_decide_eq_true same
  rw [String.ofList_toList]
  exact mem_suffixTable.mpr ⟨names, List.mem_of_find?_eq_some entry, member⟩

theorem suffixIntervals?_eq_some_iff {suffix : List Char} {intervals : List Nat} :
    suffixIntervals? suffix = some intervals ↔ (String.ofList suffix, intervals) ∈ suffixTable := by
  refine ⟨mem_of_suffixIntervals?, fun member => ?_⟩
  have found : (suffixIntervals? suffix).isSome := by
    obtain ⟨names, entry, named⟩ := mem_suffixTable.mp member
    rw [suffixIntervals?, Option.isSome_map, List.find?_isSome]
    exact ⟨_, entry, List.any_eq_true.mpr ⟨_, named, by simp⟩⟩
  obtain ⟨others, found⟩ := Option.isSome_iff_exists.mp found
  have same := List.inj_on_of_nodup_map suffixTable_nodup (mem_of_suffixIntervals? found) member rfl
  rw [found, (Prod.mk.inj same).2]

theorem suffixTable_head {suffix : String × List Nat} (member : suffix ∈ suffixTable) :
    ∀ c ∈ suffix.1.toList.head?, c ∉ accidentals.map Prod.fst ∧ c ≠ '\'' := by
  obtain ⟨names, entry, named⟩ := mem_suffixTable.mp member
  have table : ∀ entry ∈ chordSuffixes, ∀ name ∈ entry.1,
      name.toList.head?.all fun c => c ∉ accidentals.map Prod.fst ∧ c ≠ '\'' := by decide
  intro c first
  have plain := table _ entry _ named
  rw [Option.mem_def.mp first] at plain
  exact of_decide_eq_true plain

theorem suffixTable_blank {suffix : String × List Nat} (member : suffix ∈ suffixTable) :
    ∀ c ∈ suffix.1.toList, isBlank c = false := by
  obtain ⟨names, entry, named⟩ := mem_suffixTable.mp member
  have table : ∀ entry ∈ chordSuffixes, ∀ name ∈ entry.1, name.toList.all (!isBlank ·) := by decide
  simpa using table _ entry _ named

theorem suffixTable_lt {suffix : String × List Nat} (member : suffix ∈ suffixTable) :
    ∀ i ∈ suffix.2, i < 15 := by
  obtain ⟨names, entry, -⟩ := mem_suffixTable.mp member
  have table : ∀ entry ∈ chordSuffixes, ∀ i ∈ entry.2, i < 15 := by decide
  exact table _ entry

/-! ### Accidentals and apostrophes -/

section

variable {cs rest : List Char}

theorem takeAccidental_cons {a : Char × Int} (member : a ∈ accidentals) :
    takeAccidental (a.1 :: rest) = ((a.2 % 12).toNat, rest) := by
  simp only [accidentals, List.mem_cons, List.not_mem_nil, or_false] at member
  rcases member with rfl | rfl | rfl | rfl <;> rfl

theorem takeAccidental_of_head (plain : ∀ c ∈ cs.head?, c ∉ accidentals.map Prod.fst) :
    takeAccidental cs = (0, cs) := by
  unfold takeAccidental
  split
  case h_5 => rfl
  all_goals exact absurd (by decide) (plain _ rfl)

theorem takeAccidental_append {accidental : Option (Char × Int)}
    (member : ∀ a ∈ accidental, a ∈ accidentals)
    (plain : ∀ c ∈ rest.head?, c ∉ accidentals.map Prod.fst) :
    takeAccidental (accidental.toList.map Prod.fst ++ rest) =
      (((accidental.map Prod.snd).getD 0 % 12).toNat, rest) := by
  cases accidental with
  | none => exact takeAccidental_of_head plain
  | some a => exact takeAccidental_cons (member a rfl)

theorem exists_accidental (cs : List Char) :
    ∃ accidental : Option (Char × Int), (∀ a ∈ accidental, a ∈ accidentals) ∧
      cs = accidental.toList.map Prod.fst ++ (takeAccidental cs).2 := by
  by_cases plain : ∀ c ∈ cs.head?, c ∉ accidentals.map Prod.fst
  · exact ⟨none, nofun, by rw [takeAccidental_of_head plain]; rfl⟩
  · push Not at plain
    obtain ⟨c, first, marked⟩ := plain
    obtain ⟨a, member, rfl⟩ := List.mem_map.mp marked
    obtain ⟨rest, rfl⟩ := List.head?_eq_some_iff.mp first
    refine ⟨some a, ?_, by rw [takeAccidental_cons member]; rfl⟩
    rintro _ ⟨⟩
    exact member

theorem accidental_ext {accidental accidental' : Option (Char × Int)}
    (member : ∀ a ∈ accidental, a ∈ accidentals) (member' : ∀ a ∈ accidental', a ∈ accidentals)
    (same : accidental.toList.map Prod.fst = accidental'.toList.map Prod.fst) :
    accidental = accidental' := by
  have nodup : (accidentals.map Prod.fst).Nodup := by decide
  cases accidental with
  | none => cases accidental' with
    | none => rfl
    | some b => cases same
  | some a => cases accidental' with
    | none => cases same
    | some b =>
      have first : a.1 = b.1 := (List.cons.inj same).1
      rw [List.inj_on_of_nodup_map nodup (member a rfl) (member' b rfl) first]

theorem dropApostrophe_of_head (plain : ∀ c ∈ cs.head?, c ≠ '\'') : dropApostrophe cs = cs := by
  unfold dropApostrophe
  split
  · exact absurd rfl (plain _ rfl)
  · rfl

theorem dropApostrophe_append (apostrophe : Bool) (plain : ∀ c ∈ rest.head?, c ≠ '\'') :
    dropApostrophe ((if apostrophe then ['\''] else []) ++ rest) = rest := by
  cases apostrophe with
  | true => rfl
  | false => exact dropApostrophe_of_head plain

theorem exists_apostrophe (cs : List Char) :
    ∃ apostrophe : Bool, cs = (if apostrophe then ['\''] else []) ++ dropApostrophe cs := by
  unfold dropApostrophe
  split
  · exact ⟨true, rfl⟩
  · exact ⟨false, rfl⟩

end

/-! ### Spellings -/

namespace Spelling

theorem ending_head (s : Spelling) : ∀ c ∈ s.ending.head?, c ∉ accidentals.map Prod.fst := by
  intro c first
  unfold ending at first
  split at first
  · cases first
    decide
  · exact (suffixTable_head s.suffix_mem c first).1

theorem takeAccidental_behind (s : Spelling) :
    takeAccidental (s.accidental.toList.map Prod.fst ++ s.ending) =
      ((s.shift % 12).toNat, s.ending) :=
  takeAccidental_append s.accidental_mem s.ending_head

theorem dropApostrophe_ending (s : Spelling) : dropApostrophe s.ending = s.suffix.1.toList :=
  dropApostrophe_append _ fun c first => (suffixTable_head s.suffix_mem c first).2

theorem chordOfName_text (s : Spelling) : chordOfName s.text = .ok (s.root, s.intervals) := by
  have letter : rootLetter? s.letter.1 = some s.letter.2 :=
    rootLetter?_eq_some_iff.mpr s.letter_mem
  have suffix : suffixIntervals? s.suffix.1.toList = some s.intervals := by
    rw [suffixIntervals?_eq_some_iff, String.ofList_toList]
    exact s.suffix_mem
  have root : (s.letter.2 + (s.shift % 12).toNat) % 12 = s.root := by
    unfold Spelling.root
    omega
  simp only [text, chordOfName, letter, takeAccidental_behind, dropApostrophe_ending, suffix, root]

theorem exists_text {name : List Char} {chord : Nat × List Nat}
    (read : chordOfName name = .ok chord) : ∃ s : Spelling, name = s.text := by
  cases name with
  | nil => cases read
  | cons letter rest =>
    simp only [chordOfName] at read
    split at read
    · cases read
    · next root found =>
      split at read
      · cases read
      · next intervals known =>
        obtain ⟨accidental, member, marked⟩ := exists_accidental rest
        obtain ⟨apostrophe, dropped⟩ := exists_apostrophe (takeAccidental rest).2
        refine ⟨⟨(letter, root), accidental, apostrophe, (String.ofList _, intervals),
          rootLetter?_eq_some_iff.mp found, member, suffixIntervals?_eq_some_iff.mp known⟩, ?_⟩
        rw [text, ending, String.toList_ofList, ← dropped, ← marked]

theorem chordOfName_eq_ok_iff {name : List Char} {chord : Nat × List Nat} :
    chordOfName name = .ok chord ↔ ∃ s : Spelling, name = s.text ∧ chord = (s.root, s.intervals) := by
  constructor
  · intro read
    obtain ⟨s, rfl⟩ := exists_text read
    rw [chordOfName_text] at read
    exact ⟨s, rfl, (Except.ok.inj read).symm⟩
  · rintro ⟨s, rfl, rfl⟩
    exact s.chordOfName_text

/-- The parts of a text are determined from left to right. -/
theorem text_injective : Function.Injective text := by
  intro s t same
  obtain ⟨letters, behind⟩ := List.cons.inj same
  have endings : s.ending = t.ending := by
    have taken := congrArg takeAccidental behind
    rw [takeAccidental_behind, takeAccidental_behind] at taken
    exact (Prod.mk.inj taken).2
  have suffixes : s.suffix.1 = t.suffix.1 := by
    apply String.toList_inj.mp
    rw [← dropApostrophe_ending, ← dropApostrophe_ending, endings]
  ext1
  · exact List.inj_on_of_nodup_map rootLetters_nodup s.letter_mem t.letter_mem letters
  · rw [endings] at behind
    exact accidental_ext s.accidental_mem t.accidental_mem (List.append_cancel_right behind)
  · rw [ending, ending, suffixes] at endings
    have marks := List.append_cancel_right endings
    have apart : ∀ first second : Bool, (if first then ['\''] else []) =
        (if second then ['\''] else []) → first = second := by decide
    exact apart _ _ marks
  · exact List.inj_on_of_nodup_map suffixTable_nodup s.suffix_mem t.suffix_mem suffixes

/-! ### Blanks -/

theorem text_blank (s : Spelling) : ∀ c ∈ s.text, isBlank c = false := by
  have letters : ∀ entry ∈ rootLetters, isBlank entry.1 = false := by decide
  have marks : ∀ entry ∈ accidentals, isBlank entry.1 = false := by decide
  intro c member
  rcases List.mem_cons.mp member with rfl | member
  · exact letters _ s.letter_mem
  rcases List.mem_append.mp member with member | member
  · obtain ⟨a, given, rfl⟩ := List.mem_map.mp member
    exact marks _ (s.accidental_mem a (Option.mem_toList.mp given))
  rcases List.mem_append.mp member with member | member
  · split at member
    · obtain rfl := List.mem_singleton.mp member
      decide
    · cases member
  · exact suffixTable_blank s.suffix_mem c member

theorem spells_iff {s : Spelling} {name : List Char} : s.Spells name ↔ trim name = s.text := by
  constructor
  · rintro ⟨before, after, blank, blank', rfl⟩
    exact trim_append (List.cons_ne_nil _ _) blank blank' s.text_blank
  · intro trimmed
    rw [Spells, ← trimmed]
    exact exists_trim name

/-- No text can be spelled in two ways. -/
theorem Spells.unique {s t : Spelling} {name : List Char} (spells : s.Spells name)
    (spells' : t.Spells name) : s = t :=
  text_injective ((spells_iff.mp spells).symm.trans (spells_iff.mp spells'))

end Spelling

/-- The names that are read are the spellings, with blanks around them or not. -/
theorem PitchClassSet.ofName_eq_ok_iff {α : Type} [Scalar α] {name : List Char}
    {chord : PitchClassSet α} :
    ofName name = .ok chord ↔ ∃ s : Spelling, s.Spells name ∧ chord = s.chord := by
  unfold ofName
  constructor
  · intro read
    cases parts : chordOfName (trim name) with
    | error e => rw [parts] at read; cases read
    | ok chord =>
      obtain ⟨s, trimmed, rfl⟩ := Spelling.chordOfName_eq_ok_iff.mp parts
      rw [parts] at read
      exact ⟨s, Spelling.spells_iff.mpr trimmed, (Except.ok.inj read).symm⟩
  · rintro ⟨s, spells, rfl⟩
    rw [Spelling.spells_iff.mp spells, s.chordOfName_text]
    rfl

/-! ### Voices -/

open Binary64 in
/-- The voices stand in the order of the table, and are counted from the shifted root. -/
theorem Spelling.voices_chord (s : Spelling) :
    (s.chord : PitchClassSet Float).voices =
      s.intervals.map fun i : Nat => Float.ofNat ((s.letter.2 + s.shift + i) % 12).toNat := by
  have voices : (s.chord : PitchClassSet Float).voices =
      s.intervals.map fun i => pc (pc (Float.ofNat i) + Float.ofNat s.root) := by
    simp only [chord, PitchClassSet.transpose, PitchClassSet.voices_map,
      PitchClassSet.voices_ofPitches, List.map_map]
    rfl
  rw [voices]
  refine List.map_congr_left fun i member => ?_
  have small : i < 15 := suffixTable_lt s.suffix_mem i member
  have below : s.root < 12 := by unfold Spelling.root; omega
  have sum := value_ofNat_add (Nat.mod_lt i (by decide)) below
  have counted : (i % 12 + s.root) % 12 = ((s.letter.2 + s.shift + i) % 12).toNat := by
    unfold Spelling.root
    omega
  rw [pc_eq_ofNat (value_ofNat (by omega)), pc_eq_ofNat sum, counted]

/-! ### The text behind the root -/

theorem fromByte?_ofList (front rest : List Char) :
    fromByte? (String.ofList (front ++ rest)) (String.utf8Len front) = some (String.ofList rest) := by
  rw [String.ofList_append, ← String.utf8ByteSize_ofList]
  exact fromByte?_append _ _

theorem cutRoot?_cons {letter : Char} {root : Nat} (found : rootLetter? letter = some root)
    (rest : List Char) :
    cutRoot? (String.ofList (letter :: rest)) = some (.ok
      ((root + (takeAccidental rest).1) % 12, String.ofList (takeAccidental rest).2)) := by
  have natural : root % 12 = root :=
    Nat.mod_eq_of_lt (rootLetters_lt _ (rootLetter?_eq_some_iff.mp found))
  cases rest with
  | nil =>
    simp only [cutRoot?, String.toList_ofList, indexed, found, takeAccidental, Nat.add_zero, natural]
  | cons c cs =>
    have first : fromByte? (String.ofList (letter :: c :: cs)) (0 + letter.utf8Size) =
        some (String.ofList (c :: cs)) := fromByte?_ofList [letter] (c :: cs)
    have offset : 0 + letter.utf8Size + c.utf8Size = String.utf8Len [letter, c] := by
      simp only [String.utf8Len_cons, String.utf8Len_nil]
      omega
    have second : fromByte? (String.ofList (letter :: c :: cs))
        (0 + letter.utf8Size + c.utf8Size) = some (String.ofList cs) :=
      offset ▸ fromByte?_ofList [letter, c] cs
    simp only [cutRoot?, String.toList_ofList, indexed, found, first, second, Option.map_some]
    split
    · next sharp =>
      have taken : takeAccidental (c :: cs) = (1, cs) := by rcases sharp with rfl | rfl <;> rfl
      rw [taken]
    · next sharp =>
      split
      · next flat =>
        have taken : takeAccidental (c :: cs) = (11, cs) := by rcases flat with rfl | rfl <;> rfl
        rw [taken]
      · next flat =>
        have plain : c ∉ accidentals.map Prod.fst := by
          simp [accidentals, not_or.mp sharp, not_or.mp flat]
        have taken : takeAccidental (c :: cs) = (0, c :: cs) :=
          takeAccidental_of_head (by rintro _ ⟨⟩; exact plain)
        rw [taken, Nat.add_zero, natural]

/-- A name is never cut inside of a character, and reading what is cut off is reading the name. -/
theorem PitchClassSet.ofCutName?_eq {α : Type} [Scalar α] (name : String) :
    PitchClassSet.ofCutName? (α := α) name = some (ofName name.toList) := by
  unfold ofCutName? ofName
  generalize trim name.toList = name
  cases name with
  | nil => rfl
  | cons letter rest =>
    cases found : rootLetter? letter with
    | none =>
      simp only [cutRoot?, String.toList_ofList, indexed, chordOfName, found]
      rfl
    | some root =>
      simp only [cutRoot?_cons found, chordOfName, found, Option.map_some, bind, Except.bind,
        String.toList_ofList]
      cases suffixIntervals? (dropApostrophe (takeAccidental rest).2) with
      | none => rfl
      | some intervals => rfl

namespace PitchClassSet

/-- A name is read exactly if it is the text of a spelling, with blanks around it or not. There is
only one such spelling, whose chord is read, and no character is cut through on the way. -/
theorem ofName_unambiguous (name : String) :
    (∀ chord : PitchClassSet Float, ofName name.toList = .ok chord ↔
      ∃ s : Spelling, s.Spells name.toList ∧ chord = s.chord) ∧
    (∀ s t : Spelling, s.Spells name.toList → t.Spells name.toList → s = t) ∧
    (∀ s : Spelling, (s.chord : PitchClassSet Float).voices =
      s.intervals.map fun i : Nat => Float.ofNat ((s.letter.2 + s.shift + i) % 12).toNat) ∧
    ofCutName? name = some (ofName name.toList : Except ChordNameError (PitchClassSet Float)) :=
  ⟨fun _ => ofName_eq_ok_iff, fun _ _ => Spelling.Spells.unique, Spelling.voices_chord,
    ofCutName?_eq name⟩

/-- The second `b` of a name is the flat, and a later one belongs to the suffix. -/
theorem ofName_unambiguous_flat :
    let s : Spelling := {
      letter := ('b', 11)
      accidental := some ('b', -1)
      apostrophe := true
      suffix := ("m7b5", [0, 3, 6, 10])
      letter_mem := by decide
      accidental_mem := by rintro _ ⟨⟩; decide
      suffix_mem := by decide }
    let name := "\u00a0bb'm7b5 "
    s.Spells name.toList ∧ (∀ t : Spelling, t.Spells name.toList → t = s) ∧
      ofName name.toList = .ok (s.chord : PitchClassSet Float) ∧
      (s.chord : PitchClassSet Float).voices = [10, 1, 4, 8] := by
  intro s name
  obtain ⟨read, unique, voices, -⟩ := ofName_unambiguous name
  have spells : s.Spells name.toList :=
    ⟨['\u00a0'], [' '], by simp [isBlank], by simp [isBlank], by decide⟩
  refine ⟨spells, fun t spells' => unique t s spells' spells,
    (read s.chord).mpr ⟨s, spells, rfl⟩, ?_⟩
  rw [voices s]
  decide +kernel

end PitchClassSet
end ChordGrammar
