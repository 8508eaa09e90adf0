import Mathlib.Data.List.Basic
import ChordGrammar.Production.Text
import ChordGrammar.Proofs.DepthFirst

/-! Rewriting as an iterated morphism. A generation is made by going through a text, but what
comes of it depends on its words alone, each on its own: words go over into words one by one,
blanks neither pile up where words are deleted nor at the ends, and to rewrite in two parts is to
rewrite for the sum of the generations. -/
namespace ChordGrammar

/-! ### Words and blanks -/

@[simp] theorem wordsOf_nil : wordsOf [] = [] := rfl

theorem wordsOf_cut {c : Char} (blank : isBlank c = true) (cs rest : List Char) :
    wordsOf (cs ++ c :: rest) = wordsOf cs ++ wordsOf rest := by
  simp [wordsOf, splitAt_cut blank]

theorem wordsOf_append_of_blank {blanks : List Char} (blank : ∀ c ∈ blanks, isBlank c = true)
    (rest : List Char) : wordsOf (blanks ++ rest) = wordsOf rest := by
  induction blanks with
  | nil => rfl
  | cons c blanks ih =>
    obtain ⟨first, others⟩ := List.forall_mem_cons.mp blank
    simp [wordsOf_cons_of_isBlank first, ih others]

theorem words_of_blank {blanks : String} (blank : ∀ c ∈ blanks.toList, isBlank c = true) :
    words blanks = [] := by
  have none := wordsOf_append_of_blank blank []
  simp_all [words]

theorem words_append {blanks : String} (some : blanks ≠ "")
    (blank : ∀ c ∈ blanks.toList, isBlank c = true) (first second : String) :
    words (first ++ blanks ++ second) = words first ++ words second := by
  cases letters : blanks.toList with
  | nil => exact absurd (String.toList_eq_nil_iff.mp letters) some
  | cons c others =>
    rw [letters] at blank
    obtain ⟨cut, rest⟩ := List.forall_mem_cons.mp blank
    simp [words, letters, wordsOf_cut cut, wordsOf_append_of_blank rest]

theorem IsWord.ne_empty {word : String} (whole : IsWord word) : word ≠ "" :=
  mt String.toList_eq_nil_iff.mpr whole.1

theorem words_word {word : String} (whole : IsWord word) : words word = [word] := by
  have alone := words_intercalate (List.forall_mem_singleton.mpr whole)
  rwa [String.intercalate_singleton] at alone

section

variable {tokens : List String} (whole : ∀ token ∈ tokens, IsWord token)
include whole

theorem intercalate_ne_empty (some : tokens ≠ []) : " ".intercalate tokens ≠ "" := by
  intro none
  have found := words_intercalate whole
  rw [none] at found
  exact some (found.symm.trans (words_of_blank (by simp)))

/-- A text of words begins as the first of them does, and ends as the last. -/
theorem intercalate_begins {c : Char} (first : (" ".intercalate tokens).toList.head? = some c) :
    isBlank c = false := by
  cases tokens with
  | nil => simp at first
  | cons token rest =>
    obtain ⟨⟨letters, inside⟩, -⟩ := List.forall_mem_cons.mp whole
    apply inside c
    apply List.mem_of_head?
    by_cases alone : rest = []
    · simpa [alone] using first
    · rwa [String.intercalate_cons_of_ne_nil alone, String.append_assoc, String.toList_append,
        List.head?_append_of_ne_nil _ letters] at first

theorem intercalate_ends {c : Char} (last : (" ".intercalate tokens).toList.getLast? = some c) :
    isBlank c = false := by
  rcases List.eq_nil_or_concat' tokens with rfl | ⟨front, token, rfl⟩
  · simp at last
  · obtain ⟨letters, inside⟩ := whole token (by simp)
    apply inside c
    apply List.mem_of_getLast?
    by_cases alone : front = []
    · simpa [alone] using last
    · rwa [String.intercalate_append_of_ne_nil alone (by simp), String.intercalate_singleton,
        String.toList_append, List.getLast?_append_of_ne_nil _ letters] at last

theorem isNormal_intercalate : IsNormal (" ".intercalate tokens) where
  normalized := by rw [normalize, words_intercalate whole]
  begins _ := intercalate_begins whole
  ends _ := intercalate_ends whole
  empty none := by simp_all [words_intercalate whole]

theorem addWord_intercalate (word : String) :
    addWord (" ".intercalate tokens) word = " ".intercalate (tokens ++ [word]) := by
  by_cases none : tokens = []
  · simp [none, addWord]
  · have some : (" ".intercalate tokens).isEmpty = false := by
      simpa using intercalate_ne_empty whole none
    simp [addWord, some, String.intercalate_append_of_ne_nil none]

/-- A space before each word but the first comes to single spaces between them. -/
theorem foldl_addWord {others : List String} (whole' : ∀ token ∈ others, IsWord token) :
    others.foldl addWord (" ".intercalate tokens) = " ".intercalate (tokens ++ others) := by
  induction others generalizing tokens with
  | nil => simp
  | cons word others ih =>
    obtain ⟨first, rest⟩ := List.forall_mem_cons.mp whole'
    have longer : ∀ token ∈ tokens ++ [word], IsWord token := by
      simpa [or_imp, forall_and] using ⟨whole, first⟩
    simp [addWord_intercalate whole, ih longer rest]

end

theorem isWord_of_words (text : String) : ∀ word ∈ words text, IsWord word :=
  fun _ => isWord_of_mem_words

@[simp] theorem words_normalize (text : String) : words (normalize text) = words text :=
  words_intercalate (isWord_of_words text)

namespace RuleTable

/-! ### A generation as a text -/

theorem words_replacement (table : RuleTable) {token : String} (whole : IsWord token) :
    words ((table.replacement? token).getD token) = table.expand token := by
  cases found : table.replacement? token <;> simp [expand, found, words_word whole]

theorem foldl_addReplacement (table : RuleTable) {done tokens : List String}
    (whole : ∀ token ∈ done, IsWord token) (whole' : ∀ token ∈ tokens, IsWord token) :
    tokens.foldl table.addReplacement (" ".intercalate done) =
      " ".intercalate (done ++ table.rewrite tokens) := by
  induction tokens generalizing done with
  | nil => simp [rewrite]
  | cons token tokens ih =>
    obtain ⟨first, rest⟩ := List.forall_mem_cons.mp whole'
    have expanded : ∀ word ∈ table.expand token, IsWord word := by
      simpa [rewrite] using isWord_of_mem_rewrite table
        (List.forall_mem_singleton.mpr first)
    have longer : ∀ word ∈ done ++ table.expand token, IsWord word := by
      simpa [or_imp, forall_and] using ⟨whole, expanded⟩
    have added : table.addReplacement (" ".intercalate done) token =
        " ".intercalate (done ++ table.expand token) := by
      rw [addReplacement, words_replacement table first, foldl_addWord whole expanded]
    simp [added, ih longer rest, rewrite]

theorem nextText_eq (table : RuleTable) (text : String) :
    table.nextText text = table.rewriteText text := by
  simpa [nextText, rewriteText] using
    foldl_addReplacement table (List.forall_mem_nil _) (isWord_of_words text)

/-! ### The action on words -/

section

variable {table : RuleTable}

theorem generations_eq_flatMap (table : RuleTable) (n : Nat) (tokens : List String) :
    table.generations n tokens = tokens.flatMap fun token => table.generations n [token] := by
  induction tokens with
  | nil => simpa using table.generations_append n [] []
  | cons token tokens ih =>
    rw [← List.singleton_append, generations_append, ih, List.flatMap_append, List.flatMap_singleton]

theorem words_produce_word {token : String} (whole : IsWord token) (n : Nat) :
    words (table.produce token n) = table.generations n [token] := by
  rw [words_produce, words_word whole]

theorem words_produce_flatMap (table : RuleTable) (seed : String) (n : Nat) :
    words (table.produce seed n) =
      (words seed).flatMap fun token => words (table.produce token n) := by
  rw [words_produce, generations_eq_flatMap]
  apply List.flatMap_congr
  intro token member
  rw [words_produce_word (isWord_of_mem_words member)]

theorem rewrite_filter {token : String} (deleted : table.expand token = []) (tokens : List String) :
    table.rewrite (tokens.filter (· ≠ token)) = table.rewrite tokens := by
  induction tokens with
  | nil => rfl
  | cons first tokens ih =>
    by_cases same : first = token <;> simp_all [rewrite]

/-- Rules for what is not a word do not count. -/
theorem generations_congr {other : RuleTable}
    (same : ∀ token, IsWord token → table.expand token = other.expand token) (n : Nat)
    {tokens : List String} (whole : ∀ token ∈ tokens, IsWord token) :
    table.generations n tokens = other.generations n tokens := by
  induction n generalizing tokens with
  | zero => rfl
  | succ n ih =>
    have once : table.rewrite tokens = other.rewrite tokens :=
      List.flatMap_congr fun token member => same token (whole token member)
    have next := isWord_of_mem_rewrite table whole
    rw [generations, generations, ih next, once]

theorem expand_add_of_ne {token key : String} (other : token ≠ key) (replacement : String) :
    (table.add key replacement).expand token = table.expand token := by
  simp [expand, replacement?_add, other]

end

/-- What a rule table does to texts: it acts on their words, one by one and generation by
generation. -/
structure ActsOnWords (table : RuleTable) : Prop where
  normal (seed : String) (n : Nat) : IsNormal (table.produce seed n)
  /-- Each generation is one pass over the text before it. -/
  textual (seed : String) (n : Nat) : table.produce seed n = table.nextText^[n] (normalize seed)
  wordwise (seed : String) (n : Nat) : words (table.produce seed n) =
    (words seed).flatMap fun token => words (table.produce token n)
  joined {blanks : String} (first second : String) (n : Nat) : blanks ≠ "" →
    (∀ c ∈ blanks.toList, isBlank c = true) →
    words (table.produce (first ++ blanks ++ second) n) =
      words (table.produce first n) ++ words (table.produce second n)
  counted {seed other : String} (n : Nat) :
    (∀ token, (words seed).count token = (words other).count token) →
    ∀ token, (words (table.produce seed n)).count token =
      (words (table.produce other n)).count token
  iterated (seed : String) (m n : Nat) :
    table.produce (table.produce seed m) n = table.produce seed (m + n)
  normalized (seed : String) (n : Nat) : table.produce (normalize seed) n = table.produce seed n
  /-- A blank replacement deletes its token, as if it had not been there. -/
  deleted {token replacement : String} (seed : String) (n : Nat) :
    table.replacement? token = some replacement → (∀ c ∈ replacement.toList, isBlank c = true) →
    table.produce seed (n + 1) =
      table.produce (" ".intercalate ((words seed).filter (· ≠ token))) (n + 1)
  /-- What is not a word can have no effect as the key of a rule. -/
  inert {key : String} (replacement seed : String) (n : Nat) :
    key = "" ∨ (∃ c ∈ key.toList, isBlank c = true) →
    (table.add key replacement).produce seed n = table.produce seed n

theorem produce_actsOnWords (table : RuleTable) : table.ActsOnWords where
  normal seed n := isNormal_intercalate (isWord_of_mem_generations (isWord_of_words seed))
  textual seed n := by
    have same : table.nextText = table.rewriteText := funext table.nextText_eq
    rw [same]
    exact table.produce_eq_iterate seed n
  wordwise := table.words_produce_flatMap
  joined first second n := by
    intro some blank
    simp only [words_produce, words_append some blank, generations_append]
  counted n := by
    intro alike token
    have same := (List.perm_iff_count.mpr alike).flatMap_right
      fun token => words (table.produce token n)
    rw [words_produce_flatMap, words_produce_flatMap, same.count_eq]
  iterated seed m n := by
    rw [produce, words_produce, ← generations_add, ← produce]
  normalized seed n := by
    rw [produce, words_normalize, ← produce]
  deleted {token replacement} seed n := by
    intro ruled blank
    have none : table.expand token = [] := by simp [expand, ruled, words_of_blank blank]
    have kept : ∀ word ∈ (words seed).filter (· ≠ token), IsWord word :=
      fun word member => isWord_of_words seed word (List.mem_of_mem_filter member)
    rw [produce, produce, words_intercalate kept, generations, generations, rewrite_filter none]
  inert {key} replacement seed n := by
    intro broken
    have other {token : String} (whole : IsWord token) : token ≠ key := by
      rintro rfl
      rcases broken with none | ⟨c, member, blank⟩
      · exact whole.ne_empty none
      · simp [whole.2 c member] at blank
    rw [produce, produce, generations_congr (fun token whole => expand_add_of_ne (other whole) _) n
      (isWord_of_words seed)]

/-- One of the tokens is deleted, and the blanks are an em space and a tab. -/
theorem produce_actsOnWords_deletion :
    let table := (RuleTable.empty.add "A" "B A").add "B" "\u3000"
    let blanks := "\u2003\t"
    table.replacement? "B" = some "\u3000" ∧ blanks ≠ "" ∧
      (∀ c ∈ blanks.toList, isBlank c = true) ∧
      words (table.produce ("B A" ++ blanks ++ "B") 2) =
        words (table.produce "B A" 2) ++ words (table.produce "B" 2) ∧
      table.produce "B A" 2 = table.produce "A" 2 := by
  intro table blanks
  have acts := produce_actsOnWords table
  have ruled : table.replacement? "B" = some "\u3000" := by decide
  have some : blanks ≠ "" := by decide
  have blank : ∀ c ∈ blanks.toList, isBlank c = true := List.all_eq_true.mp (by decide)
  have deleted := acts.deleted "B A" 1 ruled (List.all_eq_true.mp (by decide))
  have kept : (words "B A").filter (· ≠ "B") = ["A"] := by decide
  rw [kept, String.intercalate_singleton] at deleted
  exact ⟨ruled, some, blank, acts.joined "B A" "B" 2 some blank, deleted⟩

end RuleTable
end ChordGrammar
