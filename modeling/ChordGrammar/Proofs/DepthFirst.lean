import Mathlib.Logic.Function.Iterate
import ChordGrammar.Interpreter
import ChordGrammar.Oracle.Recorded
import ChordGrammar.Production

/-! Rewriting and interpreting in one. A generation rewrites a whole text before the next
one begins, but tokens do not hear of each other. So every token can be expanded and run to
the end before the one after it, and no text has to be produced. -/
namespace ChordGrammar

theorem splitAt_of_not_separates {separates : Char → Bool} {cs : List Char}
    (whole : ∀ c ∈ cs, separates c = false) : splitAt separates cs = [cs] := by
  induction cs with
  | nil => rfl
  | cons c cs ih =>
    obtain ⟨first, others⟩ := List.forall_mem_cons.mp whole
    have rest := ih others
    simp_all [splitAt, pieces]

/-- A separator cuts a text in two, and each part is split on its own. -/
theorem splitAt_cut {separates : Char → Bool} {separator : Char}
    (cut : separates separator = true) (cs rest : List Char) :
    splitAt separates (cs ++ separator :: rest) = splitAt separates cs ++ splitAt separates rest := by
  induction cs with
  | nil => simp [splitAt, pieces, cut]
  | cons c cs ih =>
    by_cases first : separates c = true <;> simp_all [splitAt, pieces]

theorem splitAt_append {separates : Char → Bool} {cs : List Char}
    (whole : ∀ c ∈ cs, separates c = false) {separator : Char} (cut : separates separator = true)
    (rest : List Char) :
    splitAt separates (cs ++ separator :: rest) = cs :: splitAt separates rest := by
  simp [splitAt_cut cut, splitAt_of_not_separates whole]

/-- Whether a text is its own only word. -/
def IsWord (text : String) : Prop := text.toList ≠ [] ∧ ∀ c ∈ text.toList, isBlank c = false

theorem isWord_of_mem_words {text word : String} (member : word ∈ words text) : IsWord word := by
  obtain ⟨cs, found, rfl⟩ := List.mem_map.mp member
  simpa [IsWord] using mem_wordsOf found

theorem wordsOf_intercalate {pieces : List (List Char)}
    (whole : ∀ piece ∈ pieces, piece ≠ [] ∧ ∀ c ∈ piece, isBlank c = false) :
    wordsOf ([' '].intercalate pieces) = pieces := by
  induction pieces with
  | nil => simp [List.intercalate, wordsOf, splitAt, ChordGrammar.pieces]
  | cons piece rest ih =>
    obtain ⟨⟨some, letters⟩, others⟩ := List.forall_mem_cons.mp whole
    cases rest with
    | nil => simp [List.intercalate, wordsOf, splitAt_of_not_separates letters, some]
    | cons next rest =>
      have blank : isBlank ' ' = true := by decide
      have tail := ih others
      rw [wordsOf] at tail ⊢
      rw [List.intercalate_cons_cons, List.append_assoc, List.singleton_append,
        splitAt_append letters blank, List.filter_cons_of_pos (by simpa using some), tail]

theorem words_intercalate {tokens : List String} (whole : ∀ token ∈ tokens, IsWord token) :
    words (" ".intercalate tokens) = tokens := by
  have letters : ∀ piece ∈ tokens.map String.toList,
      piece ≠ [] ∧ ∀ c ∈ piece, isBlank c = false := by
    rintro _ member
    obtain ⟨token, kept, rfl⟩ := List.mem_map.mp member
    exact whole token kept
  rw [words, String.toList_intercalate]
  show (wordsOf ([' '].intercalate _)).map String.ofList = tokens
  rw [wordsOf_intercalate letters]
  simp [Function.comp_def]

namespace RuleTable

/-- A generation of a text, which is split into words for it and joined again. -/
def rewriteText (table : RuleTable) (text : String) : String :=
  " ".intercalate (table.rewrite (words text))

variable {table : RuleTable} {tokens : List String}

theorem isWord_of_mem_rewrite (table : RuleTable) (whole : ∀ token ∈ tokens, IsWord token) :
    ∀ token ∈ table.rewrite tokens, IsWord token := by
  intro token member
  obtain ⟨source, kept, expanded⟩ := List.mem_flatMap.mp member
  unfold expand at expanded
  split at expanded
  · exact isWord_of_mem_words expanded
  · rw [List.mem_singleton.mp expanded]
    exact whole source kept

theorem isWord_of_mem_generations {n : Nat} (whole : ∀ token ∈ tokens, IsWord token) :
    ∀ token ∈ table.generations n tokens, IsWord token := by
  induction n generalizing tokens with
  | zero => exact whole
  | succ n ih => exact ih (isWord_of_mem_rewrite table whole)

theorem words_produce (table : RuleTable) (seed : String) (n : Nat) :
    words (table.produce seed n) = table.generations n (words seed) := by
  apply words_intercalate
  apply isWord_of_mem_generations
  intro token
  exact isWord_of_mem_words

/-- Words go from one generation to the next as they would through a text. -/
theorem produce_eq_iterate (table : RuleTable) (seed : String) (n : Nat) :
    table.produce seed n = table.rewriteText^[n] (" ".intercalate (words seed)) := by
  induction n with
  | zero => rfl
  | succ n ih =>
    rw [Function.iterate_succ_apply', ← ih, rewriteText, words_produce, produce, generations_add]
    rfl

end RuleTable

namespace Interpreter

variable {α σ : Type} [Scalar α]

/-- Runs what a token stands for after `n` generations, one word of its replacement after
the other. -/
def evaluate (oracle : Oracle α σ) (table : RuleTable) :
    Nat → String → Attempt (GenerationError α) (Interpreter α × σ) Unit
  | 0, token => execute oracle token (.ofToken token)
  | n + 1, token =>
    match table.replacement? token with
    | some replacement => (words replacement).forM (evaluate oracle table n)
    | none => evaluate oracle table n token

def evaluateAll (oracle : Oracle α σ) (table : RuleTable) (n : Nat) (seed : String) :
    Attempt (GenerationError α) (Interpreter α × σ) Unit :=
  (words seed).forM (evaluate oracle table n)

variable (oracle : Oracle α σ) (table : RuleTable)

theorem evaluate_succ (n : Nat) (token : String) :
    evaluate oracle table (n + 1) token = (table.expand token).forM (evaluate oracle table n) := by
  rw [evaluate, RuleTable.expand]
  cases table.replacement? token with
  | some replacement => rfl
  | none => simp

theorem forM_rewrite (n : Nat) (tokens : List String) :
    (table.rewrite tokens).forM (evaluate oracle table n) =
      tokens.forM (evaluate oracle table (n + 1)) := by
  induction tokens with
  | nil => rfl
  | cons token tokens ih =>
    simp only [RuleTable.rewrite, List.forM_eq_forM] at ih
    simp [RuleTable.rewrite, evaluate_succ, ih]

theorem run_generations (n : Nat) (tokens : List String) :
    run oracle (table.generations n tokens) = tokens.forM (evaluate oracle table n) := by
  induction n generalizing tokens with
  | zero => rfl
  | succ n ih => rw [RuleTable.generations, ih, forM_rewrite]

/-- Interpreting a production is evaluating the seed depth first: the answer is the same,
and so are the interpreter and the oracle that are left and the questions that were put to
the oracle. -/
theorem interpret_produce_depth_first (seed : String) (n : Nat) (i : Interpreter α) (s : σ) :
    let production := table.produce seed n
    production = table.rewriteText^[n] (" ".intercalate (words seed)) ∧
    (interpret oracle production).runFrom (i, s) =
      (evaluateAll oracle table n seed).runFrom (i, s) ∧
    (interpret oracle.recorded production).runFrom (i, s, #[]) =
      (evaluateAll oracle.recorded table n seed).runFrom (i, s, #[]) := by
  intro production
  have same {τ : Type} (oracle : Oracle α τ) :
      interpret oracle production = evaluateAll oracle table n seed := by
    rw [interpret, RuleTable.words_produce, run_generations, evaluateAll]
  refine ⟨RuleTable.produce_eq_iterate table seed n, ?_, ?_⟩
  · rw [same]
  · rw [same]

end Interpreter
end ChordGrammar
