import ChordGrammar.Text.Blank

/-! Context-free rewriting of words. A production is a list of tokens; as a text its
tokens have single spaces between them. -/
namespace ChordGrammar

/-- Replacements for tokens, at most one for each. -/
structure RuleTable where
  rules : List (String × String)
  distinct : (rules.map Prod.fst).Nodup
  deriving DecidableEq

namespace RuleTable

def empty : RuleTable := ⟨[], .nil⟩

instance : Inhabited RuleTable := ⟨empty⟩

def size (table : RuleTable) : Nat := table.rules.length

def isEmpty (table : RuleTable) : Bool := table.rules.isEmpty

def add (table : RuleTable) (token replacement : String) : RuleTable where
  rules := (token, replacement) :: table.rules.filter (·.1 ≠ token)
  distinct := by
    refine List.nodup_cons.2 ⟨by simp, ?_⟩
    exact table.distinct.sublist (List.filter_sublist.map Prod.fst)

def replacement? (table : RuleTable) (token : String) : Option String := table.rules.lookup token

theorem replacement?_add (table : RuleTable) (token replacement other : String) :
    (table.add token replacement).replacement? other =
      if other = token then some replacement else table.replacement? other := by
  unfold replacement? add
  by_cases same : other = token
  · simp [same]
  · simp only [List.lookup_cons, beq_eq_false_iff_ne.2 same, if_neg same]
    induction table.rules with
    | nil => rfl
    | cons rule rules ih =>
      obtain ⟨key, value⟩ := rule
      by_cases kept : key = token
      · subst kept
        rw [List.filter_cons_of_neg (by simp), ih, List.lookup_cons, beq_eq_false_iff_ne.2 same]
      · rw [List.filter_cons_of_pos (by simpa using kept), List.lookup_cons, List.lookup_cons, ih]

def expand (table : RuleTable) (token : String) : List String :=
  match table.replacement? token with
  | some replacement => words replacement
  | none => [token]

def rewrite (table : RuleTable) (tokens : List String) : List String := tokens.flatMap table.expand

def generations (table : RuleTable) : Nat → List String → List String
  | 0, tokens => tokens
  | n + 1, tokens => generations table n (table.rewrite tokens)

theorem rewrite_append (table : RuleTable) (tokens others : List String) :
    table.rewrite (tokens ++ others) = table.rewrite tokens ++ table.rewrite others := by
  simp [rewrite]

/-- Tokens are rewritten independently of what stands beside them. -/
theorem generations_append (table : RuleTable) (n : Nat) (tokens others : List String) :
    table.generations n (tokens ++ others) =
      table.generations n tokens ++ table.generations n others := by
  induction n generalizing tokens others with
  | zero => rfl
  | succ n ih => rw [generations, rewrite_append, ih, generations, generations]

theorem generations_add (table : RuleTable) (m n : Nat) (tokens : List String) :
    table.generations (m + n) tokens = table.generations n (table.generations m tokens) := by
  induction m generalizing tokens with
  | zero => rw [Nat.zero_add, generations]
  | succ m ih => rw [Nat.add_right_comm, generations, ih, generations]

def produce (table : RuleTable) (seed : String) (n : Nat) : String :=
  " ".intercalate (table.generations n (words seed))

/-- The order in which rules were added does not count. -/
theorem produce_congr {table other : RuleTable}
    (same : ∀ token, table.replacement? token = other.replacement? token) (seed : String) (n : Nat) :
    table.produce seed n = other.produce seed n := by
  have expand : table.expand = other.expand := by
    funext token
    rw [RuleTable.expand, RuleTable.expand, same]
  have generations (tokens : List String) :
      table.generations n tokens = other.generations n tokens := by
    induction n generalizing tokens with
    | zero => rfl
    | succ n ih => rw [RuleTable.generations, RuleTable.generations, rewrite, rewrite, expand, ih]
  rw [produce, produce, generations]

end RuleTable
end ChordGrammar
