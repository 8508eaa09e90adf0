/-! Patterns of text, such as the rules of a grammar, and the two ways to take them. A
derivation makes a text of a pattern, and each choice and repetition in it is free. A reader
goes through a text once: it takes the first alternative that fits, repeats as often as it
can and does not come back to what it has decided. -/
namespace ChordGrammar

/-- A set of characters. -/
inductive Letters where
  | all
  | among (letters : List Char)

namespace Letters

def has : Letters → Char → Bool
  | all, _ => true
  | among letters, c => letters.contains c

def union : Letters → Letters → Letters
  | among letters, among others => among (letters ++ others)
  | _, _ => all

/-- Whether two sets have no character in common. -/
def apart : Letters → Letters → Bool
  | all, all => false
  | all, among letters | among letters, all => letters.isEmpty
  | among letters, among others => letters.all fun c => !others.contains c

theorem has_union {letters others : Letters} {c : Char} :
    (letters.union others).has c = (letters.has c || others.has c) := by
  cases letters <;> cases others <;> simp [union, has]

theorem not_has_of_apart {letters others : Letters} {c : Char}
    (apart : letters.apart others = true) (member : letters.has c = true) :
    others.has c = false := by
  cases letters <;> cases others <;> simp_all [Letters.apart, has]

/-- Whether a text is at its end or goes on with one of the letters. -/
def Begin (letters : Letters) (cs : List Char) : Prop := ∀ c ∈ cs.head?, letters.has c = true

theorem begin_nil (letters : Letters) : letters.Begin [] := nofun

end Letters

inductive Pattern where
  | one (letters : Letters)
  | seq (p q : Pattern)
  | alt (p q : Pattern)
  | opt (p : Pattern)
  | many (p : Pattern)

/-- The ways in which a pattern can be followed. -/
inductive Derivation : Pattern → Type where
  | one {letters : Letters} (c : Char) (accepted : letters.has c = true) :
    Derivation (.one letters)
  | seq {p q : Pattern} (first : Derivation p) (second : Derivation q) : Derivation (.seq p q)
  | left {p q : Pattern} (choice : Derivation p) : Derivation (.alt p q)
  | right {p q : Pattern} (choice : Derivation q) : Derivation (.alt p q)
  | skip {p : Pattern} : Derivation (.opt p)
  | take {p : Pattern} (choice : Derivation p) : Derivation (.opt p)
  | stop {p : Pattern} : Derivation (.many p)
  | next {p : Pattern} (first : Derivation p) (others : Derivation (.many p)) :
    Derivation (.many p)

def Derivation.text {p : Pattern} : Derivation p → List Char
  | one c _ => [c]
  | seq first second => first.text ++ second.text
  | left choice | right choice | take choice => choice.text
  | skip | stop => []
  | next first others => first.text ++ others.text

def Derivation.each {p : Pattern} : Derivation (.many p) → List (Derivation p)
  | .stop => []
  | .next first others => first :: others.each
termination_by d => sizeOf d

namespace Pattern

abbrev plus (p : Pattern) : Pattern := .seq p (.many p)

abbrev char (c : Char) : Pattern := .one (.among [c])

/-- Repeats a step until it fails or takes nothing. -/
def repeatedly {p : Pattern} (step : List Char → Option (Derivation p × List Char))
    (cs : List Char) : Derivation (.many p) × List Char :=
  match step cs with
  | none => (.stop, cs)
  | some (first, rest) =>
    if rest.length < cs.length then
      let (others, rest) := repeatedly step rest
      (.next first others, rest)
    else (.stop, cs)
termination_by cs.length

/-- Reads the beginning of a text, and gives the rest. -/
def read? : (p : Pattern) → List Char → Option (Derivation p × List Char)
  | .one _, [] => none
  | .one letters, c :: rest =>
    if accepted : letters.has c = true then some (.one c accepted, rest) else none
  | .seq p q, cs => do
    let (first, rest) ← p.read? cs
    let (second, rest) ← q.read? rest
    return (.seq first second, rest)
  | .alt p q, cs =>
    match p.read? cs with
    | some (choice, rest) => some (.left choice, rest)
    | none => do
      let (choice, rest) ← q.read? cs
      return (.right choice, rest)
  | .opt p, cs =>
    match p.read? cs with
    | some (choice, rest) => some (.take choice, rest)
    | none => some (.skip, cs)
  | .many p, cs => some (repeatedly p.read? cs)

def letters : Pattern → Letters
  | one letters => letters
  | seq p q | alt p q => p.letters.union q.letters
  | opt p | many p => p.letters

def nullable : Pattern → Bool
  | one _ => false
  | seq p q => p.nullable && q.nullable
  | alt p q => p.nullable || q.nullable
  | opt _ | many _ => true

/-- The letters with which a text of the pattern begins. -/
def first : Pattern → Letters
  | one letters => letters
  | seq p q => if p.nullable then p.first.union q.first else p.first
  | alt p q => p.first.union q.first
  | opt p | many p => p.first

/-- The letters with which the pattern and what follows it begin. -/
def leads (p : Pattern) (follow : Letters) : Letters :=
  if p.nullable then p.first.union follow else p.first

/-- Whether each decision of the reader is settled by the next letter, if the text after the
pattern goes on with one of `follow`. -/
def predictive : Pattern → Letters → Bool
  | one _, _ => true
  | seq p q, follow => p.predictive (q.leads follow) && q.predictive follow
  | alt p q, follow =>
    !p.nullable && !q.nullable && p.first.apart q.first && p.predictive follow &&
      q.predictive follow
  | opt p, follow => !p.nullable && p.first.apart follow && p.predictive follow
  | many p, follow =>
    !p.nullable && p.first.apart follow && p.predictive (p.first.union follow)

end Pattern
end ChordGrammar
