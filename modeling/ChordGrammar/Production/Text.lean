import ChordGrammar.Production

/-! Rewriting as it is done on a text. A generation reads the words of a text from left to right
and adds those of their replacements to a new one. Only between words is there a space, so
whether one is needed is told from the text so far. -/
namespace ChordGrammar

def addWord (text word : String) : String :=
  if text.isEmpty then word else text ++ " " ++ word

def normalize (text : String) : String := " ".intercalate (words text)

/-- Whether a text is its words with single spaces between them. -/
structure IsNormal (text : String) : Prop where
  normalized : normalize text = text
  begins : ∀ c, text.toList.head? = some c → isBlank c = false
  ends : ∀ c, text.toList.getLast? = some c → isBlank c = false
  empty : words text = [] → text = ""

namespace RuleTable

def addReplacement (table : RuleTable) (text token : String) : String :=
  (words ((table.replacement? token).getD token)).foldl addWord text

def nextText (table : RuleTable) (text : String) : String :=
  (words text).foldl table.addReplacement ""

end RuleTable
end ChordGrammar
