/-!
# Names of parameters

A name has to be readable as a single word in an expression: a letter or an underscore, then
letters, digits and underscores, all of them ASCII. The words that stand for values are no names.
-/

namespace SearchSpace

/-- Whether a character can start a word. -/
def isWordStart (c : Char) : Bool :=
  c.isAlpha || c == '_'

/-- Whether a character can stand inside a word. -/
def isWordChar (c : Char) : Bool :=
  c.isAlphanum || c == '_'

/-- The words that stand for values. -/
def isKeyword (s : String) : Bool :=
  s == "none" || s == "true" || s == "false"

/-- Whether a text is the name of a parameter. -/
def isIdentifier (s : String) : Bool :=
  (match s.toList with
    | [] => false
    | c :: cs => isWordStart c && cs.all isWordChar) && !isKeyword s

/-- The name of a parameter. -/
structure Identifier where
  text : String
  valid : isIdentifier text = true
deriving DecidableEq

end SearchSpace
