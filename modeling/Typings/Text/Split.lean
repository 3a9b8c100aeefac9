import Typings.Text.Space

/-!
# Splitting outside brackets

Lists of types, parameters and type parameters are split at separators that stand outside
`<...>`, `(...)` and `[...]`. A closing bracket without an opening one is ignored. The brackets that
are open are counted without bounds; a count of 32 bits gives the same parts as long as fewer than
2 ^ 31 are open at once.
-/

namespace Typings.Text

/-- Whether a character opens a bracket. -/
def isOpening (c : Char) : Bool := c = '<' || c = '(' || c = '['

/-- Whether a character closes a bracket. -/
def isClosing (c : Char) : Bool := c = '>' || c = ')' || c = ']'

/-- The parts of a text between the separators outside brackets, `depth` brackets being open
before it. -/
def splitOutside (sep : Char) : (depth : Nat) → Text → List Text
  | _, [] => [[]]
  | depth, c :: cs =>
    if isOpening c then extend c (splitOutside sep (depth + 1) cs)
    else if isClosing c then extend c (splitOutside sep (depth - 1) cs)
    else if c = sep && depth = 0 then [] :: splitOutside sep depth cs
    else extend c (splitOutside sep depth cs)
where
  /-- Puts a character in front of the first part. -/
  extend (c : Char) : List Text → List Text
    | [] => [[c]]
    | part :: parts => (c :: part) :: parts

/-- The trimmed, non-empty parts of a text between the separators outside brackets. -/
def splitTopLevel (sep : Char) (s : Text) : List Text :=
  ((splitOutside sep 0 s).map trim).filter (!·.isEmpty)

/-- The name that a type-parameter entry such as `@A K extends Comparable<K>` declares: its
first word that is not an annotation. -/
def entryName? (entry : Text) : Option Text :=
  (entry.splitOnP fun c => isSpace c || c = '<').find? fun word =>
    !word.isEmpty && word.head? != some '@'

/-- The names declared by a type-parameter list such as `<K extends Comparable<K>, V>`. -/
def typeParameterNames (s : Text) : List Text :=
  let inner := trim s
  let inner := (afterPrefix? ['<'] inner).getD inner
  let inner := (beforeSuffix? ['>'] inner).getD inner
  (splitTopLevel ',' inner).filterMap entryName?

end Typings.Text
