import Typings.Model.Basic
import Typings.Pattern.Declaration
import Typings.Text.Compact

/-!
# Parameter lists

Reads the text between the parentheses of a method, such as
`@Nullable final String name, int... ids`, into parameters.
-/

namespace Typings.Source

/-- Splits a text at its last space outside angle brackets, `depth` of them being open. Closing
brackets without opening ones count as well. -/
def splitLastSpace? : (depth : Int) → Text → Option (Text × Text)
  | _, [] => none
  | depth, c :: cs =>
    let inner := if c = '<' then depth + 1 else if c = '>' then depth - 1 else depth
    match splitLastSpace? inner cs with
    | some (before, after) => some (c :: before, after)
    | none => if c = ' ' && depth = 0 then some ([], cs) else none

/-- The number of `[]` at the end of a text given backwards, and the text before them. -/
def splitPairs : Text → Nat × Text
  | ']' :: '[' :: s =>
    let (n, rest) := splitPairs s
    (n + 1, rest)
  | s => (0, s)

/-- Pairs of square brackets. -/
def pairs (n : Nat) : Text := (List.replicate n ['[', ']']).flatten

/-- The words of a parameter with annotations and `final` left out. -/
def parameterWords (s : Text) : Text :=
  [' '].intercalate ((Text.words (Declaration.annotationUse.removeAll s)).filter
    (· ≠ "final".toList))

/-- Reads one parameter. The name is the last word outside angle brackets; dots and pairs of
square brackets that are attached to it belong to the type. -/
def parameter? (s : Text) : Option Parameter :=
  match splitLastSpace? 0 (parameterWords s) with
  | none => none
  | some (typeText, nameText) =>
    let typeText := Text.compact typeText
    let (name, typeText) :=
      match Text.afterPrefix? "...".toList nameText with
      | some name => (name, typeText ++ "...".toList)
      | none => (nameText, typeText)
    let (typeText, isVarargs) :=
      match Text.beforeSuffix? "...".toList typeText with
      | some element => (Text.trimEnd element ++ "[]".toList, true)
      | none => (typeText, false)
    let (dims, reversed) := splitPairs name.reverse
    let name := reversed.reverse
    let typeText := typeText ++ pairs dims
    if name.isEmpty || name = "this".toList || typeText.isEmpty then none
    else some { name := String.ofList name, typeName := String.ofList typeText, isVarargs }

/-- Reads a list of parameters. What is not a parameter is left out. -/
def parameters (s : Text) : List Parameter := (Text.splitTopLevel ',' s).filterMap parameter?

end Typings.Source
