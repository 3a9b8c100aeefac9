import Typings.Text.Space

/-!
# Compact type expressions

Type expressions are kept with single spaces, and with no space next to angle and square
brackets other than after a closing one: `List <String []>` becomes `List<String[]>`.
-/

namespace Typings.Text

/-- Replaces every pair `a b` of neighbouring characters by the single character `r`, from left
to right. -/
def replacePair (a b r : Char) : Text → Text
  | [] => []
  | [c] => [c]
  | c :: d :: cs =>
    if c = a ∧ d = b then r :: replacePair a b r cs
    else c :: replacePair a b r (d :: cs)

/-- Drops the spaces right before a character. -/
def dropSpaceBefore (c : Char) : Text → Text := replacePair ' ' c c

/-- Drops the spaces right after a character. -/
def dropSpaceAfter (c : Char) : Text → Text := replacePair c ' ' c

/-- The compact form of a type expression. -/
def compact (s : Text) : Text :=
  normalizeSpaces s
    |> dropSpaceBefore '<' |> dropSpaceAfter '<' |> dropSpaceBefore '>'
    |> dropSpaceBefore '[' |> dropSpaceAfter '[' |> dropSpaceBefore ']'

end Typings.Text
