import Typings.Text.Space

/-!
# Documentation comments in declaration files

A documentation comment is written at the indentation of what it documents, with the stars of its
lines under the first star of `/**`.
-/

namespace Typings

/-- A line of a comment after the first, which starts with a star. -/
def docLine (indent line : Text) : Text :=
  match line with
  | [] => indent ++ " *".toList
  | '*' :: _ => indent ++ ' ' :: line
  | _ => indent ++ " * ".toList ++ line

/-- The lines of a documentation comment at an indentation. -/
def docLines (indent doc : Text) : List Text :=
  match (Text.lines (Text.trim doc)).map Text.trim with
  | [] => []
  | first :: rest => (indent ++ first) :: rest.map (docLine indent)

/-- A documentation comment at an indentation, with a newline after each line. -/
def reindentDoc (doc indent : String) : String :=
  String.ofList ((docLines indent.toList doc.toList).flatMap (· ++ ['\n']))

end Typings
