import Typings.Text.Basic

/-!
# White space

The characters with the Unicode property White_Space, trimming them from the ends of a text,
and the words between them.
-/

namespace Typings.Text

/-- The Unicode property White_Space. -/
def isSpace (c : Char) : Bool :=
  let n := c.toNat
  (9 ≤ n && n ≤ 13) || n = 0x20 || n = 0x85 || n = 0xA0 || n = 0x1680 ||
    (0x2000 ≤ n && n ≤ 0x200A) || n = 0x2028 || n = 0x2029 || n = 0x202F || n = 0x205F ||
    n = 0x3000

/-- Blanks that may stand between the parts of a type header: space, tab, line feed, form feed
and carriage return. -/
def isBlank (c : Char) : Bool :=
  c = ' ' || c = '\t' || c = '\n' || c = '\x0c' || c = '\r'

-- ---------------------------------------------------------------------------
-- Trimming
-- ---------------------------------------------------------------------------

/-- The text without white space at its start. -/
def trimStart (s : Text) : Text := s.dropWhile isSpace

/-- The text without white space at its end. -/
def trimEnd (s : Text) : Text := (s.reverse.dropWhile isSpace).reverse

/-- The text without white space at either end. -/
def trim (s : Text) : Text := trimEnd (trimStart s)

/-- Whether a text holds white space only. -/
def isBlankText (s : Text) : Bool := (trim s).isEmpty

-- ---------------------------------------------------------------------------
-- Words
-- ---------------------------------------------------------------------------

/-- The maximal runs of characters that are not white space. -/
def words : Text → List Text
  | [] => []
  | c :: cs =>
    if isSpace c then words cs
    else
      match cs, words cs with
      | d :: _, word :: rest => if isSpace d then [c] :: word :: rest else (c :: word) :: rest
      | _, rest => [c] :: rest

/-- The words of a text with single spaces between them. -/
def normalizeSpaces (s : Text) : Text := [' '].intercalate (words s)

end Typings.Text
