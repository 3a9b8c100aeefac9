import Typings.Source.Trivia
import Typings.Text.Span

/-!
# Masked text

A masked text shows one brace level of a Java text. Literals, ordinary comments and everything
inside a brace block are blanked; documentation comments at the outer level and the braces of
the outermost blocks stay. Offsets agree with the text that was masked.
-/

namespace Typings.Source

/-- The spans that masking treats specially. -/
structure Regions where
  /-- What is blanked. -/
  blanked : List Span := []
  /-- The documentation comments at brace depth 0. -/
  docs : List Span := []
deriving Repr, DecidableEq, Inhabited

/-- The regions of a token sequence that starts at offset `pos`. `depth` blocks are open, the
outermost one with its first character at `start`. A block that is never closed runs to the end,
and a closing brace outside all blocks is code like any other. -/
def regions : (pos depth start : Nat) → List Token → Regions
  | _, 0, _, [] => {}
  | pos, _ + 1, start, [] => { blanked := [⟨start, pos⟩] }
  | pos, 0, start, .trivia kind text :: ts =>
    let stop := pos + Text.byteLength text
    let rest := regions stop 0 start ts
    if kind = .doc then { rest with docs := ⟨pos, stop⟩ :: rest.docs }
    else { rest with blanked := ⟨pos, stop⟩ :: rest.blanked }
  | pos, depth + 1, start, .trivia _ text :: ts =>
    regions (pos + Text.byteLength text) (depth + 1) start ts
  | pos, 0, start, .code c :: ts =>
    if c = '{' then regions (pos + 1) 1 (pos + 1) ts
    else regions (pos + c.utf8Size) 0 start ts
  | pos, depth + 1, start, .code c :: ts =>
    if c = '{' then regions (pos + 1) (depth + 2) start ts
    else if c = '}' then
      let rest := regions (pos + 1) depth start ts
      if depth = 0 then { rest with blanked := ⟨start, pos⟩ :: rest.blanked } else rest
    else regions (pos + c.utf8Size) (depth + 1) start ts

/-- The view of one brace level of a text. -/
structure Masked where
  text : Text
  /-- The documentation comments that the view shows, in order. -/
  docs : List Span
deriving Repr, DecidableEq, Inhabited

/-- The masked view of a text. -/
def mask (s : Text) : Masked :=
  let found := regions 0 0 0 (tokens s)
  { text := Text.blank s found.blanked, docs := found.docs }

/-- Whether an offset lies in a documentation comment that the view shows. -/
def Masked.inDoc (m : Masked) (offset : Nat) : Bool := Span.search m.docs offset

-- ---------------------------------------------------------------------------
-- Blocks
-- ---------------------------------------------------------------------------

/-- Offset of the closing brace that ends the block whose inside, a token sequence at offset
`pos`, has `depth` further blocks open. -/
def closingBrace? : (pos depth : Nat) → List Token → Option Nat
  | _, _, [] => none
  | pos, depth, .trivia _ text :: ts => closingBrace? (pos + Text.byteLength text) depth ts
  | pos, depth, .code c :: ts =>
    if c = '{' then closingBrace? (pos + 1) (depth + 1) ts
    else if c = '}' then
      match depth with
      | 0 => some pos
      | outer + 1 => closingBrace? (pos + 1) outer ts
    else closingBrace? (pos + c.utf8Size) depth ts

/-- Offset of the `}` that matches the `{` at offset `brace`; braces in comments and literals do
not count. There is none when no `{` stands at `brace` or its block is never closed. -/
def blockEnd? (s : Text) (brace : Nat) : Option Nat :=
  match Text.suffixAt? brace s with
  | some ('{' :: inside) => closingBrace? (brace + 1) 0 (tokens inside)
  | _ => none

end Typings.Source
