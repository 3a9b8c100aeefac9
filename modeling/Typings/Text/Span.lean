import Typings.Order
import Typings.Text.Basic

/-!
# Spans of a text

A span is a range of byte offsets, its stop excluded. Blanking replaces the characters that
start inside some span by spaces of the same byte length and keeps newlines, so offsets and
lines survive. The spans come in any order and may overlap; they are first brought into a
sorted list of disjoint spans, and one sweep over the text then suffices.
-/

namespace Typings

/-- The byte offsets from `start` up to, but not including, `stop`. -/
structure Span where
  start : Nat
  stop : Nat
deriving Repr, DecidableEq, Inhabited

namespace Span

/-- Whether an offset lies in a span. -/
def contains (s : Span) (offset : Nat) : Bool := s.start ≤ offset && offset < s.stop

/-- Spans in order of their starts. -/
def sort (spans : List Span) : List Span := Order.sort (fun s t => s.start < t.start) spans

/-- Joins the spans of a sorted list that touch or overlap `s`, and so on. -/
def coalesce (s : Span) : List Span → List Span
  | [] => [s]
  | t :: ts =>
    if t.start ≤ s.stop then coalesce ⟨s.start, max s.stop t.stop⟩ ts
    else s :: coalesce t ts

/-- The sorted disjoint spans that cover the same offsets. -/
def merge (spans : List Span) : List Span :=
  match sort (spans.filter fun s => s.start < s.stop) with
  | [] => []
  | s :: ts => coalesce s ts

/-- Index of the first span at or after index `lo`, among the next `count`, that does not end at
or before `offset`; found by halving, which is right when the ends increase. -/
def partitionPoint (spans : Array Span) (offset : Nat) : (fuel lo count : Nat) → Nat
  | 0, lo, _ => lo
  | fuel + 1, lo, count =>
    if count = 0 then lo
    else
      let half := count / 2
      match spans[lo + half]? with
      | none => lo
      | some s =>
        if s.stop ≤ offset then
          partitionPoint spans offset fuel (lo + half + 1) (count - (half + 1))
        else partitionPoint spans offset fuel lo half

/-- Whether an offset lies in one of the spans of an ordered list of disjoint spans. -/
def search (spans : List Span) (offset : Nat) : Bool :=
  let table := spans.toArray
  match table[partitionPoint table offset table.size 0 table.size]? with
  | none => false
  | some s => s.contains offset

end Span

namespace Text

/-- The spaces or the newline that stand for a blanked character. -/
def blankChar (c : Char) : Text :=
  if c = '\n' then ['\n'] else List.replicate c.utf8Size ' '

/-- Blanks the characters inside sorted disjoint spans, the text starting at offset `pos`. -/
def sweep : List Span → (pos : Nat) → Text → Text
  | _, _, [] => []
  | spans, pos, c :: cs =>
    let pending := spans.dropWhile fun s => s.stop ≤ pos
    let inside :=
      match pending with
      | [] => false
      | s :: _ => s.start ≤ pos
    (if inside then blankChar c else [c]) ++ sweep pending (pos + c.utf8Size) cs

/-- The text with the characters that start inside one of the spans blanked. -/
def blank (s : Text) (spans : List Span) : Text := sweep (Span.merge spans) 0 s

end Text

end Typings
