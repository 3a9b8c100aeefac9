import Mathlib.Tactic.MkIffOfInductiveProp
import Typings.Text.Space

/-!
# Identifiers

The names of types, members and parameters. Which characters beyond ASCII may stand in a name is
left open: all that are not white space count, so that what is shown of identifiers holds for any
narrower choice.
-/

namespace Typings

/-- A character of an identifier: a Latin letter, a digit, `_`, `$`, or a visible character beyond
ASCII. -/
def isIdentifierChar (c : Char) : Bool :=
  if c.toNat < 0x80 then c.isAlphanum || c = '_' || c = '$' else !Text.isSpace c

/-- A name of a type, member or parameter. -/
@[mk_iff]
structure IsIdentifier (name : String) : Prop where
  ne_nil : name.toList ≠ []
  chars : ∀ c ∈ name.toList, isIdentifierChar c = true

instance (name : String) : Decidable (IsIdentifier name) :=
  decidable_of_iff' _ (isIdentifier_iff name)

namespace IsIdentifier

variable {name : String}

theorem ne_empty (h : IsIdentifier name) : name ≠ "" := by
  rintro rfl
  exact h.ne_nil rfl

/-- No other character stands in an identifier. -/
theorem notMem (h : IsIdentifier name) {c : Char} (hc : isIdentifierChar c = false) :
    c ∉ name.toList := fun hmem => by
  rw [h.chars c hmem] at hc
  exact Bool.noConfusion hc

theorem takeWhile_append (h : IsIdentifier name) {rest : Text}
    (hrest : rest.head?.all (!isIdentifierChar ·) = true) :
    (name.toList ++ rest).takeWhile isIdentifierChar = name.toList := by
  rw [List.takeWhile_append_of_pos h.chars]
  cases rest with
  | nil => simp
  | cons c cs =>
    have hc : isIdentifierChar c = false := by simpa using hrest
    simp [hc]

theorem dropWhile_append (h : IsIdentifier name) {rest : Text}
    (hrest : rest.head?.all (!isIdentifierChar ·) = true) :
    (name.toList ++ rest).dropWhile isIdentifierChar = rest := by
  rw [List.dropWhile_append_of_pos h.chars]
  cases rest with
  | nil => simp
  | cons c cs =>
    have hc : isIdentifierChar c = false := by simpa using hrest
    simp [hc]

end IsIdentifier

end Typings
