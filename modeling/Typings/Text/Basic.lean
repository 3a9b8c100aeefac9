/-!
# Text and byte offsets

A text is a list of characters. Positions in a text are UTF-8 byte offsets, so this module
measures texts in bytes and cuts them at byte offsets. Cutting rounds up: a character that
starts before the offset goes to the left part whole, so at a character boundary the two
parts are exactly the bytes before and after it.
-/

namespace Typings

/-- A text, one character after another. -/
abbrev Text := List Char

/-- What holds of each character of a text is decided on the text, not on all characters. -/
instance Text.decidableForallMem {p : Char → Prop} [DecidablePred p] (s : Text) :
    Decidable (∀ c ∈ s, p c) :=
  List.decidableBAll p s

instance Text.decidableForallMemOption {p : Char → Prop} [DecidablePred p] (o : Option Char) :
    Decidable (∀ c ∈ o, p c) :=
  Option.decidableForallMem o

namespace Text

-- ---------------------------------------------------------------------------
-- Lengths and cuts
-- ---------------------------------------------------------------------------

/-- Number of UTF-8 bytes of a text. -/
def byteLength : Text → Nat
  | [] => 0
  | c :: cs => c.utf8Size + byteLength cs

@[simp] theorem byteLength_nil : byteLength [] = 0 := rfl

@[simp] theorem byteLength_cons (c : Char) (cs : Text) :
    byteLength (c :: cs) = c.utf8Size + byteLength cs := rfl

@[simp] theorem byteLength_append (s t : Text) :
    byteLength (s ++ t) = byteLength s + byteLength t := by
  induction s with
  | nil => simp
  | cons c cs ih => simp [ih, Nat.add_assoc]

/-- The text without the characters that start before byte offset `n`. -/
def dropBytes : Nat → Text → Text
  | 0, cs => cs
  | _ + 1, [] => []
  | n + 1, c :: cs => dropBytes (n + 1 - c.utf8Size) cs

/-- The characters of a text that start before byte offset `n`. -/
def takeBytes : Nat → Text → Text
  | 0, _ => []
  | _ + 1, [] => []
  | n + 1, c :: cs => c :: takeBytes (n + 1 - c.utf8Size) cs

@[simp] theorem takeBytes_append_dropBytes (n : Nat) (s : Text) :
    takeBytes n s ++ dropBytes n s = s := by
  induction s generalizing n with
  | nil => cases n <;> rfl
  | cons c cs ih => cases n <;> simp [takeBytes, dropBytes, ih]

/-- The part of a text from byte offset `i` on, when `i` is a character boundary of it. -/
def suffixAt? : Nat → Text → Option Text
  | 0, cs => some cs
  | _ + 1, [] => none
  | n + 1, c :: cs => if c.utf8Size ≤ n + 1 then suffixAt? (n + 1 - c.utf8Size) cs else none

/-- The part of a text between two byte offsets. -/
def slice (s : Text) (start stop : Nat) : Text :=
  takeBytes (stop - start) (dropBytes start s)

-- ---------------------------------------------------------------------------
-- Affixes
-- ---------------------------------------------------------------------------

/-- The rest of `s` after the text `p`, when `s` starts with it. -/
def afterPrefix? : (p s : Text) → Option Text
  | [], s => some s
  | _ :: _, [] => none
  | a :: p, b :: s => if a = b then afterPrefix? p s else none

theorem afterPrefix?_eq_some_iff {p s t : Text} : afterPrefix? p s = some t ↔ s = p ++ t := by
  induction p generalizing s with
  | nil => simp [afterPrefix?]
  | cons a p ih =>
    cases s with
    | nil => simp [afterPrefix?]
    | cons b s =>
      by_cases h : a = b <;> simp [afterPrefix?, h, ih]
      exact fun hba => absurd hba.symm h

/-- The part of `s` before the text `p`, when `s` ends with it. -/
def beforeSuffix? (p s : Text) : Option Text :=
  (afterPrefix? p.reverse s.reverse).map List.reverse

theorem beforeSuffix?_eq_some_iff {p s t : Text} : beforeSuffix? p s = some t ↔ s = t ++ p := by
  simp only [beforeSuffix?, Option.map_eq_some_iff, afterPrefix?_eq_some_iff]
  constructor
  · rintro ⟨u, h, rfl⟩
    have := congrArg List.reverse h
    simpa using this
  · rintro rfl
    exact ⟨t.reverse, by simp⟩

/-- Whether `s` starts with the text `p`. -/
def startsWith (p s : Text) : Bool := (afterPrefix? p s).isSome

/-- Whether `s` ends with the text `p`. -/
def endsWith (p s : Text) : Bool := (beforeSuffix? p s).isSome

theorem endsWith_eq_true_iff {p s : Text} : endsWith p s = true ↔ p <:+ s := by
  simp only [endsWith, Option.isSome_iff_exists, beforeSuffix?_eq_some_iff]
  exact ⟨fun ⟨t, h⟩ => ⟨t, h.symm⟩, fun ⟨t, h⟩ => ⟨t, h.symm⟩⟩

/-- Whether the text `p` occurs somewhere in `s`. -/
def contains (p : Text) : Text → Bool
  | [] => p.isEmpty
  | c :: cs => startsWith p (c :: cs) || contains p cs

/-- The parts of `s` before and after the first occurrence of a character. -/
def splitFirst? (sep : Char) : Text → Option (Text × Text)
  | [] => none
  | c :: cs =>
    if c = sep then some ([], cs)
    else (splitFirst? sep cs).map fun (before, after) => (c :: before, after)

/-- The parts of `s` before and after the last occurrence of a character. -/
def splitLast? (sep : Char) (s : Text) : Option (Text × Text) :=
  (splitFirst? sep s.reverse).map fun (after, before) => (before.reverse, after.reverse)

/-- The lines of a text. A line ends at a newline, which may follow a carriage return; what
follows the last newline is a line only when it is not empty. -/
def lines : Text → List Text
  | [] => []
  | '\n' :: cs => [] :: lines cs
  | '\r' :: '\n' :: cs => [] :: lines cs
  | c :: cs =>
    match lines cs with
    | line :: rest => (c :: line) :: rest
    | [] => [[c]]

end Text

end Typings
