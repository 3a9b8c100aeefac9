import Typings.Json.Basic
import Typings.Text.Basic

/-!
# Reading JSON

Reads the JSON value that a text holds, white space around it aside. Reading fails when the text
is not of that form; text after the value is a failure too.
-/

namespace Typings.Json

/-- White space between the parts of a JSON text. -/
def isGap (c : Char) : Bool := c = ' ' || c = '\n' || c = '\t' || c = '\r'

def skipGap (s : Text) : Text := s.dropWhile isGap

-- ---------------------------------------------------------------------------
-- Numbers
-- ---------------------------------------------------------------------------

/-- Splits off leading decimal digits. -/
def digits (s : Text) : Text × Text := s.span Char.isDigit

/-- The value of decimal digits. -/
def digitsValue (ds : Text) : Nat := ds.foldl (fun n d => n * 10 + (d.toNat - 48)) 0

/-- The whole part of a number: a zero, or digits that do not start with one. -/
def wholePart? (s : Text) : Option (Nat × Text) :=
  match digits s with
  | ([], _) => none
  | (['0'], rest) => some (0, rest)
  | ('0' :: _, _) => none
  | (ds, rest) => some (digitsValue ds, rest)

/-- What follows a fraction at the front of a text; the text itself when it has none. -/
def afterFraction? : Text → Option (Bool × Text)
  | '.' :: s =>
    match digits s with
    | ([], _) => none
    | (_, rest) => some (true, rest)
  | s => some (false, s)

/-- What follows the digits of an exponent. -/
def afterExponentDigits? (s : Text) : Option (Bool × Text) :=
  match digits s with
  | ([], _) => none
  | (_, rest) => some (true, rest)

/-- What follows an exponent at the front of a text; the text itself when it has none. -/
def afterExponent? : Text → Option (Bool × Text)
  | c :: s =>
    if c = 'e' ∨ c = 'E' then
      match s with
      | '+' :: t => afterExponentDigits? t
      | '-' :: t => afterExponentDigits? t
      | t => afterExponentDigits? t
    else some (false, c :: s)
  | [] => some (false, [])

/-- The number at the front of a text. -/
def number? (s : Text) : Option (Json × Text) := do
  let (negative, s) :=
    match s with
    | '-' :: t => (true, t)
    | t => (false, t)
  let (whole, s) ← wholePart? s
  let (fractional, s) ← afterFraction? s
  let (scaled, s) ← afterExponent? s
  return (if negative || fractional || scaled then .number else .nat whole, s)

-- ---------------------------------------------------------------------------
-- Strings
-- ---------------------------------------------------------------------------

/-- The value of four hexadecimal digits. -/
def hexValue? (c : Char) : Option Nat :=
  if c.isDigit then some (c.toNat - 48)
  else if 'a' ≤ c ∧ c ≤ 'f' then some (c.toNat - 87)
  else if 'A' ≤ c ∧ c ≤ 'F' then some (c.toNat - 55)
  else none

/-- One unit of a string: a character, or a surrogate written as an escape. -/
inductive StrUnit where
  | char (c : Char)
  | highSurrogate (n : Nat)
  | lowSurrogate (n : Nat)
deriving Repr, DecidableEq, Inhabited

/-- The unit that the escape `\uXXXX` stands for. -/
def unitOfCode (n : Nat) : StrUnit :=
  if 0xD800 ≤ n ∧ n < 0xDC00 then .highSurrogate n
  else if 0xDC00 ≤ n ∧ n < 0xE000 then .lowSurrogate n
  else .char (Char.ofNat n)

/-- The character that a one-letter escape stands for. -/
def simpleEscape? : Char → Option Char
  | '"' => some '"'
  | '\\' => some '\\'
  | '/' => some '/'
  | 'b' => some '\x08'
  | 'f' => some '\x0c'
  | 'n' => some '\n'
  | 'r' => some '\r'
  | 't' => some '\t'
  | _ => none

/-- The units of a string up to its closing quote, and what follows it. -/
def units? : Text → Option (List StrUnit × Text)
  | [] => none
  | '"' :: rest => some ([], rest)
  | '\\' :: 'u' :: a :: b :: c :: d :: rest => do
    let n := (← hexValue? a) * 4096 + (← hexValue? b) * 256 + (← hexValue? c) * 16 + (← hexValue? d)
    let (us, rest) ← units? rest
    return (unitOfCode n :: us, rest)
  | '\\' :: e :: rest => do
    let c ← simpleEscape? e
    let (us, rest) ← units? rest
    return (.char c :: us, rest)
  | c :: rest =>
    if c.toNat < 0x20 ∨ c = '\\' then none
    else do
      let (us, rest) ← units? rest
      return (.char c :: us, rest)

/-- The text that units spell, when every surrogate is paired. -/
def unitsText? : List StrUnit → Option Text
  | [] => some []
  | .char c :: us => (unitsText? us).map (c :: ·)
  | .highSurrogate h :: .lowSurrogate l :: us =>
    (unitsText? us).map (Char.ofNat (0x10000 + (h - 0xD800) * 0x400 + (l - 0xDC00)) :: ·)
  | _ :: _ => none

/-- The text of the string whose inside a text starts with, `none` when it is no text; and what
follows the string. -/
def string? (s : Text) : Option (Option String × Text) := do
  let (us, rest) ← units? s
  return ((unitsText? us).map String.ofList, rest)

-- ---------------------------------------------------------------------------
-- Values
-- ---------------------------------------------------------------------------

mutual

/-- The value at the front of a text. No character takes more than two steps to read, so twice
the length of the text is fuel enough. -/
def value? : (fuel : Nat) → Text → Option (Json × Text)
  | 0, _ => none
  | fuel + 1, s =>
    match skipGap s with
    | '[' :: rest =>
      match skipGap rest with
      | ']' :: rest => some (.arr [], rest)
      | rest => (items? fuel rest).map fun (items, rest) => (.arr items, rest)
    | '{' :: rest =>
      match skipGap rest with
      | '}' :: rest => some (.obj [], rest)
      | rest => (fields? fuel rest).map fun (fields, rest) => (.obj fields, rest)
    | '"' :: rest =>
      (string? rest).map fun (text, rest) =>
        (match text with
        | some t => .str t
        | none => .brokenStr, rest)
    | 'n' :: 'u' :: 'l' :: 'l' :: rest => some (.null, rest)
    | 't' :: 'r' :: 'u' :: 'e' :: rest => some (.bool true, rest)
    | 'f' :: 'a' :: 'l' :: 's' :: 'e' :: rest => some (.bool false, rest)
    | rest => number? rest

/-- The items of an array up to its closing bracket. -/
def items? : (fuel : Nat) → Text → Option (List Json × Text)
  | 0, _ => none
  | fuel + 1, s => do
    let (item, rest) ← value? fuel s
    match skipGap rest with
    | ']' :: rest => return ([item], rest)
    | ',' :: rest =>
      let (items, rest) ← items? fuel rest
      return (item :: items, rest)
    | _ => none

/-- The fields of an object up to its closing brace. -/
def fields? : (fuel : Nat) → Text → Option (List (Option String × Json) × Text)
  | 0, _ => none
  | fuel + 1, s =>
    match skipGap s with
    | '"' :: rest => do
      let (name, rest) ← string? rest
      match skipGap rest with
      | ':' :: rest =>
        let (value, rest) ← value? fuel rest
        match skipGap rest with
        | '}' :: rest => return ([(name, value)], rest)
        | ',' :: rest =>
          let (fields, rest) ← fields? fuel rest
          return ((name, value) :: fields, rest)
        | _ => none
      | _ => none
    | _ => none

end

/-- The value that a text holds. -/
def read? (s : String) : Option Json :=
  let text := s.toList
  match value? (2 * text.length + 2) text with
  | some (value, rest) => if (skipGap rest).isEmpty then some value else none
  | none => none

end Typings.Json
