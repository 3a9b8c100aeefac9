import Typings.Text.Word

/-!
# Reading TypeScript types

The structure of TypeScript types and how it is read off their text. Array brackets bind tighter
than `|`, which binds tighter than `=>`: the result of a function type reaches as far to the right
as it can, and parentheses group. Spaces between symbols do not matter.
-/

namespace Typings

/-- A TypeScript type. -/
inductive TsType where
  /-- A name or an import, with type arguments. -/
  | reference (name : Text) (arguments : List TsType)
  | array (element : TsType)
  | union (left right : TsType)
  | function (parameters : List TsType) (result : TsType)
deriving Repr, Inhabited

namespace TsType

-- ---------------------------------------------------------------------------
-- Symbols and names
-- ---------------------------------------------------------------------------

/-- Characters of a dotted name. -/
def isNameChar (c : Char) : Bool := Text.isWordChar c || c = '$' || c = '.'

def skipSpaces (s : Text) : Text := s.dropWhile (· = ' ')

/-- The text after a symbol. -/
def symbol? (c : Char) (s : Text) : Option Text :=
  match skipSpaces s with
  | [] => none
  | d :: ds => if d = c then some ds else none

/-- The text after `=>`. -/
def arrow? (s : Text) : Option Text := (symbol? '=' s).bind (Text.afterPrefix? ['>'])

/-- A dotted name and the text after it. -/
def word? (s : Text) : Option (Text × Text) :=
  let name := (skipSpaces s).takeWhile isNameChar
  if name.isEmpty then none else some (name, (skipSpaces s).dropWhile isNameChar)

/-- The text between the quotes of `("...")` and the text after it. -/
def quotedArgument? (s : Text) : Option (Text × Text) :=
  match Text.afterPrefix? ['(', '"'] s with
  | none => none
  | some inside =>
    (Text.afterPrefix? ['"', ')'] (inside.dropWhile (· ≠ '"'))).map fun rest =>
      (inside.takeWhile (· ≠ '"'), rest)

/-- The name that opens an import. -/
def importWord : Text := ['i', 'm', 'p', 'o', 'r', 't']

/-- What an import of a type is written as. -/
def importText (module path : Text) : Text :=
  importWord ++ '(' :: '"' :: (module ++ '"' :: ')' :: path)

/-- A dotted name, or `import("module")` with a dotted name after it, and the text after it. -/
def reference? (s : Text) : Option (Text × Text) :=
  match word? s with
  | none => none
  | some (name, rest) =>
    match if name = importWord then quotedArgument? rest else none with
    | none => some (name, rest)
    | some (module, rest) => (word? rest).map fun (path, rest) => (importText module path, rest)

-- ---------------------------------------------------------------------------
-- Types
-- ---------------------------------------------------------------------------

/-- Reads a type from the front of a text. -/
abbrev Reader := Text → Option (TsType × Text)

/-- The rest of a list of type arguments: types with commas between them, then `>`. -/
def arguments? (type : Reader) : (bound : Nat) → Text → Option (List TsType × Text)
  | 0, _ => none
  | bound + 1, s => do
    let (t, s) ← type s
    match symbol? ',' s with
    | some s =>
      let (ts, s) ← arguments? type bound s
      return (t :: ts, s)
    | none =>
      let s ← symbol? '>' s
      return ([t], s)

/-- The rest of a list of parameters: names with their types, then `)`. -/
def parameters? (type : Reader) : (bound : Nat) → Text → Option (List TsType × Text)
  | 0, _ => none
  | bound + 1, s =>
    match symbol? ')' s with
    | some s => some ([], s)
    | none => do
      let (_, s) ← word? s
      let s ← symbol? ':' s
      let (t, s) ← type s
      match symbol? ',' s with
      | some s =>
        let (ts, s) ← parameters? type bound s
        return (t :: ts, s)
      | none =>
        let s ← symbol? ')' s
        return ([t], s)

/-- A reference or a type in parentheses. -/
def primary? (type : Reader) (bound : Nat) (s : Text) : Option (TsType × Text) :=
  match symbol? '(' s with
  | some s => do
    let (t, s) ← type s
    let s ← symbol? ')' s
    return (t, s)
  | none => do
    let (name, s) ← reference? s
    match symbol? '<' s with
    | some s =>
      let (ts, s) ← arguments? type bound s
      return (.reference name ts, s)
    | none => return (.reference name [], s)

/-- Makes a type the element of an array for each pair of brackets after it. -/
def arrays : TsType → Text → TsType × Text
  | t, '[' :: ']' :: s => arrays (.array t) s
  | t, s => (t, s)

/-- A primary type with the brackets after it. -/
def postfix? (type : Reader) (bound : Nat) (s : Text) : Option (TsType × Text) :=
  (primary? type bound s).map fun (t, s) => arrays t s

/-- Joins a type with the further members of a union, each read by `member`. -/
def members? (member : Reader) : (bound : Nat) → TsType → Text → Option (TsType × Text)
  | 0, _, _ => none
  | bound + 1, left, s =>
    match symbol? '|' s with
    | none => some (left, s)
    | some s => do
      let (right, s) ← member s
      members? member bound (.union left right) s

/-- Whether a text starts with the parameters of a function: with `()` or with `(name:`. -/
def opensParameters (s : Text) : Bool :=
  match symbol? '(' s with
  | none => false
  | some s =>
    (symbol? ')' s).isSome ||
      match word? s with
      | none => false
      | some (_, s) => (symbol? ':' s).isSome

/-- A type from the front of a text. Parts are shorter than the whole, and lists have no more
entries than the text has characters. -/
def type? : (fuel : Nat) → Reader
  | 0, _ => none
  | fuel + 1, s =>
    if opensParameters s then do
      let s ← symbol? '(' s
      let (parameters, s) ← parameters? (type? fuel) fuel s
      let s ← arrow? s
      let (result, s) ← type? fuel s
      return (.function parameters result, s)
    else do
      let (first, s) ← postfix? (type? fuel) fuel s
      members? (postfix? (type? fuel) fuel) fuel first s

/-- The type that a text spells. -/
def read (s : Text) : Option TsType :=
  match type? (s.length + 2) s with
  | some (t, rest) => if (skipSpaces rest).isEmpty then some t else none
  | none => none

end TsType

end Typings
