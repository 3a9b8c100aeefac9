import Typings.Text.Compact

/-!
# The rest of a type header

After the name of a type come its type parameters, the clauses `extends`, `implements` and
`permits`, and the brace that opens its body. Words inside angle brackets are never taken for
clauses.
-/

namespace Typings.Source

/-- The clauses of a type header. -/
inductive Clause where
  /-- `extends` and the types after it. -/
  | superTypes
  /-- `implements` and the types after it. -/
  | interfaces
  /-- `permits` and the types after it. -/
  | permitted
deriving Repr, DecidableEq, Inhabited

namespace Clause

def word : Clause → Text
  | .superTypes => "extends".toList
  | .interfaces => "implements".toList
  | .permitted => "permits".toList

/-- Whether the word of a clause stands at the front of a text, before a blank or the end. -/
def opens (k : Clause) (s : Text) : Bool :=
  match Text.afterPrefix? k.word s with
  | some rest => rest.head?.all Text.isBlank
  | none => false

/-- The clause that a text starts with. -/
def at? (s : Text) : Option Clause := [superTypes, interfaces, permitted].find? (·.opens s)

/-- Splits the clauses of a header: the text before the first clause word, and each clause with
the text after its word. The first `skip` characters belong to a word already read, `depth` angle
brackets are open, and `fresh` says that a word may start here. -/
def split : (skip depth : Nat) → (fresh : Bool) → Text → Text × List (Clause × Text)
  | _, _, _, [] => ([], [])
  | skip + 1, depth, _, _ :: cs => split skip depth false cs
  | 0, depth, fresh, c :: cs =>
    if c = '<' then extend c (split 0 (depth + 1) false cs)
    else if c = '>' then extend c (split 0 (depth - 1) false cs)
    else
      match if depth = 0 && fresh then at? (c :: cs) else none with
      | some clause =>
        let (text, later) := split (clause.word.length - 1) depth false cs
        ([], (clause, text) :: later)
      | none => extend c (split 0 depth (Text.isBlank c) cs)
where
  /-- Puts a character in front of the text before the first clause. -/
  extend (c : Char) : Text × List (Clause × Text) → Text × List (Clause × Text)
    | (text, clauses) => (c :: text, clauses)

/-- The compact text of the last clause of a kind that is not blank. -/
def lastText? (k : Clause) (clauses : List (Clause × Text)) : Option Text :=
  ((clauses.filter (·.1 = k)).map fun entry => Text.compact entry.2).reverse.find? (!·.isEmpty)

end Clause

/-- What follows the name in a type header. -/
structure HeaderTail where
  typeParameters : Option Text := none
  superTypes : Option Text := none
  interfaces : Option Text := none
  /-- Offset of the brace that opens the body. -/
  brace : Nat
deriving Repr, DecidableEq, Inhabited

/-- Splits a text after the `>` that closes `depth + 1` open angle brackets. A brace or semicolon
before it means there is none. -/
def closeAngle? : (depth : Nat) → Text → Option (Text × Text)
  | _, [] => none
  | depth, c :: cs =>
    if c = '<' then (closeAngle? (depth + 1) cs).map fun (inside, rest) => (c :: inside, rest)
    else if c = '>' then
      match depth with
      | 0 => some ([c], cs)
      | outer + 1 => (closeAngle? outer cs).map fun (inside, rest) => (c :: inside, rest)
    else if c = '{' || c = ';' then none
    else (closeAngle? depth cs).map fun (inside, rest) => (c :: inside, rest)

/-- The text before the `{` outside angle brackets. A character that no header holds before it
means that the text is not the rest of a header. -/
def beforeBrace? : (depth : Nat) → Text → Option Text
  | _, [] => none
  | depth, c :: cs =>
    if c = '<' then (beforeBrace? (depth + 1) cs).map (c :: ·)
    else if c = '>' then (beforeBrace? (depth - 1) cs).map (c :: ·)
    else if c = '{' && depth = 0 then some []
    else if c = ';' || c = '(' || c = ')' || c = '=' || c = '}' then none
    else (beforeBrace? depth cs).map (c :: ·)

/-- Reads the clauses of a header and the brace after them, from offset `pos`. -/
def clausesTail? (typeParameters : Option Text) (pos : Nat) (s : Text) : Option HeaderTail :=
  (beforeBrace? 0 s).map fun text =>
    let clauses := (Clause.split 0 0 true text).2
    { typeParameters
      superTypes := Clause.superTypes.lastText? clauses
      interfaces := Clause.interfaces.lastText? clauses
      brace := pos + Text.byteLength text }

/-- Reads the rest of a type header from the text right after the name, at offset `start`. -/
def tailAfterName? (start : Nat) (s : Text) : Option HeaderTail :=
  let blanks := s.takeWhile Text.isBlank
  let rest := s.dropWhile Text.isBlank
  let pos := start + Text.byteLength blanks
  match rest with
  | '<' :: cs =>
    match closeAngle? 0 cs with
    | some (inside, after) =>
      let angled := '<' :: inside
      clausesTail? (some (Text.compact angled)) (pos + Text.byteLength angled) after
    | none => none
  | _ => clausesTail? none pos rest

/-- Why a header cannot be read. -/
inductive HeaderFault where
  /-- The clauses would start inside a character. -/
  | insideCharacter
deriving Repr, DecidableEq, Inhabited

/-- Reads the rest of a type header, which starts right after the name at offset `start`; none
when no body follows. What is left of a character is no blank and no bracket, so from inside one
the clauses start at once. -/
def headerTail (s : Text) (start : Nat) : Except HeaderFault (Option HeaderTail) :=
  match Text.suffixAt? start s with
  | some rest => .ok (tailAfterName? start rest)
  | none =>
    match beforeBrace? 0 (Text.dropBytes start s) with
    | some _ => .error .insideCharacter
    | none => .ok none

end Typings.Source
