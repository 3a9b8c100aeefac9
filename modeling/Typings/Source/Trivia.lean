import Typings.Text.Basic

/-!
# Comments and literals

Java text is read as a sequence of tokens: a comment or literal as a whole, or one character of
code. A `/*` comment runs to the next `*/` and a `//` comment to the end of its line; a quoted
literal ends at its quote or, left open, at the end of its line; a text block ends at three
quotes. Whatever is left open otherwise runs to the end of the text. In literals a backslash
takes the next character with it.
-/

namespace Typings.Source

/-- Text that is not code. -/
inductive Trivia where
  /-- A documentation comment `/** ... */`. -/
  | doc
  /-- Any other comment. -/
  | comment
  /-- A string, character or text block literal. -/
  | literal
deriving Repr, DecidableEq, Inhabited

-- ---------------------------------------------------------------------------
-- Lengths
-- ---------------------------------------------------------------------------

/-- Number of characters up to the end of the line. -/
def lineRest : Text → Nat
  | [] => 0
  | c :: cs => if c = '\n' then 0 else lineRest cs + 1

/-- Number of characters up to and including the next `*/`, or to the end of the text. -/
def commentRest : Text → Nat
  | [] => 0
  | '*' :: '/' :: _ => 2
  | _ :: cs => commentRest cs + 1

/-- Number of characters up to and including the closing quote of a literal, or up to the end of
the line. -/
def quotedRest (quote : Char) : Text → Nat
  | [] => 0
  | ['\\'] => 1
  | '\\' :: _ :: cs => quotedRest quote cs + 2
  | c :: cs =>
    if c = '\n' then 0
    else if c = quote then 1
    else quotedRest quote cs + 1

/-- Number of characters up to and including the next three quotes. -/
def textBlockRest : Text → Nat
  | [] => 0
  | ['\\'] => 1
  | '\\' :: _ :: cs => textBlockRest cs + 2
  | '"' :: '"' :: '"' :: _ => 3
  | _ :: cs => textBlockRest cs + 1

/-- The kind of the comment or literal that starts with the character `c` before `cs`, and how
many characters of `cs` belong to it. -/
def triviaAt? (c : Char) (cs : Text) : Option (Trivia × Nat) :=
  if c = '/' then
    match cs with
    | '/' :: rest => some (.comment, lineRest rest + 1)
    | '*' :: rest =>
      let kind :=
        match rest with
        | '*' :: '/' :: _ => Trivia.comment
        | '*' :: _ => .doc
        | _ => .comment
      some (kind, commentRest rest + 1)
    | _ => none
  else if c = '"' then
    match cs with
    | '"' :: '"' :: rest => some (.literal, textBlockRest rest + 2)
    | _ => some (.literal, quotedRest c cs)
  else if c = '\'' then some (.literal, quotedRest c cs)
  else none

-- ---------------------------------------------------------------------------
-- Tokens
-- ---------------------------------------------------------------------------

/-- A comment or literal, or one character of code. -/
inductive Token where
  | trivia (kind : Trivia) (text : Text)
  | code (c : Char)
deriving Repr, DecidableEq, Inhabited

/-- The text of a token. -/
def Token.text : Token → Text
  | .trivia _ text => text
  | .code c => [c]

/-- The tokens of a text after its first `skip` characters. -/
def tokensAfter : (skip : Nat) → Text → List Token
  | _, [] => []
  | skip + 1, _ :: cs => tokensAfter skip cs
  | 0, c :: cs =>
    match triviaAt? c cs with
    | some (kind, n) => .trivia kind (c :: cs.take n) :: tokensAfter n cs
    | none => .code c :: tokensAfter 0 cs

/-- The tokens of a text. -/
def tokens (s : Text) : List Token := tokensAfter 0 s

theorem tokensAfter_eq (skip : Nat) (s : Text) : tokensAfter skip s = tokens (s.drop skip) := by
  induction s generalizing skip with
  | nil => cases skip <;> rfl
  | cons c cs ih =>
    cases skip with
    | zero => rfl
    | succ n => simpa [tokensAfter] using ih n

/-- Nothing is lost: the tokens of a text make up the text. -/
theorem flatMap_text_tokens (s : Text) : (tokens s).flatMap Token.text = s := by
  suffices h : ∀ skip, (tokensAfter skip s).flatMap Token.text = s.drop skip from h 0
  induction s with
  | nil => intro skip; cases skip <;> rfl
  | cons c cs ih =>
    intro skip
    cases skip with
    | succ n => simpa [tokensAfter] using ih n
    | zero =>
      simp only [tokensAfter, List.drop_zero]
      split <;> simp [Token.text, ih]

end Typings.Source
