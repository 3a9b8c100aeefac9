import Typings.Text.Span
import Typings.Text.Word

/-!
# Patterns

Regular patterns with named groups, and what it means for them to match at a place in a text.
Alternatives are tried in order of preference: the left side of an alternative first, one more
round of a greedy repetition first, no further round of a lazy repetition first. The first way to
match the whole pattern wins, and of overlapping matches the first.
-/

namespace Typings

/-- A condition on a place in a text. -/
inductive Anchor where
  | textStart
  | textEnd
  /-- The start of the text or of a line. -/
  | lineStart
  /-- A place between a word character and something else. -/
  | wordBoundary
deriving Repr, DecidableEq, Inhabited

/-- A regular pattern whose groups are named by `γ`. -/
inductive Pattern (γ : Type) where
  /-- One character of a class. -/
  | char (accepts : Char → Bool)
  | anchor (a : Anchor)
  | empty
  | seq (p q : Pattern γ)
  /-- `p` or else `q`. -/
  | alt (p q : Pattern γ)
  /-- Any number of rounds, as many as possible. -/
  | star (p : Pattern γ)
  /-- Any number of rounds, as few as possible. -/
  | lazyStar (p : Pattern γ)
  /-- Remembers what `p` matches under the name `g`. -/
  | group (g : γ) (p : Pattern γ)
deriving Inhabited

/-- A place in a text: the character before it, its offset and the text after it. -/
structure Place where
  before : Option Char
  pos : Nat
  rest : Text
deriving Repr, DecidableEq, Inhabited

/-- The place after the character `c` at the front of the rest. -/
def Place.advance (r : Place) (c : Char) (cs : Text) : Place :=
  { before := some c, pos := r.pos + c.utf8Size, rest := cs }

/-- Whether a condition holds at a place. -/
def Anchor.holds (r : Place) : Anchor → Bool
  | .textStart => r.before.isNone
  | .textEnd => r.rest.isEmpty
  | .lineStart => r.before.all (· = '\n')
  | .wordBoundary => r.before.any Text.isWordChar != r.rest.head?.any Text.isWordChar

/-- One end of a group in a match. -/
inductive Mark (γ : Type) where
  /-- The group starts at an offset, before a text. -/
  | opened (g : γ) (pos : Nat) (tail : Text)
  | closed (g : γ) (pos : Nat)
deriving Repr, DecidableEq, Inhabited

/-- How a match ends: its last offset, and the ends of groups on the way there, in order. -/
structure Ending (γ : Type) where
  stop : Nat
  marks : List (Mark γ) := []
deriving Repr, DecidableEq, Inhabited

namespace Ending

variable {γ : Type}

/-- The ending with a group opened at a place. -/
def opened (g : γ) (r : Place) (e : Ending γ) : Ending γ :=
  { e with marks := .opened g r.pos r.rest :: e.marks }

/-- The ending with a group closed at a place. -/
def closed (g : γ) (r : Place) (e : Ending γ) : Ending γ :=
  { e with marks := .closed g r.pos :: e.marks }

end Ending

namespace Pattern

variable {γ : Type}

-- ---------------------------------------------------------------------------
-- Building patterns
-- ---------------------------------------------------------------------------

instance : Append (Pattern γ) := ⟨.seq⟩
instance : OrOp (Pattern γ) := ⟨.alt⟩

/-- The characters of a text, one after another. -/
def lit (s : String) : Pattern γ :=
  s.toList.foldl (fun p c => .seq p (.char (· = c))) .empty

/-- One of the texts, the first that fits. -/
def oneOf : List String → Pattern γ
  | [] => .char fun _ => false
  | [s] => lit s
  | s :: rest => lit s ||| oneOf rest

/-- `p` or nothing. -/
def opt (p : Pattern γ) : Pattern γ := p ||| .empty

/-- One or more rounds, as many as possible. -/
def plus (p : Pattern γ) : Pattern γ := p ++ .star p

/-- One or more rounds, as few as possible. -/
def lazyPlus (p : Pattern γ) : Pattern γ := p ++ .lazyStar p

-- ---------------------------------------------------------------------------
-- Meaning
-- ---------------------------------------------------------------------------

/-- What is left to match: how a match goes on from each place, when it does. -/
abbrev Goal (γ : Type) := Place → Option (Ending γ)

/-- The goal of a match that may end anywhere. -/
def done : Goal γ := fun r => some { stop := r.pos }

/-- The goal `next` at places after `r` only. -/
def after (r : Place) (next : Goal γ) : Goal γ :=
  fun s => if s.rest.length < r.rest.length then next s else none

/-- Repeats `round` as often as possible before `next`. A round that consumes nothing does not
count. -/
def repeatMost (round : Goal γ → Goal γ) (next : Goal γ) (r : Place) : Option (Ending γ) :=
  (round (fun s => if s.rest.length < r.rest.length then repeatMost round next s else none) r).or
    (next r)
termination_by r.rest.length

/-- Repeats `round` as seldom as possible before `next`. -/
def repeatLeast (round : Goal γ → Goal γ) (next : Goal γ) (r : Place) : Option (Ending γ) :=
  (next r).or
    (round (fun s => if s.rest.length < r.rest.length then repeatLeast round next s else none) r)
termination_by r.rest.length

/-- How a match of the pattern and then of `next` ends, the first way to do so. -/
def run : Pattern γ → Goal γ → Goal γ
  | .char accepts, next, r =>
    match r.rest with
    | [] => none
    | c :: cs => if accepts c then next (r.advance c cs) else none
  | .anchor a, next, r => if a.holds r then next r else none
  | .empty, next, r => next r
  | .seq p q, next, r => p.run (q.run next) r
  | .alt p q, next, r => (p.run next r).or (q.run next r)
  | .star p, next, r => repeatMost p.run next r
  | .lazyStar p, next, r => repeatLeast p.run next r
  | .group g p, next, r =>
    (p.run (fun s => (next s).map (·.closed g s)) r).map (·.opened g r)

end Pattern

-- ---------------------------------------------------------------------------
-- Matches
-- ---------------------------------------------------------------------------

/-- What a group matched: its place, and the text that starts there. -/
structure Capture where
  start : Nat
  stop : Nat
  tail : Text
deriving Repr, DecidableEq, Inhabited

namespace Capture

def span (c : Capture) : Span := ⟨c.start, c.stop⟩

/-- The text that was matched. -/
def text (c : Capture) : Text := Text.takeBytes (c.stop - c.start) c.tail

end Capture

/-- A match of a pattern in a text. -/
structure Match (γ : Type) where
  whole : Capture
  marks : List (Mark γ)
deriving Repr, DecidableEq, Inhabited

namespace Match

variable {γ : Type} [DecidableEq γ]

/-- Where a group starts, and the text there. -/
def opening? (m : Match γ) (g : γ) : Option (Nat × Text) :=
  m.marks.findSome? fun
    | .opened h pos tail => if h = g then some (pos, tail) else none
    | .closed _ _ => none

/-- Where a group stops. -/
def closing? (m : Match γ) (g : γ) : Option Nat :=
  m.marks.findSome? fun
    | .opened _ _ _ => none
    | .closed h pos => if h = g then some pos else none

/-- What a group matched, when it took part in the match. -/
def get? (m : Match γ) (g : γ) : Option Capture :=
  match m.opening? g, m.closing? g with
  | some (start, tail), some stop => some { start, stop, tail }
  | _, _ => none

/-- The text that a group matched, empty when it took no part. -/
def text (m : Match γ) (g : γ) : Text := ((m.get? g).map Capture.text).getD []

end Match

namespace Pattern

variable {γ : Type}

/-- The match that starts at a place and has an ending. -/
def matchOf (r : Place) (e : Ending γ) : Match γ :=
  { whole := ⟨r.pos, e.stop, r.rest⟩, marks := e.marks }

/-- The match of a pattern that starts at a place. -/
def matchAt? (p : Pattern γ) (r : Place) : Option (Match γ) := (p.run done r).map (matchOf r)

/-- Leaves out the matches that start before the end of an earlier one. -/
def disjoint : (resume : Nat) → List (Match γ) → List (Match γ)
  | _, [] => []
  | resume, m :: ms =>
    if m.whole.start < resume then disjoint resume ms else m :: disjoint m.whole.stop ms

end Pattern

/-- The places of a text before each of its characters, the text starting at offset `pos` after
the character `before`. -/
def places : (before : Option Char) → (pos : Nat) → Text → List Place
  | _, _, [] => []
  | before, pos, c :: cs =>
    { before, pos, rest := c :: cs } :: places (some c) (pos + c.utf8Size) cs

end Typings
