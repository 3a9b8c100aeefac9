import Typings.Pattern.Basic

/-!
# Searching for matches

Finds the matches of a pattern in one pass over the text, from its end to its start. At each place
the pass knows, for every character of the pattern, how a match goes on after that character at
the next place; so it learns in one step over the pattern how a match goes on from this place. The
time is the length of the text times the size of the pattern, whatever the text.
-/

namespace Typings

-- ---------------------------------------------------------------------------
-- Traces
-- ---------------------------------------------------------------------------

/-- For the characters of a pattern, how a match goes on after them. The tree has the shape of the
pattern; where nothing goes on it is cut off. -/
inductive Trace (γ : Type) where
  | nothing
  | leaf (e : Ending γ)
  | node (left right : Trace γ)
deriving Repr, DecidableEq, Inhabited

namespace Trace

variable {γ : Type}

/-- The trace of a single character. -/
def ofEnding? : Option (Ending γ) → Trace γ
  | some e => .leaf e
  | none => .nothing

/-- How a match goes on after a single character. -/
def ending? : Trace γ → Option (Ending γ)
  | .leaf e => some e
  | _ => none

/-- The trace of two parts. -/
def join : Trace γ → Trace γ → Trace γ
  | .nothing, .nothing => .nothing
  | s, t => .node s t

def left : Trace γ → Trace γ
  | .node s _ => s
  | _ => .nothing

def right : Trace γ → Trace γ
  | .node _ t => t
  | _ => .nothing

def isNothing : Trace γ → Bool
  | .nothing => true
  | _ => false

@[simp] theorem ending?_ofEnding? (e : Option (Ending γ)) : (ofEnding? e).ending? = e := by
  cases e <;> rfl

@[simp] theorem left_join (s t : Trace γ) : (join s t).left = s := by
  cases s <;> cases t <;> rfl

@[simp] theorem right_join (s t : Trace γ) : (join s t).right = t := by
  cases s <;> cases t <;> rfl

end Trace

namespace Pattern

variable {γ : Type}

-- ---------------------------------------------------------------------------
-- One step
-- ---------------------------------------------------------------------------

/-- How a match of a pattern ends from a place, given the trace of the next place and how a match
goes on from this place after the pattern. -/
def value (r : Place) (p : Pattern γ) (t : Trace γ) (now : Option (Ending γ)) :
    Option (Ending γ) :=
  if t.isNothing && now.isNone then none
  else
    match p with
    | .char accepts =>
      match r.rest with
      | [] => none
      | c :: _ => if accepts c then t.ending? else none
    | .anchor a => if a.holds r then now else none
    | .empty => now
    | .seq p q => p.value r t.left (q.value r t.right now)
    | .alt p q => (p.value r t.left now).or (q.value r t.right now)
    | .star p => (p.value r t none).or now
    | .lazyStar p => now.or (p.value r t none)
    | .group g p => (p.value r t (now.map (·.closed g r))).map (·.opened g r)

/-- The trace of a place, for the place before it. -/
def trace (r : Place) (p : Pattern γ) (t : Trace γ) (now : Option (Ending γ)) : Trace γ :=
  if t.isNothing && now.isNone then .nothing
  else
    match p with
    | .char _ => .ofEnding? now
    | .anchor _ => .nothing
    | .empty => .nothing
    | .seq p q => .join (p.trace r t.left (q.value r t.right now)) (q.trace r t.right now)
    | .alt p q => .join (p.trace r t.left now) (q.trace r t.right now)
    | .star p => p.trace r t ((p.value r t none).or now)
    | .lazyStar p => p.trace r t (now.or (p.value r t none))
    | .group g p => p.trace r t (now.map (·.closed g r))

-- ---------------------------------------------------------------------------
-- The pass
-- ---------------------------------------------------------------------------

/-- The trace of a place, and the matches that start at it or later. -/
def scan (p : Pattern γ) : (before : Option Char) → (pos : Nat) → Text →
    Trace γ × List (Match γ)
  | before, pos, [] =>
    let r : Place := { before, pos, rest := [] }
    (p.trace r .nothing (done r), [])
  | before, pos, c :: cs =>
    let r : Place := { before, pos, rest := c :: cs }
    let (t, later) := p.scan (some c) (pos + c.utf8Size) cs
    (p.trace r t (done r),
      match p.value r t (done r) with
      | some e => matchOf r e :: later
      | none => later)

/-- The successive matches of a pattern in a text, from left to right and without overlap. -/
def allMatches (p : Pattern γ) (s : Text) : List (Match γ) := disjoint 0 (p.scan none 0 s).2

/-- The first match of a pattern in a text. -/
def firstMatch? (p : Pattern γ) (s : Text) : Option (Match γ) := (p.allMatches s).head?

/-- The text without the characters that start inside a span, the spans being ordered. -/
def erase : List Span → (pos : Nat) → Text → Text
  | _, _, [] => []
  | spans, pos, c :: cs =>
    let pending := spans.dropWhile fun s => s.stop ≤ pos
    let rest := erase pending (pos + c.utf8Size) cs
    match pending with
    | [] => c :: rest
    | s :: _ => if s.start ≤ pos then rest else c :: rest

/-- The text without the matches of a pattern. -/
def removeAll (p : Pattern γ) (s : Text) : Text :=
  erase ((p.allMatches s).map fun m => m.whole.span) 0 s

end Pattern

end Typings
