import Typings.Proofs.Text.Splitting

/-!
# Java types as they are written

The grammar of Java type expressions: dotted names, arrays, and generic types whose arguments may
be wildcards. Every expression is written in one way, with `, ` between arguments and no other
space but those of a bounded wildcard. What is written starts and ends with a visible character,
and its brackets are closed.
-/

namespace Typings

-- ---------------------------------------------------------------------------
-- Names
-- ---------------------------------------------------------------------------

/-- Characters that a segment of a dotted name may hold: anything but white space, brackets,
commas, question marks and dots. -/
def isSegmentChar (c : Char) : Bool :=
  !(Text.isSpace c || Text.isOpening c || Text.isClosing c || c = ',' || c = '?' || c = '.')

/-- White space, brackets and commas are no part of a name. -/
theorem plain_of_isSegmentChar {c : Char} (h : isSegmentChar c = true) :
    Text.isSpace c = false ∧ Text.isOpening c = false ∧ Text.isClosing c = false ∧ c ≠ ',' := by
  simp only [isSegmentChar, Bool.not_eq_true', Bool.or_eq_false_iff, decide_eq_false_iff_not] at h
  obtain ⟨⟨⟨⟨⟨hspace, hopen⟩, hclose⟩, hcomma⟩, -⟩, -⟩ := h
  exact ⟨hspace, hopen, hclose, hcomma⟩

/-- A dotted name. -/
structure JavaName where
  segments : List Text
  segments_ne_nil : segments ≠ []
  segment_ne_nil : ∀ s ∈ segments, s ≠ []
  isSegmentChar_of_mem : ∀ s ∈ segments, ∀ c ∈ s, isSegmentChar c = true

namespace JavaName

/-- The segments with dots between them. -/
def text (n : JavaName) : Text := ['.'].intercalate n.segments

def string (n : JavaName) : String := String.ofList n.text

/-- The name with a single segment. -/
def simple (segment : Text) (hne : segment ≠ []) (h : ∀ c ∈ segment, isSegmentChar c = true) :
    JavaName where
  segments := [segment]
  segments_ne_nil := by simp
  segment_ne_nil := by simpa using hne
  isSegmentChar_of_mem := by simpa using h

theorem isSegmentChar_or_dot (n : JavaName) {c : Char} (hc : c ∈ n.text) :
    isSegmentChar c = true ∨ c = '.' := by
  rcases Text.mem_intercalate hc with ⟨s, hs, hcs⟩ | hdot
  · exact .inl (n.isSegmentChar_of_mem s hs c hcs)
  · exact .inr (by simpa using hdot)

/-- A name starts with a character of its first segment. -/
theorem exists_text_eq_cons (n : JavaName) :
    ∃ c cs, n.text = c :: cs ∧ isSegmentChar c = true := by
  obtain ⟨s, ss, hss⟩ := List.exists_cons_of_ne_nil n.segments_ne_nil
  have hs : s ∈ n.segments := by simp [hss]
  obtain ⟨c, cs, rfl⟩ := List.exists_cons_of_ne_nil (n.segment_ne_nil s hs)
  exact ⟨c, ['.'].intercalate (cs :: ss), by simp [text, hss],
    n.isSegmentChar_of_mem _ hs c (by simp)⟩

/-- A name ends with a character of its last segment. -/
theorem exists_text_eq_concat (n : JavaName) :
    ∃ cs c, n.text = cs ++ [c] ∧ isSegmentChar c = true := by
  obtain ⟨before, s, hs, hjoin⟩ := Text.exists_intercalate_eq_append ['.'] n.segments_ne_nil
  have hne := n.segment_ne_nil s hs
  refine ⟨before ++ s.dropLast, s.getLast hne, ?_,
    n.isSegmentChar_of_mem s hs _ (List.getLast_mem hne)⟩
  rw [text, hjoin, List.append_assoc, List.dropLast_concat_getLast hne]

end JavaName

-- ---------------------------------------------------------------------------
-- Types
-- ---------------------------------------------------------------------------

/-- The side on which a wildcard is bounded. -/
inductive Bound where
  | upper
  | lower
deriving Repr, DecidableEq, Inhabited

/-- What is written before the type that bounds a wildcard. -/
def Bound.keyword : Bound → String
  | .upper => "? extends "
  | .lower => "? super "

def Bound.opening (side : Bound) : Text := side.keyword.toList

mutual

/-- A Java type. -/
inductive JavaType where
  | name (n : JavaName)
  | array (element : JavaType)
  | generic (base : JavaName) (arguments : List TypeArgument)

/-- An argument of a generic type. -/
inductive TypeArgument where
  | type (t : JavaType)
  | wildcard
  | bounded (side : Bound) (bound : JavaType)

end

mutual

/-- The text of a type. -/
def JavaType.text : JavaType → Text
  | .name n => n.text
  | .array element => element.text ++ "[]".toList
  | .generic base arguments =>
    base.text ++ '<' :: ([',', ' '].intercalate (TypeArgument.texts arguments) ++ ['>'])

def TypeArgument.text : TypeArgument → Text
  | .type t => t.text
  | .wildcard => ['?']
  | .bounded side bound => side.opening ++ bound.text

def TypeArgument.texts : List TypeArgument → List Text
  | [] => []
  | a :: as => a.text :: TypeArgument.texts as

end

theorem TypeArgument.texts_eq_map (as : List TypeArgument) :
    TypeArgument.texts as = as.map TypeArgument.text := by
  induction as with
  | nil => rfl
  | cons a as ih => simp [TypeArgument.texts, ih]

/-- The text of a type as a string. -/
def JavaType.string (t : JavaType) : String := String.ofList t.text

-- ---------------------------------------------------------------------------
-- The shape of the text
-- ---------------------------------------------------------------------------

theorem JavaName.trimmed_text (n : JavaName) : Text.Trimmed n.text := by
  obtain ⟨c, cs, hhead, hc⟩ := n.exists_text_eq_cons
  obtain ⟨ds, d, hlast, hd⟩ := n.exists_text_eq_concat
  exact ⟨⟨c, cs, hhead, (plain_of_isSegmentChar hc).1⟩,
    ⟨ds, d, hlast, (plain_of_isSegmentChar hd).1⟩⟩

theorem JavaName.closed_text (n : JavaName) : Text.Closed ',' n.text := by
  refine Text.closed_of_forall fun c hc => ?_
  rcases n.isSegmentChar_or_dot hc with hseg | rfl
  · exact (plain_of_isSegmentChar hseg).2
  · decide

theorem Bound.closed_opening (side : Bound) : Text.Closed ',' side.opening := by
  cases side <;> decide

theorem JavaType.trimmed_text (t : JavaType) : Text.Trimmed t.text := by
  have visible : ∀ s : Text, (s = "[]".toList ∨ s = ['>']) → Text.Trimmed s := by
    rintro s (rfl | rfl)
    · exact .of_forall (by decide) (by decide)
    · exact .of_forall (by decide) (by decide)
  cases t with
  | name n => exact n.trimmed_text
  | array element =>
    have h := element.trimmed_text.append (visible "[]".toList (.inl rfl)) []
    simpa [JavaType.text] using h
  | generic base arguments =>
    have h := base.trimmed_text.append (visible ['>'] (.inr rfl))
      ('<' :: [',', ' '].intercalate (TypeArgument.texts arguments))
    simpa [JavaType.text] using h

theorem Bound.opening_eq_cons (side : Bound) : ∃ cs, side.opening = '?' :: cs := by
  cases side with
  | upper => exact ⟨" extends ".toList, by decide⟩
  | lower => exact ⟨" super ".toList, by decide⟩

theorem TypeArgument.trimmed_text (a : TypeArgument) : Text.Trimmed a.text := by
  have hquestion : Text.Trimmed ['?'] := .of_forall (by simp) (by decide)
  cases a with
  | type t => exact t.trimmed_text
  | wildcard => exact hquestion
  | bounded side bound =>
    obtain ⟨cs, hcs⟩ := side.opening_eq_cons
    rw [TypeArgument.text, hcs]
    exact hquestion.append bound.trimmed_text cs

mutual

theorem JavaType.closed_text (t : JavaType) : Text.Closed ',' t.text := by
  cases t with
  | name n => exact n.closed_text
  | array element => exact element.closed_text.append (by decide)
  | generic base arguments =>
    exact base.closed_text.append
      (Text.closed_angled (by decide) (TypeArgument.closed_texts arguments))

theorem TypeArgument.closed_text (a : TypeArgument) : Text.Closed ',' a.text := by
  cases a with
  | type t => exact t.closed_text
  | wildcard => exact (by decide : Text.Closed ',' ['?'])
  | bounded side bound => exact side.closed_opening.append bound.closed_text

theorem TypeArgument.closed_texts (as : List TypeArgument) :
    ∀ p ∈ TypeArgument.texts as, Text.Closed ',' p := by
  cases as with
  | nil => simp [TypeArgument.texts]
  | cons a as =>
    have ha := a.closed_text
    have has := TypeArgument.closed_texts as
    intro p hp
    rcases List.mem_cons.1 hp with rfl | hp
    · exact ha
    · exact has p hp

end

end Typings
