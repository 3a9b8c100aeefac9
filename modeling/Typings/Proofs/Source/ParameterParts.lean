import Mathlib.Data.List.TakeWhile
import Typings.Proofs.Pattern.Removing
import Typings.Proofs.Source.Balance
import Typings.Proofs.Source.DeclarationParts

/-!
# The parts of a parameter

How a parameter comes out of its words: the last space outside angle brackets stands before the
name, to which dots and pairs of square brackets may be attached. No visible character is lost on
the way, but dots become a pair of square brackets. Main statements: `parameter?_of_words` and
`count_parameter?`.
-/

namespace Typings.Source

open Declaration

-- ---------------------------------------------------------------------------
-- Words
-- ---------------------------------------------------------------------------

/-- Text without annotations stays. -/
theorem removeFrom_annotationUse_append {s : Text} (h : ∀ c ∈ s, c ≠ '@') (b : Option Char)
    (pos : Nat)
    (t : Text) : annotationUse.removeFrom b pos (s ++ t) =
      s ++ annotationUse.removeFrom (Text.lastOr b s) (pos + Text.byteLength s) t := by
  refine Pattern.removeFrom_append ?_
  rintro u v rfl hne
  obtain ⟨c, v, rfl⟩ := List.exists_cons_of_ne_nil hne
  exact fails_annotationUse fun d hd => h d (by simp_all)

theorem removeAll_annotationUse {s : Text} (h : ∀ c ∈ s, c ≠ '@') :
    annotationUse.removeAll s = s := by
  have hremoved := removeFrom_annotationUse_append h none 0 []
  rw [List.append_nil] at hremoved
  rw [Pattern.removeAll_eq_removeFrom, hremoved]
  exact List.append_nil s

/-- Without annotations and the word `final` all words stay. -/
theorem parameterWords_eq_normalizeSpaces {s : Text} (hat : ∀ c ∈ s, c ≠ '@')
    (hfinal : "final".toList ∉ Text.words s) : parameterWords s = Text.normalizeSpaces s := by
  have hkept : (Text.words s).filter (· ≠ "final".toList) = Text.words s := by
    refine List.filter_eq_self.mpr fun w hw => ?_
    simp only [ne_eq, decide_not, Bool.not_eq_eq_eq_not, Bool.not_true, decide_eq_false_iff_not]
    rintro rfl
    exact hfinal hw
  rw [parameterWords, removeAll_annotationUse hat, hkept]
  rfl

/-- A word after white space is the last one. -/
theorem normalizeSpaces_append_word {s sp w : Text} (hs : Text.visible s ≠ [])
    (hsp : ∀ c ∈ sp, Text.isSpace c = true) (hne : sp ≠ []) (hw : ∀ c ∈ w, Text.isSpace c = false)
    (hwne : w ≠ []) :
    Text.normalizeSpaces (s ++ (sp ++ w)) = Text.normalizeSpaces s ++ ' ' :: w := by
  have hwords : Text.words s ≠ [] := by
    intro hnil
    have hvisible := Text.flatten_words s
    rw [hnil] at hvisible
    exact hs hvisible.symm
  rw [Text.normalizeSpaces, Text.words_append_append hsp hne, Text.words_of_forall hwne hw,
    Text.intercalate_append hwords (by simp), List.intercalate_singleton]
  simp [Text.normalizeSpaces]

-- ---------------------------------------------------------------------------
-- The last space
-- ---------------------------------------------------------------------------

theorem splitLastSpace?_eq_none {s : Text} (h : ∀ c ∈ s, c ≠ ' ') (depth : Int) :
    splitLastSpace? depth s = none := by
  induction s generalizing depth with
  | nil => rfl
  | cons c cs ih =>
    have hc : c ≠ ' ' := h c (by simp)
    simp only [splitLastSpace?, ih fun d hd => h d (by simp [hd]), hc]
    rfl

theorem splitLastSpace?_cons {c : Char} {depth inner : Int} {t before after : Text}
    (hinner : (if c = '<' then depth + 1 else if c = '>' then depth - 1 else depth) = inner)
    (h : splitLastSpace? inner t = some (before, after)) :
    splitLastSpace? depth (c :: t) = some (c :: before, after) := by
  rw [splitLastSpace?, hinner, h]

/-- Balanced text leaves the last space where it is. -/
theorem splitLastSpace?_append {s : Text} (hs : Balanced s) {depth : Int} {t before after : Text}
    (h : splitLastSpace? depth t = some (before, after)) :
    splitLastSpace? depth (s ++ t) = some (s ++ before, after) := by
  induction hs generalizing depth t before with
  | nil => exact h
  | cons hopen hclose _ ih =>
    exact splitLastSpace?_cons (by rw [if_neg hopen, if_neg hclose]) (ih h)
  | @angled s u _ _ ihs ihu =>
    have hclose : splitLastSpace? (depth + 1) ('>' :: (u ++ t)) =
        some ('>' :: (u ++ before), after) := splitLastSpace?_cons (by simp) (ihu h)
    have hopen : splitLastSpace? depth ('<' :: (s ++ '>' :: (u ++ t))) =
        some ('<' :: (s ++ '>' :: (u ++ before)), after) :=
      splitLastSpace?_cons (by simp) (ihs hclose)
    simpa using hopen

theorem splitLastSpace?_append_space {s n : Text} (hs : Balanced s) (hn : ∀ c ∈ n, c ≠ ' ') :
    splitLastSpace? 0 (s ++ ' ' :: n) = some (s, n) := by
  have hname : splitLastSpace? 0 (' ' :: n) = some ([], n) := by
    rw [splitLastSpace?]
    simp [splitLastSpace?_eq_none hn]
  simpa using splitLastSpace?_append hs hname

theorem eq_append_of_splitLastSpace? {depth : Int} {s before after : Text}
    (h : splitLastSpace? depth s = some (before, after)) : s = before ++ ' ' :: after := by
  induction s generalizing depth before with
  | nil => cases h
  | cons c cs ih =>
    rw [splitLastSpace?] at h
    split at h
    · rename_i found after' hfound
      obtain ⟨rfl, rfl⟩ := Prod.mk.inj (Option.some.inj h)
      rw [ih hfound]
      rfl
    · split at h
      · rename_i hspace
        obtain ⟨rfl, rfl⟩ := Prod.mk.inj (Option.some.inj h)
        rw [of_decide_eq_true (Bool.and_eq_true_iff.mp hspace).1]
        rfl
      · cases h

-- ---------------------------------------------------------------------------
-- Pairs of square brackets
-- ---------------------------------------------------------------------------

theorem pairs_succ (n : Nat) : pairs (n + 1) = pairs n ++ ['[', ']'] := by
  simp [pairs, List.replicate_succ']

theorem closed_pairs (n : Nat) : Text.Closed ',' (pairs n) := by
  induction n with
  | zero => rfl
  | succ n ih =>
    have hpair : Text.Closed ',' ['[', ']'] := by decide
    simpa [pairs, List.replicate_succ] using hpair.append ih

theorem mem_pairs {n : Nat} {c : Char} (hc : c ∈ pairs n) : c = '[' ∨ c = ']' := by
  obtain ⟨pair, hpair, hc⟩ := List.mem_flatten.mp hc
  obtain rfl := List.eq_of_mem_replicate hpair
  simpa using hc

theorem isSpace_of_mem_pairs {n : Nat} : ∀ c ∈ pairs n, Text.isSpace c = false := by
  intro c hc
  rcases mem_pairs hc with rfl | rfl <;> decide

/-- The pairs at the end of a text are counted. -/
theorem splitPairs_append {s : Text} (hs : ∀ t, s ≠ t ++ ['[', ']']) (n : Nat) :
    splitPairs (s ++ pairs n).reverse = (n, s.reverse) := by
  induction n with
  | zero =>
    rw [pairs, List.replicate_zero, List.flatten_nil, List.append_nil]
    unfold splitPairs
    split
    · rename_i t heq
      exact absurd (List.reverse_eq_iff.mp heq) (by simpa using hs t.reverse)
    · rfl
  | succ n ih =>
    rw [pairs_succ, ← List.append_assoc, List.reverse_append]
    show splitPairs (']' :: '[' :: (s ++ pairs n).reverse) = _
    rw [splitPairs, ih]

theorem eq_append_of_splitPairs {s rest : Text} {n : Nat} (h : splitPairs s = (n, rest)) :
    s.reverse = rest.reverse ++ pairs n := by
  induction s using splitPairs.induct generalizing n with
  | case1 s m found hfound ih =>
    rw [splitPairs, hfound] at h
    obtain ⟨rfl, rfl⟩ := Prod.mk.inj h
    rw [pairs_succ, ← List.append_assoc, ← ih hfound]
    simp
  | case2 s hs =>
    rw [splitPairs] at h
    · obtain ⟨rfl, rfl⟩ := Prod.mk.inj h
      simp [pairs]
    · exact hs

-- ---------------------------------------------------------------------------
-- Parameters
-- ---------------------------------------------------------------------------

/-- Texts that may be a name in a parameter: no white space, brackets, commas, dots and question
marks, no annotation, and neither of two words. -/
structure IsSimpleName (n : Text) : Prop where
  ne_nil : n ≠ []
  chars : ∀ c ∈ n, isSegmentChar c = true ∧ c ≠ '@'
  ne_final : n ≠ "final".toList
  ne_this : n ≠ "this".toList

theorem isSegmentChar_of_isSpace {c : Char} (h : Text.isSpace c = true) :
    isSegmentChar c = false := by
  simp [isSegmentChar, h]

theorem IsSimpleName.isSpace {n : Text} (hn : IsSimpleName n) : ∀ c ∈ n, Text.isSpace c = false :=
  fun c hc => (plain_of_isSegmentChar (hn.chars c hc).1).1

theorem IsSimpleName.closed {n : Text} (hn : IsSimpleName n) : Text.Closed ',' n :=
  Text.closed_of_forall fun c hc => (plain_of_isSegmentChar (hn.chars c hc).1).2

/-- The dots of a parameter with any number of arguments, when they are attached to its name. -/
def attachedDots (attached : Bool) : Text := if attached then "...".toList else []

/-- The parameter of a type, dots included, and of a name with pairs of square brackets. -/
def typedParameter? (typeText named : Text) : Option Parameter :=
  let (typeText, isVarargs) :=
    match Text.beforeSuffix? "...".toList typeText with
    | some element => (Text.trimEnd element ++ "[]".toList, true)
    | none => (typeText, false)
  let (dims, reversed) := splitPairs named.reverse
  let name := reversed.reverse
  let typeText := typeText ++ pairs dims
  if name.isEmpty || name = "this".toList || typeText.isEmpty then none
  else some { name := String.ofList name, typeName := String.ofList typeText, isVarargs }

theorem parameter?_eq_of_split {s front last : Text}
    (h : splitLastSpace? 0 (parameterWords s) = some (front, last)) :
    parameter? s =
      match Text.afterPrefix? "...".toList last with
      | some named => typedParameter? (Text.compact front ++ "...".toList) named
      | none => typedParameter? (Text.compact front) last := by
  unfold parameter?
  rw [h]
  dsimp only
  cases Text.afterPrefix? "...".toList last <;> rfl

/-- A parameter is read from its words. -/
theorem parameter?_of_words {s front name : Text} {attached : Bool} {dims : Nat}
    (hwords : parameterWords s = front ++ ' ' :: (attachedDots attached ++ (name ++ pairs dims)))
    (hfront : Balanced front) (hne : Text.compact front ≠ []) (hname : IsSimpleName name) :
    parameter? s =
      match Text.beforeSuffix? "...".toList (Text.compact front ++ attachedDots attached) with
      | some element =>
        some { name := String.ofList name
               typeName := String.ofList (Text.trimEnd element ++ "[]".toList ++ pairs dims)
               isVarargs := true }
      | none =>
        some { name := String.ofList name
               typeName := String.ofList
                 (Text.compact front ++ attachedDots attached ++ pairs dims) } := by
  have hothers : ∀ c ∈ [' ', '.', ']'], isSegmentChar c = false := by decide
  have hchar : ∀ {c : Char}, c ∈ [' ', '.', ']'] → c ∉ name := fun hc hmem => by
    have h := (hname.chars _ hmem).1
    rw [hothers _ hc] at h
    cases h
  have hspace : ∀ c ∈ attachedDots attached ++ (name ++ pairs dims), c ≠ ' ' := by
    rintro c hc rfl
    simp only [attachedDots, pairs, List.mem_append] at hc
    rcases hc with hc | hc | hc
    · cases attached <;> simp at hc
    · exact hchar (by simp) hc
    · simp at hc
  have hpairs : splitPairs (name ++ pairs dims).reverse = (dims, name.reverse) := by
    refine splitPairs_append ?_ dims
    rintro t rfl
    exact hchar (c := ']') (by simp) (by simp)
  have hdots : Text.afterPrefix? "...".toList (attachedDots attached ++ (name ++ pairs dims)) =
      if attached then some (name ++ pairs dims) else none := by
    cases attached with
    | true => exact Text.afterPrefix?_eq_some_iff.mpr rfl
    | false =>
      refine Option.eq_none_iff_forall_ne_some.mpr fun t ht => ?_
      obtain ⟨c, cs, rfl⟩ := List.exists_cons_of_ne_nil hname.ne_nil
      have heq : (c :: cs) ++ pairs dims = "...".toList ++ t := Text.afterPrefix?_eq_some_iff.mp ht
      obtain rfl : c = '.' := (List.cons.inj heq).1
      exact hchar (c := '.') (by simp) (by simp)
  have hread : parameter? s =
      typedParameter? (Text.compact front ++ attachedDots attached) (name ++ pairs dims) := by
    rw [parameter?_eq_of_split (hwords ▸ splitLastSpace?_append_space hfront hspace), hdots]
    cases attached with
    | true => rfl
    | false =>
      simp only [Bool.false_eq_true, if_false, attachedDots, List.append_nil, List.nil_append]
  have hthis := hname.ne_this
  have hnil := hname.ne_nil
  rw [hread, typedParameter?, hpairs]
  cases Text.beforeSuffix? "...".toList (Text.compact front ++ attachedDots attached) <;> simp_all

/-- The parameters of a joined list are those of its pieces, trimmed. -/
theorem parameters_intercalate {pieces : List Text} (h : ∀ p ∈ pieces, Text.Closed ',' p) :
    parameters ([','].intercalate pieces) = pieces.filterMap fun p => parameter? (Text.trim p) := by
  have hnil : parameter? [] = none := rfl
  have hsp : ∀ c ∈ ([] : Text), Text.isSpace c = true := by simp
  rw [parameters, Text.splitTopLevel_of_closed Text.isSeparator_comma hsp h]
  induction pieces with
  | nil => rfl
  | cons p pieces ih =>
    have hrest := ih fun q hq => h q (by simp [hq])
    rw [List.map_cons, List.filter_cons, List.filterMap_cons]
    split
    · rw [List.filterMap_cons, hrest]
    · rename_i hempty
      have hblank : Text.trim p = [] := by simpa using hempty
      rw [hblank, hnil, hrest]

-- ---------------------------------------------------------------------------
-- What was read
-- ---------------------------------------------------------------------------

theorem visible_trimEnd (s : Text) : Text.visible (Text.trimEnd s) = Text.visible s := by
  have hsplit : s = Text.trimEnd s ++ (s.reverse.takeWhile Text.isSpace).reverse := by
    rw [Text.trimEnd, ← List.reverse_append, List.takeWhile_append_dropWhile, List.reverse_reverse]
  have hspace : Text.visible (s.reverse.takeWhile Text.isSpace).reverse = [] :=
    Text.visible_of_isSpace fun c hc => List.mem_takeWhile_imp (List.mem_reverse.mp hc)
  conv_rhs => rw [hsplit, Text.visible_append, hspace, List.append_nil]

theorem visible_attachedDots (attached : Bool) :
    Text.visible (attachedDots attached) = attachedDots attached := by
  cases attached <;> rfl

/-- Visible characters other than those of dots and square brackets. -/
def isCounted (c : Char) : Bool := !Text.isSpace c && !(['.', '[', ']'].contains c)

section Counting

variable {x : Char} (hx : isCounted x = true)

include hx

theorem count_eq_of_visible {s t : Text} (h : Text.visible s = Text.visible t) :
    s.count x = t.count x := by
  have hvisible : ∀ u : Text, (Text.visible u).count x = u.count x := fun u =>
    List.count_filter (Bool.and_eq_true_iff.mp hx).1
  rw [← hvisible s, ← hvisible t, h]

theorem count_compact (s : Text) : (Text.compact s).count x = s.count x :=
  count_eq_of_visible hx (Text.visible_compact s)

theorem count_symbols {s : Text} (hs : ∀ c ∈ s, c ∈ ['.', '[', ']']) : s.count x = 0 := by
  refine List.count_eq_zero.mpr fun hmem => ?_
  have hcounted := (Bool.and_eq_true_iff.mp hx).2
  rw [Bool.not_eq_true', List.contains_eq_mem, decide_eq_false_iff_not] at hcounted
  exact hcounted (hs x hmem)

theorem count_pairs_eq_zero (n : Nat) : (pairs n).count x = 0 := by
  refine count_symbols hx fun c hc => ?_
  rcases mem_pairs hc with rfl | rfl <;> simp

theorem count_attachedDots (attached : Bool) : (attachedDots attached).count x = 0 := by
  refine count_symbols hx fun c hc => ?_
  cases attached with
  | true =>
    obtain rfl : c = '.' := by simpa [attachedDots] using hc
    simp
  | false => cases hc

end Counting

theorem exists_of_typedParameter? {typeText named : Text} {p : Parameter}
    (h : typedParameter? typeText named = some p) :
    ∃ dims, named = p.name.toList ++ pairs dims ∧
      ∀ x, isCounted x = true → p.typeName.toList.count x = typeText.count x := by
  obtain ⟨dims, reversed, hpairs⟩ : ∃ dims reversed, splitPairs named.reverse = (dims, reversed) :=
    ⟨_, _, rfl⟩
  have hnamed := eq_append_of_splitPairs hpairs
  rw [List.reverse_reverse] at hnamed
  unfold typedParameter? at h
  rw [hpairs] at h
  cases hsuffix : Text.beforeSuffix? "...".toList typeText with
  | some element =>
    simp only [hsuffix] at h
    split at h
    · cases h
    · obtain rfl := Option.some.inj h
      refine ⟨dims, by simp [hnamed], fun x hx => ?_⟩
      have hbrackets : "[]".toList.count x = 0 := count_symbols hx (by decide)
      have hdots : "...".toList.count x = 0 := count_symbols hx (by decide)
      simp only [Text.beforeSuffix?_eq_some_iff.mp hsuffix, String.toList_ofList, List.count_append,
        count_eq_of_visible hx (visible_trimEnd element), count_pairs_eq_zero hx, hbrackets, hdots]
  | none =>
    simp only [hsuffix] at h
    split at h
    · cases h
    · obtain rfl := Option.some.inj h
      refine ⟨dims, by simp [hnamed], fun x hx => ?_⟩
      simp only [String.toList_ofList, List.count_append, count_pairs_eq_zero hx, Nat.add_zero]

/-- Where a parameter is read, its name and what is attached to it stand after the last space
outside angle brackets. Its type has all other visible characters but those of dots and square
brackets. -/
theorem exists_of_parameter? {s : Text} {p : Parameter} (h : parameter? s = some p) :
    ∃ front attached dims,
      parameterWords s = front ++ ' ' :: (attachedDots attached ++ (p.name.toList ++ pairs dims)) ∧
      ∀ x, isCounted x = true → p.typeName.toList.count x = front.count x := by
  cases hsplit : splitLastSpace? 0 (parameterWords s) with
  | none =>
    simp only [parameter?, hsplit] at h
    cases h
  | some found =>
    obtain ⟨front, last⟩ := found
    rw [parameter?_eq_of_split hsplit] at h
    rw [eq_append_of_splitLastSpace? hsplit]
    cases hafter : Text.afterPrefix? "...".toList last with
    | some named =>
      rw [hafter] at h
      obtain ⟨dims, rfl, hcount⟩ := exists_of_typedParameter? h
      refine ⟨front, true, dims, by rw [Text.afterPrefix?_eq_some_iff.mp hafter]; rfl,
        fun x hx => ?_⟩
      rw [hcount x hx, List.count_append, count_compact hx]
      exact congrArg _ (count_attachedDots hx true)
    | none =>
      rw [hafter] at h
      obtain ⟨dims, rfl, hcount⟩ := exists_of_typedParameter? h
      exact ⟨front, false, dims, rfl, fun x hx => by rw [hcount x hx, count_compact hx]⟩

/-- No visible character of the words is lost, and none is added, but for dots and square
brackets. -/
theorem count_parameter? {s : Text} {p : Parameter} (h : parameter? s = some p) {x : Char}
    (hx : isCounted x = true) :
    p.typeName.toList.count x + p.name.toList.count x = (parameterWords s).count x := by
  obtain ⟨front, attached, dims, hwords, hcount⟩ := exists_of_parameter? h
  have hspace : ' ' ≠ x := by
    rintro rfl
    exact absurd hx (by decide)
  rw [hwords, hcount x hx]
  simp only [List.count_append, List.count_cons_of_ne hspace, count_attachedDots hx,
    count_pairs_eq_zero hx,
    Nat.zero_add, Nat.add_zero]

end Typings.Source
