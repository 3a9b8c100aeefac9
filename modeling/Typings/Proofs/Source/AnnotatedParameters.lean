import Typings.Proofs.Source.ParameterParts

/-!
# Parameters with annotations

Annotations and the word `final` may stand before the type of a parameter. They are left out when
the names of the annotations consist of word characters and dots; then name, type, dimensions and
dots of the parameter are read as they are written. A name with any other character ends early, and
what is left of it gets into the type. Main statement: `parameters_annotated_iff`.
-/

namespace Typings.Source

open Declaration Pattern

-- ---------------------------------------------------------------------------
-- Modifiers
-- ---------------------------------------------------------------------------

/-- What may stand before the type of a parameter. -/
inductive ParameterModifier where
  | final
  | annotationUse (name : Text) (arguments : Option Text)

namespace ParameterModifier

/-- The arguments of an annotation in parentheses. -/
def printArguments : Option Text → Text
  | some arguments => '(' :: (arguments ++ [')'])
  | none => []

def print : ParameterModifier → Text
  | final => "final".toList
  | annotationUse name arguments => '@' :: (name ++ printArguments arguments)

/-- Names are dotted, and arguments are free of parentheses and close their other brackets. -/
inductive WellFormed : ParameterModifier → Prop where
  | final : WellFormed final
  | annotationUse {name : Text} {arguments : Option Text} (hne : name ≠ [])
      (hname : ∀ c ∈ name, isSegmentChar c = true ∧ c ≠ '@' ∨ c = '.')
      (hplain : ∀ a ∈ arguments, ∀ c ∈ a, c ≠ '(' ∧ c ≠ ')')
      (hclosed : Text.Closed ',' (printArguments arguments)) :
      WellFormed (annotationUse name arguments)

/-- Whether the name of an annotation consists of word characters and dots. -/
def IsPlain : ParameterModifier → Prop
  | final => True
  | annotationUse name _ => ∀ c ∈ name, Text.isWordChar c = true ∨ c = '.'

/-- What is left of a modifier with a plain name, and of the white space after it. -/
def kept (gap : Text) : ParameterModifier → Text
  | final => "final".toList ++ gap
  | annotationUse _ _ => []

end ParameterModifier

/-- Where the dots of a parameter stand that takes any number of arguments. -/
inductive Dots where
  | absent
  | afterType
  | beforeName
deriving DecidableEq

/-- A parameter as it is written, with white space around it, after its modifiers and before
its name. -/
structure AnnotatedParameter where
  before : Text := []
  modifiers : List (ParameterModifier × Text) := []
  type : Text
  dots : Dots := .absent
  gap : Text := [' ']
  name : Text
  dims : Nat := 0
  after : Text := []

namespace AnnotatedParameter

def printModifiers (modifiers : List (ParameterModifier × Text)) : Text :=
  modifiers.flatMap fun m => m.1.print ++ m.2

/-- Modifiers are well-formed and followed by white space each. -/
def AreSpaced (modifiers : List (ParameterModifier × Text)) : Prop :=
  ∀ m ∈ modifiers, m.1.WellFormed ∧ (∀ c ∈ m.2, Text.isSpace c = true) ∧ m.2 ≠ []

/-- The type and the dots after it. -/
def front (p : AnnotatedParameter) : Text := p.type ++ attachedDots (p.dots = .afterType)

/-- The name with what is attached to it. -/
def named (p : AnnotatedParameter) : Text :=
  attachedDots (p.dots = .beforeName) ++ (p.name ++ pairs p.dims)

/-- What stands after the modifiers. -/
def declared (p : AnnotatedParameter) : Text := p.front ++ (p.gap ++ p.named)

def core (p : AnnotatedParameter) : Text := printModifiers p.modifiers ++ p.declared

def print (p : AnnotatedParameter) : Text := p.before ++ (p.core ++ p.after)

/-- The parameter that is written. -/
def parameter (p : AnnotatedParameter) : Parameter where
  name := String.ofList p.name
  typeName := String.ofList (p.type ++ pairs (if p.dots = .absent then 0 else 1) ++ pairs p.dims)
  isVarargs := p.dots ≠ .absent

structure WellFormed (p : AnnotatedParameter) : Prop where
  before : ∀ c ∈ p.before, Text.isSpace c = true
  modifiers : AreSpaced p.modifiers
  ne_nil : p.type ≠ []
  compact : Text.compact p.type = p.type
  balanced : Balanced p.type
  closed : Text.Closed ',' p.type
  chars : ∀ c ∈ p.type, c ≠ '(' ∧ c ≠ ')' ∧ c ≠ '@'
  final : "final".toList ∉ Text.words p.type
  dots : ∀ t, p.type ≠ t ++ "...".toList
  gap : (∀ c ∈ p.gap, Text.isSpace c = true) ∧ p.gap ≠ []
  name : IsSimpleName p.name
  after : ∀ c ∈ p.after, Text.isSpace c = true

/-- Whether the names of the annotations consist of word characters and dots. -/
def IsPlain (p : AnnotatedParameter) : Prop := ∀ m ∈ p.modifiers, m.1.IsPlain

end AnnotatedParameter

-- ---------------------------------------------------------------------------
-- Removed annotations
-- ---------------------------------------------------------------------------

/-- Arguments without parentheses are taken up to the closing one. -/
theorem takes_parenthesized {s : Text} (hs : ∀ c ∈ s, c ≠ '(' ∧ c ≠ ')') {b : Option Char}
    {pos : Nat} {t : Text} :
    parenthesized.Takes b pos s (')' :: t) [] := by
  induction s generalizing b pos with
  | nil =>
    refine takes_star_of_fails ?_
    have hlit : ¬"(".toList <+: ')' :: t := by simp
    exact ((fails_char (by simp)).or ((fails_lit hlit).seq.seq))
  | cons c s ih =>
    have hc := hs c (by simp)
    have hround : (except "()" ||| .lit "(" ++ .star (except "()") ++ .lit ")").Takes b pos [c]
        (s ++ ')' :: t) [] := (takes_char (by simp [hc])).orLeft
    exact hround.round (by simp) (ih fun d hd => hs d (by simp [hd]))

/-- An annotation with a plain name is taken with the white space after it. -/
theorem takes_annotationUse {name : Text} {arguments : Option Text} {gap t : Text} (hne : name ≠ [])
    (hname : ∀ c ∈ name, Text.isWordChar c = true ∨ c = '.')
    (hplain : ∀ a ∈ arguments, ∀ c ∈ a, c ≠ '(' ∧ c ≠ ')')
    (hgap : (∀ c ∈ gap, Text.isSpace c = true) ∧ gap ≠ [])
    (ht : ∀ c ∈ t.head?, Text.isSpace c = false ∧ c ≠ '(') (b : Option Char) (pos : Nat) :
    annotationUse.Takes b pos
      ((ParameterModifier.annotationUse name arguments).print ++ gap) t [] := by
  obtain ⟨sp, gap', hgap'⟩ := List.exists_cons_of_ne_nil hgap.2
  have hsp : Text.isSpace sp = true := hgap.1 sp (by simp [hgap'])
  have hgapTaken : ∀ b pos, spaces.Takes b pos gap t [] := fun b pos =>
    takes_star_char hgap.1 fun c hc => (ht c hc).1
  have hspaceDotted : (Text.isWordChar sp || decide (sp = '.')) = false := by
    rw [Text.isWordChar_of_isSpace hsp, Bool.false_or, decide_eq_false_iff_not]
    rintro rfl
    exact absurd hsp (by decide)
  have hopenDotted : (Text.isWordChar '(' || decide ('(' = '.')) = false := by decide
  have hnameTaken : ∀ b pos, (Pattern.plus dotted).Takes b pos name
      (ParameterModifier.printArguments arguments ++ (gap ++ t)) [] := fun b pos =>
    takes_plus_char hne (fun c hc => by simpa using hname c hc) fun c hc => by
      cases arguments with
      | none =>
        obtain rfl : sp = c := by simpa [ParameterModifier.printArguments, hgap'] using hc
        exact hspaceDotted
      | some a =>
        obtain rfl : '(' = c := by simpa [ParameterModifier.printArguments] using hc
        exact hopenDotted
  have hargumentsTaken : ∀ b pos,
      (Pattern.opt (spaces ++ .lit "(" ++ parenthesized ++ .lit ")")).Takes b pos
      (ParameterModifier.printArguments arguments) (gap ++ t) [] := fun b pos => by
    cases arguments with
    | none =>
      have hparen : (spaces ++ Pattern.lit "(").Fails b (gap ++ t) := by
        refine fails_spaces_seq hgap.1 (fun c hc => (ht c hc).1) fun _ v hv => fails_lit ?_
        rintro ⟨u, hu⟩
        exact head_append_of_isSpace (by decide) hv (fun c hc => (ht c hc).2) '('
          (by simp [← hu]) rfl
      exact takes_opt_of_fails hparen.seq.seq
    | some a =>
      have hnone : ∀ b pos, spaces.Takes b pos []
          ("(".toList ++ (a ++ (")".toList ++ (gap ++ t)))) [] :=
        fun b pos => takes_star_char (by simp) fun c hc => by
          obtain rfl : '(' = c := by simpa using hc
          decide
      have hparens := (((hnone b pos).seq (takes_lit "(")).seq
        (takes_parenthesized (hplain a rfl))).seq
        (takes_lit (t := gap ++ t) ")")
      exact hparens.opt.congr (by simp [ParameterModifier.printArguments]) (by simp)
  have hat : ∀ b pos, (Pattern.lit "@" : Shape).Takes b pos "@".toList
      (name ++ (ParameterModifier.printArguments arguments ++ (gap ++ t))) [] :=
        fun b pos => takes_lit "@"
  have htaken := (((hat b pos).seq (hnameTaken _ _)).seq (hargumentsTaken _ _)).seq (hgapTaken _ _)
  exact htaken.congr (by simp [ParameterModifier.print]) (by simp)

/-- What an annotation can consume: its name, arguments that end with a parenthesis, and
white space. -/
theorem exists_of_mem_annotationUse {w : Text} (hw : w ∈ annotationUse.language) :
    ∃ name arguments sp, w = ('@' :: (name ++ arguments)) ++ sp ∧
      (∀ c ∈ name, Text.isWordChar c = true ∨ c = '.') ∧
      (∀ c ∈ (arguments ++ sp).head?, Text.isSpace c = true ∨ c = '(') ∧
      (∀ c ∈ arguments.getLast?, c = ')') ∧ ∀ c ∈ sp, Text.isSpace c = true := by
  obtain ⟨used, hused, sp, hsp, rfl⟩ := mem_language_seq.mp hw
  obtain ⟨named, hnamed, arguments, harguments, rfl⟩ := mem_language_seq.mp hused
  obtain ⟨sign, hsign, name, hname, rfl⟩ := mem_language_seq.mp hnamed
  obtain rfl := mem_language_lit.mp hsign
  have hblank := mem_language_star_char.mp hsp
  refine ⟨name, arguments, sp, by simp, fun c hc => by
    simpa using (mem_language_plus_char.mp hname).2 c hc, ?_, ?_, hblank⟩
  all_goals
    rcases harguments with harguments | rfl
    rotate_left
  · exact fun c hc => .inl (hblank c (List.mem_of_mem_head? hc))
  · obtain ⟨inner, hinner, close, hclose, rfl⟩ := mem_language_seq.mp harguments
    obtain ⟨opened, hopened, a, _, rfl⟩ := mem_language_seq.mp hinner
    obtain ⟨sp', hsp', opening, hopening, rfl⟩ := mem_language_seq.mp hopened
    obtain rfl := mem_language_lit.mp hopening
    intro c hc
    cases sp' with
    | nil => exact .inr (by simpa using hc.symm)
    | cons d sp' =>
      obtain rfl : d = c := by simpa using hc
      exact .inl (mem_language_star_char.mp hsp' d (by simp))
  · simp
  · obtain ⟨inner, _, close, hclose, rfl⟩ := mem_language_seq.mp harguments
    obtain rfl := mem_language_lit.mp hclose
    simp

/-- Behind white space an annotation goes on with its arguments only. -/
theorem paren_of_mem_annotationUse {u v : Text} {c d : Char}
    (hw : u ++ c :: d :: v ∈ annotationUse.language)
    (hc : Text.isSpace c = true) (hd : Text.isSpace d = false) : ')' ∈ d :: v := by
  obtain ⟨name, arguments, sp, heq, hname, _, hlast, hsp⟩ := exists_of_mem_annotationUse hw
  have hcut : ('@' :: (name ++ arguments)) ++ sp = (u ++ [c]) ++ d :: v := by simp [← heq]
  rcases List.append_eq_append_iff.mp hcut with ⟨m, _, hm⟩ | ⟨m, hm, hrest⟩
  · rw [hsp d (by simp [hm])] at hd
    cases hd
  · have hname : ∀ e ∈ '@' :: name, e ≠ c := by
      rintro e he rfl
      rcases List.mem_cons.mp he with rfl | he
      · exact absurd hc (by decide)
      · rcases hname e he with h | rfl
        · rw [Text.isWordChar_of_isSpace hc] at h
          cases h
        · exact absurd hc (by decide)
    have hne : arguments ≠ [] := by
      rintro rfl
      rw [List.append_nil] at hm
      exact hname c (hm ▸ by simp) rfl
    obtain ⟨a, e, rfl⟩ := (List.eq_nil_or_concat arguments).resolve_left hne
    obtain rfl : e = ')' := hlast e (by simp)
    have hbody : ('@' :: (name ++ a)) ++ [')'] = (u ++ [c]) ++ m := by simpa using hm
    rcases List.eq_nil_or_concat m with rfl | ⟨m, e, rfl⟩
    · rw [List.append_nil] at hbody
      obtain rfl : ')' = c := by simpa using (List.append_inj' hbody rfl).2
      exact absurd hc (by decide)
    · rw [List.concat_eq_append, ← List.append_assoc] at hbody
      obtain rfl : ')' = e := by simpa using (List.append_inj' hbody rfl).2
      simp [hrest]

/-- An annotation ends before a character that its name cannot have. -/
theorem byteLength_le_of_mem_annotationUse {name rest w t : Text} {x : Char}
    (hname : ∀ c ∈ name, Text.isWordChar c = true ∨ c = '.') (hx : isSegmentChar x = true)
    (hword : Text.isWordChar x = false) (heq : '@' :: (name ++ x :: rest) = w ++ t)
    (hw : w ∈ annotationUse.language) : Text.byteLength w ≤ Text.byteLength ('@' :: name) := by
  obtain ⟨name', arguments, sp, rfl, hname', hhead, _, _⟩ := exists_of_mem_annotationUse hw
  have hsplit : name ++ x :: rest = name' ++ ((arguments ++ sp) ++ t) := by simpa using heq
  have hbreak : ∀ c, c = x ∨ c ∈ name → ¬(Text.isSpace c = true ∨ c = '(') := by
    have hopen : isSegmentChar '(' = false ∧ Text.isWordChar '(' = false := by decide
    rintro c (rfl | hc) (hspace | rfl)
    · simp [isSegmentChar_of_isSpace hspace] at hx
    · simp [hopen] at hx
    · rcases hname c hc with h | rfl
      · simp [Text.isWordChar_of_isSpace hspace] at h
      · exact absurd hspace (by decide)
    · rcases hname '(' hc with h | h
      · simp [hopen] at h
      · simp at h
  rcases List.append_eq_append_iff.mp hsplit with ⟨m, rfl, hm⟩ | ⟨m, rfl, hm⟩
  · cases m with
    | nil =>
      cases hcut : arguments ++ sp with
      | nil => simp [List.append_eq_nil_iff.mp hcut]
      | cons c cs =>
        rw [hcut] at hm hhead
        obtain rfl : x = c := (List.cons.inj hm).1
        exact absurd (hhead x rfl) (hbreak x (.inl rfl))
    | cons c m =>
      obtain rfl : x = c := (List.cons.inj hm).1
      rcases hname' x (by simp) with h | rfl
      · rw [hword] at h
        cases h
      · exact absurd hx (by decide)
  · cases hcut : arguments ++ sp with
    | nil => simp [List.append_eq_nil_iff.mp hcut]
    | cons c cs =>
      rw [hcut] at hm hhead
      have hc : c = x ∨ c ∈ name' ++ m := by
        cases m with
        | nil => exact .inl (List.cons.inj hm).1
        | cons d m => exact .inr (by simp [(List.cons.inj hm).1])
      exact absurd (hhead c rfl) (hbreak c hc)

/-- That character stays. -/
theorem dropWhere_spansFrom_name {name : Text} {x : Char}
    (hname : ∀ c ∈ name, Text.isWordChar c = true ∨ c = '.') (hx : isSegmentChar x = true ∧ x ≠ '@')
    (hword : Text.isWordChar x = false) (rest : Text) (b : Option Char) (pos : Nat) :
    Text.dropWhere (Span.covers (annotationUse.spansFrom b pos (('@' :: name) ++ ([x] ++ rest))))
      (pos + Text.byteLength ('@' :: name)) [x] = [x] := by
  refine Pattern.dropWhere_spansFrom fun v w y heq hw => ?_
  cases v with
  | nil => exact .inl (byteLength_le_of_mem_annotationUse hname hx.1 hword (by simpa using heq) hw)
  | cons e v =>
    obtain ⟨w', rfl⟩ : ∃ w', w = '@' :: w' := by
      obtain ⟨_, _, _, rfl, _⟩ := exists_of_mem_annotationUse hw
      exact ⟨_, rfl⟩
    have hsign : '@' ∉ name := fun h => (hname '@' h).elim (by decide) (by decide)
    obtain ⟨rfl, hrest⟩ : '@' = e ∧ name ++ x :: rest = v ++ '@' :: (w' ++ y) := by simpa using heq
    rcases List.append_eq_append_iff.mp hrest with ⟨m, rfl, hm⟩ | ⟨m, rfl, hm⟩
    · cases m with
      | nil => exact absurd (List.cons.inj hm).1 hx.2
      | cons d m =>
        obtain rfl : x = d := (List.cons.inj hm).1
        exact .inr (by simp)
    · cases m with
      | nil => exact absurd (List.cons.inj hm).1.symm hx.2
      | cons d m =>
        obtain rfl : '@' = d := (List.cons.inj hm).1
        exact absurd (by simp) hsign

/-- The end of a text stays where white space stands before it, and no annotation and no
parenthesis in it. -/
theorem dropWhere_spansFrom_end {u t : Text} {c : Char} (hc : Text.isSpace c = true)
    (ht : ∀ d ∈ t.head?, Text.isSpace d = false) (hchars : ∀ d ∈ t, d ≠ '@' ∧ d ≠ ')')
    (b : Option Char)
    (pos : Nat) :
    Text.dropWhere (Span.covers (annotationUse.spansFrom b pos ((u ++ [c]) ++ t)))
      (pos + Text.byteLength (u ++ [c])) t = t := by
  have hparts : (u ++ [c]) ++ t = (u ++ [c]) ++ (t ++ []) := by simp
  rw [hparts]
  refine Pattern.dropWhere_spansFrom fun v w x heq hw => ?_
  have hmem : '@' ∈ w := by
    obtain ⟨name, arguments, sp, rfl, _⟩ := exists_of_mem_annotationUse hw
    simp
  rw [List.append_nil, ← List.append_assoc] at heq
  rcases List.append_eq_append_iff.mp heq with ⟨m, hm, hrest⟩ | ⟨m, hm, _⟩
  · -- an annotation that reaches into the end starts in it or crosses the white space
    have hsign : '@' ∉ m := fun h => (hchars '@' (by simp [hrest, h])).1 rfl
    rcases List.append_eq_append_iff.mp hm with ⟨k, hk, hcross⟩ | ⟨k, _, hinside⟩
    · cases m with
      | nil =>
        rw [hm]
        exact .inl (by simp)
      | cons d m =>
        rcases List.eq_nil_or_concat k with rfl | ⟨k, e, rfl⟩
        · rw [hcross] at hmem
          exact absurd hmem hsign
        · rw [List.concat_eq_append, ← List.append_assoc] at hk
          obtain rfl : c = e := by simpa using (List.append_inj' hk rfl).2
          rw [hcross, List.concat_eq_append, List.append_assoc, List.singleton_append] at hw
          have hparen := paren_of_mem_annotationUse hw hc (ht d (by simp [hrest]))
          exact absurd rfl (hchars ')' (by rw [hrest]; exact List.mem_append_left x hparen)).2
    · exact absurd (by simp [hinside, hmem]) hsign
  · left
    rw [hm]
    simp

-- ---------------------------------------------------------------------------
-- What is left of modifiers
-- ---------------------------------------------------------------------------

namespace AnnotatedParameter

variable {modifiers : List (ParameterModifier × Text)} {t : Text}

/-- The words `final` and their white space. -/
def keptModifiers (modifiers : List (ParameterModifier × Text)) : Text :=
  modifiers.flatMap fun m => m.1.kept m.2

/-- Modifiers start with a visible character. -/
theorem head_printModifiers (ht : ∀ c ∈ t.head?, Text.isSpace c = false ∧ c ≠ '(') :
    ∀ c ∈ (printModifiers modifiers ++ t).head?, Text.isSpace c = false ∧ c ≠ '(' := by
  cases modifiers with
  | nil => exact ht
  | cons m ms =>
    intro c hc
    cases hm : m.1 with
    | final =>
      obtain rfl : 'f' = c := by simpa [printModifiers, hm, ParameterModifier.print] using hc
      decide
    | annotationUse name arguments =>
      obtain rfl : '@' = c := by simpa [printModifiers, hm, ParameterModifier.print] using hc
      decide

/-- White space stands last in modifiers. -/
theorem exists_printModifiers_eq_append (hspaced : AreSpaced modifiers) (hne : modifiers ≠ []) :
    ∃ u c, printModifiers modifiers = u ++ [c] ∧ Text.isSpace c = true := by
  obtain ⟨ms, m, rfl⟩ := (List.eq_nil_or_concat modifiers).resolve_left hne
  obtain ⟨_, hgap, hgapNe⟩ := hspaced m (by simp)
  obtain ⟨gap, c, hc⟩ := (List.eq_nil_or_concat m.2).resolve_left hgapNe
  exact ⟨printModifiers ms ++ (m.1.print ++ gap), c, by simp [printModifiers, hc],
    hgap c (by simp [hc])⟩

/-- An annotation with a plain name goes, with the white space after it, and `final` stays. -/
theorem removeFrom_modifier {m : ParameterModifier × Text} {ms : List (ParameterModifier × Text)}
    (hspaced : AreSpaced (m :: ms)) (hplain : m.1.IsPlain)
    (ht : ∀ c ∈ t.head?, Text.isSpace c = false ∧ c ≠ '(') (b : Option Char) (pos : Nat) :
    ∃ b' pos', annotationUse.removeFrom b pos (printModifiers (m :: ms) ++ t) =
      m.1.kept m.2 ++ annotationUse.removeFrom b' pos' (printModifiers ms ++ t) := by
  obtain ⟨modifier, gap⟩ := m
  obtain ⟨hwf, hgap, hne⟩ := hspaced _ List.mem_cons_self
  have hprint : printModifiers ((modifier, gap) :: ms) ++ t =
      (modifier.print ++ gap) ++ (printModifiers ms ++ t) := by simp [printModifiers]
  rw [hprint]
  cases hwf with
  | final =>
    refine ⟨_, _, removeFrom_annotationUse_append (fun c hc => ?_) b pos _⟩
    rcases List.mem_append.mp hc with hc | hc
    · have hfinal : ∀ d ∈ "final".toList, d ≠ '@' := by decide
      exact hfinal c hc
    · rintro rfl
      exact absurd (hgap '@' hc) (by decide)
  | annotationUse hname _ harguments _ =>
    have hhead : ∀ c ∈ (printModifiers ms ++ t).head?, Text.isSpace c = false ∧ c ≠ '(' :=
      head_printModifiers ht
    have htaken := takes_annotationUse hname hplain harguments ⟨hgap, hne⟩ hhead b pos
    exact ⟨_, _, htaken.removeFrom_eq (by simp [hne])⟩

/-- Annotations with plain names go. -/
theorem removeFrom_printModifiers (hspaced : AreSpaced modifiers)
    (hplain : ∀ m ∈ modifiers, m.1.IsPlain)
    (ht : ∀ c ∈ t.head?, Text.isSpace c = false ∧ c ≠ '(') (hat : ∀ c ∈ t, c ≠ '@')
    (b : Option Char)
    (pos : Nat) :
    annotationUse.removeFrom b pos (printModifiers modifiers ++ t) =
      keptModifiers modifiers ++ t := by
  induction modifiers generalizing b pos with
  | nil =>
    have hstays := removeFrom_annotationUse_append hat b pos []
    rw [List.append_nil] at hstays
    exact hstays.trans (List.append_nil t)
  | cons m ms ih =>
    obtain ⟨b', pos', hrest⟩ := removeFrom_modifier hspaced (hplain m (by simp)) ht b pos
    rw [hrest, ih (fun n hn => hspaced n (by simp [hn])) fun n hn => hplain n (by simp [hn])]
    simp [keptModifiers]

/-- The first character that a plain name cannot have. -/
theorem exists_first_of_not_isPlain {name : Text} {arguments : Option Text}
    (h : ¬(ParameterModifier.annotationUse name arguments).IsPlain) :
    ∃ good x rest, name = good ++ x :: rest ∧ (∀ c ∈ good, Text.isWordChar c = true ∨ c = '.') ∧
      ¬(Text.isWordChar x = true ∨ x = '.') := by
  simp only [ParameterModifier.IsPlain, not_forall] at h
  obtain ⟨c, hc, hbad⟩ := h
  have hfind : (name.find? fun c => !decide (Text.isWordChar c = true ∨ c = '.')).isSome := by
    rw [List.find?_isSome]
    exact ⟨c, hc, by simpa using hbad⟩
  obtain ⟨x, hx⟩ := Option.isSome_iff_exists.mp hfind
  obtain ⟨hbad, good, rest, rfl, hgood⟩ := List.find?_eq_some_iff_append.mp hx
  exact ⟨good, x, rest, rfl, fun c hc => by simpa using hgood c hc, by simpa using hbad⟩

theorem isCounted_of_isSegmentChar {x : Char} (h : isSegmentChar x = true) :
    isCounted x = true := by
  have hbreaks : ∀ c ∈ ['.', '[', ']'], isSegmentChar c = false := by decide
  have hspace : Text.isSpace x = false := (plain_of_isSegmentChar h).1
  have hnot : x ∉ ['.', '[', ']'] := fun hmem => by simp [hbreaks x hmem] at h
  simpa [isCounted, hspace] using hnot

/-- A character that no name of an annotation can have stays, and so does everything behind the
modifiers. -/
theorem count_removeFrom (hspaced : AreSpaced modifiers) (hplain : ¬∀ m ∈ modifiers, m.1.IsPlain)
    (ht : ∀ c ∈ t.head?, Text.isSpace c = false ∧ c ≠ '(') (hchars : ∀ c ∈ t, c ≠ '@' ∧ c ≠ ')') :
    ∃ x, isCounted x = true ∧ x ∉ "final".toList ∧ ∀ b pos,
      t.count x < (annotationUse.removeFrom b pos (printModifiers modifiers ++ t)).count x := by
  induction modifiers with
  | nil => simp at hplain
  | cons m ms ih =>
    by_cases hm : m.1.IsPlain
    · have hrest : ¬∀ n ∈ ms, n.1.IsPlain := fun h => hplain fun n hn => by
        rcases List.mem_cons.mp hn with rfl | hn
        · exact hm
        · exact h n hn
      obtain ⟨x, hx, hfinal, hcount⟩ := ih (fun n hn => hspaced n (by simp [hn])) hrest
      refine ⟨x, hx, hfinal, fun b pos => ?_⟩
      obtain ⟨b', pos', heq⟩ := removeFrom_modifier hspaced hm ht b pos
      rw [heq, List.count_append]
      have := hcount b' pos'
      omega
    · obtain ⟨modifier, gap⟩ := m
      obtain ⟨hwf, hgap, hne⟩ := hspaced _ List.mem_cons_self
      cases hwf with
      | final => exact absurd trivial hm
      | @annotationUse name arguments _ hname _ _ =>
        obtain ⟨good, x, rest, rfl, hgood, hx⟩ := exists_first_of_not_isPlain hm
        have hsegment : isSegmentChar x = true ∧ x ≠ '@' :=
          (hname x (by simp)).resolve_right fun h => by simp [h] at hx
        have hword : Text.isWordChar x = false := by simpa using fun h => hx (.inl h)
        refine ⟨x, isCounted_of_isSegmentChar hsegment.1, fun h => ?_, fun b pos => ?_⟩
        · have hletters : ∀ c ∈ "final".toList, Text.isWordChar c = true := by decide
          simp [hletters x h] at hword
        · obtain ⟨u, c, hu, hc⟩ := exists_printModifiers_eq_append hspaced (List.cons_ne_nil _ _)
          obtain ⟨mid, hmid⟩ : ∃ mid, ('@' :: good) ++ ([x] ++ mid) = u ++ [c] := by
            rw [← hu]
            exact ⟨rest ++ (ParameterModifier.printArguments arguments ++
              (gap ++ printModifiers ms)),
              by simp [printModifiers, ParameterModifier.print]⟩
          have hname := dropWhere_spansFrom_name hgood hsegment hword (mid ++ t) b pos
          have hend := dropWhere_spansFrom_end (u := u) hc (fun d hd => (ht d hd).1) hchars b pos
          have hwhole : ('@' :: good) ++ ([x] ++ (mid ++ t)) = (u ++ [c]) ++ t := by simp [← hmid]
          rw [hwhole] at hname
          rw [hu, Pattern.removeFrom, Text.dropWhere_append, hend, ← hmid, Text.dropWhere_append,
            Text.dropWhere_append, hmid, hname]
          simp only [List.count_append, List.count_singleton_self]
          omega

end AnnotatedParameter

-- ---------------------------------------------------------------------------
-- Words
-- ---------------------------------------------------------------------------

namespace AnnotatedParameter

variable {modifiers : List (ParameterModifier × Text)} {p : AnnotatedParameter}

/-- No word `final` is left. -/
theorem filter_words_keptModifiers (hspaced : AreSpaced modifiers) (t : Text) :
    (Text.words (keptModifiers modifiers ++ t)).filter (· ≠ "final".toList) =
      (Text.words t).filter (· ≠ "final".toList) := by
  induction modifiers with
  | nil => rfl
  | cons m ms ih =>
    obtain ⟨modifier, gap⟩ := m
    obtain ⟨_, hgap, hne⟩ := hspaced _ List.mem_cons_self
    have hrest := ih fun n hn => hspaced n (by simp [hn])
    cases modifier with
    | annotationUse name arguments => exact hrest
    | final =>
      have hwords : Text.words "final".toList = ["final".toList] :=
        Text.words_of_forall (by simp) (by decide)
      have hkept : keptModifiers ((.final, gap) :: ms) ++ t =
          "final".toList ++ (gap ++ (keptModifiers ms ++ t)) := by
        simp [keptModifiers, ParameterModifier.kept]
      rw [hkept, Text.words_append_append hgap hne, hwords, List.filter_append, hrest]
      rfl

theorem WellFormed.isCompact_type (hp : p.WellFormed) : Text.IsCompact p.type :=
  hp.compact ▸ Text.isCompact_compact p.type

theorem WellFormed.isCompact_front (hp : p.WellFormed) : Text.IsCompact p.front := by
  unfold front
  cases decide (p.dots = .afterType) with
  | false => simpa [attachedDots] using hp.isCompact_type
  | true =>
    have htype := hp.isCompact_type
    have hdots : Text.IsCompact "...".toList := ⟨by decide, by decide, by decide, by decide⟩
    refine ⟨fun c hc => ?_, ?_, ?_, ?_⟩
    · exact (List.mem_append.mp hc).elim (htype.spaces c) (hdots.spaces c)
    · refine List.isChain_append.mpr ⟨htype.tight, hdots.tight, fun c hc d hd => ?_⟩
      exact ⟨fun h => absurd h (htype.last c hc), fun h => absurd h (hdots.head d hd)⟩
    · obtain ⟨c, cs, hcs⟩ := List.exists_cons_of_ne_nil hp.ne_nil
      have hhead := htype.head
      rw [hcs] at hhead ⊢
      simpa using hhead
    · simp [attachedDots]

theorem WellFormed.balanced_front (hp : p.WellFormed) : Balanced p.front := by
  have hdots : Balanced "...".toList := by decide
  unfold front
  cases decide (p.dots = .afterType) with
  | false => simpa [attachedDots] using hp.balanced
  | true => exact hp.balanced.append hdots

theorem WellFormed.trimmed_front (hp : p.WellFormed) : Text.Trimmed p.front :=
  hp.isCompact_front.trimmed (by simp [front, hp.ne_nil])

theorem WellFormed.isSpace_named (hp : p.WellFormed) : ∀ c ∈ p.named, Text.isSpace c = false := by
  intro c hc
  rcases List.mem_append.mp hc with hc | hc
  · exact (Text.mem_visible.mp (visible_attachedDots _ ▸ hc)).2
  · exact (List.mem_append.mp hc).elim (hp.name.isSpace c) (isSpace_of_mem_pairs c)

theorem WellFormed.named_ne_nil (hp : p.WellFormed) : p.named ≠ [] := by
  simp [named, hp.name.ne_nil]

/-- No word `final` stands in the type, nor is it the name. -/
theorem WellFormed.final_notMem (hp : p.WellFormed) : "final".toList ∉ Text.words p.declared := by
  have hdot : '.' ∉ "final".toList := by decide
  have hdots : ∀ {s : Text}, "final".toList ∉ Text.words s →
      "final".toList ∉ Text.words (s ++ "...".toList) := by
    intro s hs hmem
    induction s using Text.first_space_induction with
    | solid s hsolid =>
      have hdots : ∀ c ∈ s ++ "...".toList, Text.isSpace c = false := fun c hc => by
        rcases List.mem_append.mp hc with hc | hc
        · exact hsolid c hc
        · obtain rfl : c = '.' := by simpa using hc
          decide
      rw [Text.words_of_forall (by simp) hdots, List.mem_singleton] at hmem
      exact hdot (hmem ▸ by simp)
    | cut x c y hx hc ih =>
      rw [Text.words_append_first_space hx hc, List.mem_append, not_or] at hs
      rw [List.append_assoc, List.cons_append, Text.words_append_first_space hx hc] at hmem
      exact (List.mem_append.mp hmem).elim hs.1 (ih hs.2)
  have hfront : "final".toList ∉ Text.words p.front := by
    unfold front
    cases decide (p.dots = .afterType) with
    | false => simpa [attachedDots] using hp.final
    | true => exact hdots hp.final
  have hnamed : "final".toList ≠ p.named := by
    intro h
    unfold named at h
    cases hdots : decide (p.dots = .beforeName) with
    | true =>
      rw [hdots] at h
      exact hdot (h ▸ by simp [attachedDots])
    | false =>
      rw [hdots] at h
      cases hdims : p.dims with
      | zero => exact hp.name.ne_final (by simpa [hdims, attachedDots, pairs] using h.symm)
      | succ n =>
        have hbracket : ']' ∉ "final".toList := by decide
        exact hbracket (h ▸ by simp [hdims, pairs_succ])
  rw [declared, Text.words_append_append hp.gap.1 hp.gap.2,
    Text.words_of_forall hp.named_ne_nil hp.isSpace_named]
  simpa using ⟨hfront, hnamed⟩

/-- What stands after the modifiers starts and ends with a visible character. -/
theorem WellFormed.trimmed_declared (hp : p.WellFormed) : Text.Trimmed p.declared := by
  have h := hp.trimmed_front.append (.of_forall hp.named_ne_nil hp.isSpace_named) p.gap
  simpa [declared] using h

theorem WellFormed.chars_declared (hp : p.WellFormed) :
    ∀ c ∈ p.declared, c ≠ '(' ∧ c ≠ '@' ∧ c ≠ ')' := by
  have hsymbols : ∀ c ∈ ['.', '[', ']'], c ≠ '(' ∧ c ≠ '@' ∧ c ≠ ')' := by decide
  have hparens : ∀ c ∈ ['(', ')'], isSegmentChar c = false := by decide
  have hdots : ∀ attached, ∀ c ∈ attachedDots attached, c ∈ ['.', '[', ']'] := by
    rintro (_ | _) c hc
    · cases hc
    · obtain rfl : c = '.' := by simpa [attachedDots] using hc
      simp
  intro c hc
  simp only [declared, front, named, List.mem_append] at hc
  rcases hc with (hc | hc) | hc | hc | hc | hc
  · exact ⟨(hp.chars c hc).1, (hp.chars c hc).2.2, (hp.chars c hc).2.1⟩
  · exact hsymbols c (hdots _ c hc)
  · refine ⟨?_, ?_, ?_⟩ <;> rintro rfl <;> exact absurd (hp.gap.1 _ hc) (by decide)
  · exact hsymbols c (hdots _ c hc)
  · have hchar := hp.name.chars c hc
    refine ⟨?_, hchar.2, ?_⟩ <;> rintro rfl <;> simp [hparens] at hchar
  · rcases mem_pairs hc with rfl | rfl <;> exact hsymbols _ (by simp)

theorem WellFormed.head_declared (hp : p.WellFormed) :
    ∀ c ∈ p.declared.head?, Text.isSpace c = false ∧ c ≠ '(' := by
  intro c hc
  refine ⟨?_, (hp.chars_declared c (List.mem_of_mem_head? hc)).1⟩
  obtain ⟨d, cs, hcs, hd⟩ := hp.trimmed_declared.head
  obtain rfl : d = c := by simpa [hcs] using hc
  exact hd

theorem WellFormed.normalizeSpaces_declared (hp : p.WellFormed) :
    Text.normalizeSpaces p.declared = p.front ++ ' ' :: p.named := by
  have hvisible : Text.visible p.front ≠ [] := by
    obtain ⟨c, cs, hcs, hc⟩ := hp.trimmed_front.head
    simp [hcs, Text.visible_cons, hc]
  rw [declared, normalizeSpaces_append_word hvisible hp.gap.1 hp.gap.2 hp.isSpace_named
    hp.named_ne_nil,
    hp.isCompact_front.normalizeSpaces_eq]

/-- When the names of the annotations are plain, what stands after the modifiers is left. -/
theorem WellFormed.parameterWords_core (hp : p.WellFormed) (hplain : p.IsPlain) :
    parameterWords p.core = p.front ++ ' ' :: p.named := by
  have hat : ∀ c ∈ p.declared, c ≠ '@' := fun c hc => (hp.chars_declared c hc).2.1
  have hwords := parameterWords_eq_normalizeSpaces hat hp.final_notMem
  rw [hp.normalizeSpaces_declared, parameterWords, removeAll_annotationUse hat] at hwords
  rw [parameterWords, Pattern.removeAll_eq_removeFrom, core,
    removeFrom_printModifiers hp.modifiers hplain hp.head_declared hat,
    filter_words_keptModifiers hp.modifiers]
  exact hwords

/-- A parameter with plain annotations is read as it is written. -/
theorem WellFormed.parameter?_core (hp : p.WellFormed) (hplain : p.IsPlain) :
    parameter? p.core = some p.parameter := by
  have hcompact := hp.isCompact_front.compact_eq
  have hne : Text.compact p.front ≠ [] := by
    rw [hcompact]
    exact hp.trimmed_front.ne_nil
  have htrim : Text.trimEnd p.type = p.type := by
    have hnone : ∀ c ∈ ([] : Text), Text.isSpace c = true := nofun
    have h := Text.trimEnd_append (hp.isCompact_type.trimmed hp.ne_nil).last hnone
    rwa [List.append_nil] at h
  have hnone : Text.beforeSuffix? "...".toList p.type = none :=
    Option.eq_none_iff_forall_ne_some.mpr fun t ht =>
      hp.dots t (Text.beforeSuffix?_eq_some_iff.mp ht)
  have hsome : Text.beforeSuffix? "...".toList (p.type ++ "...".toList) = some p.type :=
    Text.beforeSuffix?_eq_some_iff.mpr rfl
  have hpair : pairs 1 = "[]".toList := rfl
  rw [parameter?_of_words (hp.parameterWords_core hplain) hp.balanced_front hne hp.name, hcompact]
  by_cases hdots : p.dots = .absent
  · have hfront : p.front ++ attachedDots (p.dots = .beforeName) = p.type := by
      simp [front, hdots, attachedDots]
    rw [hfront, hnone]
    simp [parameter, hdots, pairs]
  · have hfront : p.front ++ attachedDots (p.dots = .beforeName) = p.type ++ "...".toList := by
      unfold front
      cases h : p.dots with
      | absent => exact absurd h hdots
      | afterType => simp [attachedDots]
      | beforeName => simp [attachedDots]
    rw [hfront, hsome]
    simp [parameter, hdots, htrim, hpair]

/-- All characters of the words stand in the text that the annotations leave, but for the word
`final`. -/
theorem count_parameterWords {x : Char} (hx : isCounted x = true) (hfinal : x ∉ "final".toList)
    (s : Text) :
    (parameterWords s).count x = (annotationUse.removeAll s).count x := by
  have hfilter : ∀ ws : List Text,
      (ws.filter (· ≠ "final".toList)).flatten.count x = ws.flatten.count x := by
    intro ws
    induction ws with
    | nil => rfl
    | cons w ws ih =>
      by_cases hw : w = "final".toList
      · have hzero : w.count x = 0 := List.count_eq_zero.mpr (hw ▸ hfinal)
        rw [List.filter_cons_of_neg (by simpa using hw), List.flatten_cons,
          List.count_append, hzero,
          Nat.zero_add, ih]
      · rw [List.filter_cons_of_pos (by simpa using hw), List.flatten_cons, List.flatten_cons,
          List.count_append, List.count_append, ih]
  have hwords : (Text.words (annotationUse.removeAll s)).flatten.count x =
      (annotationUse.removeAll s).count x :=
    count_eq_of_visible hx (by rw [Text.flatten_words, Text.visible_visible])
  rw [parameterWords, count_eq_of_visible hx (Text.visible_intercalate_space _), hfilter, hwords]

/-- A parameter that is read as it is written has plain annotations. -/
theorem WellFormed.isPlain_of_parameter? (hp : p.WellFormed)
    (h : parameter? p.core = some p.parameter) :
    p.IsPlain := by
  by_contra hplain
  obtain ⟨x, hx, hfinal, hcount⟩ := count_removeFrom hp.modifiers hplain hp.head_declared
    fun c hc => (hp.chars_declared c hc).2
  have hread := count_parameter? h hx
  rw [count_parameterWords hx hfinal, Pattern.removeAll_eq_removeFrom] at hread
  have hmore : p.declared.count x < _ := hcount none 0
  have hgap : p.gap.count x = 0 := by
    refine List.count_eq_zero.mpr fun hmem => ?_
    simp [isCounted, hp.gap.1 x hmem] at hx
  have hdeclared : p.declared.count x = p.type.count x + p.name.count x := by
    simp only [declared, front, named, List.count_append, count_attachedDots hx,
      count_pairs_eq_zero hx, hgap]
    omega
  have hparameter : p.parameter.typeName.toList.count x + p.parameter.name.toList.count x =
      p.type.count x + p.name.count x := by
    simp only [parameter, String.toList_ofList, List.count_append, count_pairs_eq_zero hx,
      Nat.add_zero]
  rw [core] at hread
  omega

-- ---------------------------------------------------------------------------
-- Lists of parameters
-- ---------------------------------------------------------------------------

theorem WellFormed.trim_print (hp : p.WellFormed) : Text.trim p.print = p.core := by
  have hcore : Text.Trimmed p.core := by
    obtain ⟨cs, c, hcs, hc⟩ := hp.trimmed_declared.last
    constructor
    · obtain ⟨d, ds, hds⟩ := List.exists_cons_of_ne_nil (show p.core ≠ [] by simp [core, hcs])
      have hd : d ∈ p.core.head? := by simp [hds]
      exact ⟨d, ds, hds, (head_printModifiers hp.head_declared d hd).1⟩
    · exact ⟨printModifiers p.modifiers ++ cs, c, by simp [core, hcs], hc⟩
  rw [print, Text.trim_append_of_isSpace hp.before, hcore.trim_append hp.after]

theorem closed_printModifiers (hspaced : AreSpaced modifiers) :
    Text.Closed ',' (printModifiers modifiers) := by
  induction modifiers with
  | nil => rfl
  | cons m ms ih =>
    obtain ⟨modifier, gap⟩ := m
    obtain ⟨hwf, hgap, _⟩ := hspaced _ List.mem_cons_self
    have hblank : Text.Closed ',' gap := Text.closed_of_isSpace (by decide) hgap
    have hprint : Text.Closed ',' modifier.print := by
      cases hwf with
      | final => decide
      | @annotationUse name arguments _ hname _ harguments =>
        have hdotted : Text.Closed ',' ('@' :: name) := Text.closed_of_forall fun c hc => by
          rcases List.mem_cons.mp hc with rfl | hc
          · decide
          · rcases hname c hc with h | rfl
            · exact (plain_of_isSegmentChar h.1).2
            · decide
        exact hdotted.append harguments
    have h := (hprint.append hblank).append (ih fun n hn => hspaced n (by simp [hn]))
    simpa [printModifiers] using h

theorem WellFormed.closed_print (hp : p.WellFormed) : Text.Closed ',' p.print := by
  have hdots : ∀ attached, Text.Closed ',' (attachedDots attached) := by decide
  have hblank : ∀ {sp : Text}, (∀ c ∈ sp, Text.isSpace c = true) → Text.Closed ',' sp :=
    Text.closed_of_isSpace (by decide)
  have hnamed : Text.Closed ',' p.named :=
    (hdots _).append (hp.name.closed.append (closed_pairs p.dims))
  have hdeclared : Text.Closed ',' p.declared :=
    (hp.closed.append (hdots _)).append ((hblank hp.gap.1).append hnamed)
  exact (hblank hp.before).append
    (((closed_printModifiers hp.modifiers).append hdeclared).append (hblank hp.after))

end AnnotatedParameter

/-- A list of parameters with modifiers gives each as it is written, in order, exactly when the
names of all annotations consist of word characters and dots. -/
theorem parameters_annotated_iff (ps : List AnnotatedParameter) (hps : ∀ p ∈ ps, p.WellFormed) :
    parameters ([','].intercalate (ps.map AnnotatedParameter.print)) =
      ps.map AnnotatedParameter.parameter ↔
      ∀ p ∈ ps, p.IsPlain := by
  have hclosed : ∀ s ∈ ps.map AnnotatedParameter.print, Text.Closed ',' s := by
    intro s hs
    obtain ⟨p, hp, rfl⟩ := List.mem_map.mp hs
    exact (hps p hp).closed_print
  rw [parameters_intercalate hclosed, List.filterMap_map, List.filterMap_eq_map_iff_forall_eq_some]
  refine forall_congr' fun p => forall_congr' fun hp => ?_
  rw [Function.comp_apply, (hps p hp).trim_print]
  exact ⟨(hps p hp).isPlain_of_parameter?, (hps p hp).parameter?_core⟩

/-- A list with an annotation, and words after one whose name has a dollar sign. -/
def dollarParameters : List AnnotatedParameter :=
  [{ modifiers := [(.annotationUse "Named".toList (some "\"n\"".toList), " ".toList)]
     type := "Map<K, V>".toList, name := "names".toList, dims := 1 },
    { modifiers := [(.annotationUse "Outer$Length".toList none, " ".toList), (.final, " ".toList)]
      type := "int".toList, dots := .afterType, name := "words".toList }]

/-- The end of the name gets into the type of the words. -/
theorem parameters_annotated_iff_dollarParameters :
    parameters ([','].intercalate (dollarParameters.map AnnotatedParameter.print)) ≠
      [{ name := "names", typeName := "Map<K, V>[]" },
        { name := "words", typeName := "int[]", isVarargs := true }] := by
  have hdots : ∀ {type t : Text}, Text.beforeSuffix? "...".toList type = none →
      type ≠ t ++ "...".toList :=
    fun hnone h => by
      rw [Text.beforeSuffix?_eq_some_iff.mpr h] at hnone
      cases hnone
  have hall : ∀ p ∈ dollarParameters, p.WellFormed := by
    intro p hp
    simp only [dollarParameters, List.mem_cons, List.not_mem_nil, or_false] at hp
    rcases hp with rfl | rfl
    · exact {
        before := by decide
        modifiers := by
          intro m hm
          obtain rfl := List.mem_singleton.mp hm
          exact ⟨.annotationUse (by decide) (by decide) (by decide) (by decide), by decide,
            by decide⟩
        ne_nil := by decide, compact := by decide, balanced := by decide, closed := by decide
        chars := by decide, final := by decide, dots := fun _ => hdots (by decide), gap := by decide
        name := ⟨by decide, by decide, by decide, by decide⟩, after := by decide }
    · exact {
        before := by decide
        modifiers := by
          intro m hm
          simp only [List.mem_cons, List.not_mem_nil, or_false] at hm
          rcases hm with rfl | rfl
          · exact ⟨.annotationUse (by decide) (by decide) (by decide) (by decide), by decide,
              by decide⟩
          · exact ⟨.final, by decide, by decide⟩
        ne_nil := by decide, compact := by decide, balanced := by decide, closed := by decide
        chars := by decide, final := by decide, dots := fun _ => hdots (by decide), gap := by decide
        name := ⟨by decide, by decide, by decide, by decide⟩, after := by decide }
  intro heq
  have hplain := (parameters_annotated_iff dollarParameters hall).mp heq _
    (List.mem_cons_of_mem _ List.mem_cons_self) _ List.mem_cons_self
  exact absurd (hplain '$' (by decide)) (by decide)

end Typings.Source
