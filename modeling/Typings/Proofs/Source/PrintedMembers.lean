import Typings.Proofs.Source.PrintedParameters
import Typings.Proofs.Source.WrittenTypes
import Typings.Proofs.Text.Bytes
import Typings.Source.Members

/-!
# Reading printed members

In the printed members of a type, every field is found by the pattern for fields and by no other,
and every method by the pattern for methods. A field pattern needs a visibility, which no method
line has; a method pattern needs a parenthesis before the end of its declaration, which no field
line has. Main statements: `fields_printMembers` and `methods_printMembers`.
-/

namespace Typings.Source

open Declaration Pattern

-- ---------------------------------------------------------------------------
-- Fields
-- ---------------------------------------------------------------------------

/-- The pattern of a field up to its visibility. -/
def fieldFront : Shape :=
  opening ++
    .star (boundary ++ keyword storage) ++
    boundary ++ .group .visibility (.oneOf ["public", "protected", "private"]) ++ someSpaces

/-- The pattern of a field up to its type. -/
def fieldOpening : Shape := fieldFront ++ .star (keyword storage)

theorem isBreak_of_mem_storage : ∀ w ∈ storage, (∀ d ∈ w.toList, isBreak d = false) ∧
    isName w.toList = false ∧ w.toList ≠ "public".toList := by decide

/-- A visibility is taken behind what may stand before it. -/
theorem takes_fieldFront {b : Option Char} {pos : Nat} {w t : Text} {marks : List (Mark Part)}
    (hopening : opening.Takes b pos w ("public".toList ++ ' ' :: t) marks)
    (hb : ∀ d ∈ Text.lastOr b w, Text.isWordChar d = false)
    (hspace : ∀ c ∈ t.head?, Text.isSpace c = false) :
    fieldFront.Takes b pos (w ++ "public ".toList) t
      (marks ++ Match.captured .visibility (pos + Text.byteLength w)
        "public".toList (' ' :: t)) := by
  have hbefore : ∀ b pos, (Pattern.star (boundary ++ keyword storage)).Takes b pos []
      ("public".toList ++ ' ' :: t) [] := fun _ _ => by
    refine takes_star_of_fails (fails_boundary_keyword fun w hw h => ?_)
    have hfacts := isBreak_of_mem_storage w hw
    exact hfacts.2.2 (h.1.eq (by decide) (by decide) hfacts.1)
  have hboundary : ∀ pos, boundary.Takes (Text.lastOr b (w ++ [])) pos []
      ("public".toList ++ ' ' :: t)
      [] := fun _ => takes_boundary (by simpa using hb) (by decide)
  have hvisibility : ∀ b pos, (Pattern.oneOf ["public", "protected", "private"]).Takes b pos
      "public".toList (' ' :: t) ([] : List (Mark Part)) := fun _ _ =>
    takes_oneOf_cons (by simp) (by decide)
  have h := (((hopening.andThen (hbefore _ _) rfl).andThen (hboundary _) rfl).andThen
    ((hvisibility _ _).captured .visibility) rfl).andThen (takes_someSpaces hspace) rfl
  refine h.congr ?_ (by simp)
  have hpublic : "public ".toList = "public".toList ++ [' '] := by decide
  simp [hpublic]

theorem takes_fieldOpening {b : Option Char} {pos : Nat} {t : Text}
    (hb : ∀ d ∈ b, Text.isWordChar d = false) (ht : StartsWithName t)
    (hspace : ∀ c ∈ t.head?, Text.isSpace c = false) :
    fieldOpening.Takes b pos "public ".toList t
      (Match.captured .visibility pos "public".toList (' ' :: t)) := by
  have hopening : opening.Takes b pos [] ("public".toList ++ ' ' :: t) [] :=
    takes_opening (Text.forall_head (by decide) _)
  have hafter : ∀ b pos, (Pattern.star (keyword storage)).Takes b pos [] t [] := fun _ _ =>
    takes_star_of_fails (fails_keyword fun w hw =>
      not_opens_of_startsWithName ht (isBreak_of_mem_storage w hw).2.1
        (isBreak_of_mem_storage w hw).1)
  have h := (takes_fieldFront hopening hb hspace).andThen (hafter _ _) rfl
  exact h.congr (by simp) (by simp)

/-- What the pattern for fields remembers of a field. -/
structure FieldMarks (marks : List (Mark Part)) (type name : Text) : Prop where
  fieldType : ∀ whole, Match.text ⟨whole, marks⟩ .fieldType = type
  name : ∀ whole, Match.text ⟨whole, marks⟩ .name = name
  dimensions : ∀ whole, Match.text ⟨whole, marks⟩ .dimensions = []
  doc : ∀ whole, Match.get? ⟨whole, marks⟩ .doc = none

/-- A printed field is taken by the pattern for fields. -/
theorem takes_field {b : Option Char} {pos : Nat} {type name t : Text}
    (hb : ∀ d ∈ b, Text.isWordChar d = false) (htype : IsTypeText type)
    (hname : isName name = true) :
    ∃ marks, field.Takes b pos ("public ".toList ++ (type ++ ' ' :: (name ++ [';']))) t marks ∧
      FieldMarks marks type name := by
  have hstarts : StartsWithName (type ++ ' ' :: (name ++ ';' :: t)) :=
    htype.startsWithName.append (Text.forall_head (by decide) _)
  have hopening := @takes_fieldOpening b pos _ hb hstarts hstarts.isSpace_head
  have htypeTakes : ∀ b pos, typeText.Takes b pos type (' ' :: (name ++ ';' :: t)) [] := fun _ _ =>
    takes_typeText htype hname (by decide)
  have hspace : ∀ c ∈ (name ++ ';' :: t).head?, Text.isSpace c = false :=
    (isPath_of_isName hname).startsWithName.append (Text.forall_head (by decide) _) |>.isSpace_head
  have hnameTakes : ∀ b pos, identifier.Takes b pos name (';' :: t) [] := fun _ _ =>
    takes_identifier hname (Text.forall_head (by decide) _)
  have hspaces : ∀ b pos, spaces.Takes b pos [] (';' :: t) [] := fun _ _ =>
    takes_spaces_nil (Text.forall_head (by decide) _)
  have hdimensions : ∀ b pos, (Pattern.star (squarePair ++ spaces)).Takes b pos [] (';' :: t) [] :=
    fun _ _ => takes_star_of_fails ((fails_squarePair (Text.forall_head (by decide) _)).seq)
  have hend : ∀ b pos, (Pattern.oneOf ["=", ";", ","]).Takes b pos [';'] t
      ([] : List (Mark Part)) :=
    fun _ _ => takes_oneOf_of_head (by simp : ";" ∈ _) rfl (by decide)
  have h := (((((hopening.andThen ((htypeTakes _ _).captured .fieldType) rfl).andThen
    (takes_someSpaces hspace) rfl).andThen ((hnameTakes _ _).captured .name) rfl).andThen
    (hspaces _ _) rfl).andThen ((hdimensions _ _).captured .dimensions) rfl).andThen (hend _ _) rfl
  simp only [List.append_nil, List.append_assoc, List.singleton_append] at h
  refine ⟨_, h, ?_, ?_, ?_, ?_⟩
  all_goals
    intro whole
    simp [Match.text_captured_of_ne, Match.get?_captured_of_ne, Match.get?_captured_nil_of_ne]

theorem fails_field {b : Option Char} {s : Text} (hs : ∀ c ∈ s.head?, c ≠ '/' ∧ c ≠ '@')
    (hwords : ∀ w ∈ openingWords, ¬OpensAt b w s) : field.Fails b s := by
  have hall : ∀ w ∈ storage ++ ["public", "protected", "private"], w.toList ∈ openingWords := by
    decide
  have hstorage : (boundary ++ keyword storage).Fails b s :=
    fails_boundary_keyword fun w hw => hwords _ (hall w (by simp [hw]))
  have hvisibility : (boundary ++ (.group .visibility (.oneOf ["public", "protected", "private"]) ++
      someSpaces) : Shape).Fails b s :=
    fails_boundary fun hb => fails_group_keyword fun w hw hopens =>
      hwords _ (hall w (List.mem_append_right _ hw)) ⟨hopens, hb⟩
  have hopening := ((stays_opening hs).seq hstorage.stays_star).fails_seq hvisibility
  exact hopening.assoc.assoc.seq.seq.seq.seq.seq.seq.seq

/-- A type is none of the words that are no names. -/
theorem contains_eq_false {words : List Text} {s : Text} (hs : StartsWithName s)
    (hwords : ∀ w ∈ words, isName w = false ∧ ∀ c ∈ w, isBreak c = false) :
    words.contains s = false := by
  rw [List.contains_eq_mem, decide_eq_false_iff_not]
  intro hmem
  obtain ⟨hname, hbreak⟩ := hwords s hmem
  exact hs.ne_append (t := []) hname hbreak (by simp) (by simp)

theorem docOf_eq_none {docs : Bool} {m : Match Part} (h : m.get? .doc = none) :
    docOf docs m = none := by
  cases docs <;> simp [docOf, h]

/-- A match of a printed field gives the field. -/
theorem fieldsOf_print {f : Field} (hf : f.Printable) (docs : Bool) (members : Text)
    {whole : Capture} (hwhole : whole.text.getLast? = some ';') {marks : List (Mark Part)}
    (hmarks : FieldMarks marks f.typeName.toList f.name.toList) :
    fieldsOf docs members ⟨whole, marks⟩ = [f] := by
  have hstatement : statementWords.contains f.typeName.toList = false :=
    contains_eq_false hf.type.startsWithName (by decide)
  unfold fieldsOf
  simp only [hmarks.fieldType, hmarks.name, hmarks.dimensions, hf.type.entry.isCompact.compact_eq,
    hstatement, hwhole, docOf_eq_none (hmarks.doc whole), if_true, if_false, Bool.false_eq_true,
    List.map_cons, List.map_nil]
  obtain ⟨name, typeName, doc⟩ := f
  obtain rfl : doc = none := hf.doc
  simp [variableType, pairs]

theorem Field.print_eq (f : Field) :
    f.print = ("public ".toList ++ (f.typeName.toList ++ ' ' :: (f.name.toList ++ [';']))) ++
      ['\n'] := by
  have hend : ";\n".toList = [';'] ++ ['\n'] := by decide
  unfold Field.print
  rw [hend]
  simp only [List.append_assoc, List.cons_append]

/-- The fields of printed members, before text without opening words. -/
theorem flatMap_fieldsOf_print {fs : List Field} (hfs : ∀ f ∈ fs, f.Printable) {t : Text}
    (ht : Quiet t) (docs : Bool) (members : Text) {b : Option Char}
    (hb : ∀ d ∈ b, Text.isWordChar d = false) (pos : Nat) :
    (field.matchesFrom b pos (fs.flatMap Field.print ++ t)).flatMap
      (fieldsOf docs members) = fs := by
  induction fs generalizing b pos with
  | nil =>
    have hnone := ht.matchesFrom_append (fun _ _ => fails_field) b pos []
    rw [List.append_nil] at hnone
    rw [List.flatMap_nil, List.nil_append, hnone]
    rfl
  | cons f fs ih =>
    have hf := hfs f (by simp)
    obtain ⟨marks, htakes, hmarks⟩ :=
      @takes_field b pos _ _ ('\n' :: (fs.flatMap Field.print ++ t)) hb
      hf.type hf.name
    have hnewline : ∀ b, field.Fails b ('\n' :: (fs.flatMap Field.print ++ t)) := fun b =>
      fails_field (Text.forall_head (by decide) _) fun w hw h =>
        not_opens_of_isBreak (by decide) hw h.1
    have hrest := @ih (fun g hg => hfs g (by simp [hg])) (some '\n') (by decide)
    rw [List.flatMap_cons, Field.print_eq, List.append_assoc, List.append_assoc,
      List.singleton_append, htakes.matchesFrom_cons_eq (by simp) (hnewline _), List.flatMap_cons,
      hrest, fieldsOf_print hf docs members ?_ hmarks, List.singleton_append]
    rw [Capture.text_append, ← List.cons_append, ← List.append_assoc, ← List.append_assoc,
      List.getLast?_concat]

-- ---------------------------------------------------------------------------
-- Methods
-- ---------------------------------------------------------------------------

/-- The pattern of a method up to its modifiers. -/
def methodOpening : Shape :=
  opening ++
    .group .modifiers (.star (boundary ++ keyword
      ["public", "protected", "private", "abstract", "static", "final", "synchronized", "native",
        "strictfp", "default"]))

/-- The pattern of the type parameters of a method. -/
def methodTypeParameters : Shape := .opt (.group .typeParameters angled ++ spaces)

/-- The pattern of a method from its result on. -/
def methodSignature : Shape :=
  boundary ++ .group .result typeText ++ someSpaces ++
    .group .name identifier ++ spaces ++
    .lit "(" ++ .group .parameters parenthesized ++ .lit ")" ++ spaces ++
    .star (squarePair ++ spaces) ++
    .opt (keyword ["throws"] ++ .lazyPlus (except "\x7b\x7d;")) ++ spaces ++
    .oneOf ["\x7b", ";"]

theorem method_run (next : Goal Part) (r : Place) :
    method.run next r = (methodOpening ++ (methodTypeParameters ++ methodSignature)).run next r :=
  rfl

theorem takes_method_of {b : Option Char} {pos : Nat} {w t : Text} {marks : List (Mark Part)}
    (h : (methodOpening ++ (methodTypeParameters ++ methodSignature)).Takes b pos w t marks) :
    method.Takes b pos w t marks := fun next f hf => (method_run next _).trans (h next f hf)

theorem takes_methodOpening {b : Option Char} {pos : Nat} {t : Text}
    (ht : ∀ c ∈ t.head?, c ≠ '/' ∧ c ≠ '@') (hwords : ∀ w ∈ openingWords, ¬OpensAt b w t) :
    methodOpening.Takes b pos [] t (Match.captured .modifiers pos [] t) := by
  have hmodifiers : (Pattern.star (boundary ++ keyword
      ["public", "protected", "private", "abstract", "static", "final", "synchronized", "native",
        "strictfp", "default"])).Takes b pos [] t [] := by
    refine takes_star_of_fails (fails_boundary_keyword fun w hw => hwords _ ?_)
    have hall : ∀ w ∈ ["public", "protected", "private", "abstract", "static", "final",
        "synchronized", "native", "strictfp", "default"], w.toList ∈ openingWords := by decide
    exact hall w hw
  exact (takes_opening ht).andThen (hmodifiers.captured .modifiers) rfl

/-- A signature is taken when its result is, up to the character that ends the declaration. -/
theorem takes_methodSignature_of {b : Option Char} {pos : Nat} {type name params gap t : Text}
    {c : Char}
    (hb : ∀ d ∈ b, Text.isWordChar d = false)
    (hfirst : ∃ d ds, type = d :: ds ∧ isPlainChar d = true)
    (htype : ∀ b pos, typeText.Takes b pos type
      (' ' :: (name ++ '(' :: (params ++ ')' :: (gap ++ c :: t)))) [])
    (hname : isName name = true) (hparams : ∀ c ∈ params, isTypeChar c = true)
    (hgap : ∀ d ∈ gap, Text.isSpace d = true) (hc : c = '{' ∨ c = ';') :
    ∃ p q, methodSignature.Takes b pos
      (type ++ ' ' :: (name ++ '(' :: (params ++ ')' :: (gap ++ [c])))) t
      (Match.captured .result pos type
        (' ' :: (name ++ '(' :: (params ++ ')' :: (gap ++ c :: t)))) ++
        (Match.captured .name p name ('(' :: (params ++ ')' :: (gap ++ c :: t))) ++
          Match.captured .parameters q params (')' :: (gap ++ c :: t)))) := by
  have hends : ∀ {P : Char → Prop}, P '{' → P ';' → ∀ d ∈ (c :: t).head?, P d := by
    intro P hopen hclose
    rcases hc with rfl | rfl
    · exact Text.forall_head hopen _
    · exact Text.forall_head hclose _
  obtain ⟨d, ds, hds, hd⟩ := hfirst
  have hboundary : boundary.Takes b pos []
      (type ++ ' ' :: (name ++ '(' :: (params ++ ')' :: (gap ++ c :: t)))) [] := by
    rw [hds]
    exact takes_boundary hb hd
  have hspace : ∀ d ∈ (name ++ '(' :: (params ++ ')' :: (gap ++ c :: t))).head?,
      Text.isSpace d = false :=
    (isPath_of_isName hname).startsWithName.append (Text.forall_head (by decide) _) |>.isSpace_head
  have hnameTakes : ∀ b pos, identifier.Takes b pos name
      ('(' :: (params ++ ')' :: (gap ++ c :: t))) [] := fun _ _ =>
    takes_identifier hname (Text.forall_head (by decide) _)
  have hopen : ∀ b pos, spaces.Takes b pos [] ('(' :: (params ++ ')' :: (gap ++ c :: t))) [] :=
    fun _ _ =>
    takes_spaces_nil (Text.forall_head (by decide) _)
  have hlit : ∀ b pos, (Pattern.lit "(").Takes b pos ['('] (params ++ ')' :: (gap ++ c :: t))
      ([] : List (Mark Part)) := fun _ _ => takes_lit "("
  have hparamsTakes : ∀ b pos, parenthesized.Takes b pos params (')' :: (gap ++ c :: t)) [] :=
    fun _ _ => by
      refine takes_parenthesized fun d hd => ⟨?_, ?_⟩
      · exact fun h => absurd (h ▸ hparams d hd) (by decide)
      · exact fun h => absurd (h ▸ hparams d hd) (by decide)
  have hlit' : ∀ b pos, (Pattern.lit ")").Takes b pos [')'] (gap ++ c :: t)
      ([] : List (Mark Part)) :=
    fun _ _ => takes_lit ")"
  have hgapTakes : ∀ b pos, spaces.Takes b pos gap (c :: t) [] := fun _ _ =>
    takes_star_char hgap (hends (by decide) (by decide))
  have hspaces : ∀ b pos, spaces.Takes b pos [] (c :: t) [] := fun _ _ =>
    takes_spaces_nil (hends (by decide) (by decide))
  have hdimensions : ∀ b pos, (Pattern.star (squarePair ++ spaces)).Takes b pos [] (c :: t) [] :=
    fun _ _ => takes_star_of_fails ((fails_squarePair (hends (by decide) (by decide))).seq)
  have hthrows : ∀ b pos, (Pattern.opt (keyword ["throws"] ++
      .lazyPlus (except "\x7b\x7d;"))).Takes b pos [] (c :: t) [] := by
    intro b pos
    refine takes_opt_of_fails (fails_keyword fun w hw h => ?_).seq
    obtain ⟨d, u, heq, _⟩ := h
    obtain rfl : w = "throws" := by simpa using hw
    have hne := hends (P := (· ≠ 't')) (by decide) (by decide)
    exact hne c rfl (List.cons.inj heq).1
  have hend : ∀ b pos, (Pattern.oneOf ["\x7b", ";"]).Takes b pos [c] t ([] : List (Mark Part)) := by
    intro b pos
    rcases hc with rfl | rfl
    · exact takes_oneOf_of_head (by simp : "\x7b" ∈ _) rfl (by decide)
    · exact takes_oneOf_of_head (by simp : ";" ∈ _) rfl (by decide)
  have hhead := ((hboundary.andThen ((htype _ _).captured .result) rfl).andThen
    (takes_someSpaces hspace) rfl).andThen ((hnameTakes _ _).captured .name) rfl
  have hlist := (((hhead.andThen (hopen _ _) rfl).andThen (hlit _ _) rfl).andThen
    ((hparamsTakes _ _).captured .parameters) rfl).andThen (hlit' _ _) rfl
  have h := ((((hlist.andThen (hgapTakes _ _) rfl).andThen (hdimensions _ _) rfl).andThen
    (hthrows _ _) rfl).andThen (hspaces _ _) rfl).andThen (hend _ _) rfl
  simp only [List.append_nil, List.nil_append, List.append_assoc,
    Text.byteLength_nil, Nat.add_zero, List.cons_append] at h
  exact ⟨_, _, h⟩

theorem takes_methodSignature {b : Option Char} {pos : Nat} {type name params t : Text}
    (hb : ∀ d ∈ b, Text.isWordChar d = false) (htype : IsTypeText type) (hname : isName name = true)
    (hparams : ∀ c ∈ params, isTypeChar c = true) :
    ∃ p q, methodSignature.Takes b pos (type ++ ' ' :: (name ++ '(' :: (params ++ [')', ';']))) t
      (Match.captured .result pos type (' ' :: (name ++ '(' :: (params ++ ')' :: ';' :: t))) ++
        (Match.captured .name p name ('(' :: (params ++ ')' :: ';' :: t)) ++
          Match.captured .parameters q params (')' :: ';' :: t))) :=
  @takes_methodSignature_of b pos _ _ _ [] t _ hb htype.startsWithName.exists_cons
    (fun _ _ => takes_typeText htype hname (by decide)) hname hparams (by simp) (.inr rfl)

/-- A signature starts with a type. -/
theorem fails_methodSignature {b : Option Char} {s : Text}
    (hs : ∀ c ∈ s.head?, (Text.isWordChar c || c = '$' || c = '.') = false) :
    methodSignature.Fails b s := by
  have hresult : (boundary ++ .group .result typeText : Shape).Fails b s :=
    (stays_anchor _).fails_seq ((fails_typeText hs).group _)
  exact hresult.seq.seq.seq.seq.seq.seq.seq.seq.seq.seq.seq

/-- A signature starts with a type that a space follows. -/
theorem fails_methodSignature_of_name {b : Option Char} {n t : Text} (hn : isName n = true) :
    methodSignature.Fails b (n ++ '(' :: t) := by
  have hresult : (boundary ++ (.group .result typeText ++ someSpaces) : Shape).Fails b
      (n ++ '(' :: t) :=
    (stays_anchor _).fails_seq (fails_typeText_of_name hn _)
  exact hresult.assoc.seq.seq.seq.seq.seq.seq.seq.seq.seq.seq

/-- No signature starts at spaces, nor after them where it does not start. -/
theorem fails_spaces_methodSignature {b : Option Char} {sp t : Text}
    (hsp : ∀ c ∈ sp, Text.isSpace c = true) (hspace : ∀ c ∈ t.head?, Text.isSpace c = false)
    (ht : ∀ b, methodSignature.Fails b t) : (spaces ++ methodSignature).Fails b (sp ++ t) := by
  refine fails_spaces_seq hsp hspace fun b v hv => ?_
  cases v with
  | nil => exact ht b
  | cons c v =>
    have hc := hv c (by simp)
    have hdollar : c ≠ '$' ∧ c ≠ '.' := by
      constructor <;> rintro rfl <;> exact absurd hc (by decide)
    refine fails_methodSignature (Text.forall_head ?_ _)
    simp [Text.isWordChar_of_isSpace hc, hdollar]

/-- No signature starts before a name that a parenthesis follows. -/
theorem fails_spaces_methodSignature_of_name {b : Option Char} {n t : Text} (hn : isName n = true) :
    (spaces ++ methodSignature).Fails b (' ' :: (n ++ '(' :: t)) := by
  have hname : ∀ c ∈ (n ++ '(' :: t).head?, Text.isSpace c = false :=
    (isPath_of_isName hn).startsWithName.append (Text.forall_head (by decide) _) |>.isSpace_head
  have hspace : ∀ c ∈ [' '], Text.isSpace c = true := by decide
  exact fails_spaces_methodSignature hspace hname fun _ => fails_methodSignature_of_name hn

/-- After a closing bracket inside the result of a method no signature starts. -/
theorem fails_after_bracket {b : Option Char} {before after n t : Text}
    (htype : IsTypeText (before ++ '>' :: after)) (hn : isName n = true) :
    (spaces ++ methodSignature).Fails b (after ++ ' ' :: (n ++ '(' :: t)) := by
  cases after with
  | nil => exact fails_spaces_methodSignature_of_name hn
  | cons d after =>
    have hchain := htype.entry.chain
    rw [List.isChain_append_cons_cons] at hchain
    have hd : d ∈ [',', '>', '['] := hchain.2.1.2 rfl
    have hall : ∀ c ∈ [',', '>', '['], Text.isSpace c = false ∧
        (Text.isWordChar c || c = '$' || c = '.') = false := by decide
    have hfails : ∀ b t, (spaces ++ methodSignature).Fails b ([] ++ d :: t) := fun _ t =>
      fails_spaces_methodSignature (by simp) (Text.forall_head (hall d hd).1 t) fun _ =>
        fails_methodSignature (Text.forall_head (hall d hd).2 t)
    exact hfails b _

/-- A closing bracket before the parenthesis of a printed method is in its result. -/
theorem exists_bracket {type n z u v : Text} (hn : isName n = true)
    (hu : ∀ c ∈ u, isAngledChar c = true)
    (h : ' ' :: (type ++ ' ' :: (n ++ '(' :: z)) = u ++ '>' :: v) :
    ∃ before after, type = before ++ '>' :: after ∧ v = after ++ ' ' :: (n ++ '(' :: z) := by
  cases u with
  | nil => exact absurd (List.cons.inj h).1 (by decide)
  | cons c u =>
    rw [List.cons_append, List.cons.injEq] at h
    rcases List.append_eq_append_iff.mp h.2 with ⟨m, rfl, hm⟩ | ⟨m, hm, hrest⟩
    · -- The bracket would come after the result, in the name or later.
      exfalso
      cases m with
      | nil => exact absurd (List.cons.inj hm).1 (by decide)
      | cons d m =>
        rw [List.cons_append, List.cons.injEq] at hm
        rcases List.append_eq_append_iff.mp hm.2 with ⟨k, rfl, hk⟩ | ⟨k, hk, hrest⟩
        · cases k with
          | nil => exact absurd (List.cons.inj hk).1 (by decide)
          | cons e k =>
            obtain ⟨rfl, _⟩ := List.cons.inj hk
            exact absurd (hu '(' (by simp)) (by decide)
        · cases k with
          | nil => exact absurd (List.cons.inj hrest).1 (by decide)
          | cons e k =>
            obtain ⟨rfl, _⟩ := List.cons.inj hrest
            exact absurd (isPlainChar_of_isName hn '>' (by simp [hk])) (by decide)
    · cases m with
      | nil => exact absurd (List.cons.inj hrest).1 (by decide)
      | cons d m =>
        obtain ⟨rfl, rfl⟩ := List.cons.inj hrest
        exact ⟨u, m, hm, rfl⟩

/-- What the pattern for methods remembers of a method. -/
structure MethodMarks (marks : List (Mark Part)) (typeParameters : Option Text)
    (result name params : Text) : Prop where
  typeParameters : ∀ whole, (Match.get? ⟨whole, marks⟩ .typeParameters).map Capture.text =
    typeParameters
  result : ∀ whole, Match.text ⟨whole, marks⟩ .result = result
  name : ∀ whole, Match.text ⟨whole, marks⟩ .name = name
  parameters : ∀ whole, Match.text ⟨whole, marks⟩ .parameters = params
  doc : ∀ whole, Match.get? ⟨whole, marks⟩ .doc = none

/-- The type parameters of a printed method and the space after them. -/
def generics (typeParameters : Option Text) : Text :=
  match typeParameters with
  | some s => s ++ [' ']
  | none => []

/-- Type parameters before a pattern that goes on after the first of the brackets that could close
them, and after no later one. -/
theorem takes_typeParameters {q : Shape} {b : Option Char} {pos : Nat} {inner w t : Text}
    {marks : List (Mark Part)} (hinner : ∀ c ∈ inner, isAngledChar c = true)
    (hq : (spaces ++ q).Takes (some '>')
      (pos + Text.byteLength ('<' :: (inner ++ ['>']))) w t marks)
    (hlater : ∀ u v, w ++ t = u ++ '>' :: v → (∀ c ∈ u, isAngledChar c = true) →
      (spaces ++ q).Fails (some '>') v) :
    (methodTypeParameters ++ q).Takes b pos ('<' :: (inner ++ ['>']) ++ w) t
      (Match.captured .typeParameters pos ('<' :: (inner ++ ['>'])) (w ++ t) ++ marks) := by
  intro next f hf
  have hclose := hq next f (by simpa [Nat.add_assoc] using hf)
  have hangled := @run_angled
    (fun s => ((spaces ++ q).run next s).map (·.closed .typeParameters s)) _ b pos inner (w ++ t)
    hinner (congrArg (Option.map _) hclose) fun u v pos heq hu => by
      rw [hlater u v heq hu, Option.map_none]
  have hrun : ∀ r, (methodTypeParameters ++ q).run next r =
      ((angled.run (fun s => ((spaces ++ q).run next s).map (·.closed .typeParameters s)) r).map
        (·.opened .typeParameters r)).or (q.run next r) := fun _ => rfl
  have hrest : '<' :: (inner ++ ['>']) ++ w ++ t = '<' :: (inner ++ '>' :: (w ++ t)) := by simp
  rw [hrest, hrun, hangled]
  simp [Ending.marked, Ending.opened, Ending.closed, Match.captured]

/-- A printed method is taken by the pattern for methods. -/
theorem takes_method {b : Option Char} {pos : Nat} {type name params t : Text}
    {typeParameters : Option Text} (hb : ∀ d ∈ b, Text.isWordChar d = false)
    (htype : IsTypeText type) (hname : isName name = true)
    (hparams : ∀ c ∈ params, isTypeChar c = true)
    (hgeneric : ∀ s ∈ typeParameters, IsTypeParameters s) :
    ∃ marks, method.Takes b pos
        (generics typeParameters ++ (type ++ ' ' :: (name ++ '(' :: (params ++ [')', ';']))))
          t marks ∧
      MethodMarks marks typeParameters type name params := by
  have hstarts : StartsWithName (type ++ ' ' :: (name ++ '(' :: (params ++ ')' :: ';' :: t))) :=
    htype.startsWithName.append (Text.forall_head (by decide) _)
  have hnoOpening : ∀ w ∈ openingWords, ¬OpensAt b w
      (type ++ ' ' :: (name ++ '(' :: (params ++ ')' :: ';' :: t))) := fun w hw h =>
    not_opens_of_startsWithName hstarts (isName_of_mem_openingWords w hw)
      (isBreak_of_mem_openingWords w hw) h.1
  have hplain : ∀ c ∈ (type ++ ' ' :: (name ++ '(' :: (params ++ ')' :: ';' :: t))).head?,
      isPlainChar c = true := by
    obtain ⟨c, cs, hcs, hc⟩ := hstarts.exists_cons
    rw [hcs]
    exact Text.forall_head hc _
  cases typeParameters with
  | none =>
    obtain ⟨p, q, hsignature⟩ := @takes_methodSignature b pos _ _ _ t hb htype hname hparams
    have hnone : methodTypeParameters.Takes b pos []
        (type ++ ' ' :: (name ++ '(' :: (params ++ ')' :: ';' :: t))) [] := by
      refine takes_opt_of_fails ((fails_angled fun c hc => ?_).group _).seq
      exact forall_isPlainChar (P := (· ≠ '<')) (by decide) (hplain c hc)
    have hopening : methodOpening.Takes b pos [] _ _ := takes_methodOpening (fun c hc =>
      forall_isPlainChar (P := fun c => c ≠ '/' ∧ c ≠ '@') (by decide) (hplain c hc)) hnoOpening
    have h := hopening.andThen (hnone.andThen hsignature (by simp)) (by simp)
    refine ⟨_, takes_method_of (h.congr (by simp [generics]) rfl), ?_⟩
    constructor
    all_goals
      intro whole
      simp [Match.text_captured_of_ne, Match.get?_captured_of_ne, Match.get?_captured_nil_of_ne]
  | some s =>
    obtain ⟨inner, rfl, _, hshape⟩ := (hgeneric s rfl).exists_inner
    have hinner : ∀ c ∈ inner, isAngledChar c = true := fun c hc =>
      isAngledChar_of_isTypeChar (hshape.chars c (by simp [hc]))
    have hspaces : ∀ pos, spaces.Takes (some '>') pos [' ']
        (type ++ ' ' :: (name ++ '(' :: (params ++ ')' :: ';' :: t))) [] := fun pos =>
      takes_star_char (by simp [isSpace_space]) hstarts.isSpace_head
    obtain ⟨p, q, hsignature⟩ := @takes_methodSignature (some ' ')
      (pos + Text.byteLength ('<' :: (inner ++ ['>'])) + Text.byteLength [' ']) _ _ _ t (by decide)
      htype hname hparams
    have hgeneric := @takes_typeParameters _ b _ _ _ _ _ hinner
      ((hspaces _).andThen hsignature (by simp)) fun u v heq hu => by
        obtain ⟨before, after, rfl, rfl⟩ := exists_bracket hname hu (by simpa using heq)
        exact fails_after_bracket htype hname
    have hopening : methodOpening.Takes b pos [] ('<' :: (inner ++ ['>']) ++ ([' '] ++
        (type ++ ' ' :: (name ++ '(' :: (params ++ [')', ';'])))) ++ t) _ :=
      takes_methodOpening (Text.forall_head (by decide) _) fun w hw h =>
        not_opens_of_isBreak (by decide) hw h.1
    have h := hopening.andThen hgeneric rfl
    refine ⟨_, takes_method_of (h.congr (by simp [generics]) rfl), ?_⟩
    refine ⟨fun whole => ?_, ?_, ?_, ?_, ?_⟩
    · rw [Match.get?_captured_of_ne (by decide), Match.get?_captured, Option.map_some,
        Capture.text_append]
    all_goals
      intro whole
      simp [Match.text_captured_of_ne, Match.get?_captured_of_ne, Match.get?_captured_nil_of_ne]

theorem inInitializer_eq_false {members : Text} (h : '=' ∉ members) (offset : Nat) :
    inInitializer members offset = false := by
  rw [inInitializer, List.contains_eq_mem, decide_eq_false_iff_not]
  intro hmem
  have htake := List.mem_reverse.mp ((List.takeWhile_sublist _).subset hmem)
  rw [← Text.takeBytes_append_dropBytes offset members] at h
  exact h (List.mem_append_left _ htake)

/-- A match of a printed method gives the method. -/
theorem methodOf?_print {m : Method} (hm : m.Printable) (docs : Bool) {members : Text}
    (hmembers : '=' ∉ members) (whole : Capture) {marks : List (Mark Part)}
    (hmarks : MethodMarks marks (m.typeParameters.map String.toList) m.returnType.toList
      m.name.toList ([',', ' '].intercalate (m.parameters.map Parameter.print))) :
    methodOf? docs members ⟨whole, marks⟩ = some m := by
  have hstarts := hm.returnType.startsWithName
  have hmodifier : modifierWords.contains m.returnType.toList = false :=
    contains_eq_false hstarts (by decide)
  have hstatement : statementWords.contains m.returnType.toList = false :=
    contains_eq_false hstarts (by decide)
  have hdeclaration : declarationWords.contains m.returnType.toList = false :=
    contains_eq_false hstarts (by decide)
  have hgeneric : ((Match.get? ⟨whole, marks⟩ .typeParameters).map fun text =>
      String.ofList (Text.compact text.text)) = m.typeParameters := by
    have hmap := congrArg (Option.map fun s => String.ofList (Text.compact s))
      (hmarks.typeParameters whole)
    rw [Option.map_map] at hmap
    refine hmap.trans ?_
    cases htypeParameters : m.typeParameters with
    | none => rfl
    | some s =>
      have hs := (hm.typeParameters s htypeParameters).isCompact.compact_eq
      simp [hs]
  unfold methodOf?
  simp only [hmarks.result, hmarks.name, hmarks.parameters,
    hm.returnType.entry.isCompact.compact_eq,
    hmodifier, hstatement, hdeclaration, inInitializer_eq_false hmembers, hgeneric,
    docOf_eq_none (hmarks.doc whole), parameters_print hm.parameters, Bool.or_self, if_false,
    Bool.false_eq_true, String.ofList_toList]
  rw [← hm.doc]

/-- No method starts at a character that opens none of its parts. -/
theorem fails_method_of_isBreak {b : Option Char} {s : Text} {c : Char} (hbreak : isBreak c = true)
    (hc : c ∉ ['/', '@', '<', '$', '.']) : method.Fails b (c :: s) := by
  simp only [List.mem_cons, List.not_mem_nil, or_false, not_or] at hc
  obtain ⟨hslash, hat, hangle, hdollar, hdot⟩ := hc
  have hword : Text.isWordChar c = false := by
    simp only [isBreak, Bool.and_eq_true, Bool.not_eq_true'] at hbreak
    exact hbreak.1
  have hmodifiers : methodOpening.Stays b (c :: s) := by
    refine (stays_opening (Text.forall_head ⟨hslash, hat⟩ _)).seq (Stays.group ?_ _)
    refine (fails_boundary_keyword fun w hw h => ?_).stays_star
    have hall : ∀ w ∈ ["public", "protected", "private", "abstract", "static", "final",
        "synchronized", "native", "strictfp", "default"], w.toList ∈ openingWords := by decide
    exact not_opens_of_isBreak hbreak (hall w hw) h.1
  have hgeneric : methodTypeParameters.Stays b (c :: s) :=
    (((fails_angled (Text.forall_head (P := (· ≠ '<')) hangle _)).group _).seq).stays_opt
  have hsignature : methodSignature.Fails b (c :: s) := by
    refine fails_methodSignature (Text.forall_head ?_ _)
    simp [hword, hdollar, hdot]
  intro pos next
  rw [method_run]
  exact hmodifiers.fails_seq (hgeneric.fails_seq hsignature) pos next

/-- No method starts at a space. -/
theorem fails_method_of_isSpace {b : Option Char} {s : Text} {c : Char}
    (hc : Text.isSpace c = true) : method.Fails b (c :: s) := by
  refine fails_method_of_isBreak (isBreak_of_isSpace hc) fun hmem => ?_
  have hnone : ∀ d ∈ ['/', '@', '<', '$', '.'], Text.isSpace d = false := by decide
  rw [hnone c hmem] at hc
  cases hc

/-- The pattern of a method between what may stand before its modifiers and its parenthesis. -/
def methodHead : Shape :=
  .group .modifiers (.star (boundary ++ keyword
      ["public", "protected", "private", "abstract", "static", "final", "synchronized", "native",
        "strictfp", "default"])) ++
    methodTypeParameters ++ boundary ++ .group .result typeText ++ someSpaces ++
    .group .name identifier ++ spaces

/-- The pattern of a method after the parenthesis that opens its parameters. -/
def methodRest : Shape :=
  .group .parameters parenthesized ++ .lit ")" ++ spaces ++
    .star (squarePair ++ spaces) ++
    .opt (keyword ["throws"] ++ .lazyPlus (except "\x7b\x7d;")) ++ spaces ++
    .oneOf ["\x7b", ";"]

theorem method_run_head (next : Goal Part) (r : Place) :
    method.run next r = (opening ++ (methodHead ++ .lit "(")).run (methodRest.run next) r := rfl

theorem within_methodHead : methodHead.Within (· ≠ ';') := by
  have hchar : ∀ {accepts : Char → Bool}, accepts ';' = false →
      (Pattern.char accepts : Shape).Within (· ≠ ';') := by
    rintro accepts h c hc rfl
    simp [h] at hc
  have hspaces : spaces.Within (· ≠ ';') := hchar (by decide)
  have hsomeSpaces : someSpaces.Within (· ≠ ';') := ⟨hspaces, hspaces⟩
  have hangled : angled.Within (· ≠ ';') :=
    ⟨⟨within_lit (by decide), hchar (by decide)⟩, within_lit (by decide)⟩
  have htype : typeText.Within (· ≠ ';') :=
    within_typeText (by decide) (by decide) (by decide) (by decide)
  have hname : identifier.Within (· ≠ ';') := ⟨hchar (by decide), hchar (by decide)⟩
  have hmodifiers : (keyword ["public", "protected", "private", "abstract", "static", "final",
      "synchronized", "native", "strictfp", "default"]).Within (· ≠ ';') :=
    ⟨within_oneOf (by decide), hsomeSpaces⟩
  exact ⟨⟨⟨⟨⟨⟨⟨trivial, hmodifiers⟩, ⟨hangled, hspaces⟩, trivial⟩, trivial⟩, htype⟩, hsomeSpaces⟩,
    hname⟩, hspaces⟩

/-- No method starts where a declaration ends before any parenthesis. -/
theorem fails_method_of_semicolon {b : Option Char} {x y : Text}
    (hx : ∀ c ∈ x, c ≠ '/' ∧ c ≠ '@' ∧ c ≠ '(') : method.Fails b (x ++ ';' :: y) := by
  have hopening : opening.Stays b (x ++ ';' :: y) := by
    refine stays_opening ?_
    cases x with
    | nil => exact Text.forall_head (by decide) _
    | cons c x => exact Text.forall_head ⟨(hx c (by simp)).1, (hx c (by simp)).2.1⟩ _
  have hhead : (methodHead ++ .lit "(").Fails b (x ++ ';' :: y) := by
    refine fails_of_language fun w hw t heq => ?_
    obtain ⟨u, hu, v, hv, rfl⟩ := mem_language_seq.mp hw
    obtain rfl : v = ['('] := mem_language_lit.mp hv
    have hu := within_methodHead.of_mem_language u hu
    rw [List.append_assoc, List.singleton_append] at heq
    -- The parenthesis would stand before the semicolon, or the semicolon in what comes before it.
    rcases List.append_eq_append_iff.mp heq with ⟨m, rfl, hm⟩ | ⟨m, rfl, hm⟩
    · cases m with
      | nil => exact absurd (List.cons.inj hm).1 (by decide)
      | cons d m =>
        obtain ⟨rfl, _⟩ := List.cons.inj hm
        exact hu ';' (by simp) rfl
    · cases m with
      | nil => exact absurd (List.cons.inj hm).1 (by decide)
      | cons d m =>
        obtain ⟨rfl, _⟩ := List.cons.inj hm
        exact (hx '(' (by simp)).2.2 rfl
  intro pos next
  rw [method_run_head]
  exact hopening.fails_seq hhead pos _

theorem Method.print_eq (m : Method) :
    m.print = (generics (m.typeParameters.map String.toList) ++ (m.returnType.toList ++ ' ' ::
      (m.name.toList ++ '(' :: ([',', ' '].intercalate (m.parameters.map Parameter.print) ++
        [')', ';'])))) ++ ['\n'] := by
  have hend : ");\n".toList = [')', ';'] ++ ['\n'] := by decide
  unfold Method.print
  rw [hend]
  cases m.typeParameters with
  | none => simp [generics]
  | some s => simp [generics]

theorem isTypeParameters_of_mem {m : Method} (hm : m.Printable) :
    ∀ s ∈ m.typeParameters.map String.toList, IsTypeParameters s := by
  intro s hs
  obtain ⟨text, htext, rfl⟩ := Option.map_eq_some_iff.mp hs
  exact hm.typeParameters text htext

/-- The methods of printed members, before blank text. -/
theorem filterMap_methodOf?_print {ms : List Method} (hms : ∀ m ∈ ms, m.Printable) {t : Text}
    (ht : ∀ c ∈ t, Text.isSpace c = true) (docs : Bool) {members : Text} (hmembers : '=' ∉ members)
    {b : Option Char} (hb : ∀ d ∈ b, Text.isWordChar d = false) (pos : Nat) :
    (method.matchesFrom b pos (ms.flatMap Method.print ++ t)).filterMap (methodOf? docs members) =
      ms := by
  induction ms generalizing b pos with
  | nil =>
    have hnone := @matchesFrom_append _ method b pos t [] fun u v huv hv => by
      obtain ⟨c, cs, rfl⟩ := List.exists_cons_of_ne_nil hv
      exact fails_method_of_isSpace (ht c (by simp [huv]))
    rw [List.append_nil] at hnone
    rw [List.flatMap_nil, List.nil_append, hnone]
    rfl
  | cons m ms ih =>
    have hm := hms m (by simp)
    obtain ⟨marks, htakes, hmarks⟩ := @takes_method b pos _ _ _
      ('\n' :: (ms.flatMap Method.print ++ t)) _ hb hm.returnType hm.name
      (isTypeChar_of_mem_parameters hm.parameters) (isTypeParameters_of_mem hm)
    have hnewline : ∀ b, method.Fails b ('\n' :: (ms.flatMap Method.print ++ t)) := fun b =>
      fails_method_of_isSpace (by decide)
    have hrest := @ih (fun n hn => hms n (by simp [hn])) (some '\n') (by decide)
    rw [List.flatMap_cons, Method.print_eq, List.append_assoc, List.append_assoc,
      List.singleton_append, htakes.matchesFrom_cons_eq (by simp) (hnewline _), List.filterMap_cons,
      methodOf?_print hm docs hmembers _ hmarks, hrest]

theorem Field.print_eq_append (f : Field) :
    f.print = ("public ".toList ++ (f.typeName.toList ++ ' ' :: f.name.toList)) ++ [';', '\n'] := by
  rw [Field.print_eq]
  simp

/-- The line of a field up to its semicolon is written like a type. -/
theorem isTypeChar_of_mem_field {f : Field} (hf : f.Printable) :
    ∀ c ∈ "public ".toList ++ (f.typeName.toList ++ ' ' :: f.name.toList), isTypeChar c = true := by
  have hpublic : ∀ c ∈ "public ".toList, isTypeChar c = true := by decide
  intro c hc
  simp only [List.mem_append, List.mem_cons] at hc
  rcases hc with hc | hc | rfl | hc
  · exact hpublic c hc
  · exact hf.type.entry.chars c hc
  · decide
  · exact isTypeChar_of_isPlainChar (isPlainChar_of_isName hf.name c hc)

/-- No method starts in the line of a field. -/
theorem method_matchesFrom_field {f : Field} (hf : f.Printable) (b : Option Char) (pos : Nat)
    (t : Text) :
    method.matchesFrom b pos (f.print ++ t) =
      method.matchesFrom (Text.lastOr b f.print) (pos + Text.byteLength f.print) t := by
  have hchars := isTypeChar_of_mem_field hf
  refine matchesFrom_append fun u v huv hv => ?_
  rw [Field.print_eq_append] at huv
  rcases List.append_eq_append_iff.mp huv with ⟨m, _, hm⟩ | ⟨m, hm, rfl⟩
  · -- The place is at the semicolon or behind it.
    rcases List.cons_eq_append_iff.mp hm with ⟨rfl, rfl⟩ | ⟨m', rfl, hm'⟩
    · exact @fails_method_of_semicolon _ [] _ (by simp)
    · rcases List.cons_eq_append_iff.mp hm' with ⟨rfl, rfl⟩ | ⟨m, rfl, hnil⟩
      · exact fails_method_of_isSpace (by decide)
      · exact absurd (List.append_eq_nil_iff.mp hnil.symm).2 hv
  · rw [List.append_assoc]
    refine fails_method_of_semicolon fun c hc => ?_
    have hc := hchars c (by rw [hm]; exact List.mem_append_right _ hc)
    exact ⟨ne_of_isTypeChar hc (by decide), ne_of_isTypeChar hc (by decide),
      ne_of_isTypeChar hc (by decide)⟩

theorem method_matchesFrom_fields {fs : List Field} (hfs : ∀ f ∈ fs, f.Printable) {b : Option Char}
    (hb : ∀ d ∈ b, Text.isWordChar d = false) (pos : Nat) (t : Text) :
    ∃ b' pos', (∀ d ∈ b', Text.isWordChar d = false) ∧
      method.matchesFrom b pos (fs.flatMap Field.print ++ t) = method.matchesFrom b' pos' t := by
  induction fs generalizing b pos with
  | nil => exact ⟨b, pos, hb, rfl⟩
  | cons f fs ih =>
    have hlast : Text.lastOr b f.print = some '\n' := by simp [Field.print_eq]
    obtain ⟨b', pos', hb', heq⟩ := @ih (fun g hg => hfs g (by simp [hg])) (some '\n') (by decide)
      (pos + Text.byteLength f.print)
    refine ⟨b', pos', hb', ?_⟩
    rw [List.flatMap_cons, List.append_assoc, method_matchesFrom_field (hfs f (by simp)),
      hlast, heq]

-- ---------------------------------------------------------------------------
-- Lines
-- ---------------------------------------------------------------------------

/-- Characters of declarations on one line. -/
def isLineChar (c : Char) : Bool := isTypeChar c || "();*\n".toList.contains c

theorem ne_of_isLineChar {c d : Char} (hc : isLineChar c = true) (hd : isLineChar d = false) :
    c ≠ d := by
  rintro rfl
  simp_all

theorem isLineChar_of_isTypeChar {c : Char} (h : isTypeChar c = true) : isLineChar c = true := by
  simp [isLineChar, h]

theorem isLineChar_of_mem_field {f : Field} (hf : f.Printable) :
    ∀ c ∈ f.print, isLineChar c = true := by
  have hend : ∀ c ∈ [';', '\n'], isLineChar c = true := by decide
  intro c hc
  rw [Field.print_eq_append] at hc
  rcases List.mem_append.mp hc with hc | hc
  · exact isLineChar_of_isTypeChar (isTypeChar_of_mem_field hf c hc)
  · exact hend c hc

theorem isTypeChar_of_mem_generics {typeParameters : Option Text}
    (h : ∀ s ∈ typeParameters, IsTypeParameters s) :
    ∀ c ∈ generics typeParameters, isTypeChar c = true := by
  cases typeParameters with
  | none => simp [generics]
  | some s =>
    obtain ⟨_, _, _, hshape⟩ := (h s rfl).exists_inner
    intro c hc
    rcases List.mem_append.mp hc with hc | hc
    · exact hshape.chars c hc
    · obtain rfl : c = ' ' := by simpa using hc
      decide

theorem avoids_generics {typeParameters : Option Text}
    (h : ∀ s ∈ typeParameters, IsTypeParameters s) {t : Text} (ht : Text.Avoids openingWords t) :
    Text.Avoids openingWords (generics typeParameters ++ t) := by
  cases typeParameters with
  | none => exact ht
  | some s =>
    obtain ⟨_, _, _, hshape⟩ := (h s rfl).exists_inner
    rw [generics, List.append_assoc]
    exact avoids_append_cons (by decide) hshape.avoids ht

section Method

variable {m : Method} (hm : m.Printable)

include hm

theorem isLineChar_of_mem_method : ∀ c ∈ m.print, isLineChar c = true := by
  have hbreaks : ∀ c ∈ [' ', '(', ')', ';', '\n'], isLineChar c = true := by decide
  intro c hc
  rw [Method.print_eq] at hc
  simp only [List.mem_append, List.mem_cons, List.not_mem_nil, or_false] at hc
  rcases hc with (hc | hc | rfl | hc | rfl | hc | rfl | rfl) | rfl
  · exact isLineChar_of_isTypeChar (isTypeChar_of_mem_generics (isTypeParameters_of_mem hm) c hc)
  · exact isLineChar_of_isTypeChar (hm.returnType.entry.chars c hc)
  · exact hbreaks _ (by simp)
  · exact isLineChar_of_isTypeChar (isTypeChar_of_isPlainChar (isPlainChar_of_isName hm.name c hc))
  · exact hbreaks _ (by simp)
  · exact isLineChar_of_isTypeChar (isTypeChar_of_mem_parameters hm.parameters c hc)
  all_goals exact hbreaks _ (by simp)

/-- The line of a method holds no opening word. -/
theorem quiet_method : Quiet m.print := by
  refine ⟨?_, ?_, fun c hc => ?_⟩
  · have hname := avoids_append_cons (c := '(') (by decide) (avoids_of_isName hm.name)
      (avoids_append_cons (c := ')') (by decide) (avoids_parameters hm.parameters)
        (avoids_cons (c := ';') (by decide) (avoids_cons (c := '\n') (by decide) avoids_nil)))
    have hline := avoids_generics (isTypeParameters_of_mem hm)
      (avoids_append_cons (c := ' ') (by decide) hm.returnType.entry.avoids hname)
    rw [Method.print_eq]
    simpa using hline
  · rw [Method.print_eq, List.getLast?_concat]
    exact fun c hc => Option.some.inj hc ▸ by decide
  · have hc := isLineChar_of_mem_method hm c hc
    exact ⟨ne_of_isLineChar hc (by decide), ne_of_isLineChar hc (by decide)⟩

end Method

/-- Every character of printed members is that of a line. -/
theorem isLineChar_of_mem_printMembers {o : TypeOutline} (ho : o.Printable) :
    ∀ c ∈ o.printMembers, isLineChar c = true := by
  intro c hc
  rcases List.mem_cons.mp hc with rfl | hc
  · decide
  · rcases List.mem_append.mp hc with hc | hc
    · obtain ⟨f, hf, hc⟩ := List.mem_flatMap.mp hc
      exact isLineChar_of_mem_field (ho.fields f hf) c hc
    · obtain ⟨m, hm, hc⟩ := List.mem_flatMap.mp hc
      exact isLineChar_of_mem_method (ho.methods m hm) c hc

-- ---------------------------------------------------------------------------
-- Members
-- ---------------------------------------------------------------------------

/-- The fields of printed members are read back. -/
theorem fields_printMembers {o : TypeOutline} (ho : o.Printable) (docs : Bool) {t : Text}
    (ht : ∀ c ∈ t, Text.isSpace c = true) : fields docs (o.printMembers ++ t) = o.fields := by
  have hquiet : Quiet (o.methods.flatMap Method.print ++ t) :=
    (Quiet.flatMap fun m hm => quiet_method (ho.methods m hm)).append (.of_isSpace ht)
  have hnewline : ∀ s, field.Fails none ('\n' :: s) := fun s =>
    fails_field (Text.forall_head (by decide) _) fun w hw h =>
      not_opens_of_isBreak (by decide) hw h.1
  have hmatches : field.allMatches (o.printMembers ++ t) = field.matchesFrom (some '\n')
      (0 + '\n'.utf8Size) (o.fields.flatMap Field.print ++
       (o.methods.flatMap Method.print ++ t)) := by
    rw [allMatches_eq_matchesFrom, TypeOutline.printMembers, List.cons_append, List.append_assoc,
      (hnewline _).matchesFrom_cons]
  rw [fields, hmatches]
  exact flatMap_fieldsOf_print ho.fields hquiet docs _ (by decide) _

/-- The methods of printed members are read back. -/
theorem methods_printMembers {o : TypeOutline} (ho : o.Printable) (docs : Bool) {t : Text}
    (ht : ∀ c ∈ t, Text.isSpace c = true) : methods docs (o.printMembers ++ t) = o.methods := by
  have hequals : '=' ∉ o.printMembers ++ t := by
    intro hmem
    rcases List.mem_append.mp hmem with hmem | hmem
    · exact absurd (isLineChar_of_mem_printMembers ho _ hmem) (by decide)
    · exact absurd (ht _ hmem) (by decide)
  have hnewline : ∀ s, method.Fails none ('\n' :: s) := fun s => fails_method_of_isSpace (by decide)
  obtain ⟨b, pos, hb, hfields⟩ := @method_matchesFrom_fields _ ho.fields (some '\n') (by decide)
    (0 + '\n'.utf8Size) (o.methods.flatMap Method.print ++ t)
  have hmatches : method.allMatches (o.printMembers ++ t) =
      method.matchesFrom b pos (o.methods.flatMap Method.print ++ t) := by
    rw [allMatches_eq_matchesFrom, TypeOutline.printMembers, List.cons_append, List.append_assoc,
      (hnewline _).matchesFrom_cons, hfields]
  rw [methods, hmatches]
  exact filterMap_methodOf?_print ho.methods ht docs hequals hb pos

end Typings.Source
