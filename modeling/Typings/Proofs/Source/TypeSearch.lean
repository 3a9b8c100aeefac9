import Typings.Proofs.Source.Header
import Typings.Proofs.Source.PrintedHeader
import Typings.Proofs.Source.PrintedMembers

/-!
# Finding printed headers

The search for types finds the header of every printed type and passes over everything else that is
printed: a line of another declaration may open with a modifier, but no kind of type follows it.
Main statements: `takes_typeHeader` and `Passed`.
-/

namespace Typings.Source

open Declaration Pattern

-- ---------------------------------------------------------------------------
-- Modifiers
-- ---------------------------------------------------------------------------

/-- The modifiers of types. -/
def typeModifiers : List String :=
  ["public", "protected", "private", "abstract", "static", "final", "sealed", "non-sealed",
    "strictfp"]

/-- Words with a space after each of them. -/
def modifiersText (words : List String) : Text := words.flatMap fun w => w.toList ++ [' ']

/-- What is known of every modifier. -/
theorem typeModifiers_facts : ∀ w ∈ typeModifiers, (∀ c ∈ w.toList, isBreak c = false) ∧
    (∀ c ∈ w.toList, Text.isSpace c = false) ∧ (∃ c cs, w.toList = c :: cs ∧ isPlainChar c = true) ∧
    ∀ other ∈ typeModifiers, ' ' ∉ other.toList ∧ (other.toList <+: w.toList → other = w) := by
  have hfacts : ∀ w ∈ typeModifiers, (∀ c ∈ w.toList, isBreak c = false) ∧
      (∀ c ∈ w.toList, Text.isSpace c = false) ∧ w.toList ≠ [] ∧
      (∀ c ∈ w.toList.head?, isPlainChar c = true) ∧
      ∀ other ∈ typeModifiers, ' ' ∉ other.toList ∧ (other.toList <+: w.toList → other = w) := by
    decide
  intro w hw
  obtain ⟨hbreak, hspace, hne, hhead, hother⟩ := hfacts w hw
  obtain ⟨c, cs, hcs⟩ := List.exists_cons_of_ne_nil hne
  exact ⟨hbreak, hspace, ⟨c, cs, hcs, hhead c (by simp [hcs])⟩, hother⟩

/-- Modifiers start like names. -/
theorem head_modifiersText {words : List String} (hwords : ∀ w ∈ words, w ∈ typeModifiers)
    {P : Char → Prop} (hplain : ∀ {c}, isPlainChar c = true → P c) {t : Text}
    (ht : ∀ c ∈ t.head?, P c) :
    ∀ c ∈ (modifiersText words ++ t).head?, P c := by
  cases words with
  | nil => exact ht
  | cons w words =>
    obtain ⟨_, _, ⟨d, ds, hds, hd⟩, _⟩ := typeModifiers_facts w (hwords w (by simp))
    simp only [modifiersText, List.flatMap_cons, hds, List.cons_append]
    exact Text.forall_head (hplain hd) _

/-- All modifiers before a text that starts with none are taken. -/
theorem takes_modifiers {words : List String} (hwords : ∀ w ∈ words, w ∈ typeModifiers)
    {b : Option Char} {pos : Nat} {t : Text} (hb : ∀ d ∈ b, Text.isWordChar d = false)
    (hspace : ∀ c ∈ t.head?, Text.isSpace c = false)
    (ht : ∀ w ∈ typeModifiers, ¬Opens w.toList t) :
    (Pattern.star (boundary ++ keyword typeModifiers)).Takes b pos (modifiersText words) t [] := by
  induction words generalizing b pos with
  | nil => exact takes_star_of_fails (fails_boundary_keyword fun w hw h => ht w hw h.1)
  | cons w words ih =>
    obtain ⟨_, _, ⟨c, cs, hcs, hc⟩, hother⟩ := typeModifiers_facts w (hwords w (by simp))
    have hrest := @ih (fun v hv => hwords v (by simp [hv])) (some ' ')
      (pos + Text.byteLength (w.toList ++ [' '])) (by decide)
    have hhead : ∀ d ∈ (modifiersText words ++ t).head?, Text.isSpace d = false :=
      head_modifiersText (fun v hv => hwords v (by simp [hv])) isSpace_of_isPlainChar hspace
    have hboundary : boundary.Takes b pos []
        (w.toList ++ (' ' :: (modifiersText words ++ t))) [] := by
      rw [hcs]
      exact takes_boundary hb hc
    have hword : ∀ b pos, (Pattern.oneOf typeModifiers).Takes b pos w.toList
        (' ' :: (modifiersText words ++ t)) ([] : List (Mark Part)) := fun _ _ =>
      takes_oneOf_cons (hwords w (by simp)) hother
    have hround : (boundary ++ keyword typeModifiers).Takes b pos (w.toList ++ [' '])
        (modifiersText words ++ t) [] :=
      hboundary.andThen ((hword _ _).andThen (takes_someSpaces hhead) rfl) (by simp)
    have hlast : Text.lastOr b (w.toList ++ [' ']) = some ' ' := by simp
    have h := hround.round (by simp) (hlast ▸ hrest)
    simpa [modifiersText] using h

theorem lastOr_modifiersText (words : List String) {b : Option Char}
    (hb : ∀ d ∈ b, Text.isWordChar d = false) :
    ∀ d ∈ Text.lastOr b (modifiersText words), Text.isWordChar d = false := by
  induction words generalizing b with
  | nil => exact hb
  | cons w words ih =>
    have hspace : ∀ d ∈ some ' ', Text.isWordChar d = false := by decide
    rw [modifiersText, List.flatMap_cons, Text.lastOr_append, Text.lastOr_append]
    exact ih hspace

theorem words_modifiersText {words : List String} (hwords : ∀ w ∈ words, w ∈ typeModifiers) :
    Text.words (modifiersText words) = words.map String.toList := by
  induction words with
  | nil => rfl
  | cons w words ih =>
    obtain ⟨_, hspace, ⟨c, cs, hcs, _⟩, _⟩ := typeModifiers_facts w (hwords w (by simp))
    have hw : Text.words w.toList = [w.toList] := Text.words_of_forall (by simp [hcs]) hspace
    have hsplit := Text.words_append_space isSpace_space w.toList (modifiersText words)
    rw [hw, ih fun v hv => hwords v (by simp [hv])] at hsplit
    simpa [modifiersText] using hsplit

theorem hasModifier_modifiersText {words : List String} (hwords : ∀ w ∈ words, w ∈ typeModifiers)
    (word : String) : hasModifier (modifiersText words) word = decide (word ∈ words) := by
  rw [hasModifier, words_modifiersText hwords, List.contains_eq_mem]
  simp [String.toList_inj]

-- ---------------------------------------------------------------------------
-- Headers
-- ---------------------------------------------------------------------------

/-- The modifiers of a printed type. -/
def printedModifiers (top : Bool) (o : TypeOutline) : List String :=
  (if top then ["public"] else []) ++ if o.isAbstract then ["abstract"] else []

theorem printedModifiers_subset (top : Bool) (o : TypeOutline) :
    ∀ w ∈ printedModifiers top o, w ∈ typeModifiers := by
  unfold printedModifiers
  cases top <;> cases o.isAbstract <;> decide

theorem printOpening_eq (top : Bool) (o : TypeOutline) :
    o.printOpening top = modifiersText (printedModifiers top o) ++
      (o.kind.keyword.toList ++ ' ' :: o.name.toList) := by
  have hpublic : "public ".toList = "public".toList ++ [' '] := by decide
  have habstract : "abstract ".toList = "abstract".toList ++ [' '] := by decide
  unfold TypeOutline.printOpening printedModifiers modifiersText
  rw [hpublic, habstract]
  cases top <;> cases o.isAbstract <;> simp

/-- What the pattern for headers remembers of a type at an offset. -/
structure HeaderMarks (marks : List (Mark Part)) (pos : Nat) (top : Bool) (o : TypeOutline) :
    Prop where
  modifiers : ∀ whole, Match.text ⟨whole, marks⟩ .modifiers = modifiersText (printedModifiers top o)
  kind : ∀ whole, ∃ part, Match.get? ⟨whole, marks⟩ .kind = some part ∧
    part.text = o.kind.keyword.toList
  name : ∀ whole, ∃ part, Match.get? ⟨whole, marks⟩ .name = some part ∧
    part.text = o.name.toList ∧ part.stop = pos + Text.byteLength (o.printOpening top)
  doc : ∀ whole, Match.get? ⟨whole, marks⟩ .doc = none

theorem keyword_facts (kind : TypeKind) : (∀ d ∈ kind.keyword.toList, isBreak d = false) ∧
    (∃ c cs, kind.keyword.toList = c :: cs ∧ isPlainChar c = true) ∧
    ∀ w ∈ typeModifiers, w.toList ≠ kind.keyword.toList := by
  cases kind with
  | interface => exact ⟨by decide, ⟨'i', "nterface".toList, by decide⟩, by decide⟩
  | class_ => exact ⟨by decide, ⟨'c', "lass".toList, by decide⟩, by decide⟩

/-- The header of a printed type is taken up to its name. -/
theorem takes_typeHeader {b : Option Char} {pos : Nat} {t : Text} (top : Bool) {o : TypeOutline}
    (hb : ∀ d ∈ b, Text.isWordChar d = false) (hname : isName o.name.toList = true)
    (ht : ∀ c ∈ t.head?, (Text.isWordChar c || c = '$') = false) :
    ∃ marks, typeHeader.Takes b pos (o.printOpening top) t marks ∧ HeaderMarks marks pos top o := by
  have hmods := printedModifiers_subset top o
  rw [printOpening_eq]
  obtain ⟨hkindBreak, ⟨c, cs, hcs, hc⟩, hkindWord⟩ := keyword_facts o.kind
  have hspace : ∀ d ∈ (o.kind.keyword.toList ++ ' ' :: (o.name.toList ++ t)).head?,
      Text.isSpace d = false := by
    rw [hcs]
    exact Text.forall_head (isSpace_of_isPlainChar hc) _
  have hnone : ∀ {d : Char}, isPlainChar d = true → d ≠ '/' ∧ d ≠ '@' := fun h =>
    forall_isPlainChar (P := fun c => c ≠ '/' ∧ c ≠ '@') (by decide) h
  have hopening : opening.Takes b pos [] (modifiersText (printedModifiers top o) ++
      (o.kind.keyword.toList ++ ' ' :: (o.name.toList ++ t))) [] := by
    refine takes_opening (head_modifiersText hmods hnone ?_)
    rw [hcs]
    exact Text.forall_head (hnone hc) _
  have hmodifiers : (Pattern.star (boundary ++ keyword typeModifiers)).Takes b pos
      (modifiersText (printedModifiers top o))
      (o.kind.keyword.toList ++ ' ' :: (o.name.toList ++ t)) [] :=
    takes_modifiers hmods hb hspace fun w hw h =>
      hkindWord w hw (h.eq (by decide) hkindBreak (typeModifiers_facts w hw).1)
  have hlast := lastOr_modifiersText (printedModifiers top o) hb
  have hboundary : ∀ pos, boundary.Takes
      (Text.lastOr b (modifiersText (printedModifiers top o))) pos []
      (o.kind.keyword.toList ++ ' ' :: (o.name.toList ++ t)) [] := fun _ => by
    rw [hcs]
    exact takes_boundary hlast hc
  have hkind : ∀ b pos, (Pattern.oneOf ["interface", "class"]).Takes b pos o.kind.keyword.toList
      (' ' :: (o.name.toList ++ t)) ([] : List (Mark Part)) := fun _ _ => by
    cases o.kind <;> exact takes_oneOf_cons (by simp [TypeKind.keyword]) (by decide)
  have hnameSpace : ∀ d ∈ (o.name.toList ++ t).head?, Text.isSpace d = false := by
    obtain ⟨d, ds, hds, hd⟩ := (isPath_of_isName hname).head
    rw [hds]
    exact Text.forall_head (isSpace_of_isPlainChar hd) _
  have hnameTakes : ∀ b pos, identifier.Takes b pos o.name.toList t [] := fun _ _ =>
    takes_identifier hname ht
  have h := ((((hopening.andThen (hmodifiers.captured .modifiers) rfl).andThen (hboundary _)
    rfl).andThen ((hkind _ _).captured .kind) rfl).andThen
      (takes_someSpaces hnameSpace) rfl).andThen
    ((hnameTakes _ _).captured .name) rfl
  simp only [List.append_nil, List.nil_append, List.append_assoc, List.singleton_append] at h
  refine ⟨_, h, ?_, ?_, ?_, ?_⟩
  · intro whole
    exact Match.text_captured
  · intro whole
    rw [Match.get?_captured_of_ne (by decide), Match.get?_captured]
    exact ⟨_, rfl, Capture.text_append _ _ _⟩
  · intro whole
    rw [Match.get?_captured_of_ne (by decide), Match.get?_captured_of_ne (by decide),
      Match.get?_captured_nil, printOpening_eq]
    refine ⟨_, rfl, Capture.text_append _ _ _, ?_⟩
    simp [Nat.add_assoc]
  · intro whole
    rw [Match.get?_captured_of_ne (by decide), Match.get?_captured_of_ne (by decide),
      Match.get?_captured_nil_of_ne (by decide)]

/-- A type without its members. -/
def withoutMembers (o : TypeOutline) : TypeOutline := { o with methods := [], fields := [] }

/-- The match of a printed header gives the type without its members and the rest of its header. -/
theorem headerOf?_print {o : TypeOutline} (ho : o.Printable) {docs publicOnly top : Bool}
    (hpublic : publicOnly = true → top = true) {masked : Masked} {before rest : Text}
    (hmasked : masked.text = before ++ (o.printOpening top ++ (o.printTail ++ '{' :: rest)))
    (hdocs : masked.docs = []) (hat : '@' ∉ masked.text) (whole : Capture)
    {marks : List (Mark Part)}
    (hmarks : HeaderMarks marks (Text.byteLength before) top o) :
    headerOf? docs publicOnly masked ⟨whole, marks⟩ = some (withoutMembers o,
      o.headerTail (Text.byteLength (before ++ (o.printOpening top ++ o.printTail)))) := by
  have hmods := printedModifiers_subset top o
  obtain ⟨kindPart, hkind, hkindText⟩ := hmarks.kind whole
  obtain ⟨namePart, hname, hnameText, hstop⟩ := hmarks.name whole
  have hbody : headerTail masked.text namePart.stop = .ok (some
      (o.headerTail (Text.byteLength (before ++ (o.printOpening top ++ o.printTail))))) := by
    have hlen : namePart.stop = Text.byteLength (before ++ o.printOpening top) := by
      rw [hstop, Text.byteLength_append]
    rw [headerTail, hmasked, hlen, ← List.append_assoc before, Text.suffixAt?_append]
    simp only [o.tailAfterName?_printTail ho, Text.byteLength_append, Nat.add_assoc]
  refine headerOf?_eq_some_iff.mpr ⟨o.kind, namePart,
    ⟨⟨kindPart, hkind, ?_, ?_, ?_⟩, hname, ?_, hbody⟩, ?_⟩
  · rw [Masked.inDoc, hdocs]
    rfl
  · intro hlast
    have hmem := List.mem_of_getLast? hlast
    rw [← Text.takeBytes_append_dropBytes kindPart.start masked.text] at hat
    exact hat (List.mem_append_left _ hmem)
  · rw [hkindText, String.ofList_toList]
    exact TypeKind.ofKeyword?_eq_some_iff.mpr rfl
  · intro h
    rw [hmarks.modifiers, hasModifier_modifiersText hmods, printedModifiers, hpublic h]
    simp
  · have habstract : hasModifier (Match.text ⟨whole, marks⟩ .modifiers) "abstract" =
        o.isAbstract := by
      rw [hmarks.modifiers, hasModifier_modifiersText hmods, printedModifiers]
      cases top <;> cases o.isAbstract <;> decide
    simp only [outlineOf, withoutMembers, hnameText, String.ofList_toList, habstract,
      docOf_eq_none (hmarks.doc whole), TypeOutline.headerTail]
    obtain ⟨name, kind, isAbstract, typeParameters, superTypes, interfaces, doc, methods, fields⟩ :=
      o
    obtain rfl : doc = none := ho.doc
    simp [Function.comp_def]

-- ---------------------------------------------------------------------------
-- Passing over other text
-- ---------------------------------------------------------------------------

/-- The words that declare a type. -/
def kindWords : List String := ["interface", "class"]

/-- The pattern for headers after the modifiers, up to the space before the name. -/
def kindShape : Shape := boundary ++ (.group .kind (.oneOf kindWords) ++ someSpaces)

theorem typeHeader_run (next : Goal Part) (r : Place) :
    typeHeader.run next r =
      (opening ++ (.group .modifiers (.star (boundary ++ keyword typeModifiers)) ++ kindShape)).run
        ((Pattern.group .name identifier).run next) r := rfl

theorem fails_kindShape {b : Option Char} {s : Text} (h : ∀ w ∈ kindWords, ¬OpensAt b w.toList s) :
    kindShape.Fails b s :=
  fails_boundary fun hb => fails_group_keyword fun w hw hopens => h w hw ⟨hopens, hb⟩

/-- No header starts where no opening word stands. -/
theorem fails_typeHeader {b : Option Char} {s : Text} (hs : ∀ c ∈ s.head?, c ≠ '/' ∧ c ≠ '@')
    (hwords : ∀ w ∈ openingWords, ¬OpensAt b w s) : typeHeader.Fails b s := by
  have hall : ∀ w ∈ typeModifiers ++ kindWords, w.toList ∈ openingWords := by decide
  have hmodifiers : (Pattern.group .modifiers
      (.star (boundary ++ keyword typeModifiers))).Stays b s :=
    (fails_boundary_keyword fun w hw => hwords _ (hall w (by simp [hw]))).stays_star.group _
  have hkind : kindShape.Fails b s :=
    fails_kindShape fun w hw => hwords _ (hall w (List.mem_append_right _ hw))
  intro pos next
  rw [typeHeader_run]
  exact (stays_opening hs).fails_seq (hmodifiers.fails_seq hkind) pos _

/-- No header starts at a word that is no kind of type and that no modifier or kind follows. -/
theorem fails_typeHeader_of_word {b : Option Char} {v x : Text} (hne : ∀ c ∈ v, isBreak c = false)
    (hkind : ∀ w ∈ kindWords, w.toList ≠ v)
    (hspace : ∀ c ∈ x.head?, Text.isSpace c = false)
    (hx : StartsWithName x ∨ ∀ w ∈ typeModifiers, w.toList ≠ v) :
    typeHeader.Fails b (v ++ ' ' :: x) := by
  have hkindBreak : ∀ w ∈ kindWords, isName w.toList = false ∧
      ∀ c ∈ w.toList, isBreak c = false := by
    decide
  have hmodBreak : ∀ w ∈ typeModifiers, isName w.toList = false ∧
      ∀ c ∈ w.toList, isBreak c = false := by
    decide
  have hopening : opening.Stays b (v ++ ' ' :: x) := by
    refine stays_opening ?_
    cases v with
    | nil => exact Text.forall_head (by decide) _
    | cons c v =>
      have hc := hne c (by simp)
      refine Text.forall_head ⟨?_, ?_⟩ _
      · rintro rfl
        exact absurd hc (by decide)
      · rintro rfl
        exact absurd hc (by decide)
  have hrest : (.group .modifiers (.star (boundary ++ keyword typeModifiers)) ++ kindShape :
      Shape).Fails
      b (v ++ ' ' :: x) := by
    refine fails_seq_of_language fun w hw t heq => ?_
    obtain ⟨rounds, rfl, hrounds⟩ := Language.mem_kstar.mp hw
    -- What follows the word: nothing was taken, or the word as a modifier and the space after it.
    cases rounds with
    | nil =>
      obtain rfl : v ++ ' ' :: x = t := by simpa using heq
      exact fails_kindShape fun u hu h => hkind u hu (h.1.eq (by decide) hne (hkindBreak u hu).2)
    | cons first others =>
      obtain ⟨hmem, hrest⟩ := rest_eq_of_round hne (fun w hw => (hmodBreak w hw).2)
        (hrounds first (by simp)) hspace (by simpa using heq)
      have hstarts : StartsWithName x := by
        refine hx.resolve_right fun hno => ?_
        obtain ⟨u, hu, rfl⟩ := List.mem_map.mp hmem
        exact hno u hu rfl
      cases others with
      | nil =>
        obtain rfl : x = t := by simpa using hrest
        exact fails_kindShape fun u hu h =>
          not_opens_of_startsWithName hstarts (hkindBreak u hu).1 (hkindBreak u hu).2 h.1
      | cons second others =>
        exfalso
        obtain ⟨_, rfl, u, hu, rfl⟩ := mem_language_seq.mp (hrounds second (by simp))
        obtain ⟨w, hw, hopens⟩ := exists_opens_of_mem_keyword (t := others.flatten ++ t) hu
          (by simpa using hrest)
        exact not_opens_of_startsWithName hstarts (hmodBreak w hw).1 (hmodBreak w hw).2 hopens
  intro pos next
  rw [typeHeader_run]
  exact hopening.fails_seq hrest pos _

/-- The words that open declarations on one line. -/
def lineWords : List Text := ["public", "static", "package", "import"].map String.toList

/-- A text that the search for types passes over. -/
structure Passed (x : Text) : Prop where
  last : ∀ c ∈ x.getLast?, Text.isWordChar c = false
  matchesFrom_append : ∀ b pos t, typeHeader.matchesFrom b pos (x ++ t) =
    typeHeader.matchesFrom (Text.lastOr b x) (pos + Text.byteLength x) t

theorem passed_of_quiet {x : Text} (h : Quiet x) : Passed x := by
  refine ⟨fun c hc => ?_, h.matchesFrom_append fun _ _ => fails_typeHeader⟩
  have := h.last c hc
  simp only [isBreak, Bool.and_eq_true, Bool.not_eq_true'] at this
  exact this.1

namespace Passed

variable {x y : Text}

theorem append (hx : Passed x) (hy : Passed y) : Passed (x ++ y) := by
  refine ⟨fun c hc => ?_, fun b pos t => ?_⟩
  · rw [List.getLast?_append, Option.mem_def, Option.or_eq_some_iff] at hc
    rcases hc with hc | ⟨_, hc⟩
    · exact hy.last c hc
    · exact hx.last c hc
  · rw [List.append_assoc, hx.matchesFrom_append, hy.matchesFrom_append]
    simp [Nat.add_assoc]

theorem flatMap {α : Type} {f : α → Text} {xs : List α} (h : ∀ x ∈ xs, Passed (f x)) :
    Passed (xs.flatMap f) := by
  induction xs with
  | nil => exact passed_of_quiet .nil
  | cons x xs ih => exact (h x (by simp)).append (ih fun y hy => h y (by simp [hy]))

theorem lastOr (hx : Passed x) {b : Option Char} (hb : ∀ d ∈ b, Text.isWordChar d = false) :
    ∀ d ∈ Text.lastOr b x, Text.isWordChar d = false := by
  rcases List.eq_nil_or_concat x with rfl | ⟨x, c, rfl⟩
  · exact hb
  · have hc := hx.last c (by simp)
    simpa using hc

/-- A word that opens another declaration, and then a text that is passed over. -/
theorem of_word {v : Text} (hv : v ∈ lineWords) (hx : Passed x) (hne : x ≠ [])
    (hspace : ∀ c ∈ x.head?, Text.isSpace c = false)
    (hstarts : StartsWithName x ∨ ∀ w ∈ typeModifiers, w.toList ≠ v) : Passed (v ++ ' ' :: x) := by
  have hfacts : ∀ v ∈ lineWords, v ≠ [] ∧ (∀ c ∈ v, isBreak c = false) ∧
      (∀ w ∈ kindWords, w.toList ≠ v) ∧ (∀ c ∈ v.tail, Text.isWordChar c = true) ∧
      v.tail ∉ openingWords ∧ ∀ c ∈ v.tail ++ [' '], c ≠ '/' ∧ c ≠ '@' := by decide
  obtain ⟨hvne, hbreak, hkind, hword, htail, hchars⟩ := hfacts v hv
  obtain ⟨c, cs, rfl⟩ := List.exists_cons_of_ne_nil hvne
  have hquiet : Quiet (cs ++ [' ']) := by
    refine ⟨avoids_append_cons (by decide) (.of_forall hword htail) avoids_nil, ?_, hchars⟩
    rw [List.getLast?_concat]
    exact fun d hd => Option.some.inj hd ▸ by decide
  have hrest := (passed_of_quiet hquiet).append hx
  have hfirst : ∀ b t, typeHeader.Fails b (c :: cs ++ ' ' :: (x ++ t)) := by
    intro b t
    refine fails_typeHeader_of_word hbreak hkind ?_ ?_
    · obtain ⟨d, ds, rfl⟩ := List.exists_cons_of_ne_nil hne
      exact Text.forall_head (hspace d (by simp)) _
    · refine hstarts.imp_left fun h => ?_
      obtain ⟨n, u, rfl, hn, hu⟩ := h
      cases u with
      | nil =>
        -- A name alone would end with a word character.
        obtain ⟨ds, d, hds, hd⟩ := (isPath_of_isName hn).last
        have := hx.last d (by simp [hds])
        simp [isWordChar_of_isPlainChar hd] at this
      | cons d u => exact ⟨n, d :: u ++ t, by simp, hn, by simpa using hu⟩
  refine ⟨fun d hd => hx.last d ?_, fun b pos t => ?_⟩
  · have hsplit : c :: cs ++ ' ' :: x = (c :: cs ++ [' ']) ++ x := by simp
    rw [hsplit, List.getLast?_append, List.getLast?_eq_some_getLast hne, Option.some_or] at hd
    rw [List.getLast?_eq_some_getLast hne]
    exact hd
  · have hsplit : c :: cs ++ ' ' :: x ++ t = c :: (cs ++ [' '] ++ x ++ t) := by simp
    have hfail : typeHeader.Fails b (c :: (cs ++ [' '] ++ x ++ t)) := by
      simpa using hfirst b t
    rw [hsplit, hfail.matchesFrom_cons, hrest.matchesFrom_append]
    simp [Nat.add_assoc]

end Passed

/-- A line in which nothing opens. -/
theorem quiet_line {x : Text} (hchars : ∀ c ∈ x ++ ['\n'], isLineChar c = true)
    (havoids : Text.Avoids openingWords x) : Quiet (x ++ ['\n']) := by
  refine ⟨avoids_append_cons (by decide) havoids avoids_nil, ?_, fun c hc => ?_⟩
  · rw [List.getLast?_concat]
    exact fun d hd => Option.some.inj hd ▸ by decide
  · exact ⟨ne_of_isLineChar (hchars c hc) (by decide), ne_of_isLineChar (hchars c hc) (by decide)⟩

theorem passed_field {f : Field} (hf : f.Printable) : Passed f.print := by
  have hpublic : "public ".toList = "public".toList ++ [' '] := by decide
  have hline : f.print = "public".toList ++ ' ' ::
      (f.typeName.toList ++ ' ' :: (f.name.toList ++ [';']) ++ ['\n']) := by
    rw [Field.print_eq, hpublic]
    simp
  have hchars := isLineChar_of_mem_field hf
  rw [hline] at hchars ⊢
  have hstarts : StartsWithName
      (f.typeName.toList ++ ' ' :: (f.name.toList ++ [';']) ++ ['\n']) := by
    rw [List.append_assoc]
    exact hf.type.startsWithName.append (Text.forall_head (by decide) _)
  have hquiet := quiet_line (x := f.typeName.toList ++ ' ' :: (f.name.toList ++ [';']))
    (fun c hc => hchars c (List.mem_append_right _ (List.mem_cons_of_mem _ hc)))
    (avoids_append_cons (by decide) hf.type.entry.avoids
      (avoids_append_cons (by decide) (avoids_of_isName hf.name) avoids_nil))
  exact .of_word (by decide) (passed_of_quiet hquiet) (by simp) hstarts.isSpace_head (.inl hstarts)

/-- The search for types passes over printed members. -/
theorem passed_printMembers {o : TypeOutline} (ho : o.Printable) : Passed o.printMembers := by
  have hnewline : Passed ['\n'] := passed_of_quiet (.of_isSpace (by decide))
  have hfields : Passed (o.fields.flatMap Field.print) :=
    .flatMap fun f hf => passed_field (ho.fields f hf)
  have hmethods : Passed (o.methods.flatMap Method.print) :=
    .flatMap fun m hm => passed_of_quiet (quiet_method (ho.methods m hm))
  exact hnewline.append (hfields.append hmethods)

end Typings.Source
