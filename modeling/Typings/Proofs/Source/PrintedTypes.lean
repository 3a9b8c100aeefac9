import Typings.Proofs.Source.Masking
import Typings.Proofs.Source.TypeSearch

/-!
# Reading printed types

A printed type is found at its own level, with its body blanked in the masked view, and its nested
types are found in its body. The types of a printed list are read back in order, each with the span
that it was printed to. Main statement: `typesIn_printAll`.
-/

namespace Typings

-- ---------------------------------------------------------------------------
-- Parts of printed types
-- ---------------------------------------------------------------------------

namespace TypeDecl

/-- What is printed before the brace that opens the body of a type. -/
def header (top : Bool) (d : TypeDecl) : Text := d.printOpening top ++ d.printTail

/-- What is printed between the braces of a type. -/
def body (d : TypeDecl) : Text := d.printMembers ++ printAll false d.nested

/-- What the masked view shows of a printed type. -/
def view (top : Bool) (d : TypeDecl) : Text :=
  d.header top ++ '{' :: (Text.blankAll d.body ++ ['}', '\n'])

theorem print_eq (top : Bool) (d : TypeDecl) :
    d.print top = d.header top ++ '{' :: (d.body ++ ['}', '\n']) := by
  obtain ⟨o, nested⟩ := d
  rw [print]
  simp [header, body]

theorem printAll_eq_flatMap (top : Bool) (ds : List TypeDecl) :
    printAll top ds = ds.flatMap (print top) := by
  induction ds with
  | nil => rfl
  | cons d ds ih => rw [printAll, ih, List.flatMap_cons]

@[simp] theorem byteLength_view (top : Bool) (d : TypeDecl) :
    Text.byteLength (d.view top) = Text.byteLength (d.print top) := by
  simp [view, print_eq]

theorem Printable.outline {d : TypeDecl} (h : d.Printable) : d.toTypeOutline.Printable := by
  cases h with
  | mk ho _ => exact ho

theorem Printable.nested {d : TypeDecl} (h : d.Printable) : ∀ e ∈ d.nested, e.Printable := by
  cases h with
  | mk _ hnested => exact hnested

end TypeDecl

namespace Source

open Declaration Pattern

section Outline

variable {o : TypeOutline} (ho : o.Printable)

include ho

theorem isTypeChar_of_mem_printOpening (top : Bool) :
    ∀ c ∈ o.printOpening top, isTypeChar c = true := by
  have hmodifiers : ∀ c ∈ modifiersText (printedModifiers top o), isTypeChar c = true := by
    unfold printedModifiers
    cases top <;> cases o.isAbstract <;> decide
  have hkind : ∀ c ∈ o.kind.keyword.toList, isTypeChar c = true := by
    cases o.kind <;> decide
  intro c hc
  rw [printOpening_eq] at hc
  simp only [List.mem_append, List.mem_cons] at hc
  rcases hc with hc | hc | rfl | hc
  · exact hmodifiers c hc
  · exact hkind c hc
  · decide
  · exact isTypeChar_of_isPlainChar (isPlainChar_of_isName ho.name c hc)

theorem shape_typeParameters :
    (∀ c ∈ clauseText "" o.typeParameters, isTypeChar c = true) ∧
      Text.Avoids openingWords (clauseText "" o.typeParameters) := by
  cases hs : o.typeParameters with
  | none => exact ⟨by simp [clauseText], avoids_nil⟩
  | some s =>
    obtain ⟨_, _, _, hshape⟩ := (ho.typeParameters s hs).exists_inner
    exact ⟨by simpa [clauseText] using hshape.chars, by simpa [clauseText] using hshape.avoids⟩

theorem isTypeChar_of_mem_printTail : ∀ c ∈ o.printTail, isTypeChar c = true := by
  intro c hc
  rw [TypeOutline.printTail_eq] at hc
  simp only [TypeOutline.printClauses, List.mem_append, List.mem_cons] at hc
  rcases hc with hc | rfl | hc | hc
  · exact (shape_typeParameters ho).1 c hc
  · decide
  · exact (Clause.superTypes.shape_print ho.superTypes).1 c hc
  · exact (Clause.interfaces.shape_print ho.interfaces).1 c hc

end Outline

theorem avoids_print_append (k : Clause) {text : Option String}
    (htext : ∀ s ∈ text, IsTypeList s.toList) {t : Text} (ht : Text.Avoids openingWords t) :
    Text.Avoids openingWords (k.print text ++ t) := by
  have hword : (∀ c ∈ k.word, Text.isWordChar c = true) ∧ k.word ∉ openingWords := by
    cases k <;> decide
  cases text with
  | none => exact ht
  | some s =>
    have hs := avoids_append_cons (c := ' ') (by decide) (htext s rfl).entry.avoids ht
    have h := avoids_append_cons (c := ' ') (by decide) (.of_forall hword.1 hword.2) hs
    simpa [Clause.print] using h

/-- Nothing opens between the name of a type and the end of its blanked body. -/
theorem quiet_afterName {o : TypeOutline} (ho : o.Printable) (body : Text) :
    Quiet (o.printTail ++ '{' :: (Text.blankAll body ++ ['}', '\n'])) := by
  have hblank : Quiet (Text.blankAll body) := .of_isSpace fun c hc => by
    rcases Text.eq_of_mem_blankAll hc with rfl | rfl <;> decide
  have hend : Quiet ['}', '\n'] :=
    ⟨avoids_cons (by decide) (avoids_cons (by decide) avoids_nil), by decide, by decide⟩
  have htail : Quiet (o.printTail ++ ['{']) := by
    refine ⟨avoids_append_cons (by decide) ?_ avoids_nil, ?_, fun c hc => ?_⟩
    · rw [TypeOutline.printTail_eq]
      refine avoids_append_cons (by decide) (shape_typeParameters ho).2 ?_
      refine avoids_print_append _ ho.superTypes ?_
      simpa using avoids_print_append .interfaces ho.interfaces avoids_nil
    · rw [List.getLast?_concat]
      exact fun d hd => Option.some.inj hd ▸ by decide
    · rcases List.mem_append.mp hc with hc | hc
      · have hc := isTypeChar_of_mem_printTail ho c hc
        exact ⟨ne_of_isTypeChar hc (by decide), ne_of_isTypeChar hc (by decide)⟩
      · obtain rfl : c = '{' := by simpa using hc
        decide
  simpa using htail.append (hblank.append hend)

-- ---------------------------------------------------------------------------
-- Code
-- ---------------------------------------------------------------------------

/-- Text in which no comment and no literal starts and every brace has its partner. -/
structure IsCodeBlock (s : Text) : Prop where
  chars : ∀ c ∈ s, c ≠ '/' ∧ c ≠ '"' ∧ c ≠ '\''
  closed : level? 0 (s.map .code) = some 0

namespace IsCodeBlock

variable {s t : Text}

theorem isBlock (h : IsCodeBlock s) : IsBlock s := by
  refine ⟨fun u _ => ?_, ?_⟩
  · rw [tokens_append_of_code h.chars, tokens_eq_of_code h.chars]
  · rw [tokens_eq_of_code h.chars, h.closed]

theorem append (hs : IsCodeBlock s) (ht : IsCodeBlock t) : IsCodeBlock (s ++ t) := by
  refine ⟨fun c hc => ?_, ?_⟩
  · rcases List.mem_append.mp hc with hc | hc
    · exact hs.chars c hc
    · exact ht.chars c hc
  · rw [List.map_append, level?_append, hs.closed, Option.bind_some, ht.closed]

theorem flatMap {α : Type} {f : α → Text} {xs : List α} (h : ∀ x ∈ xs, IsCodeBlock (f x)) :
    IsCodeBlock (xs.flatMap f) := by
  induction xs with
  | nil => exact ⟨by simp, rfl⟩
  | cons x xs ih => exact (h x (by simp)).append (ih fun y hy => h y (by simp [hy]))

theorem braces (h : IsCodeBlock s) : IsCodeBlock ('{' :: (s ++ ['}'])) := by
  refine ⟨fun c hc => ?_, ?_⟩
  · simp only [List.mem_cons, List.mem_append, List.not_mem_nil, or_false] at hc
    rcases hc with rfl | hc | rfl
    · decide
    · exact h.chars c hc
    · decide
  · have hopen : level? 0 (('{' :: (s ++ ['}'])).map .code) =
        level? 1 (s.map .code ++ [.code '}']) := by
      rw [List.map_cons, List.map_append]
      rfl
    rw [hopen, level?_append, level?_add h.closed 1]
    rfl

theorem of_isLineChar (h : ∀ c ∈ s, isLineChar c = true) : IsCodeBlock s := by
  refine ⟨fun c hc => ?_, ?_⟩
  · have hc := h c hc
    exact ⟨ne_of_isLineChar hc (by decide), ne_of_isLineChar hc (by decide),
      ne_of_isLineChar hc (by decide)⟩
  · induction s with
    | nil => rfl
    | cons c cs ih =>
      have hopen : c ≠ '{' := ne_of_isLineChar (h c (by simp)) (by decide)
      have hclose : c ≠ '}' := ne_of_isLineChar (h c (by simp)) (by decide)
      simpa [level?, hopen, hclose] using ih fun d hd => h d (by simp [hd])

end IsCodeBlock

theorem isLineChar_of_mem_header {d : TypeDecl} (hd : d.Printable) (top : Bool) :
    ∀ c ∈ d.header top, isLineChar c = true := by
  intro c hc
  rcases List.mem_append.mp hc with hc | hc
  · exact isLineChar_of_isTypeChar (isTypeChar_of_mem_printOpening hd.outline top c hc)
  · exact isLineChar_of_isTypeChar (isTypeChar_of_mem_printTail hd.outline c hc)

theorem isCodeBlock_print {d : TypeDecl} (hd : d.Printable) (top : Bool) :
    IsCodeBlock (d.print top) := by
  induction hd generalizing top with
  | @mk o nested ho hnested ih =>
    have hheader := IsCodeBlock.of_isLineChar
      (isLineChar_of_mem_header (TypeDecl.Printable.mk ho hnested) top)
    have hmembers := IsCodeBlock.of_isLineChar (isLineChar_of_mem_printMembers ho)
    have hinner := IsCodeBlock.flatMap fun e he => ih e he false
    have hnewline : IsCodeBlock ['\n'] := .of_isLineChar (by decide)
    have h := hheader.append ((hmembers.append hinner).braces.append hnewline)
    rw [TypeDecl.print_eq, TypeDecl.body, TypeDecl.printAll_eq_flatMap]
    simpa using h

theorem isCodeBlock_body {d : TypeDecl} (hd : d.Printable) : IsCodeBlock d.body := by
  rw [TypeDecl.body, TypeDecl.printAll_eq_flatMap]
  exact (IsCodeBlock.of_isLineChar (isLineChar_of_mem_printMembers hd.outline)).append
    (.flatMap fun e he => isCodeBlock_print (hd.nested e he) false)

-- ---------------------------------------------------------------------------
-- The masked view
-- ---------------------------------------------------------------------------

theorem shown_map_code {s : Text} (hs : ∀ c ∈ s, isLineChar c = true) :
    shown 0 (s.map .code) = s := by
  induction s with
  | nil => rfl
  | cons c cs ih =>
    have hopen : c ≠ '{' := ne_of_isLineChar (hs c (by simp)) (by decide)
    rw [List.map_cons, shown, if_neg hopen, ih fun d hd => hs d (by simp [hd])]

/-- A line that opens a block, and the block. -/
structure Headed where
  header : Text
  block : Text

namespace Headed

def text (x : Headed) : Text := x.header ++ '{' :: (x.block ++ ['}', '\n'])

/-- What the masked view shows. -/
def view (x : Headed) : Text := x.header ++ '{' :: (Text.blankAll x.block ++ ['}', '\n'])

structure IsHeaded (x : Headed) : Prop where
  header : ∀ c ∈ x.header, isLineChar c = true
  block : IsBlock x.block

end Headed

/-- The masked view of blocks and the lines that open them. -/
theorem shown_headed {x : Text} (hx : ∀ c ∈ x, isLineChar c = true) {bs : List Headed}
    (hbs : ∀ b ∈ bs, b.IsHeaded) :
    shown 0 (tokens (x ++ bs.flatMap Headed.text)) = x ++ bs.flatMap Headed.view := by
  induction bs generalizing x with
  | nil =>
    rw [List.flatMap_nil, List.append_nil, tokens_eq_of_code (IsCodeBlock.of_isLineChar hx).chars,
      shown_map_code hx]
    simp
  | cons b bs ih =>
    have hb := hbs b (by simp)
    have hbefore : ∀ c ∈ x ++ b.header, isLineChar c = true := fun c hc =>
      (List.mem_append.mp hc).elim (hx c) (hb.header c)
    have hcode := IsCodeBlock.of_isLineChar hbefore
    have hdepth : depthAfter 0 (tokens (x ++ b.header)) = 0 := by
      rw [tokens_eq_of_code hcode.chars]
      exact depthAfter_eq_of_level? hcode.closed
    have hnewline : ∀ c ∈ ['\n'], isLineChar c = true := by decide
    have hrest := ih hnewline fun e he => hbs e (by simp [he])
    have hsplit : x ++ (b :: bs).flatMap Headed.text =
        (x ++ b.header) ++ '{' :: (b.block ++ '}' :: (['\n'] ++ bs.flatMap Headed.text)) := by
      simp [Headed.text]
    rw [hsplit, hb.block.shown_eq hcode.isBlock.whole hdepth, hrest,
      tokens_eq_of_code hcode.chars, shown_map_code hbefore]
    simp [Headed.view]

/-- The masked view of printed types after lines. -/
theorem shown_printAll {x : Text} (hx : ∀ c ∈ x, isLineChar c = true) (top : Bool)
    {ds : List TypeDecl}
    (hds : ∀ d ∈ ds, d.Printable) :
    shown 0 (tokens (x ++ TypeDecl.printAll top ds)) = x ++ ds.flatMap (·.view top) := by
  have hheaded : ∀ b ∈ ds.map fun d => (⟨d.header top, d.body⟩ : Headed), b.IsHeaded := by
    intro b hb
    obtain ⟨d, hd, rfl⟩ := List.mem_map.mp hb
    exact ⟨isLineChar_of_mem_header (hds d hd) top, (isCodeBlock_body (hds d hd)).isBlock⟩
  have h := shown_headed hx hheaded
  have hprint : TypeDecl.print top = fun d => Headed.text ⟨d.header top, d.body⟩ :=
    funext fun d => TypeDecl.print_eq top d
  rw [List.flatMap_map, List.flatMap_map] at h
  rw [TypeDecl.printAll_eq_flatMap, hprint]
  exact h

theorem mask_text_printAll {x : Text} (hx : ∀ c ∈ x, isLineChar c = true) (top : Bool)
    {ds : List TypeDecl} (hds : ∀ d ∈ ds, d.Printable) :
    (mask (x ++ TypeDecl.printAll top ds)).text = x ++ ds.flatMap (·.view top) := by
  rw [mask_text_eq_shown, shown_printAll hx top hds]

/-- Code has no documentation. -/
theorem mask_docs_eq_nil {s : Text} (hs : ∀ c ∈ s, c ≠ '/' ∧ c ≠ '"' ∧ c ≠ '\'') :
    (mask s).docs = [] := by
  rw [mask_eq]
  refine List.filterMap_eq_nil_iff.mpr ?_
  rintro ⟨i, t⟩ hmem
  obtain ⟨us, vs, heq, _, _⟩ := exists_append_of_mem_outer hmem
  rw [tokens_eq_of_code hs] at heq
  obtain ⟨c, _, rfl⟩ : ∃ c ∈ s, Token.code c = t := List.mem_map.mp (by simp [heq])
  rfl

-- ---------------------------------------------------------------------------
-- Members
-- ---------------------------------------------------------------------------

/-- Printed types with their spans, the first of them at an offset. A span ends at the closing
brace; the newline after it does not belong to it. -/
def located (top : Bool) : (pos : Nat) → List TypeDecl → List (TypeDecl × Span)
  | _, [] => []
  | pos, d :: ds =>
    (d, ⟨pos, pos + Text.byteLength (d.header top) + 1 + Text.byteLength d.body + 1⟩) ::
      located top (pos + Text.byteLength (d.print top)) ds

theorem map_fst_located (top : Bool) (pos : Nat) (ds : List TypeDecl) :
    (located top pos ds).map (·.1) = ds := by
  induction ds generalizing pos with
  | nil => rfl
  | cons d ds ih => rw [located, List.map_cons, ih]

theorem le_start_of_mem_located {top : Bool} {pos : Nat} {ds : List TypeDecl} {span : Span}
    (h : span ∈ (located top pos ds).map (·.2)) : pos ≤ span.start := by
  induction ds generalizing pos with
  | nil => simp [located] at h
  | cons d ds ih =>
    rw [located, List.map_cons, List.mem_cons] at h
    rcases h with rfl | h
    · exact Nat.le_refl _
    · exact Nat.le_trans (Nat.le_add_right _ _) (ih h)

/-- Blanking the spans of printed types leaves nothing of them. -/
theorem isSpace_of_mem_blankWhere (top : Bool) (pos : Nat) (ds : List TypeDecl) :
    ∀ c ∈ Text.blankWhere (Span.covers ((located top pos ds).map (·.2))) pos
        (ds.flatMap (·.view top)),
      Text.isSpace c = true := by
  have hblank : ∀ {s : Text}, ∀ c ∈ Text.blankAll s, Text.isSpace c = true := by
    intro s c hc
    rcases Text.eq_of_mem_blankAll hc with rfl | rfl <;> decide
  induction ds generalizing pos with
  | nil => simp [Text.blankWhere]
  | cons d ds ih =>
    intro c hc
    have hview : d.view top =
        (d.header top ++ '{' :: (Text.blankAll d.body ++ ['}'])) ++ ['\n'] := by
      simp [TypeDecl.view]
    have hlen : Text.byteLength (d.header top ++ '{' :: (Text.blankAll d.body ++ ['}'])) =
        Text.byteLength (d.header top) + 1 + Text.byteLength d.body + 1 := by
      simp [utf8Size_openBrace, utf8Size_closeBrace, Nat.add_assoc]
    have hprint : Text.byteLength (d.print top) =
        Text.byteLength (d.header top) + 1 + Text.byteLength d.body + 1 + 1 := by
      have hnewline : '\n'.utf8Size = 1 := rfl
      rw [← TypeDecl.byteLength_view, hview, Text.byteLength_append, hlen]
      simp [hnewline]
    rw [List.flatMap_cons, Text.blankWhere_append, List.mem_append, TypeDecl.byteLength_view,
      located,
      List.map_cons] at hc
    rcases hc with hc | hc
    · rw [hview, Text.blankWhere_append, List.mem_append] at hc
      rcases hc with hc | hc
      · rw [Text.blankWhere_of_hidden] at hc
        · exact hblank c hc
        · intro i hlo hi
          refine Span.covers_eq_true_iff.mpr ⟨_, List.mem_cons_self, hlo, ?_⟩
          rw [hlen] at hi
          simp only
          omega
      · -- The newline after the type stays a newline.
        rw [Text.blankWhere, Text.blankWhere, List.append_nil] at hc
        split at hc
        · exact hblank (s := ['\n']) c (by simpa using hc)
        · obtain rfl : c = '\n' := by simpa using hc
          decide
    · rw [blankWhere_covers_cons (by simp only [hprint]; omega)] at hc
      exact ih _ c hc

/-- The members of a printed type are what is left of its body without the nested types. -/
theorem exists_blank_body {d : TypeDecl} (hd : d.Printable) :
    ∃ t, (∀ c ∈ t, Text.isSpace c = true) ∧
      Text.blank (mask d.body).text
        ((located false (Text.byteLength d.printMembers) d.nested).map (·.2)) =
          d.printMembers ++ t := by
  refine ⟨_, isSpace_of_mem_blankWhere false (Text.byteLength d.printMembers) d.nested, ?_⟩
  rw [TypeDecl.body, mask_text_printAll (isLineChar_of_mem_printMembers hd.outline) false hd.nested,
    Text.blank_eq_blankWhere, Text.blankWhere_append, Nat.zero_add]
  congr 1
  refine Text.blankWhere_of_shown fun i _ hi =>
    Span.covers_eq_false_iff.mpr fun span hspan hle => ?_
  have := le_start_of_mem_located hspan
  omega

/-- A printed body gives back the members and nested types. -/
theorem withBody_print {d : TypeDecl} (hd : d.Printable) (docs : Bool) :
    withBody docs (withoutMembers d.toTypeOutline) d.body
      (located false (Text.byteLength d.printMembers) d.nested) = d := by
  obtain ⟨t, ht, hmembers⟩ := exists_blank_body hd
  have ho := hd.outline
  simp only [withBody, hmembers, methods_printMembers ho docs ht, fields_printMembers ho docs ht,
    map_fst_located, withoutMembers]
  obtain ⟨⟨name, kind, isAbstract, typeParameters, superTypes, interfaces, doc, methods, fields⟩,
    nested⟩ := d
  cases kind with
  | interface =>
    obtain rfl : fields = [] := ho.interface_fields rfl
    rfl
  | class_ => rfl

-- ---------------------------------------------------------------------------
-- Types
-- ---------------------------------------------------------------------------

/-- A match at a printed header gives the type with what is read in the block after it. -/
theorem typeOf?_header {o : TypeOutline} (ho : o.Printable) {docs publicOnly top : Bool}
    {fuel : Nat}
    (hpublic : publicOnly = true → top = true) {text before before' body after after' : Text}
    (htext : text = (before ++ (o.printOpening top ++ o.printTail)) ++ '{' ::
      (body ++ '}' :: after))
    (hmask : (mask text).text = before' ++ (o.printOpening top ++ (o.printTail ++ '{' :: after')))
    (hlen : Text.byteLength before = Text.byteLength before') (hbody : IsBlock body)
    (hdocs : (mask text).docs = []) (hat : '@' ∉ (mask text).text)
    {whole : Capture} (hstart : whole.start = Text.byteLength before') {marks : List (Mark Part)}
    (hmarks : HeaderMarks marks (Text.byteLength before') top o) :
    typeOf? docs publicOnly fuel text ⟨whole, marks⟩ = some
      (withBody docs (withoutMembers o) body (typesIn docs fuel false body),
        ⟨Text.byteLength before',
        Text.byteLength before' + Text.byteLength (o.printOpening top ++ o.printTail) + 1 +
          Text.byteLength body + 1⟩) := by
  have hheader := @headerOf?_print o ho docs publicOnly top hpublic (mask text) before' after' hmask
    hdocs hat whole marks hmarks
  have hbrace : (o.headerTail
      (Text.byteLength (before' ++ (o.printOpening top ++ o.printTail)))).brace =
      Text.byteLength (before ++ (o.printOpening top ++ o.printTail)) := by
    simp [TypeOutline.headerTail, hlen]
  have hblock := hbody.blockEnd?_eq (before ++ (o.printOpening top ++ o.printTail)) after
  have hslice := slice_block (before ++ (o.printOpening top ++ o.printTail)) body after
  rw [← htext] at hblock hslice
  simp only [typeOf?, hheader, hbrace, hblock, hslice, hstart]
  simp [hlen]

/-- A match at a printed type gives the type and its span, when its body gives its nested types. -/
theorem typeOf?_print {d : TypeDecl} (hd : d.Printable) {docs publicOnly top : Bool} {fuel : Nat}
    (hpublic : publicOnly = true → top = true) {text before before' after after' : Text}
    (htext : text = before ++ (d.print top ++ after))
    (hmask : (mask text).text = before' ++ (d.view top ++ after'))
    (hlen : Text.byteLength before = Text.byteLength before')
    (hcode : ∀ c ∈ text, c ≠ '/' ∧ c ≠ '"' ∧ c ≠ '\'') (hat : '@' ∉ (mask text).text)
    (hnested : typesIn docs fuel false d.body =
      located false (Text.byteLength d.printMembers) d.nested)
    {whole : Capture} (hstart : whole.start = Text.byteLength before') {marks : List (Mark Part)}
    (hmarks : HeaderMarks marks (Text.byteLength before') top d.toTypeOutline) :
    typeOf? docs publicOnly fuel text ⟨whole, marks⟩ = some (d, ⟨Text.byteLength before',
      Text.byteLength before' + Text.byteLength (d.header top) + 1 +
        Text.byteLength d.body + 1⟩) := by
  have hsplit : text = (before ++ (d.printOpening top ++ d.printTail)) ++
      '{' :: (d.body ++ '}' :: ('\n' :: after)) := by
    rw [htext, TypeDecl.print_eq]
    simp [TypeDecl.header]
  have hview : (mask text).text = before' ++ (d.printOpening top ++ (d.printTail ++
      '{' :: (Text.blankAll d.body ++ ['}', '\n'] ++ after'))) := by
    rw [hmask]
    simp [TypeDecl.view, TypeDecl.header]
  rw [typeOf?_header hd.outline hpublic hsplit hview hlen (isCodeBlock_body hd).isBlock
    (mask_docs_eq_nil hcode) hat hstart hmarks, hnested, withBody_print hd]
  rfl

/-- What stands after the name of a printed type is no part of the name. -/
theorem head_printTail_append (o : TypeOutline) (ho : o.Printable) (t : Text) :
    ∀ c ∈ (o.printTail ++ t).head?, (Text.isWordChar c || c = '$') = false := by
  rw [TypeOutline.printTail_eq]
  cases hs : o.typeParameters with
  | none => exact Text.forall_head (by decide) _
  | some s =>
    obtain ⟨inner, hinner, _⟩ := (ho.typeParameters s hs).exists_inner
    simp only [clauseText, String.toList_empty, List.nil_append, hinner, List.cons_append]
    exact Text.forall_head (by decide) _

/-- The search finds a printed header and goes on behind the blanked body after it. -/
theorem matchesFrom_header {o : TypeOutline} (ho : o.Printable) (top : Bool) {b : Option Char}
    (hb : ∀ c ∈ b, Text.isWordChar c = false) (pos : Nat) (body t : Text) :
    ∃ marks whole, HeaderMarks marks pos top o ∧ whole.start = pos ∧
      typeHeader.matchesFrom b pos (o.printOpening top ++
          ((o.printTail ++ '{' :: (Text.blankAll body ++ ['}', '\n'])) ++ t)) = ⟨whole, marks⟩ ::
        typeHeader.matchesFrom (some '\n') (pos + Text.byteLength (o.printOpening top) +
          Text.byteLength (o.printTail ++ '{' :: (Text.blankAll body ++ ['}', '\n']))) t := by
  have hquiet := passed_of_quiet (quiet_afterName ho body)
  obtain ⟨marks, htakes, hmarks⟩ := @takes_typeHeader b pos
    ((o.printTail ++ '{' :: (Text.blankAll body ++ ['}', '\n'])) ++ t) top o hb ho.name (by
      rw [List.append_assoc]
      exact head_printTail_append _ ho _)
  have hne : o.printOpening top ≠ [] := by simp [printOpening_eq]
  refine ⟨marks, ⟨pos, pos + Text.byteLength (o.printOpening top), o.printOpening top ++
    ((o.printTail ++ '{' :: (Text.blankAll body ++ ['}', '\n'])) ++ t)⟩, hmarks, rfl, ?_⟩
  rw [htakes.matchesFrom_eq hne, hquiet.matchesFrom_append]
  simp

/-- The search goes on behind a printed type. -/
theorem matchesFrom_view {d : TypeDecl} (hd : d.Printable) (top : Bool) {b : Option Char}
    (hb : ∀ c ∈ b, Text.isWordChar c = false) (pos : Nat) (t : Text) :
    ∃ marks whole, HeaderMarks marks pos top d.toTypeOutline ∧ whole.start = pos ∧
      typeHeader.matchesFrom b pos (d.view top ++ t) = ⟨whole, marks⟩ ::
        typeHeader.matchesFrom (some '\n') (pos + Text.byteLength (d.print top)) t := by
  obtain ⟨marks, whole, hmarks, hstart, heq⟩ := matchesFrom_header hd.outline top hb pos d.body t
  have hview : d.view top ++ t = d.printOpening top ++
      ((d.printTail ++ '{' :: (Text.blankAll d.body ++ ['}', '\n'])) ++ t) := by
    simp [TypeDecl.view, TypeDecl.header]
  have hlen : Text.byteLength (d.print top) = Text.byteLength (d.printOpening top) +
      Text.byteLength (d.printTail ++ '{' :: (Text.blankAll d.body ++ ['}', '\n'])) := by
    simp [TypeDecl.print_eq, TypeDecl.header]
  refine ⟨marks, whole, hmarks, hstart, ?_⟩
  rw [hview, heq, hlen, Nat.add_assoc]

/-- The types of a printed list are found one after another, each with its span. -/
theorem filterMap_typeOf?_print {docs publicOnly top : Bool} {fuel : Nat}
    (hpublic : publicOnly = true → top = true) {text : Text}
    (hcode : ∀ c ∈ text, c ≠ '/' ∧ c ≠ '"' ∧ c ≠ '\'') (hat : '@' ∉ (mask text).text)
    {before before' : Text} {ds : List TypeDecl} (hds : ∀ d ∈ ds, d.Printable)
    (hnested : ∀ d ∈ ds, typesIn docs fuel false d.body =
      located false (Text.byteLength d.printMembers) d.nested)
    (htext : text = before ++ TypeDecl.printAll top ds)
    (hmask : (mask text).text = before' ++ ds.flatMap (·.view top))
    (hlen : Text.byteLength before = Text.byteLength before') {b : Option Char}
    (hb : ∀ c ∈ b, Text.isWordChar c = false) :
    (typeHeader.matchesFrom b (Text.byteLength before') (ds.flatMap (·.view top))).filterMap
      (typeOf? docs publicOnly fuel text) = located top (Text.byteLength before') ds := by
  induction ds generalizing before before' b with
  | nil => rfl
  | cons d ds ih =>
    have hd := hds d (by simp)
    obtain ⟨marks, whole, hmarks, hstart, hmatches⟩ := matchesFrom_view hd top hb
      (Text.byteLength before') (ds.flatMap (·.view top))
    have hfirst := @typeOf?_print d hd docs publicOnly top fuel hpublic text before before' _ _
      (by rw [htext]; rfl) (by rw [hmask]; rfl) hlen hcode hat
        (hnested d (by simp)) whole hstart marks
      hmarks
    have hnewline : ∀ c ∈ some '\n', Text.isWordChar c = false := by decide
    have hrest := @ih (before ++ d.print top) (before' ++ d.view top)
      (fun e he => hds e (by simp [he])) (fun e he => hnested e (by simp [he]))
      (by rw [htext, TypeDecl.printAll, List.append_assoc])
      (by rw [hmask, List.flatMap_cons, List.append_assoc]) (by simp [hlen]) _ hnewline
    rw [Text.byteLength_append, TypeDecl.byteLength_view] at hrest
    rw [List.flatMap_cons, hmatches, List.filterMap_cons, hfirst, hrest, located]

theorem at_notMem_view {d : TypeDecl} (hd : d.Printable) (top : Bool) : '@' ∉ d.view top := by
  intro hmem
  simp only [TypeDecl.view, List.mem_append, List.mem_cons, List.not_mem_nil, or_false] at hmem
  rcases hmem with hmem | hmem | hmem | hmem | hmem
  · exact absurd (isLineChar_of_mem_header hd top _ hmem) (by decide)
  · exact absurd hmem (by decide)
  · rcases Text.eq_of_mem_blankAll hmem with h | h <;> exact absurd h (by decide)
  · exact absurd hmem (by decide)
  · exact absurd hmem (by decide)

theorem length_body_lt (top : Bool) {d : TypeDecl} {ds : List TypeDecl} (hd : d ∈ ds) :
    d.body.length < (TypeDecl.printAll top ds).length := by
  obtain ⟨before, after, rfl⟩ := List.append_of_mem hd
  rw [TypeDecl.printAll_eq_flatMap]
  simp only [List.flatMap_append, List.flatMap_cons, List.length_append, TypeDecl.print_eq,
    List.length_cons]
  omega

/-- Printed types are read back, with their spans, after lines that the search for types passes
over. -/
theorem typesIn_printAll {docs publicOnly top : Bool} {fuel : Nat}
    (hpublic : publicOnly = true → top = true) {lines : Text}
    (hlines : ∀ c ∈ lines, isLineChar c = true) (hpassed : Passed lines) {ds : List TypeDecl}
    (hds : ∀ d ∈ ds, d.Printable) (hfuel : (lines ++ TypeDecl.printAll top ds).length < fuel) :
    typesIn docs fuel publicOnly (lines ++ TypeDecl.printAll top ds) =
      located top (Text.byteLength lines) ds := by
  induction fuel generalizing publicOnly top lines ds with
  | zero => exact absurd hfuel (Nat.not_lt_zero _)
  | succ fuel ih =>
    have hmask := mask_text_printAll hlines top hds
    have hblock : IsCodeBlock (lines ++ TypeDecl.printAll top ds) := by
      rw [TypeDecl.printAll_eq_flatMap]
      exact (IsCodeBlock.of_isLineChar hlines).append
        (.flatMap fun d hd => isCodeBlock_print (hds d hd) top)
    have hat : '@' ∉ (mask (lines ++ TypeDecl.printAll top ds)).text := by
      rw [hmask, List.mem_append, List.mem_flatMap]
      rintro (hmem | ⟨d, hd, hmem⟩)
      · exact absurd (hlines _ hmem) (by decide)
      · exact at_notMem_view (hds d hd) top hmem
    have hnested : ∀ d ∈ ds, typesIn docs fuel false d.body =
        located false (Text.byteLength d.printMembers) d.nested := by
      intro d hd
      have hlt := length_body_lt top hd
      rw [List.length_append] at hfuel
      exact ih (by simp) (isLineChar_of_mem_printMembers (hds d hd).outline)
        (passed_printMembers (hds d hd).outline) (hds d hd).nested (by
          show d.body.length < fuel
          omega)
    have hskip := hpassed.matchesFrom_append none 0 (ds.flatMap (·.view top))
    rw [Nat.zero_add] at hskip
    rw [typesIn_succ, allMatches_eq_matchesFrom]
    nth_rewrite 1 [hmask]
    rw [hskip]
    exact filterMap_typeOf?_print hpublic hblock.chars hat hds hnested rfl hmask rfl
      (hpassed.lastOr (by simp))

end Source

end Typings
