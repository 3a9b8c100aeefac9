import Typings.Proofs.Source.Bodies
import Typings.Proofs.Source.Declarators
import Typings.Proofs.Source.Rewording
import Typings.Proofs.Text.Splitting

/-!
# Declarations of several variables

A field declaration may hold several variables. The first one is read by the pattern for fields, the
others from the pieces of what follows it. A piece that masking leaves blank does not count, and the
initializer of the first variable is such a piece when it is a literal in quotes: the variable after
it is skipped in its place. Main statement: `fields_declaration`.
-/

namespace Typings

namespace Source

open Declaration Pattern

-- ---------------------------------------------------------------------------
-- Written declarations
-- ---------------------------------------------------------------------------

/-- A variable as it is written, its initializer in one of its forms. -/
def Variable.written (form : Initializer → Text) (v : Variable) : Text :=
  v.name ++ (v.brackets ++
    match v.initializer with
    | some e => [' ', '=', ' '] ++ form e
    | none => [])

def Variable.isQuoted (v : Variable) : Bool := v.initializer.any Initializer.isQuoted

namespace VariableDeclaration

/-- The variables with commas between them. -/
def list (form : Initializer → Text) (d : VariableDeclaration) : Text :=
  [',', ' '].intercalate (d.all.map (·.written form))

def written (form : Initializer → Text) (d : VariableDeclaration) : Text :=
  d.docLine ++ ("public ".toList ++ (d.type ++ ' ' :: (d.list form ++ [';', '\n'])))

/-- A body that consists of the declaration. -/
def body (d : VariableDeclaration) : Text := '\n' :: d.written Initializer.text

/-- The field that a variable declares. -/
def fieldOf (docs : Bool) (d : VariableDeclaration) (v : Variable) : Field where
  name := String.ofList v.name
  typeName := String.ofList (Text.compact d.type ++ pairs v.dimensions)
  doc := if docs then d.doc.map String.ofList else none

/-- The variables that are read: all of them, but the second one when the initializer of the first
one is a literal in quotes. -/
def reported (d : VariableDeclaration) : List Variable :=
  d.first :: d.more.drop (if d.first.isQuoted then 1 else 0)

end VariableDeclaration

-- ---------------------------------------------------------------------------
-- Variables where they show
-- ---------------------------------------------------------------------------

/-- Characters that a variable shows outside square brackets. -/
def isPieceChar (c : Char) : Bool := isNameChar c || Text.isSpace c || c = '='

theorem ne_of_isPieceChar {c k : Char} (hc : isPieceChar c = true) (hk : isPieceChar k = false) :
    c ≠ k := by
  rintro rfl
  simp_all

theorem isPieceChar_of_isPlainChar {c : Char} (h : isPlainChar c = true) :
    isPieceChar c = true := by
  simp [isPieceChar, isNameChar, isWordChar_of_isPlainChar h]

theorem isPieceChar_of_isSpace {c : Char} (h : Text.isSpace c = true) : isPieceChar c = true := by
  simp [isPieceChar, h]

/-- Characters that a variable shows. -/
def isVariableChar (c : Char) : Bool := isPieceChar c || c = '[' || c = ']'

theorem ne_of_isVariableChar {c k : Char} (hc : isVariableChar c = true)
    (hk : isVariableChar k = false) :
    c ≠ k := by
  rintro rfl
  simp_all

theorem isCodeChar_of_isVariableChar {c : Char} (h : isVariableChar c = true) :
    isCodeChar c = true := by
  have hall : ∀ k ∈ "/\"'\x7b\x7d".toList, isVariableChar k = false := by decide
  simp only [isCodeChar, Bool.not_eq_true', List.contains_eq_mem, decide_eq_false_iff_not]
  exact fun hmem => ne_of_isVariableChar h (hall c hmem) rfl

/-- Neither brackets nor commas stand outside square brackets. -/
theorem closed_of_isPieceChar {s : Text} (h : ∀ c ∈ s, isPieceChar c = true) :
    Text.Closed ',' s := by
  refine Text.closed_of_forall fun c hc => ?_
  have hne : ∀ {k}, isPieceChar k = false → c ≠ k := ne_of_isPieceChar (h c hc)
  have hall : ∀ k ∈ ['<', '(', '[', '>', ')', ']'], c ≠ k := fun k hk => hne (by
    have hnone : ∀ k ∈ ['<', '(', '[', '>', ')', ']'], isPieceChar k = false := by decide
    exact hnone k hk)
  refine ⟨?_, ?_, hne (by decide)⟩
  · simp [Text.isOpening, hall]
  · simp [Text.isClosing, hall]

namespace Initializer

variable {e : Initializer} (he : e.WellFormed)

include he

theorem isPieceChar_of_mem_view : ∀ c ∈ e.view, isPieceChar c = true := by
  intro c hc
  cases e with
  | plain s => exact isPieceChar_of_isPlainChar (he.2 c hc)
  | quoted s => rcases Text.eq_of_mem_blankAll hc with rfl | rfl <;> decide

theorem masks : Masks e.text e.view := by
  cases e with
  | plain s => exact masks_code fun c hc => isCodeChar_of_isVariableChar (by
      simp [isVariableChar, isPieceChar_of_isPlainChar (he.2 c hc)])
  | quoted s => exact masks_quoted he

theorem unpaired_view : Unpaired e.view := by
  cases e with
  | plain s => exact .of_not_isSpace fun c hc => isSpace_of_isPlainChar (he.2 c hc)
  | quoted s =>
    refine .of_isSpace fun c hc => ?_
    rcases Text.eq_of_mem_blankAll hc with rfl | rfl <;> decide

end Initializer

namespace Variable

variable {v : Variable} (hv : v.WellFormed)

include hv

theorem isPieceChar_of_mem_name : ∀ c ∈ v.name, isPieceChar c = true := fun c hc => by
  simp [isPieceChar, isNameChar_of_mem_identifier hv.name c hc]

theorem isVariableChar_of_mem_head : ∀ c ∈ v.name ++ v.brackets, isVariableChar c = true := by
  have hbracket : ∀ c, c = '[' ∨ c = ']' → isVariableChar c = true := by
    rintro c (rfl | rfl) <;> decide
  intro c hc
  unfold brackets at hc
  rcases List.mem_append.mp hc with hc | hc
  · simp [isVariableChar, isPieceChar_of_mem_name hv c hc]
  · split at hc
    · cases hc
    · rcases List.mem_append.mp hc with hc | hc
      · simp [isVariableChar, isPieceChar_of_isSpace (hv.gap c hc)]
      · exact hbracket c (mem_pairs hc)

theorem closed_head : Text.Closed ',' (v.name ++ v.brackets) := by
  have hname := closed_of_isPieceChar (isPieceChar_of_mem_name hv)
  unfold brackets
  cases v.dimensions with
  | zero => simpa using hname
  | succ n =>
    have hgap := closed_of_isPieceChar fun c hc => isPieceChar_of_isSpace (hv.gap c hc)
    exact hname.append (hgap.append (closed_pairs _))

theorem isSpace_of_mem_name : ∀ c ∈ v.name, Text.isSpace c = false := fun c hc =>
  isSpace_of_isBaseChar (isBaseChar_of_isNameChar (isNameChar_of_mem_identifier hv.name c hc))

theorem trimmed_name : Text.Trimmed v.name :=
  .of_forall (ne_nil_of_mem_identifier hv.name) (isSpace_of_mem_name hv)

theorem trimmed_head : Text.Trimmed (v.name ++ v.brackets) := by
  unfold brackets
  cases v.dimensions with
  | zero => simpa using trimmed_name hv
  | succ n =>
    have hpairs : Text.Trimmed (pairs (n + 1)) :=
      .of_forall (by simp [pairs, List.replicate_succ]) (isSpace_of_mem_pairs)
    simpa using (trimmed_name hv).append hpairs v.gap

theorem unpaired_head : Unpaired (v.name ++ v.brackets) := by
  have hname : Unpaired v.name := .of_not_isSpace (isSpace_of_mem_name hv)
  unfold brackets
  cases v.dimensions with
  | zero => simpa using hname
  | succ n =>
    have hclose : Unpaired (']' :: pairs n) := .of_not_isSpace fun c hc =>
      isSpace_of_mem_pairs (n := n + 1) c (by simp_all [pairs, List.replicate_succ])
    have h := (hname.append_spaces hv.gap).append_cons hclose (k := '[') (by decide) (by decide)
    simpa [pairs, List.replicate_succ] using h

theorem isVariableChar_of_mem_view : ∀ c ∈ v.written Initializer.view, isVariableChar c = true := by
  have hequals : ∀ c ∈ [' ', '=', ' '], isVariableChar c = true := by decide
  intro c hc
  rw [written, ← List.append_assoc] at hc
  rcases List.mem_append.mp hc with hc | hc
  · exact isVariableChar_of_mem_head hv c hc
  · cases he : v.initializer with
    | none => simp [he] at hc
    | some e =>
      rw [he] at hc
      rcases List.mem_append.mp hc with hc | hc
      · exact hequals c hc
      · simp [isVariableChar, Initializer.isPieceChar_of_mem_view (hv.initializer e he) c hc]

theorem masks : Masks (v.written Initializer.text) (v.written Initializer.view) := by
  have hequals : ∀ c ∈ [' ', '=', ' '], isCodeChar c = true := by decide
  have hhead : ∀ c ∈ v.name ++ v.brackets, isCodeChar c = true := fun c hc =>
    isCodeChar_of_isVariableChar (isVariableChar_of_mem_head hv c hc)
  rw [written, written, ← List.append_assoc, ← List.append_assoc]
  cases he : v.initializer with
  | none => exact Masks.nil.code_append hhead
  | some e =>
    exact ((Initializer.masks (hv.initializer e he)).code_append hequals).code_append hhead

theorem closed_view : Text.Closed ',' (v.written Initializer.view) := by
  have hequals : Text.Closed ',' [' ', '=', ' '] := by decide
  rw [written, ← List.append_assoc]
  cases he : v.initializer with
  | none => simpa using closed_head hv
  | some e =>
    have hview := closed_of_isPieceChar (Initializer.isPieceChar_of_mem_view (hv.initializer e he))
    exact (closed_head hv).append (hequals.append hview)

theorem unpaired_view : Unpaired (v.written Initializer.view) := by
  have hspace : ∀ c ∈ [' '], Text.isSpace c = true := by decide
  rw [written, ← List.append_assoc]
  cases he : v.initializer with
  | none => simpa using unpaired_head hv
  | some e =>
    have hview := (Initializer.unpaired_view (hv.initializer e he)).spaces_append hspace
    have h := ((unpaired_head hv).append_spaces hspace).append_cons hview (k := '=')
      (by decide) (by decide)
    simpa using h

end Variable

-- ---------------------------------------------------------------------------
-- The other variables
-- ---------------------------------------------------------------------------

/-- What is left of a variable where it shows, without white space at its end. -/
def Variable.declarator (v : Variable) : Text :=
  v.name ++ (v.brackets ++
    match v.initializer with
    | some (.plain s) => [' ', '=', ' '] ++ s
    | some (.quoted _) => [' ', '=']
    | none => [])

theorem Variable.trim_view {v : Variable} (hv : v.WellFormed) :
    Text.trim (v.written Initializer.view) = v.declarator ∧ v.declarator ≠ [] := by
  refine ⟨?_, by simp [declarator, ne_nil_of_mem_identifier hv.name]⟩
  have hhead := trimmed_head hv
  rw [written, declarator, ← List.append_assoc, ← List.append_assoc]
  cases he : v.initializer with
  | none => simpa using hhead.trim_eq
  | some e =>
    cases e with
    | plain s =>
      have hplain := hv.initializer _ he
      have hs : Text.Trimmed s := .of_forall hplain.1 fun c hc =>
        isSpace_of_isPlainChar (hplain.2 c hc)
      simpa [Initializer.view] using (hhead.append hs [' ', '=', ' ']).trim_eq
    | quoted s =>
      have hequals : Text.Trimmed ['='] := .of_forall (by simp) (by decide)
      have hblank : ∀ c ∈ ' ' :: Text.blankAll s, Text.isSpace c = true := by
        intro c hc
        rcases List.mem_cons.mp hc with rfl | hc
        · decide
        · rcases Text.eq_of_mem_blankAll hc with rfl | rfl <;> decide
      simpa [Initializer.view] using (hhead.append hequals [' ']).trim_append hblank

/-- Another variable is taken up to its initializer, or to the end of its piece. -/
theorem takes_declarator {v : Variable} (hv : v.WellFormed) :
    ∃ w t marks, v.declarator = w ++ t ∧ w ≠ [] ∧ declarator.Takes none 0 w t marks ∧
      VariableMarks marks v := by
  have hname := ne_nil_of_mem_identifier hv.name
  have hstart : ∀ t, (Pattern.anchor .textStart : Shape).Takes none 0 [] t [] :=
    fun _ => takes_anchor rfl
  have hset : ∀ s, ∃ w t marks, v.name ++ (v.brackets ++ ' ' :: '=' :: s) = w ++ t ∧ w ≠ [] ∧
      declarator.Takes none 0 w t marks ∧ VariableMarks marks v := by
    intro s
    have hends : ∀ c ∈ ['='], Text.isSpace c = false ∧ c ≠ '[' ∧ isNameChar c = false := by decide
    obtain ⟨marks, hvariable, hmarks, _⟩ := @takes_variable none 0 [' '] ('=' :: s) v hv
      (by decide) (Text.forall_head (hends '=' (by simp)) s)
    have hlit : ∀ b pos, (Pattern.lit "=" ||| .anchor .textEnd : Shape).Takes b pos ['='] s [] :=
      fun _ _ => (takes_lit "=").orLeft
    have h := (hstart _).seq (hvariable.andThen (hlit _ _) rfl)
    exact ⟨_, s, _, by simp, by simp, fun next f hf => h next f hf, by simpa using hmarks⟩
  unfold Variable.declarator
  split
  · rename_i s _
    exact hset (' ' :: s)
  · exact hset []
  · obtain ⟨marks, hvariable, hmarks, _⟩ := @takes_variable none 0 [] [] v hv nofun nofun
    have hend : ∀ b pos, (Pattern.lit "=" ||| .anchor .textEnd : Shape).Takes b pos [] [] [] :=
      fun _ _ => .orRight (fails_lit (by decide)) (takes_anchor rfl)
    have h := (hstart _).seq (hvariable.andThen (hend _ _) rfl)
    exact ⟨_, [], _, by simp, by simp [hname], fun next f hf => h next f hf, by simpa using hmarks⟩

/-- The variables behind the first one are read from their pieces. -/
theorem forall₂_declarators {vs : List Variable} (hvs : ∀ v ∈ vs, v.WellFormed) :
    List.Forall₂ (fun m v => VariableMarks m.marks v)
      ((vs.map Variable.declarator).filterMap declarator.firstMatch?) vs := by
  induction vs with
  | nil => exact .nil
  | cons v vs ih =>
    obtain ⟨w, t, marks, hdeclarator, hne, htakes, hmarks⟩ := takes_declarator (hvs v (by simp))
    rw [List.map_cons, List.filterMap_cons, hdeclarator, htakes.firstMatch?_eq hne]
    exact .cons hmarks (ih fun u hu => hvs u (by simp [hu]))

/-- Every variable behind the first one leaves a piece. -/
theorem trim_pieces {vs : List Variable} (hvs : ∀ v ∈ vs, v.WellFormed) :
    ((vs.map (·.written Initializer.view)).map Text.trim).filter (!·.isEmpty) =
      vs.map Variable.declarator := by
  have hmap : (vs.map (·.written Initializer.view)).map Text.trim = vs.map Variable.declarator := by
    rw [List.map_map]
    exact List.map_congr_left fun v hv => (Variable.trim_view (hvs v hv)).1
  rw [hmap, List.filter_eq_self]
  intro p hp
  obtain ⟨v, hv, rfl⟩ := List.mem_map.mp hp
  simpa using (Variable.trim_view (hvs v hv)).2

/-- The initializer of the first variable is a piece as well, unless it is blank. Then the piece of
the second variable is dropped for it. -/
theorem trim_pieces_drop {e : Initializer} (he : e.WellFormed) {vs : List Variable}
    (hvs : ∀ v ∈ vs, v.WellFormed) :
    (((e.view :: vs.map (·.written Initializer.view)).map Text.trim).filter (!·.isEmpty)).drop 1 =
      (vs.drop (if e.isQuoted then 1 else 0)).map Variable.declarator := by
  have hpieces := trim_pieces hvs
  cases e with
  | plain s =>
    have htrim : Text.trim s = s := Text.Trimmed.trim_eq
      (.of_forall he.1 fun c hc => isSpace_of_isPlainChar (he.2 c hc))
    have hne : s ≠ [] := he.1
    simpa [Initializer.view, Initializer.isQuoted, htrim, hne] using hpieces
  | quoted s =>
    have htrim : Text.trim (Text.blankAll s) = [] := Text.trim_of_isSpace fun c hc => by
      rcases Text.eq_of_mem_blankAll hc with rfl | rfl <;> decide
    rw [List.map_cons, Initializer.view, htrim, List.filter_cons_of_neg (by simp), hpieces,
      List.map_drop]
    rfl

/-- The pieces behind the first variable, up to the semicolon. -/
theorem furtherVariables_pieces {pieces : List Text} (hclosed : ∀ p ∈ pieces, Text.Closed ',' p)
    (hchars : ∀ p ∈ pieces, ';' ∉ p) (hasInitializer : Bool) :
    furtherVariables hasInitializer (' ' :: ([',', ' '].intercalate pieces ++ [';', '\n'])) =
      (((pieces.map Text.trim).filter (!·.isEmpty)).drop
        (if hasInitializer then 1 else 0)).filterMap
        declarator.firstMatch? := by
  have hsemicolon : ∀ c ∈ ' ' :: [',', ' '].intercalate pieces, decide (c ≠ ';') = true := by
    intro c hc
    rw [decide_eq_true_eq]
    rcases List.mem_cons.mp hc with rfl | hc
    · decide
    · rintro rfl
      rcases Text.mem_intercalate hc with ⟨p, hp, hmem⟩ | hmem
      · exact hchars p hp hmem
      · exact absurd hmem (by decide)
  have htake : (' ' :: ([',', ' '].intercalate pieces ++ [';', '\n'])).takeWhile (· ≠ ';') =
      ' ' :: [',', ' '].intercalate pieces := by
    rw [← List.cons_append, List.takeWhile_append_of_pos hsemicolon]
    simp
  rw [furtherVariables, htake, Text.splitTopLevel_space_cons Text.isSeparator_comma hclosed]

-- ---------------------------------------------------------------------------
-- Declarations
-- ---------------------------------------------------------------------------

section List

variable {vs : List Variable} (hvs : ∀ v ∈ vs, v.WellFormed)

include hvs

theorem masks_variables : Masks ([',', ' '].intercalate (vs.map (·.written Initializer.text)))
    ([',', ' '].intercalate (vs.map (·.written Initializer.view))) := by
  have hcomma : ∀ c ∈ [',', ' '], isCodeChar c = true := by decide
  have hfirst : ∀ s, PlainFirst ([',', ' '] ++ s) := fun s => Text.forall_head (by decide) _
  induction vs with
  | nil => exact .nil
  | cons v vs ih =>
    have hv := Variable.masks (hvs v (by simp))
    have hrest := ih fun u hu => hvs u (by simp [hu])
    cases vs with
    | nil => simpa using hv
    | cons u us =>
      simp only [List.map_cons, List.intercalate_cons_cons, List.append_assoc] at hrest ⊢
      exact hv.append (hrest.code_append hcomma) (hfirst _)

theorem unpaired_variables :
    Unpaired ([',', ' '].intercalate (vs.map (·.written Initializer.view))) := by
  have hspace : ∀ c ∈ [' '], Text.isSpace c = true := by decide
  induction vs with
  | nil => exact .of_not_isSpace nofun
  | cons v vs ih =>
    have hv := Variable.unpaired_view (hvs v (by simp))
    have hrest := ih fun u hu => hvs u (by simp [hu])
    cases vs with
    | nil => simpa using hv
    | cons u us =>
      have h := hv.append_cons (hrest.spaces_append hspace) (k := ',') (by decide) (by decide)
      simpa using h

theorem not_mem_variables {k : Char} (hk : isVariableChar k = false) (hcomma : k ≠ ',') :
    k ∉ [',', ' '].intercalate (vs.map (·.written Initializer.view)) := by
  intro hmem
  have hspace : k ≠ ' ' := fun h => absurd (h ▸ hk) (by decide)
  rcases Text.mem_intercalate hmem with ⟨p, hp, hmem⟩ | hmem
  · obtain ⟨v, hv, rfl⟩ := List.mem_map.mp hp
    exact ne_of_isVariableChar (Variable.isVariableChar_of_mem_view (hvs v hv) k hmem) hk rfl
  · simp_all

theorem closed_variables : ∀ p ∈ vs.map (·.written Initializer.view), Text.Closed ',' p := by
  intro p hp
  obtain ⟨v, hv, rfl⟩ := List.mem_map.mp hp
  exact Variable.closed_view (hvs v hv)

theorem semicolon_not_mem_variables : ∀ p ∈ vs.map (·.written Initializer.view), ';' ∉ p := by
  intro p hp hmem
  obtain ⟨v, hv, rfl⟩ := List.mem_map.mp hp
  exact ne_of_isVariableChar (Variable.isVariableChar_of_mem_view (hvs v hv) ';' hmem)
    (by decide) rfl

end List

theorem not_mem_fieldType {s : Text} (hs : IsFieldType s) : ∀ c ∈ s, c ≠ '{' ∧ c ≠ '}' := by
  have hopen := within_typeText (k := '{') (by decide) (by decide) (by decide) (by decide)
  have hclose := within_typeText (k := '}') (by decide) (by decide) (by decide) (by decide)
  exact fun c hc => ⟨hopen.of_mem_language s hs.written c hc,
    hclose.of_mem_language s hs.written c hc⟩

namespace VariableDeclaration

variable {d : VariableDeclaration} (hd : d.WellFormed)

include hd

/-- Masking the body shows the declaration, its literals in quotes blank. -/
theorem masks_body : Masks d.body ('\n' :: d.written Initializer.view) := by
  have hlist : Masks (d.list Initializer.text ++ [';', '\n'])
      (d.list Initializer.view ++ [';', '\n']) :=
    (masks_variables hd.all).append (masks_code (by decide)) (Text.forall_head (by decide) _)
  have htype := (masks_self hd.type.whole hd.type.shown (not_mem_fieldType hd.type)).append
    (hlist.code_append (s := [' ']) (by decide)) (Text.forall_head (by decide) _)
  have hpublic := htype.code_append (s := "public ".toList) (by decide)
  have hline : Masks (d.written Initializer.text) (d.written Initializer.view) := by
    unfold written docLine
    cases hdoc : d.doc with
    | none => exact hpublic
    | some doc =>
      have h := (masks_doc (hd.doc doc hdoc)).append (hpublic.code_append (s := ['\n']) (by decide))
        (Text.forall_head (by decide) _)
      simpa using h
  exact hline.code_append (s := ['\n']) (by decide)

/-- The view of the body knows its documentation. -/
theorem mem_docs_body {doc : Text} (hdoc : d.doc = some doc) :
    (⟨1, 1 + Text.byteLength doc⟩ : Span) ∈ (mask d.body).docs := by
  obtain ⟨rest, hrest⟩ : ∃ rest, d.body = ['\n'] ++ (doc ++ rest) :=
    ⟨'\n' :: ("public ".toList ++ (d.type ++ ' ' :: (d.list Initializer.text ++ [';', '\n']))),
      by simp [body, written, docLine, hdoc]⟩
  have htokens : tokens d.body = .code '\n' :: .trivia .doc doc :: tokens rest := by
    rw [hrest, tokens_append_of_code (by decide), (hd.doc doc hdoc).tokens_append]
    rfl
  rw [mask_eq, htokens]
  have hsize : '\n'.utf8Size = 1 := rfl
  simp [outer, Token.text, Token.depthAfter, docSpan?, hsize]

/-- A place before the visibility is blank or in the documentation. -/
theorem inDoc_of_docLine {u v : Text} {c : Char} (h : '\n' :: d.docLine = u ++ c :: v) :
    Text.isSpace c = true ∨ (mask d.body).inDoc (Text.byteLength u) = true := by
  have hnewline : Text.isSpace '\n' = true := by decide
  have hspace : ∀ {x y : Text}, ['\n'] = x ++ c :: y → Text.isSpace c = true := by
    intro x y heq
    have hmem : c ∈ ['\n'] := by simp [heq]
    exact List.mem_singleton.mp hmem ▸ hnewline
  cases hdoc : d.doc with
  | none => exact .inl (hspace (by simpa [docLine, hdoc] using h))
  | some doc =>
    cases u with
    | nil => exact .inl ((List.cons.inj h).1 ▸ hnewline)
    | cons e u =>
      have hline : doc ++ ['\n'] = u ++ c :: v := by simpa [docLine, hdoc] using (List.cons.inj h).2
      obtain rfl : '\n' = e := (List.cons.inj h).1
      rcases List.append_eq_append_iff.mp hline with ⟨m, _, hm⟩ | ⟨m, hm, hrest⟩
      · exact .inl (hspace hm)
      · cases m with
        | nil => exact .inl (hspace (x := []) hrest.symm)
        | cons f m =>
          -- The place is inside the comment.
          have hsize : '\n'.utf8Size = 1 := rfl
          have hpos := f.utf8Size_pos
          refine .inr (inDoc_eq_true (mem_docs_body hd hdoc) ?_ ?_)
          · simp [hsize]
          · simp only [hm, hsize, Text.byteLength_cons, Text.byteLength_append]
            omega

/-- No type is declared in the body: only documentation may hold a brace. -/
theorem typesIn_body (docs : Bool) (fuel : Nat) : typesIn docs fuel false d.body = [] := by
  have hmask : (mask d.body).text = ('\n' :: d.docLine) ++
      ("public ".toList ++ (d.type ++ ' ' :: (d.list Initializer.view ++ [';', '\n']))) :=
    (masks_body hd).mask_text
  refine typesIn_eq_nil_of_brace hmask ?_ (fun u c v h => inDoc_of_docLine hd h) docs false fuel
  have hlist : '{' ∉ d.list Initializer.view := not_mem_variables hd.all (by decide) (by decide)
  have htype : '{' ∉ d.type := fun hmem => (not_mem_fieldType hd.type _ hmem).1 rfl
  simp [hlist, htype]

/-- The documentation of a match is the comment without the end of its line. -/
theorem docOf_eq {docs : Bool} {m : Match Part} (hm : DeclarationMarks m.marks d) :
    docOf docs m = if docs then d.doc.map String.ofList else none := by
  have htrim : ∀ doc ∈ d.doc, Text.trimEnd (doc ++ ['\n']) = doc := by
    intro doc hdoc
    obtain ⟨u, hu⟩ := (hd.doc doc hdoc).exists_eq_append
    exact Text.trimEnd_append ⟨u, '/', hu, by decide⟩ (by decide)
  have hget := hm.doc m.whole
  unfold docOf
  cases docs with
  | false => rfl
  | true =>
    change Option.map Capture.text (m.get? .doc) = _ at hget
    simp only [if_true]
    cases hm : m.get? .doc with
    | none => simp_all
    | some doc =>
      rw [hm, Option.map_some] at hget
      obtain ⟨text, htext, heq⟩ := Option.map_eq_some_iff.mp hget.symm
      rw [Option.map_some, htext, Option.map_some, ← heq, htrim text htext]

/-- A match of the declaration gives its first variable and those that are read behind it. -/
theorem fieldsOf_eq (docs : Bool) {members : Text} {m : Match Part}
    (hm : DeclarationMarks m.marks d)
    {c : Char} (hlast : m.whole.text.getLast? = some c) {vs : List Variable}
    (hvs : List.Forall₂ (fun m v => VariableMarks m.marks v)
      (if c = ';' then [] else
        furtherVariables (decide (c = '=')) (Text.dropBytes m.whole.stop members)) vs) :
    fieldsOf docs members m = (d.first :: vs).map (d.fieldOf docs) := by
  have hstatement : statementWords.contains (Text.compact d.type) = false := by
    simpa [List.contains_eq_mem] using hd.type.notStatement
  have hfield : ∀ {n : Match Part} {v : Variable}, VariableMarks n.marks v →
      { name := String.ofList (n.text .name)
        typeName := String.ofList (variableType (Text.compact d.type) (n.text .dimensions))
        doc := docOf docs m : Field } = d.fieldOf docs v := by
    intro n v hn
    rw [fieldOf, variableType, docOf_eq hd hm]
    rw [show n.text .name = v.name from hn.name n.whole,
      show (n.text .dimensions).count '[' = v.dimensions from hn.dimensions n.whole]
  have htype : m.text .fieldType = d.type := hm.fieldType m.whole
  rw [fieldsOf, htype, hstatement, hlast]
  simp only [Option.some.injEq, Bool.false_eq_true, if_false]
  have hall : List.Forall₂ (fun m v => VariableMarks m.marks v) (m :: _) (d.first :: vs) :=
    .cons hm.toVariableMarks hvs
  rw [← List.forall₂_eq_eq_eq, List.forall₂_map_left_iff, List.forall₂_map_right_iff]
  exact hall.imp fun _ _ => hfield

/-- In its view, a declaration has one match, up to a character after its first name. -/
theorem exists_allMatches_of_split {sp t : Text} {c : Char} (hsp : ∀ e ∈ sp, Text.isSpace e = true)
    (hc : c ∈ ['=', ';', ','])
    (hsplit : d.list Initializer.view ++ [';', '\n'] =
      d.first.name ++ (d.first.brackets ++ (sp ++ c :: t))) :
    ∃ m : Match Part, field.allMatches ('\n' :: d.written Initializer.view) = [m] ∧
      DeclarationMarks m.marks d ∧ m.whole.text.getLast? = some c ∧
      Text.dropBytes m.whole.stop ('\n' :: d.written Initializer.view) = t := by
  have hunpaired : Unpaired (d.list Initializer.view ++ ';' :: ['\n']) :=
    (unpaired_variables hd.all).append_cons (.of_isSpace (by decide)) (by decide) (by decide)
  have hclosing : '>' ∉ d.list Initializer.view := not_mem_variables hd.all (by decide) (by decide)
  obtain ⟨marks, htakes, hmarks⟩ :=
    @takes_field_of_mem d hd (some '\n') (0 + '\n'.utf8Size) (by decide)
    sp t _ _ c hsp hc hclosing hsplit.symm hunpaired
  generalize hw : d.docLine ++ ("public ".toList ++
    (d.type ++ ' ' :: (d.first.name ++ (d.first.brackets ++ (sp ++ [c]))))) = w at htakes
  have hwritten : d.written Initializer.view = w ++ t := by
    rw [VariableDeclaration.written, hsplit, ← hw]
    simp
  have hrest : Unpaired t := by
    refine Unpaired.of_append (s := d.first.name ++ (d.first.brackets ++ (sp ++ [c]))) ?_
    simpa [hsplit] using hunpaired
  have hnewline : field.Fails none ('\n' :: (w ++ t)) :=
    fails_field (Text.forall_head (by decide) _) fun w hw h =>
      not_opens_of_isBreak (by decide) hw h.1
  have hlast : w.getLast? = some c := by
    have hsplit : w = (d.docLine ++ ("public ".toList ++ (d.type ++ ' ' :: (d.first.name ++
        (d.first.brackets ++ sp))))) ++ [c] := by simp [← hw]
    rw [hsplit, List.getLast?_concat]
  have hstop : Text.dropBytes (0 + '\n'.utf8Size + Text.byteLength w) ('\n' :: (w ++ t)) = t := by
    have h := Text.dropBytes_append ('\n' :: w) t
    simpa using h
  refine ⟨⟨⟨0 + '\n'.utf8Size, 0 + '\n'.utf8Size + Text.byteLength w, w ++ t⟩, marks⟩, ?_,
    hmarks, ?_, ?_⟩
  · rw [hwritten, allMatches_eq_matchesFrom, hnewline.matchesFrom_cons,
      htakes.matchesFrom_eq (by simp [← hw]), hrest.field_matchesFrom]
  · rw [Capture.text_append, hlast]
  · rw [hwritten, hstop]

/-- The fields of a declaration are those of its first variable and of the matches in what
follows. -/
theorem fields_of_split (docs : Bool) (sp t : Text) (c : Char) {vs : List Variable}
    (hsp : ∀ e ∈ sp, Text.isSpace e = true) (hc : c ∈ ['=', ';', ','])
    (hsplit : d.list Initializer.view ++ [';', '\n'] =
      d.first.name ++ (d.first.brackets ++ (sp ++ c :: t)))
    (hvs : List.Forall₂ (fun m v => VariableMarks m.marks v)
      (if c = ';' then [] else furtherVariables (decide (c = '=')) t) vs) :
    fields docs ('\n' :: d.written Initializer.view) = (d.first :: vs).map (d.fieldOf docs) := by
  obtain ⟨m, hmatches, hmarks, hlast, hstop⟩ := exists_allMatches_of_split hd hsp hc hsplit
  rw [fields, hmatches, List.flatMap_singleton]
  exact fieldsOf_eq hd docs hmarks hlast (hstop ▸ hvs)

/-- Behind a first variable without an initializer, every variable is read. -/
theorem fields_of_initializer_eq_none (docs : Bool) (he : d.first.initializer = none) :
    fields docs ('\n' :: d.written Initializer.view) = d.all.map (d.fieldOf docs) := by
  rw [all]
  cases hvs : d.more with
  | nil =>
    refine fields_of_split hd docs [] ['\n'] ';' (by simp) (by simp) ?_ .nil
    simp [list, all, hvs, Variable.written, he]
  | cons v vs =>
    rw [← hvs]
    refine fields_of_split hd docs []
      (' ' :: ([',', ' '].intercalate (d.more.map (·.written Initializer.view)) ++ [';', '\n']))
      ',' (by simp) (by simp) ?_ ?_
    · simp [list, all, hvs, Variable.written, he]
    · rw [if_neg (by decide), furtherVariables_pieces (closed_variables hd.more)
        (semicolon_not_mem_variables hd.more), trim_pieces hd.more]
      exact forall₂_declarators hd.more

/-- Behind a first variable with an initializer, the view of the initializer is a piece of its own.
One piece is dropped: that of the initializer, or where its view is blank, that of the next
variable. -/
theorem fields_of_initializer_eq_some (docs : Bool) {e : Initializer}
    (he : d.first.initializer = some e) :
    fields docs ('\n' :: d.written Initializer.view) =
      (d.first :: d.more.drop (if e.isQuoted then 1 else 0)).map (d.fieldOf docs) := by
  have hinitializer := hd.first.initializer e he
  have hview := Initializer.isPieceChar_of_mem_view hinitializer
  have hjoin : ∀ x ps, [',', ' '].intercalate ((x ++ e.view) :: ps) =
      x ++ [',', ' '].intercalate (e.view :: ps) := by
    intro x ps
    cases ps <;> simp
  refine fields_of_split hd docs [' ']
    (' ' :: ([',', ' '].intercalate (e.view :: d.more.map (·.written Initializer.view)) ++
      [';', '\n']))
    '=' (by decide) (by simp) ?_ ?_
  · have hwritten : d.first.written Initializer.view =
        (d.first.name ++ (d.first.brackets ++ [' ', '=', ' '])) ++ e.view := by
      simp [Variable.written, he]
    rw [list, all, List.map_cons, hwritten, hjoin]
    simp
  · rw [if_neg (by decide), furtherVariables_pieces]
    · rw [if_pos (by decide), trim_pieces_drop hinitializer hd.more]
      exact forall₂_declarators fun v hv => hd.more v (List.mem_of_mem_drop hv)
    · exact List.forall_mem_cons.mpr ⟨closed_of_isPieceChar hview, closed_variables hd.more⟩
    · exact List.forall_mem_cons.mpr
        ⟨fun hmem => ne_of_isPieceChar (hview ';' hmem) (by decide) rfl,
          semicolon_not_mem_variables hd.more⟩

/-- What is read in the view of a declaration. -/
theorem fields_written (docs : Bool) :
    fields docs ('\n' :: d.written Initializer.view) = d.reported.map (d.fieldOf docs) := by
  unfold reported Variable.isQuoted
  cases he : d.first.initializer with
  | none => exact fields_of_initializer_eq_none hd docs he
  | some e => exact fields_of_initializer_eq_some hd docs he

end VariableDeclaration

/-- A class whose body is one declaration has a field for every variable, in order, with the type
of the declaration, the brackets of the variable and the documentation of the declaration. Only
where the initializer of the first variable is a string or character literal is the second variable
left out. -/
theorem fields_declaration {o : TypeOutline} (ho : o.Printable) (hclass : o.kind = .class_)
    {d : VariableDeclaration} (hd : d.WellFormed) (docs : Bool) :
    (extract docs (String.ofList (aroundBody o d.body))).placed.map (·.decl.fields) =
        [d.reported.map (d.fieldOf docs)] ∧
      ((extract docs (String.ofList (aroundBody o d.body))).placed.map (·.decl.fields) =
          [d.all.map (d.fieldOf docs)] ↔
        (d.first.isQuoted = true → d.more = [])) := by
  have hmasks := VariableDeclaration.masks_body hd
  have hfields : (extract docs (String.ofList (aroundBody o d.body))).placed.map (·.decl.fields) =
      [d.reported.map (d.fieldOf docs)] := by
    rw [placed_aroundBody ho hmasks.isBlock (VariableDeclaration.typesIn_body hd docs),
      List.map_singleton,
      fields_withBody_nil (o := withoutMembers o) docs hclass, hmasks.mask_text,
      VariableDeclaration.fields_written hd]
  refine ⟨hfields, ?_⟩
  rw [hfields]
  unfold VariableDeclaration.reported VariableDeclaration.all
  by_cases hquoted : d.first.isQuoted = true
  · rw [if_pos hquoted]
    constructor
    · intro h _
      have hlength := congrArg (·.map List.length) h
      rw [← List.length_eq_zero_iff]
      simp at hlength
      omega
    · intro h
      rw [h hquoted]
      rfl
  · rw [if_neg hquoted]
    exact ⟨fun _ h => absurd h hquoted, fun _ => rfl⟩

/-- Every plain type is a type of fields, the words of statements apart. -/
theorem isFieldType_of_isTypeText {s : Text} (hs : IsTypeText s) : IsFieldType s := by
  have hcode : ∀ c ∈ s, isCodeChar c = true := by
    intro c hc
    have hall : ∀ k ∈ "/\"'\x7b\x7d".toList, isTypeChar k = false := by decide
    simp only [isCodeChar, Bool.not_eq_true', List.contains_eq_mem, decide_eq_false_iff_not]
    exact fun hmem => ne_of_isTypeChar (hs.entry.chars c hc) (hall c hmem) rfl
  have hmasks := masks_code hcode
  refine ⟨mem_typeText_of_isTypeText hs, hmasks.isBlock.whole, hmasks.mask_text, ?_⟩
  rw [hs.entry.isCompact.compact_eq]
  have hnot : statementWords.contains s = false := contains_eq_false hs.startsWithName (by decide)
  simpa [List.contains_eq_mem] using hnot

/-- Two names, the first one set to a literal in quotes. -/
def namesDeclaration : VariableDeclaration :=
  { doc := some "/** Names. */".toList
    type := "String".toList
    first := { name := "a".toList, initializer := some (.quoted ['"', 'x', '"']) }
    more := [{ name := "b".toList }] }

def namesClass : TypeOutline := { name := "Names", kind := .class_ }

def namesFile : String := String.ofList (aroundBody namesClass namesDeclaration.body)

theorem printable_namesClass : namesClass.Printable :=
  ⟨by decide, nofun, nofun, nofun, nofun, nofun, nofun, rfl⟩

theorem wellFormed_namesDeclaration : namesDeclaration.WellFormed := by
  have hname : ∀ c : Char, c.isAlpha = true → [c] ∈ identifier.language := fun c hc =>
    mem_language_identifier.mpr ⟨c, [], rfl, by simp [hc], nofun⟩
  have hquoted : IsQuoted ['"', 'x', '"'] :=
    .intro (.inl rfl) (.char (by decide) (by decide) (by decide) .nil)
  refine ⟨?_, isFieldType_of_isTypeText (isTypeText_of_isName (by decide)), fun v hv => ?_⟩
  · rintro doc ⟨⟩
    have hprose : ∀ c ∈ " Names. ".toList, c ≠ '*' := by decide
    exact ⟨" Names. */".toList, rfl, closes_blank hprose, by decide⟩
  · rcases List.mem_pair.mp hv with rfl | rfl
    · refine ⟨hname 'a' (by decide), nofun, ?_⟩
      rintro e ⟨⟩
      exact hquoted
    · exact ⟨hname 'b' (by decide), nofun, nofun⟩

/-- The second name is left out. -/
theorem fields_declaration_quotedFirst :
    (namesClass.Printable ∧ namesClass.kind = .class_ ∧ namesDeclaration.WellFormed) ∧
      (extract true namesFile).placed.map (·.decl.fields) =
        [[{ name := "a", typeName := "String", doc := some "/** Names. */" }]] ∧
      (extract true namesFile).placed.map (·.decl.fields) ≠
        [namesDeclaration.all.map (namesDeclaration.fieldOf true)] := by
  obtain ⟨hfields, hall⟩ :=
    fields_declaration printable_namesClass rfl wellFormed_namesDeclaration true
  have hquoted : namesDeclaration.first.isQuoted = true := rfl
  have hmore : namesDeclaration.more ≠ [] := by simp [namesDeclaration]
  have hcompact : Text.compact "String".toList = "String".toList := by decide
  have hfield : namesDeclaration.fieldOf true namesDeclaration.first =
      { name := "a", typeName := "String", doc := some "/** Names. */" } := by
    rw [VariableDeclaration.fieldOf, show namesDeclaration.type = "String".toList from rfl,
      hcompact]
    decide
  refine ⟨⟨printable_namesClass, rfl, wellFormed_namesDeclaration⟩, ?_, fun h =>
    hmore (hall.mp h hquoted)⟩
  rw [namesFile, hfields, show namesDeclaration.reported = [namesDeclaration.first] from rfl,
    List.map_singleton, hfield]

end Source

end Typings
