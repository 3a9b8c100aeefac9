import Typings.Proofs.Source.PrintedTypes

/-!
# Import lines

The pattern for imports looks for its word at the start of a line. From there it takes an import
however white space is spread over it, and remembers its path, the word `static` and the wildcard.
Main statement: `WrittenImport.takes_import`.
-/

namespace Typings.Source

open Declaration Pattern

-- ---------------------------------------------------------------------------
-- Lines that a word opens
-- ---------------------------------------------------------------------------

/-- The start of a line, a word and the space after it. -/
def lineOpening (word : String) : Shape := .anchor .lineStart ++ spaces ++ .lit word ++ someSpaces

/-- Whether a line starts after a character. -/
def AtLineStart (b : Option Char) : Prop := ∀ c ∈ b, c = '\n'

section Opening

variable {word : String} {b : Option Char} {pos : Nat} {s t : Text}

theorem takes_lineOpening {lead gap : Text} (hb : AtLineStart b)
    (hlead : ∀ c ∈ lead, Text.isSpace c = true) (hne : gap ≠ [])
    (hgap : ∀ c ∈ gap, Text.isSpace c = true) {c : Char} {cs : Text} (hword : word.toList = c :: cs)
    (hc : Text.isSpace c = false) (ht : ∀ c ∈ t.head?, Text.isSpace c = false) :
    (lineOpening word).Takes b pos (lead ++ (word.toList ++ gap)) t [] := by
  have hstart : (Pattern.anchor .lineStart).Takes b pos [] (lead ++ (word.toList ++ (gap ++ t)))
      ([] : List (Mark Part)) := by
    refine takes_anchor ?_
    cases b with
    | none => rfl
    | some d => simp [Anchor.holds, hb d rfl]
  have hspaces : ∀ b pos, spaces.Takes b pos lead (word.toList ++ (gap ++ t)) [] := fun _ _ =>
    takes_star_char hlead (by
      rw [hword]
      exact Text.forall_head hc _)
  have hlit : ∀ b pos, (Pattern.lit word).Takes b pos word.toList (gap ++ t)
      ([] : List (Mark Part)) :=
    fun _ _ => takes_lit word
  have hend : ∀ b pos, someSpaces.Takes b pos gap t [] := fun _ _ => takes_plus_char hne hgap ht
  have h := ((hstart.andThen (hspaces _ _) rfl).andThen (hlit _ _) rfl).andThen (hend _ _) rfl
  exact h.congr (by simp) (by simp)

/-- Inside a line nothing opens. -/
theorem fails_lineOpening_of_ne {c : Char} (hc : c ≠ '\n') :
    (lineOpening word).Fails (some c) s := by
  have hstart : (Pattern.anchor .lineStart : Shape).Fails (some c) s :=
    fails_anchor fun pos => by simp [Anchor.holds, hc]
  exact hstart.seq.seq.seq

end Opening

-- ---------------------------------------------------------------------------
-- Paths
-- ---------------------------------------------------------------------------

/-- Whether a character may stand in a dotted name. -/
def isDottedChar (c : Char) : Bool := Text.isWordChar c || c = '.'

theorem ne_of_isDottedChar {c : Char} (h : isDottedChar c = true) :
    c ≠ '*' ∧ c ≠ ';' ∧ Text.isSpace c = false := by
  refine ⟨?_, ?_, ?_⟩
  · rintro rfl
    exact absurd h (by decide)
  · rintro rfl
    exact absurd h (by decide)
  · refine Bool.eq_false_iff.mpr fun hspace => ?_
    have hdot : c ≠ '.' := by
      rintro rfl
      exact absurd hspace (by decide)
    simp [isDottedChar, Text.isWordChar_of_isSpace hspace, hdot] at h

/-- A dotted name that does not end with a dot. -/
structure IsDottedName (s : Text) : Prop where
  chars : ∀ c ∈ s, isDottedChar c = true
  last : ∃ cs c, s = cs ++ [c] ∧ c ≠ '.'

theorem IsDottedName.isSpace_head {s : Text} (h : IsDottedName s) (t : Text) :
    ∀ c ∈ (s ++ t).head?, Text.isSpace c = false := by
  obtain ⟨c, cs, hcs⟩ := List.exists_cons_of_ne_nil (show s ≠ [] by
    obtain ⟨cs, c, rfl, _⟩ := h.last
    simp)
  rw [hcs]
  exact Text.forall_head (ne_of_isDottedChar (h.chars c (by simp [hcs]))).2.2 _

theorem isDottedName_of_isPath {s : Text} (h : IsPath s) : IsDottedName s := by
  refine ⟨fun c hc => ?_, ?_⟩
  · rcases h.chars c hc with hc | rfl
    · simp [isDottedChar, isWordChar_of_isPlainChar hc]
    · decide
  · obtain ⟨cs, c, rfl, hc⟩ := h.last
    refine ⟨cs, c, rfl, ?_⟩
    rintro rfl
    exact absurd hc (by decide)

-- ---------------------------------------------------------------------------
-- The pattern for imports
-- ---------------------------------------------------------------------------

/-- The pattern for imports after the path. -/
def importEnd : Shape := .opt (.group .wildcard (.lit ".*")) ++ (spaces ++ .lit ";")

/-- The pattern for imports from the path on. -/
def importPath : Shape := .group .path (.lazyPlus dotted) ++ importEnd

/-- The pattern for imports after the word. -/
def importRest : Shape := .opt (.group .static (keyword ["static"])) ++ importPath

theorem importLine_eq : importLine.allMatches =
    (lineOpening "import" ++ importRest).allMatches := by
  funext s
  rw [allMatches_eq_matchesFrom, allMatches_eq_matchesFrom]
  rfl

/-- Within a path no import ends. -/
theorem fails_importEnd {b : Option Char} {path u v t : Text} (hpath : IsDottedName path)
    (huv : path = u ++ v) (hv : v ≠ []) : importEnd.Fails b (v ++ t) := by
  obtain ⟨c, cs, rfl⟩ := List.exists_cons_of_ne_nil hv
  have hchars : ∀ d ∈ c :: cs, d ≠ '*' ∧ d ≠ ';' ∧ Text.isSpace d = false := fun d hd =>
    ne_of_isDottedChar (hpath.chars d (huv ▸ List.mem_append_right _ hd))
  have hwildcard : (Pattern.group .wildcard (.lit ".*") : Shape).Fails b (c :: cs ++ t) := by
    have hword : ".*".toList = ['.', '*'] := by decide
    refine (fails_lit ?_).group _
    rw [hword]
    rintro ⟨z, hz⟩
    obtain ⟨rfl, hrest⟩ := List.cons.inj hz
    cases cs with
    | nil =>
      -- A path does not end with a dot.
      obtain ⟨ds, d, hds, hd⟩ := hpath.last
      rw [hds] at huv
      exact hd (by simpa using (List.append_inj' huv rfl).2)
    | cons d cs =>
      obtain ⟨rfl, _⟩ := List.cons.inj hrest
      exact (hchars '*' (by simp)).1 rfl
  have hend : (spaces ++ .lit ";" : Shape).Fails b ([] ++ (c :: cs ++ t)) := by
    obtain ⟨_, hsemicolon, hspace⟩ := hchars c (by simp)
    refine fails_spaces_seq (by simp) (Text.forall_head hspace _) fun b v hv => fails_lit ?_
    have hhead : ∀ d ∈ (v ++ (c :: cs ++ t)).head?, d ≠ ';' :=
      head_append_of_isSpace (by decide) hv (Text.forall_head (P := (· ≠ ';')) hsemicolon _)
    rintro ⟨z, hz⟩
    exact hhead ';' (by rw [← hz]; rfl) rfl
  exact hwildcard.stays_opt.fails_seq hend

/-- A path stops where the import ends. -/
theorem takes_importPath {b : Option Char} {pos : Nat} {path w t : Text} {marks : List (Mark Part)}
    (hpath : IsDottedName path)
    (hend : importEnd.Takes (Text.lastOr b path) (pos + Text.byteLength path) w t marks) :
    importPath.Takes b pos (path ++ w) t (Match.captured .path pos path (w ++ t) ++ marks) := by
  intro next f hf
  have hnext := hend next f (by simpa [Nat.add_assoc] using hf)
  obtain ⟨c, cs, rfl⟩ := List.exists_cons_of_ne_nil (show path ≠ [] by
    obtain ⟨cs, c, rfl, _⟩ := hpath.last
    simp)
  have hdots : (lazyStar dotted).run (fun s => (importEnd.run next s).map (·.closed .path s))
      ⟨some c, pos + c.utf8Size, cs ++ (w ++ t)⟩ =
        some ((f.marked marks).closed .path ⟨Text.lastOr b (c :: cs),
          pos + Text.byteLength (c :: cs), w ++ t⟩) := by
    refine run_lazyStar_char (fun d hd => hpath.chars d (by simp [hd])) ?_ fun u v huv hv => ?_
    · rw [Text.lastOr_cons, Text.byteLength_cons, ← Nat.add_assoc] at hnext
      rw [hnext, Text.lastOr_cons, Text.byteLength_cons, ← Nat.add_assoc]
      rfl
    · have hfails : importEnd.Fails (Text.lastOr (some c) u) (v ++ (w ++ t)) :=
        fails_importEnd hpath (u := c :: u) (by rw [huv]; rfl) hv
      rw [hfails, Option.map_none]
  have hfirst : (lazyPlus dotted).run (fun s => (importEnd.run next s).map (·.closed .path s))
      ⟨b, pos, c :: cs ++ w ++ t⟩ = some ((f.marked marks).closed .path ⟨Text.lastOr b (c :: cs),
        pos + Text.byteLength (c :: cs), w ++ t⟩) := by
    have hc : ∀ goal rest, dotted.run goal ⟨b, pos, c :: rest⟩ =
        goal ⟨some c, pos + c.utf8Size, rest⟩ := by
      intro goal rest
      have haccepts : (Text.isWordChar c || c = '.') = true := hpath.chars c (by simp)
      simp only [dotted, run, haccepts, if_true]
      rfl
    rw [List.cons_append, List.cons_append, List.append_assoc]
    exact (hc _ _).trans hdots
  show ((lazyPlus dotted).run _ _).map _ = _
  rw [hfirst]
  simp [Match.captured, Ending.marked, Ending.opened, Ending.closed]

/-- The wildcard of an import, white space and the semicolon. -/
theorem takes_importEnd (i : Import) {trail : Text} (htrail : ∀ c ∈ trail, Text.isSpace c = true)
    (b : Option Char) (pos : Nat) (t : Text) :
    ∃ marks, importEnd.Takes b pos (i.wildcardText ++ (trail ++ [';'])) t marks ∧
      ∀ whole, (Match.get? ⟨whole, marks⟩ .wildcard).isSome = i.isWildcard ∧
        Match.get? ⟨whole, marks⟩ .static = none := by
  have hend : ∀ b pos, (spaces ++ .lit ";" : Shape).Takes b pos (trail ++ [';']) t [] := fun _ _ =>
    (takes_star_char htrail (Text.forall_head (by decide) _)).andThen (takes_lit ";") rfl
  unfold Import.wildcardText
  cases i.isWildcard with
  | false =>
    have hnone : (Pattern.opt (.group .wildcard (.lit ".*")) : Shape).Takes b pos []
        (trail ++ ';' :: t) [] := by
      refine takes_opt_of_fails ((fails_lit ?_).group _)
      have hhead : ∀ c ∈ (trail ++ ';' :: t).head?, c ≠ '.' :=
        head_append_of_isSpace (by decide) htrail (Text.forall_head (by decide) _)
      rintro ⟨z, hz⟩
      exact hhead '.' (by rw [← hz]; rfl) rfl
    exact ⟨_, hnone.andThen (hend _ _) (by simp), fun _ => ⟨rfl, rfl⟩⟩
  | true =>
    have hsome := (@takes_lit _ b pos (trail ++ ';' :: t) ".*").captured Part.wildcard |>.opt
    refine ⟨_, hsome.andThen (hend _ _) (by simp), fun whole => ⟨?_, ?_⟩⟩
    · rw [Match.get?_captured]
      rfl
    · rw [Match.get?_captured_of_ne (by decide)]
      rfl

/-- What the pattern for imports remembers of an import. -/
structure ImportMarks (marks : List (Mark Part)) (i : Import) : Prop where
  path : ∀ whole, Match.text ⟨whole, marks⟩ .path = i.path.toList
  static : ∀ whole, (Match.get? ⟨whole, marks⟩ .static).isSome = i.isStatic
  wildcard : ∀ whole, (Match.get? ⟨whole, marks⟩ .wildcard).isSome = i.isWildcard

theorem importOf_eq {marks : List (Mark Part)} {i : Import} (h : ImportMarks marks i)
    (whole : Capture) :
    importOf ⟨whole, marks⟩ = i := by
  simp only [importOf, h.path, h.static, h.wildcard, String.ofList_toList]

-- ---------------------------------------------------------------------------
-- Written imports
-- ---------------------------------------------------------------------------

/-- An import with the white space in front of it and between its parts. -/
structure WrittenImport where
  lead : Text := []
  gap : Text := [' ']
  /-- What stands after the word `static`. -/
  staticGap : Text := [' ']
  decl : Import
  trail : Text := []

namespace WrittenImport

def path (w : WrittenImport) : Text := w.decl.path.toList

def staticText (w : WrittenImport) : Text :=
  if w.decl.isStatic then "static".toList ++ w.staticGap else []

/-- What is written behind the path. -/
def ending (w : WrittenImport) : Text := w.decl.wildcardText ++ (w.trail ++ [';'])

/-- What is written behind the word `import`. -/
def afterWord (w : WrittenImport) : Text := w.gap ++ (w.staticText ++ (w.path ++ w.ending))

def print (w : WrittenImport) : Text := w.lead ++ ("import".toList ++ w.afterWord)

theorem lastOr_print (w : WrittenImport) (b : Option Char) : Text.lastOr b w.print = some ';' := by
  simp [print, afterWord, ending]

/-- Only white space stands between the parts, and some where it divides words. -/
structure Spaced (w : WrittenImport) : Prop where
  lead : ∀ c ∈ w.lead, Text.isSpace c = true
  gap : w.gap ≠ [] ∧ ∀ c ∈ w.gap, Text.isSpace c = true
  staticGap : w.staticGap ≠ [] ∧ ∀ c ∈ w.staticGap, Text.isSpace c = true
  trail : ∀ c ∈ w.trail, Text.isSpace c = true

variable {w : WrittenImport} {b : Option Char} {pos : Nat} {t : Text}

/-- No word goes on behind a path. -/
theorem Spaced.head_ending (hw : w.Spaced) (t : Text) :
    ∀ c ∈ (w.ending ++ t).head?, Text.isWordChar c = false := by
  have htrail : ∀ c ∈ (w.trail ++ (';' :: t)).head?, Text.isWordChar c = false := by
    cases htrail : w.trail with
    | nil => exact Text.forall_head (by decide) _
    | cons c cs =>
      exact Text.forall_head (Text.isWordChar_of_isSpace (hw.trail c (by simp [htrail]))) _
  unfold ending Import.wildcardText
  split
  · exact Text.forall_head (by decide) _
  · simpa using htrail

/-- A word and white space stand at a path when the path is that word and no wildcard; the white
space is all in front of the semicolon. -/
theorem Spaced.word_of_path_eq (hw : w.Spaced) (hpath : ∀ c ∈ w.path, Text.isSpace c = false)
    {word sp rest : Text} (hword : ∀ c ∈ word, Text.isWordChar c = true) (hne : sp ≠ [])
    (hsp : ∀ c ∈ sp, Text.isSpace c = true) (h : w.path ++ (w.ending ++ t) = word ++ (sp ++ rest)) :
    ∃ left, (∀ c ∈ left, Text.isSpace c = true) ∧ rest = left ++ ';' :: t := by
  obtain ⟨d, ds, rfl⟩ := List.exists_cons_of_ne_nil hne
  have hd := hsp d (by simp)
  have hends : d :: (ds ++ rest) = w.ending ++ t := by
    rcases List.append_eq_append_iff.mp h with ⟨m, hm, hrest⟩ | ⟨m, hm, hrest⟩
    · cases m with
      | nil => simpa using hrest.symm
      | cons e m =>
        have hhead := hw.head_ending t e (by rw [hrest]; rfl)
        rw [hword e (by simp [hm])] at hhead
        cases hhead
    · cases m with
      | nil => simpa using hrest
      | cons e m =>
        obtain ⟨rfl, _⟩ := List.cons.inj hrest
        have hspace := hpath d (by simp [hm])
        rw [hd] at hspace
        cases hspace
  have htrail : d :: (ds ++ rest) = w.trail ++ ';' :: t := by
    unfold ending Import.wildcardText at hends
    split at hends
    · obtain ⟨rfl, _⟩ := List.cons.inj hends
      exact absurd hd (by decide)
    · simpa using hends
  rw [← List.cons_append] at htrail
  rcases List.append_eq_append_iff.mp htrail with ⟨m, hm, hrest⟩ | ⟨m, hm, hrest⟩
  · exact ⟨m, fun c hc => hw.trail c (by simp [hm, hc]), hrest⟩
  · cases m with
    | nil => exact ⟨[], by simp, by simpa using hrest.symm⟩
    | cons e m =>
      obtain ⟨rfl, _⟩ := List.cons.inj hrest
      exact absurd (hsp ';' (by simp [hm])) (by decide)

/-- No path starts in the white space in front of a semicolon. -/
theorem fails_importPath_of_isSpace {left : Text} (hleft : ∀ c ∈ left, Text.isSpace c = true) :
    importPath.Fails b (left ++ ';' :: t) := by
  have hhead : ∀ c ∈ (left ++ ';' :: t).head?, isDottedChar c = false := by
    intro c hc
    refine Bool.eq_false_iff.mpr fun hdotted => ?_
    obtain ⟨_, hsemicolon, hspace⟩ := ne_of_isDottedChar hdotted
    cases left with
    | nil => exact hsemicolon (by simpa using hc.symm)
    | cons d left =>
      obtain rfl : d = c := by simpa using hc
      rw [hleft d (by simp)] at hspace
      cases hspace
  have hdotted : dotted.Fails b (left ++ ';' :: t) := fails_char hhead
  exact (hdotted.seq.group _).seq

/-- A path that is the word `static` is no word of a static import: no path would be left. -/
theorem fails_static_importPath (hw : w.Spaced) (hpath : ∀ c ∈ w.path, Text.isSpace c = false) :
    (.group .static (keyword ["static"]) ++ importPath : Shape).Fails b
      (w.path ++ (w.ending ++ t)) := by
  refine fails_seq_of_language fun u hu rest heq => ?_
  obtain ⟨word, hword, sp, hsp, rfl⟩ := mem_language_seq.mp hu
  obtain ⟨s, hs, rfl⟩ := mem_language_oneOf.mp hword
  obtain rfl : s = "static" := by simpa using hs
  obtain ⟨hne, hspace⟩ := mem_language_plus_char.mp hsp
  rw [List.append_assoc] at heq
  obtain ⟨left, hleft, rfl⟩ := hw.word_of_path_eq hpath (by decide) hne hspace heq
  exact fails_importPath_of_isSpace hleft

/-- The rest of an import is taken up to its semicolon. -/
theorem takes_importRest (hw : w.Spaced) (hpath : IsDottedName w.path) :
    ∃ marks, importRest.Takes b pos (w.staticText ++ (w.path ++ w.ending)) t marks ∧
      ImportMarks marks w.decl := by
  have hspace : ∀ c ∈ w.path, Text.isSpace c = false := fun c hc =>
    (ne_of_isDottedChar (hpath.chars c hc)).2.2
  unfold staticText
  cases hstatic : w.decl.isStatic with
  | false =>
    obtain ⟨marks, hend, hmarks⟩ := takes_importEnd w.decl hw.trail (Text.lastOr b w.path)
      (pos + Text.byteLength w.path) t
    have htakes := takes_importPath hpath hend
    have hskip : importRest.Takes b pos (w.path ++ w.ending) t
        (Match.captured .path pos w.path (w.ending ++ t) ++ marks) := by
      refine Takes.opt_skip ?_ htakes
      rw [List.append_assoc]
      exact fails_static_importPath hw hspace
    refine ⟨_, hskip, ?_, ?_, ?_⟩
    · intro whole
      exact Match.text_captured
    · intro whole
      rw [Match.get?_captured_of_ne (by decide), (hmarks whole).2, hstatic]
      rfl
    · intro whole
      rw [Match.get?_captured_of_ne (by decide), (hmarks whole).1]
  | true =>
    obtain ⟨marks, hend, hmarks⟩ := takes_importEnd w.decl hw.trail
      (Text.lastOr (Text.lastOr b ("static".toList ++ w.staticGap)) w.path)
      (pos + Text.byteLength ("static".toList ++ w.staticGap) + Text.byteLength w.path) t
    have hword : (Pattern.oneOf ["static"] : Shape).Takes b pos "static".toList
        (w.staticGap ++ (w.path ++ (w.ending ++ t))) [] := takes_lit "static"
    have hgap : ∀ b pos, someSpaces.Takes b pos w.staticGap (w.path ++ (w.ending ++ t)) [] :=
      fun _ _ =>
      takes_plus_char hw.staticGap.1 hw.staticGap.2 (hpath.isSpace_head _)
    have hsome := ((hword.andThen (hgap _ _) rfl).captured Part.static).opt
    have htakes := hsome.andThen (takes_importPath hpath hend) (by simp [ending])
    refine ⟨_, htakes, ?_, ?_, ?_⟩
    · intro whole
      rw [Match.text_captured_of_ne (by decide)]
      exact Match.text_captured
    · intro whole
      rw [Match.get?_captured, hstatic]
      rfl
    · intro whole
      rw [Match.get?_captured_of_ne (by decide), Match.get?_captured_of_ne (by decide),
        (hmarks whole).1]

/-- At the start of a line an import is taken whole. -/
theorem takes_import (hb : AtLineStart b) (pos : Nat) (hw : w.Spaced) (hpath : IsDottedName w.path)
    (t : Text) :
    ∃ marks, (lineOpening "import" ++ importRest).Takes b pos w.print t marks ∧
      ImportMarks marks w.decl := by
  have hhead : ∀ c ∈ (w.staticText ++ (w.path ++ (w.ending ++ t))).head?,
      Text.isSpace c = false := by
    unfold staticText
    split
    · exact Text.forall_head (by decide) _
    · exact hpath.isSpace_head _
  have hopening : (lineOpening "import").Takes b pos (w.lead ++ ("import".toList ++ w.gap))
      (w.staticText ++ (w.path ++ (w.ending ++ t))) [] :=
    takes_lineOpening hb hw.lead hw.gap.1 hw.gap.2 rfl (by decide) hhead
  obtain ⟨marks, hrest, hmarks⟩ :=
    @takes_importRest w (Text.lastOr b (w.lead ++ ("import".toList ++ w.gap)))
    (pos + Text.byteLength (w.lead ++ ("import".toList ++ w.gap))) t hw hpath
  have htakes := hopening.andThen hrest (by simp)
  exact ⟨_, htakes.congr (by simp [print, afterWord]) (List.nil_append _), hmarks⟩

end WrittenImport

end Typings.Source
