import Typings.Proofs.Source.ImportLines

/-!
# Parsing undoes printing

A printed file is read back. The pattern for the package and the one for imports look for their word
at the start of a line, so each of them is found on its own line and nowhere else; the types are
found behind these lines. Main statement: `extract_print`.
-/

namespace Typings.Source

open Declaration Pattern

-- ---------------------------------------------------------------------------
-- Lines that a word opens
-- ---------------------------------------------------------------------------

section Opening

variable {word : String} {b : Option Char} {pos : Nat} {s t : Text}

/-- A line that starts with another character. -/
theorem fails_lineOpening_of_head {c d : Char} {cs : Text} (hword : word.toList = d :: cs)
    (hspace : Text.isSpace c = false) (hc : c ≠ d) : (lineOpening word).Fails b (c :: s) := by
  have hlit : (spaces ++ .lit word : Shape).Fails b (c :: s) := by
    refine fails_of_language fun w hw t heq => ?_
    obtain ⟨sp, hsp, v, hv, rfl⟩ := mem_language_seq.mp hw
    obtain rfl := mem_language_lit.mp hv
    cases sp with
    | nil =>
      rw [hword] at heq
      exact hc (List.cons.inj heq).1
    | cons e sp =>
      obtain ⟨rfl, _⟩ := List.cons.inj heq
      simp [mem_language_star_char.mp hsp c (by simp)] at hspace
  exact ((stays_anchor _).fails_seq hlit).assoc.seq

/-- Nothing opens in a text without the word, however many spaces come before it. -/
theorem fails_lineOpening_of_not_hasWord {u v : Text}
    (h : ¬Text.HasWord word.toList (u ++ v)) : (lineOpening word).Fails (Text.lastOr b u) v := by
  intro pos next
  by_contra hsome
  obtain ⟨e, he⟩ := Option.ne_none_iff_exists'.mp hsome
  have hstart : (Anchor.holds ⟨Text.lastOr b u, pos, v⟩ .lineStart) = true := by
    by_contra hno
    have hfails : (Pattern.anchor .lineStart : Shape).Fails (Text.lastOr b u) v :=
      fails_anchor fun _ => by simpa [Anchor.holds] using hno
    exact hsome (hfails.seq.seq.seq pos next)
  obtain ⟨w, t, _, hw, rfl, _⟩ := exists_word_of_run he
  obtain ⟨x, hx, sp', hsp', rfl⟩ := mem_language_seq.mp hw
  obtain ⟨y, hy, z, hz, rfl⟩ := mem_language_seq.mp hx
  obtain ⟨_, rfl, sp, hsp, rfl⟩ := mem_language_seq.mp hy
  obtain rfl := mem_language_lit.mp hz
  obtain ⟨hne, hspace'⟩ := mem_language_plus_char.mp hsp'
  have hspace := mem_language_star_char.mp hsp
  refine h ⟨u ++ sp, sp' ++ t, by simp, fun c hc => ?_, fun c hc => ?_⟩
  · rcases List.eq_nil_or_concat sp with rfl | ⟨sp, d, rfl⟩
    · -- The word stands at the start of the line.
      rcases List.eq_nil_or_concat u with rfl | ⟨u, d, rfl⟩
      · simp at hc
      · obtain rfl : d = c := by simpa using hc
        obtain rfl : d = '\n' := by simpa [Anchor.holds] using hstart
        decide
    · obtain rfl : d = c := by simpa using hc
      exact Text.isWordChar_of_isSpace (hspace d (by simp))
  · obtain ⟨d, ds, rfl⟩ := List.exists_cons_of_ne_nil hne
    obtain rfl : d = c := by simpa using hc
    exact Text.isWordChar_of_isSpace (hspace' d (by simp))

end Opening

/-- The search passes over a line at whose start nothing opens. -/
theorem matchesFrom_line {word : String} {rest : Shape} {b : Option Char} {line t : Text}
    (hline : '\n' ∉ line) (hfirst : (lineOpening word ++ rest).Fails b (line ++ '\n' :: t))
    (pos : Nat) :
    (lineOpening word ++ rest).matchesFrom b pos (line ++ '\n' :: t) =
      (lineOpening word ++ rest).matchesFrom (some '\n')
        (pos + Text.byteLength (line ++ ['\n'])) t := by
  have hskip := @matchesFrom_append _ (lineOpening word ++ rest) b pos (line ++ ['\n']) t
    fun u v huv hv => by
      rcases List.eq_nil_or_concat u with rfl | ⟨u, c, rfl⟩
      · rw [List.nil_append] at huv
        simpa [← huv] using hfirst
      · have hc : c ≠ '\n' := by
          rintro rfl
          obtain ⟨vs, d, rfl⟩ := (List.eq_nil_or_concat v).resolve_left hv
          have hmem : line = u.concat '\n' ++ vs := by
            simp only [List.concat_eq_append, ← List.append_assoc] at huv
            simpa using (List.append_inj' huv rfl).1
          exact hline (by simp [hmem])
        simpa using (fails_lineOpening_of_ne hc).seq
  simpa using hskip

/-- Nothing is found in a text without the word. -/
theorem matchesFrom_eq_nil {word : String} {rest : Shape} {s : Text}
    (hs : ¬Text.HasWord word.toList s) (b : Option Char) (pos : Nat) :
    (lineOpening word ++ rest).matchesFrom b pos s = [] := by
  have hskip := @matchesFrom_append _ (lineOpening word ++ rest) b pos s [] fun u v huv _ => by
    rw [List.append_nil]
    exact (fails_lineOpening_of_not_hasWord (huv ▸ hs)).seq
  rw [List.append_nil] at hskip
  exact hskip

-- ---------------------------------------------------------------------------
-- Packages
-- ---------------------------------------------------------------------------

/-- The pattern for packages after the word. -/
def packageRest : Shape := .group .package (.plus dotted) ++ (spaces ++ .lit ";")

theorem package_eq : package.allMatches = (lineOpening "package" ++ packageRest).allMatches := by
  funext s
  rw [allMatches_eq_matchesFrom, allMatches_eq_matchesFrom]
  rfl

theorem takes_package {b : Option Char} (hb : AtLineStart b) {pos : Nat} {path t : Text}
    (hpath : IsPath path) :
    ∃ p, (lineOpening "package" ++ packageRest).Takes b pos
      ("package".toList ++ ' ' :: (path ++ [';'])) t
        (Match.captured .package p path (';' :: t)) := by
  have hopening : (lineOpening "package").Takes b pos ("package".toList ++ [' '])
      (path ++ ';' :: t) [] :=
    takes_lineOpening hb (List.forall_mem_nil _) (by simp) (by decide) rfl (by decide)
      ((isDottedName_of_isPath hpath).isSpace_head _)
  obtain ⟨c, cs, hcs, _⟩ := hpath.head
  have hpathTakes : ∀ b pos, (Pattern.plus dotted).Takes b pos path (';' :: t) [] := fun _ _ =>
    takes_plus_char (by simp [hcs]) (isDottedName_of_isPath hpath).chars
      (Text.forall_head (by decide) _)
  have hspaces : ∀ b pos, spaces.Takes b pos [] (';' :: t) [] := fun _ _ =>
    takes_spaces_nil (Text.forall_head (by decide) _)
  have hend : ∀ b pos, (Pattern.lit ";").Takes b pos [';'] t ([] : List (Mark Part)) := fun _ _ =>
    takes_lit ";"
  have h := hopening.andThen (((hpathTakes _ _).captured .package).andThen
    ((hspaces _ _).andThen (hend _ _) rfl) rfl) (by simp)
  exact ⟨_, h.congr (by simp) (List.append_nil _)⟩

-- ---------------------------------------------------------------------------
-- Imports
-- ---------------------------------------------------------------------------

theorem head_wildcardText (i : Import) (t : Text) :
    ∀ c ∈ (i.wildcardText ++ ';' :: t).head?, isBreak c = true := by
  unfold Import.wildcardText
  cases i.isWildcard
  · exact Text.forall_head (by decide) _
  · exact Text.forall_head (by decide) ('*' :: ';' :: t)

theorem print_import_append (i : Import) (t : Text) :
    i.print ++ t = "import".toList ++ ' ' ::
      (i.staticText ++ (i.path.toList ++ (i.wildcardText ++ ';' :: '\n' :: t))) := by
  unfold Import.print
  simp only [List.append_assoc, List.cons_append, List.nil_append]

/-- A printed import as a written one. -/
def printedImport (i : Import) : WrittenImport := { decl := i }

theorem spaced_printedImport (i : Import) : (printedImport i).Spaced :=
  ⟨by simp [printedImport], by simp [printedImport, isSpace_space],
    by simp [printedImport, isSpace_space],
    by simp [printedImport]⟩

theorem print_eq_printedImport (i : Import) : i.print = (printedImport i).print ++ ['\n'] := by
  have hparts : (printedImport i).print = [] ++ ("import".toList ++ ([' '] ++
      (i.staticText ++ (i.path.toList ++ (i.wildcardText ++ ([] ++ [';'])))))) := rfl
  rw [hparts]
  unfold Import.print
  simp

/-- The imports of printed lines are found one after another. -/
theorem map_importOf_print {imports : List Import} (himports : ∀ i ∈ imports, IsPath i.path.toList)
    {b : Option Char} (hb : AtLineStart b) (pos : Nat) {t : Text}
    (ht : ¬Text.HasWord "import".toList t) :
    ((lineOpening "import" ++ importRest).matchesFrom b pos (imports.flatMap Import.print ++ t)).map
      importOf = imports := by
  induction imports generalizing b pos with
  | nil =>
    rw [List.flatMap_nil, List.nil_append, matchesFrom_eq_nil ht]
    rfl
  | cons i imports ih =>
    obtain ⟨marks, htakes, hmarks⟩ := (printedImport i).takes_import hb pos (spaced_printedImport i)
      (isDottedName_of_isPath (himports i (by simp))) ('\n' :: (imports.flatMap Import.print ++ t))
    have hend : (lineOpening "import" ++ importRest).Fails (Text.lastOr b (printedImport i).print)
        ('\n' :: (imports.flatMap Import.print ++ t)) := by
      rw [WrittenImport.lastOr_print]
      exact (fails_lineOpening_of_ne (by decide)).seq
    have hline : (i :: imports).flatMap Import.print ++ t =
        (printedImport i).print ++ '\n' :: (imports.flatMap Import.print ++ t) := by
      rw [List.flatMap_cons, print_eq_printedImport]
      simp only [List.append_assoc, List.cons_append, List.nil_append]
    rw [hline, htakes.matchesFrom_cons_eq (by simp [WrittenImport.print]) hend, List.map_cons,
      importOf_eq hmarks, ih (fun j hj => himports j (by simp [hj])) (by simp [AtLineStart])]
    rfl

-- ---------------------------------------------------------------------------
-- Where these words do not stand
-- ---------------------------------------------------------------------------

/-- The words that open lines before the types. -/
def lineOpenings : List Text := ["package", "import"].map String.toList

theorem lineOpenings_subset : lineOpenings ⊆ openingWords := by decide

theorem notMem_lineOpenings {c : Char} (hc : Text.isWordChar c = false) :
    ∀ w ∈ lineOpenings, c ∉ w := by
  have hword : ∀ w ∈ lineOpenings, ∀ d ∈ w, Text.isWordChar d = true := by decide
  intro w hw hmem
  simp [hword w hw c hmem] at hc

theorem avoids_lineOpenings_cons {x y : Text} {c : Char} (hc : Text.isWordChar c = false)
    (hx : Text.Avoids lineOpenings x) (hy : Text.Avoids lineOpenings y) :
    Text.Avoids lineOpenings (x ++ c :: y) :=
  (Text.Avoids.append_cons_iff hc (notMem_lineOpenings hc)).mpr ⟨hx, hy⟩

theorem avoids_modifiersText {words : List String}
    (hwords : ∀ w ∈ words, Text.Avoids lineOpenings w.toList)
    {t : Text} (ht : Text.Avoids lineOpenings t) :
    Text.Avoids lineOpenings (modifiersText words ++ t) := by
  induction words with
  | nil => exact ht
  | cons w words ih =>
    have hrest := ih fun v hv => hwords v (by simp [hv])
    simpa [modifiersText] using
      avoids_lineOpenings_cons (c := ' ') (by decide) (hwords w (by simp)) hrest

/-- Neither a package nor an import opens in what masking shows of a printed type. -/
theorem avoids_view {d : TypeDecl} (hd : d.Printable) (top : Bool) {t : Text}
    (ht : Text.Avoids lineOpenings t) : Text.Avoids lineOpenings (d.view top ++ t) := by
  have hmodifiers : ∀ w ∈ printedModifiers top d.toTypeOutline,
      Text.Avoids lineOpenings w.toList := by
    have hall : ∀ w ∈ ["public", "abstract"], (∀ c ∈ w.toList, Text.isWordChar c = true) ∧
        w.toList ∉ lineOpenings := by decide
    intro w hw
    have hmem : w ∈ ["public", "abstract"] := by
      revert hw
      unfold printedModifiers
      cases top <;> cases d.isAbstract <;> simp +contextual
    exact .of_forall (hall w hmem).1 (hall w hmem).2
  have hkind : Text.Avoids lineOpenings d.kind.keyword.toList := by
    cases d.kind <;> exact .of_forall (by decide) (by decide)
  have hname : Text.Avoids lineOpenings d.name.toList :=
    (avoids_of_isName hd.outline.name).mono lineOpenings_subset
  have hafter : Text.Avoids lineOpenings
      (d.printTail ++ '{' :: (Text.blankAll d.body ++ ['}']) ++ '\n' :: t) := by
    have hquiet := (quiet_afterName hd.outline d.body).avoids.mono lineOpenings_subset
    have hsplit : d.printTail ++ '{' :: (Text.blankAll d.body ++ ['}', '\n']) =
        (d.printTail ++ '{' :: (Text.blankAll d.body ++ ['}'])) ++ '\n' :: [] := by simp
    rw [hsplit, Text.Avoids.append_cons_iff (by decide) (notMem_lineOpenings (by decide))] at hquiet
    exact avoids_lineOpenings_cons (by decide) hquiet.1 ht
  have hdeclared : Text.Avoids lineOpenings
      (d.name.toList ++ (d.printTail ++ '{' :: (Text.blankAll d.body ++ ['}']) ++ '\n' :: t)) := by
    have hhead := head_printTail_append d.toTypeOutline hd.outline
      ('{' :: (Text.blankAll d.body ++ ['}']) ++ '\n' :: t)
    rw [← List.append_assoc] at hhead
    generalize hrest : d.printTail ++ '{' :: (Text.blankAll d.body ++ ['}']) ++ '\n' :: t = rest
      at hafter hhead ⊢
    cases rest with
    | nil => simp at hrest
    | cons c rest =>
      have hc : Text.isWordChar c = false := by
        have := hhead c rfl
        simp_all
      have hrest := (Text.Avoids.append_cons_iff (x := []) hc (notMem_lineOpenings hc)).mp hafter
      exact avoids_lineOpenings_cons hc hname hrest.2
  have hview := avoids_modifiersText hmodifiers
    (avoids_lineOpenings_cons (c := ' ') (by decide) hkind hdeclared)
  rw [TypeDecl.view, TypeDecl.header, printOpening_eq]
  simpa using hview

theorem avoids_views {ds : List TypeDecl} (hds : ∀ d ∈ ds, d.Printable) (top : Bool) :
    Text.Avoids lineOpenings (ds.flatMap (·.view top)) := by
  induction ds with
  | nil => exact .nil (by decide)
  | cons d ds ih => exact avoids_view (hds d (by simp)) top (ih fun e he => hds e (by simp [he]))

/-- No package opens in printed imports. -/
theorem not_hasWord_package {imports : List Import} (himports : ∀ i ∈ imports, IsPath i.path.toList)
    {t : Text} (ht : ¬Text.HasWord "package".toList t) :
    ¬Text.HasWord "package".toList (imports.flatMap Import.print ++ t) := by
  have hjoin : ∀ {x y : Text} {c : Char}, c ∉ "package".toList → ¬Text.HasWord "package".toList x →
      ¬Text.HasWord "package".toList y → ¬Text.HasWord "package".toList (x ++ c :: y) :=
    fun hc hx hy h => (h.of_append_cons hc).elim hx hy
  have hwords : ∀ w ∈ ["import".toList, "static".toList, []], ¬Text.HasWord "package".toList w := by
    have hall : ∀ w ∈ ["import".toList, "static".toList, []], (∀ c ∈ w, Text.isWordChar c = true) ∧
        "package".toList ≠ w := by decide
    exact fun w hw h => (hall w hw).2 (h.eq_of_forall (hall w hw).1)
  have hnil := hwords [] (by simp)
  induction imports with
  | nil => exact ht
  | cons i imports ih =>
    have hrest := ih fun j hj => himports j (by simp [hj])
    have hpath : ¬Text.HasWord "package".toList i.path.toList :=
      (himports i (by simp)).avoids _ (by decide)
    have hline : ¬Text.HasWord "package".toList
        ([] ++ ';' :: ([] ++ '\n' :: (imports.flatMap Import.print ++ t))) :=
      hjoin (by decide) hnil (hjoin (by decide) hnil hrest)
    have hend : ¬Text.HasWord "package".toList (i.path.toList ++ (i.wildcardText ++ (';' :: '\n' ::
        (imports.flatMap Import.print ++ t)))) := by
      unfold Import.wildcardText
      cases i.isWildcard
      · exact hjoin (by decide) hpath (hjoin (by decide) hnil hrest)
      · exact hjoin (by decide) hpath (hjoin (x := []) (by decide) hnil hline)
    have hstatic : ¬Text.HasWord "package".toList
        (i.staticText ++ (i.path.toList ++ (i.wildcardText ++
        (';' :: '\n' :: (imports.flatMap Import.print ++ t))))) := by
      unfold Import.staticText
      cases i.isStatic
      · exact hend
      · simpa using hjoin (c := ' ') (by decide) (hwords "static".toList (by simp)) hend
    have himport := hjoin (c := ' ') (by decide) (hwords "import".toList (by simp)) hstatic
    rw [List.flatMap_cons, List.append_assoc, print_import_append]
    exact himport

-- ---------------------------------------------------------------------------
-- Lines before the types
-- ---------------------------------------------------------------------------

theorem isLineChar_of_isPath {s : Text} (h : IsPath s) : ∀ c ∈ s, isLineChar c = true :=
  fun c hc => isLineChar_of_isTypeChar (h.entry.chars c hc)

theorem isLineChar_of_mem_import {i : Import} (hi : IsPath i.path.toList) :
    ∀ c ∈ i.print, isLineChar c = true := by
  have hwords : (∀ c ∈ "import".toList, isLineChar c = true) ∧
      (∀ c ∈ i.staticText, isLineChar c = true) ∧ ∀ c ∈ i.wildcardText, isLineChar c = true := by
    unfold Import.staticText Import.wildcardText
    cases i.isStatic <;> cases i.isWildcard <;> decide
  have hbreaks : ∀ c ∈ [' ', ';', '\n'], isLineChar c = true := by decide
  intro c hc
  unfold Import.print at hc
  simp only [List.mem_append, List.mem_cons, List.not_mem_nil, or_false] at hc
  rcases hc with hc | rfl | hc | hc | hc | rfl | rfl
  · exact hwords.1 c hc
  · exact hbreaks _ (by simp)
  · exact hwords.2.1 c hc
  · exact isLineChar_of_isPath hi c hc
  · exact hwords.2.2 c hc
  · exact hbreaks _ (by simp)
  · exact hbreaks _ (by simp)

theorem avoids_append_breaks {x w : Text} (hx : Text.Avoids openingWords x)
    (hw : ∀ c ∈ w, isBreak c = true) : Text.Avoids openingWords (x ++ w) := by
  induction w generalizing x with
  | nil => simpa using hx
  | cons c w ih =>
    have hxc : Text.Avoids openingWords (x ++ [c]) :=
      avoids_append_cons (hw c (by simp)) hx avoids_nil
    simpa using ih hxc fun d hd => hw d (by simp [hd])

/-- The search for types passes over a path and the end of its line. -/
theorem passed_path {path w : Text} (hpath : IsPath path)
    (hw : ∀ c ∈ w, isLineChar c = true ∧ isBreak c = true) :
    Passed (path ++ (w ++ [';', '\n'])) := by
  have hquiet := @quiet_line (path ++ (w ++ [';'])) (fun c hc => by
      simp only [List.mem_append, List.mem_cons, List.not_mem_nil, or_false] at hc
      rcases hc with (hc | hc | rfl) | rfl
      · exact isLineChar_of_isPath hpath c hc
      · exact (hw c hc).1
      · decide
      · decide)
    (avoids_append_breaks hpath.avoids fun c hc => by
      rcases List.mem_append.mp hc with hc | hc
      · exact (hw c hc).2
      · obtain rfl : c = ';' := by simpa using hc
        decide)
  simpa using passed_of_quiet hquiet

theorem passed_import {i : Import} (hi : IsPath i.path.toList) : Passed i.print := by
  have hwildcard : ∀ c ∈ i.wildcardText, isLineChar c = true ∧ isBreak c = true := by
    unfold Import.wildcardText
    cases i.isWildcard <;> decide
  have hpath := passed_path hi hwildcard
  have hstarts : StartsWithName (i.path.toList ++ (i.wildcardText ++ [';', '\n'])) :=
    hi.startsWithName.append (head_wildcardText i ['\n'])
  have hne : i.path.toList ++ (i.wildcardText ++ [';', '\n']) ≠ [] := by simp
  unfold Import.print Import.staticText
  cases i.isStatic with
  | false => exact .of_word (by decide) hpath hne hstarts.isSpace_head (.inr (by decide))
  | true =>
    have hstatic := Passed.of_word (v := "static".toList) (by decide) hpath hne hstarts.isSpace_head
      (.inl hstarts)
    have himport := Passed.of_word (v := "import".toList) (by decide) hstatic (by simp)
      (Text.forall_head (P := (Text.isSpace · = false)) (by decide) _) (.inr (by decide))
    simpa using himport

/-- The line of a package without its end. -/
def packageText (path : Text) : Text := "package".toList ++ ' ' :: (path ++ [';'])

section Package

variable {path : Text} (hpath : IsPath path)

include hpath

theorem isLineChar_of_mem_packageText : ∀ c ∈ packageText path ++ ['\n'], isLineChar c = true := by
  have hword : ∀ c ∈ "package".toList, isLineChar c = true := by decide
  intro c hc
  unfold packageText at hc
  simp only [List.mem_append, List.mem_cons, List.not_mem_nil, or_false] at hc
  rcases hc with (hc | rfl | hc | rfl) | rfl
  · exact hword c hc
  · decide
  · exact isLineChar_of_isPath hpath c hc
  · decide
  · decide

theorem newline_notMem_packageText : '\n' ∉ packageText path := by
  intro hmem
  unfold packageText at hmem
  simp only [List.mem_append, List.mem_cons, List.not_mem_nil, or_false] at hmem
  rcases hmem with hmem | hmem | hmem | hmem
  · exact absurd hmem (by decide)
  · exact absurd hmem (by decide)
  · rcases hpath.chars _ hmem with hc | hc <;> exact absurd hc (by decide)
  · exact absurd hmem (by decide)

theorem passed_packageText : Passed (packageText path ++ ['\n']) := by
  have hstarts : StartsWithName (path ++ [';', '\n']) :=
    hpath.startsWithName.append (Text.forall_head (by decide) _)
  have hpassed := Passed.of_word (v := "package".toList) (by decide)
    (passed_path (w := []) hpath (by simp)) (by simp) hstarts.isSpace_head (.inr (by decide))
  unfold packageText
  simpa only [List.append_assoc, List.cons_append, List.nil_append] using hpassed

omit hpath in
/-- No import opens on the line of a package. -/
theorem fails_import_packageText (t : Text) :
    (lineOpening "import" ++ importRest).Fails none (packageText path ++ t) := by
  have himport : "import".toList = 'i' :: "mport".toList := by decide
  have hpackage : "package".toList = 'p' :: "ackage".toList := by decide
  have hopening : (lineOpening "import").Fails none (packageText path ++ t) := by
    unfold packageText
    rw [hpackage]
    exact fails_lineOpening_of_head himport (by decide) (by decide)
  exact hopening.seq

end Package

-- ---------------------------------------------------------------------------
-- Files
-- ---------------------------------------------------------------------------

/-- What is printed for a package: nothing for the unnamed one. -/
inductive IsPackageLine : (package line : Text) → Prop
  | unnamed : IsPackageLine [] []
  | named {path : Text} (hpath : IsPath path) : IsPackageLine path (packageText path ++ ['\n'])

theorem isPackageLine_printPackage {f : SourceFile} (hf : f.Printable) :
    IsPackageLine f.package.toList f.printPackage := by
  unfold SourceFile.printPackage
  split
  · rename_i h
    rw [h]
    exact .unnamed
  · rename_i h
    have hline := IsPackageLine.named (hf.package.resolve_left h)
    unfold packageText at hline
    simpa only [List.append_assoc, List.cons_append, List.nil_append] using hline

namespace IsPackageLine

variable {package line : Text} (h : IsPackageLine package line)

include h

theorem isLineChar : ∀ c ∈ line, isLineChar c = true := by
  cases h with
  | unnamed => simp
  | named hpath => exact isLineChar_of_mem_packageText hpath

theorem passed : Passed line := by
  cases h with
  | unnamed => exact passed_of_quiet .nil
  | named hpath => exact passed_packageText hpath

/-- The package is found on its line, and none where none is printed. -/
theorem packageOf_eq {t : Text} (ht : ¬Text.HasWord "package".toList t) :
    packageOf (line ++ t) = package := by
  rw [packageOf, firstMatch?, package_eq, allMatches_eq_matchesFrom]
  cases h with
  | unnamed =>
    rw [List.nil_append, matchesFrom_eq_nil ht]
    rfl
  | named hpath =>
    obtain ⟨p, htakes⟩ := @takes_package none (by simp [AtLineStart]) 0 _ ('\n' :: t) hpath
    unfold packageText
    rw [List.append_assoc, List.singleton_append, htakes.matchesFrom_eq (by simp), List.head?_cons]
    exact Match.text_captured_nil

/-- The imports are found behind the line of the package. -/
theorem map_importOf_eq {imports : List Import} (himports : ∀ i ∈ imports, IsPath i.path.toList)
    {t : Text} (ht : ¬Text.HasWord "import".toList t) :
    (importLine.allMatches (line ++ (imports.flatMap Import.print ++ t))).map
      importOf = imports := by
  rw [importLine_eq, allMatches_eq_matchesFrom]
  cases h with
  | unnamed => exact map_importOf_print himports (by simp [AtLineStart]) 0 ht
  | named hpath =>
    rw [List.append_assoc, List.singleton_append,
      matchesFrom_line (newline_notMem_packageText hpath) (fails_import_packageText _)]
    exact map_importOf_print himports (by simp [AtLineStart]) _ ht

end IsPackageLine

/-- Parsing undoes printing: a printed file is read back as it was. -/
theorem extract_print (f : SourceFile) (hf : f.Printable) (includeDocs : Bool) :
    extract includeDocs f.print = f := by
  have hline := isPackageLine_printPackage hf
  have hlines : ∀ c ∈ f.printPackage ++ f.imports.flatMap Import.print, isLineChar c = true := by
    intro c hc
    rcases List.mem_append.mp hc with hc | hc
    · exact hline.isLineChar c hc
    · obtain ⟨i, hi, hc⟩ := List.mem_flatMap.mp hc
      exact isLineChar_of_mem_import (hf.imports i hi) c hc
  have hpassed : Passed (f.printPackage ++ f.imports.flatMap Import.print) :=
    hline.passed.append (.flatMap fun i hi => passed_import (hf.imports i hi))
  have hviews := avoids_views hf.types true
  have hmask := mask_text_printAll hlines true hf.types
  have htypes := @typesIn_printAll includeDocs true true
    ((f.printPackage ++ f.imports.flatMap Import.print ++
      TypeDecl.printAll true f.types).length + 1)
    (fun h => h) _ hlines hpassed _ hf.types (Nat.lt_succ_self _)
  have hpackage := hline.packageOf_eq
    (not_hasWord_package hf.imports (hviews "package".toList (by decide)))
  have himports := hline.map_importOf_eq hf.imports (hviews "import".toList (by decide))
  rw [← List.append_assoc] at hpackage himports
  simp only [extract, SourceFile.print, String.toList_ofList, hmask, hpackage, himports, htypes,
    map_fst_located, String.ofList_toList]

theorem isTypeText_array {s : Text} (h : IsTypeText s) : IsTypeText (s ++ "[]".toList) := by
  obtain ⟨t, ht, rfl⟩ := h
  exact ⟨.array t, ht, rfl⟩

/-- A file with every part that can be printed. -/
def shopFile : SourceFile where
  package := "shop.core"
  imports := [{ path := "shop.Rules", isStatic := true, isWildcard := true }]
  types := [
    { name := "Box", kind := .class_, isAbstract := true
      typeParameters := some "<T extends Item & Part>"
      superTypes := some "Base", interfaces := some "Store, List<? extends T>"
      fields := [{ name := "count", typeName := "int[]" }]
      methods := [
        { name := "put", returnType := "void", typeParameters := some "<K>"
          parameters := [{ name := "items", typeName := "T[]", isVarargs := true }] }]
      nested := [{ name := "Lid", kind := .interface }] }]

theorem printable_shopFile : shopFile.Printable := by
  have hlid : TypeDecl.Printable { name := "Lid", kind := .interface } :=
    .mk ⟨by decide, nofun, nofun, nofun, nofun, nofun, fun _ => rfl, rfl⟩ nofun
  have hitems : Parameter.Printable { name := "items", typeName := "T[]", isVarargs := true } :=
    ⟨by decide, isTypeText_array (s := "T".toList) (isTypeText_of_isName (by decide)),
      fun _ => ⟨"T".toList, isTypeText_of_isName (by decide), by decide⟩⟩
  have hput : Method.Printable
      { name := "put", returnType := "void", typeParameters := some "<K>"
        parameters := [{ name := "items", typeName := "T[]", isVarargs := true }] } := by
    refine ⟨by decide, isTypeText_of_isName (by decide), ?_, by simpa using hitems, rfl⟩
    rintro _ ⟨⟩
    exact ⟨[⟨"K".toList, []⟩], by simpa using ⟨by decide, nofun⟩, by decide⟩
  have hcount : Field.Printable { name := "count", typeName := "int[]" } :=
    ⟨by decide, isTypeText_array (s := "int".toList) (isTypeText_of_isName (by decide)), rfl⟩
  have hbox : ∀ d ∈ shopFile.types, d.Printable := by
    intro d hd
    obtain rfl := List.mem_singleton.mp hd
    refine .mk ⟨by decide, ?_, ?_, ?_, by simpa using hput, by simpa using hcount, nofun, rfl⟩
      (by simpa using hlid)
    · rintro _ ⟨⟩
      refine ⟨[⟨"T".toList, ["Item".toList, "Part".toList]⟩], ?_, by decide⟩
      intro e he
      obtain rfl := List.mem_singleton.mp he
      refine ⟨by decide, fun t ht => isTypeText_of_isName ?_⟩
      have hname : ∀ t ∈ ["Item".toList, "Part".toList], isName t = true := by decide
      exact hname t ht
    · rintro _ ⟨⟩
      exact ⟨["Base".toList], by decide, by simpa using isTypeText_of_isName (by decide), by decide⟩
    · rintro _ ⟨⟩
      refine ⟨["Store".toList, "List<? extends T>".toList], by decide, ?_, by decide⟩
      have hlist : IsTypeText "List<? extends T>".toList :=
        ⟨.generic (.simple "List".toList (by decide) (by decide))
          [.bounded .upper (.name (.simple "T".toList (by decide) (by decide)))], by decide,
          by decide⟩
      intro t ht
      rcases List.mem_cons.mp ht with rfl | ht
      · exact isTypeText_of_isName (by decide)
      · exact List.mem_singleton.mp ht ▸ hlist
  refine ⟨.inr ?_, fun i hi => ?_, hbox⟩
  · exact ⟨⟨["shop".toList, "core".toList], by decide, by decide, by decide⟩, by decide, by decide⟩
  · obtain rfl := List.mem_singleton.mp hi
    exact ⟨⟨["shop".toList, "Rules".toList], by decide, by decide, by decide⟩, by decide, by decide⟩

/-- A file with every part that can be printed is read back. -/
theorem extract_print_shopFile : shopFile.Printable ∧ extract true shopFile.print = shopFile :=
  ⟨printable_shopFile, extract_print shopFile printable_shopFile true⟩

end Typings.Source
