import Typings.Proofs.Source.Declarators
import Typings.Proofs.Source.ImportLines

/-!
# Imports at the top of a file

Imports are written one after another, with white space or none between them, and a package may come
before them. The search for imports takes each one that stands at the start of a line and has no
dollar sign in its path, and passes over the others. Main statement: `imports_written`.
-/

namespace Typings.Source

open Declaration Pattern

-- ---------------------------------------------------------------------------
-- Where no import starts
-- ---------------------------------------------------------------------------

/-- The pattern for imports. -/
def importShape : Shape := lineOpening "import" ++ importRest

/-- The pattern for imports from its word on. -/
def importCore : Shape := .lit "import" ++ (someSpaces ++ importRest)

section Blocks

variable {b : Option Char} {s t sp w : Text}

/-- Whether no import starts in front of a text, nor in white space before it. -/
structure Blocks (t : Text) : Prop where
  head : ∀ c ∈ t.head?, Text.isSpace c = false
  core : ∀ b, importCore.Fails b t

theorem Blocks.fails (h : Blocks t) (hsp : ∀ c ∈ sp, Text.isSpace c = true) :
    importShape.Fails b (sp ++ t) := by
  have hcore : (spaces ++ importCore : Shape).Fails b (sp ++ t) := by
    refine fails_spaces_seq hsp h.head fun b v hv => ?_
    cases v with
    | nil => exact h.core b
    | cons c v =>
      -- The word does not start at white space.
      have hword : "import".toList = 'i' :: "mport".toList := rfl
      refine (fails_lit ?_).seq
      rw [hword]
      rintro ⟨z, hz⟩
      obtain ⟨rfl, _⟩ := List.cons.inj hz
      exact absurd (hv 'i' (by simp)) (by decide)
  have hstart : (Pattern.anchor .lineStart ++ (spaces ++ importCore) : Shape).Fails b (sp ++ t) :=
    (stays_anchor _).fails_seq hcore
  exact hstart

theorem fails_importCore_of_ne {c : Char} (hc : c ≠ 'i') : importCore.Fails b (c :: s) := by
  have hword : "import".toList = 'i' :: "mport".toList := rfl
  refine (fails_lit ?_).seq
  rw [hword]
  rintro ⟨z, hz⟩
  exact hc (List.cons.inj hz).1.symm

theorem blocks_of_ne {c : Char} (hspace : Text.isSpace c = false) (hc : c ≠ 'i') :
    Blocks (c :: s) :=
  ⟨Text.forall_head hspace _, fun _ => fails_importCore_of_ne hc⟩

theorem within_importCore : importCore.Within (· ≠ '$') := by
  have hchar : ∀ {accepts : Char → Bool}, accepts '$' = false → ∀ c, accepts c = true →
      c ≠ '$' := by
    rintro accepts hdollar c hc rfl
    rw [hdollar] at hc
    cases hc
  have hspace : (Pattern.char Text.isSpace : Shape).Within (· ≠ '$') := hchar (by decide)
  have hdotted : dotted.Within (· ≠ '$') := hchar (by decide)
  exact ⟨within_lit (by decide), ⟨hspace, hspace⟩,
    ⟨⟨within_oneOf (by decide), hspace, hspace⟩, trivial⟩,
    ⟨hdotted, hdotted⟩, ⟨within_lit (by decide), trivial⟩, hspace, within_lit (by decide)⟩

theorem mem_of_mem_language_seq {p q : Shape} {c : Char} (h : ∀ x ∈ q.language, c ∈ x) :
    ∀ x ∈ (p ++ q).language, c ∈ x := by
  intro x hx
  obtain ⟨_, _, y, hy, rfl⟩ := mem_language_seq.mp hx
  exact List.mem_append_right _ (h y hy)

theorem semicolon_mem_of_mem_importCore : ∀ x ∈ importCore.language, ';' ∈ x := by
  have hend : ∀ x ∈ (Pattern.lit ";" : Shape).language, ';' ∈ x := by
    intro x hx
    rw [mem_language_lit.mp hx]
    decide
  have hpath : ∀ x ∈ importPath.language, ';' ∈ x :=
    mem_of_mem_language_seq (mem_of_mem_language_seq (mem_of_mem_language_seq hend))
  exact mem_of_mem_language_seq (mem_of_mem_language_seq (mem_of_mem_language_seq hpath))

/-- No import starts where a dollar sign comes before the next semicolon. -/
theorem fails_importCore_of_dollar {u v : Text} (hu : ';' ∉ u) :
    importCore.Fails b (u ++ '$' :: v) := by
  refine fails_of_language fun x hx t heq => ?_
  have hdollar : '$' ∉ x := fun hmem => within_importCore.of_mem_language x hx '$' hmem rfl
  have hsemicolon := semicolon_mem_of_mem_importCore x hx
  rcases List.append_eq_append_iff.mp heq with ⟨m, rfl, hm⟩ | ⟨m, rfl, _⟩
  · cases m with
    | nil => exact hu (by simpa using hsemicolon)
    | cons c m =>
      obtain ⟨rfl, _⟩ := List.cons.inj hm
      exact hdollar (by simp)
  · exact hu (List.mem_append_left _ hsemicolon)

end Blocks

-- ---------------------------------------------------------------------------
-- Passing over text
-- ---------------------------------------------------------------------------

/-- Whether no import starts in `s`, which stands between the character `b` and the text `t`. -/
def Skips (b : Option Char) (s t : Text) : Prop :=
  ∀ u v, s = u ++ v → v ≠ [] → importShape.Fails (Text.lastOr b u) (v ++ t)

section Skips

variable {b : Option Char} {s t x y sp w : Text}

theorem Skips.matchesFrom_eq (h : Skips b s t) (pos : Nat) :
    importShape.matchesFrom b pos (s ++ t) =
      importShape.matchesFrom (Text.lastOr b s) (pos + Text.byteLength s) t := matchesFrom_append h

theorem Skips.append (hx : Skips b x (y ++ t)) (hy : Skips (Text.lastOr b x) y t) :
    Skips b (x ++ y) t := by
  intro u v huv hv
  rcases List.append_eq_append_iff.mp huv with ⟨m, rfl, rfl⟩ | ⟨m, rfl, rfl⟩
  · rw [Text.lastOr_append]
    exact hy m v rfl hv
  · cases m with
    | nil =>
      have hfails := hy [] y rfl (by simpa using hv)
      simpa using hfails
    | cons c m =>
      rw [List.append_assoc]
      exact hx u (c :: m) rfl (by simp)

/-- Behind a character inside a line, up to the end of the line. -/
theorem skips_of_notMem_dropLast {c : Char} (hc : c ≠ '\n') (hs : '\n' ∉ s.dropLast) :
    Skips (some c) s t := by
  rintro u v rfl hv
  have hline : ∀ d : Char, d ≠ '\n' → importShape.Fails (some d) (v ++ t) := fun d hd =>
    (fails_lineOpening_of_ne hd).seq
  rcases List.eq_nil_or_concat u with rfl | ⟨u, d, rfl⟩
  · exact hline c hc
  · rw [List.dropLast_append_of_ne_nil hv] at hs
    rw [List.concat_eq_append, Text.lastOr_append]
    refine hline d ?_
    rintro rfl
    exact hs (by simp)

theorem skips_of_notMem {c : Char} (hc : c ≠ '\n') (hs : '\n' ∉ s) : Skips (some c) s t :=
  skips_of_notMem_dropLast hc fun hmem => hs (List.mem_of_mem_dropLast hmem)

/-- White space and a word, in front of which no import starts. -/
theorem skips_of_blocks (hsp : ∀ c ∈ sp, Text.isSpace c = true) (hw : '\n' ∉ w) (hne : w ≠ [])
    (h : Blocks (w ++ t)) : Skips b (sp ++ w) t := by
  obtain ⟨c, w, rfl⟩ := List.exists_cons_of_ne_nil hne
  have hfirst : Skips b (sp ++ [c]) (w ++ t) := by
    intro u v huv hv
    rcases List.append_eq_append_iff.mp huv with ⟨m, rfl, hm⟩ | ⟨m, rfl, rfl⟩
    · obtain ⟨rfl, rfl⟩ | ⟨rfl, rfl⟩ : (m = [] ∧ v = [c]) ∨ (m = [c] ∧ v = []) := by
        simpa using List.append_eq_singleton_iff.mp hm.symm
      · exact h.fails (List.forall_mem_nil _)
      · exact absurd rfl hv
    · rw [List.append_assoc]
      exact h.fails fun d hd => hsp d (by simp [hd])
  have hrest : Skips (Text.lastOr b (sp ++ [c])) w t := by
    rw [Text.lastOr_append]
    refine skips_of_notMem ?_ fun hmem => hw (by simp [hmem])
    rintro rfl
    exact hw (by simp)
  simpa using hfirst.append hrest

end Skips

-- ---------------------------------------------------------------------------
-- Paths of names
-- ---------------------------------------------------------------------------

/-- A path of names, which may hold dollar signs, with dots between them. -/
def IsNamePath (path : Text) : Prop :=
  ∃ names, names ≠ [] ∧ (∀ n ∈ names, n ∈ identifier.language) ∧ path = ['.'].intercalate names

namespace IsNamePath

variable {path : Text}

theorem chars (h : IsNamePath path) : ∀ c ∈ path, isNameChar c = true ∨ c = '.' := by
  obtain ⟨names, _, hnames, rfl⟩ := h
  intro c hc
  rcases Text.mem_intercalate hc with ⟨n, hn, hc⟩ | hc
  · exact .inl (isNameChar_of_mem_identifier (hnames n hn) c hc)
  · exact .inr (by simpa using hc)

theorem last (h : IsNamePath path) : ∃ cs c, path = cs ++ [c] ∧ isNameChar c = true := by
  obtain ⟨names, hne, hnames, rfl⟩ := h
  obtain ⟨before, n, hn, hjoin⟩ := Text.exists_intercalate_eq_append ['.'] hne
  obtain ⟨cs, c, rfl⟩ := (List.eq_nil_or_concat n).resolve_left
    (ne_nil_of_mem_identifier (hnames n hn))
  refine ⟨before ++ cs, c, by rw [hjoin, List.concat_eq_append, List.append_assoc], ?_⟩
  exact isNameChar_of_mem_identifier (hnames _ hn) c (by simp)

theorem isSpace (h : IsNamePath path) : ∀ c ∈ path, Text.isSpace c = false := by
  intro c hc
  rcases h.chars c hc with hc | rfl
  · exact Bool.eq_false_iff.mpr fun hspace => by simp [isNameChar_of_isSpace hspace] at hc
  · decide

theorem notMem (h : IsNamePath path) {c : Char} (hname : isNameChar c = false) (hdot : c ≠ '.') :
    c ∉ path := fun hmem => by
  rcases h.chars c hmem with hc | hc
  · rw [hname] at hc
    cases hc
  · exact hdot hc

/-- Without dollar signs a path is a dotted name. -/
theorem isDottedName (h : IsNamePath path) (hdollar : '$' ∉ path) : IsDottedName path where
  chars c hc := by
    have hne : c ≠ '$' := fun heq => hdollar (heq ▸ hc)
    rcases h.chars c hc with hname | rfl
    · have hword : Text.isWordChar c = true := by simpa [isNameChar, hne] using hname
      simp [isDottedChar, hword]
    · decide
  last := by
    obtain ⟨cs, c, hpath, hc⟩ := h.last
    refine ⟨cs, c, hpath, ?_⟩
    rintro rfl
    exact absurd hc (by decide)

end IsNamePath

-- ---------------------------------------------------------------------------
-- Characters
-- ---------------------------------------------------------------------------

/-- Whether a character may stand in an import or in a package. -/
def isTopChar (c : Char) : Bool := Text.isSpace c || isNameChar c || ".*;".toList.contains c

theorem isCodeChar_of_isTopChar {c : Char} (h : isTopChar c = true) : isCodeChar c = true := by
  by_contra hcode
  have hmem : c ∈ "/\"'\x7b\x7d".toList := by simpa only [isCodeChar, Bool.not_eq_true,
    Bool.not_eq_false', List.contains_iff_mem] using hcode
  have hnone : ∀ d ∈ "/\"'\x7b\x7d".toList, isTopChar d = false := by decide
  rw [hnone c hmem] at h
  cases h

theorem isTopChar_of_isSpace {c : Char} (h : Text.isSpace c = true) : isTopChar c = true := by
  simp [isTopChar, h]

-- ---------------------------------------------------------------------------
-- Passing over an import
-- ---------------------------------------------------------------------------

namespace WrittenImport

/-- An import of a path of names. -/
structure WellFormed (w : WrittenImport) : Prop where
  spaced : w.Spaced
  path : IsNamePath w.path

/-- Whether an import is found, `fresh` saying that nothing is written before it: its line starts
with it, and its path holds no dollar sign. -/
def IsRead (fresh : Bool) (w : WrittenImport) : Prop :=
  '$' ∉ w.path ∧ (fresh = true ∨ '\n' ∈ w.lead)

instance (fresh : Bool) (w : WrittenImport) : Decidable (w.IsRead fresh) :=
  inferInstanceAs (Decidable (_ ∧ _))

section Passing

variable {w : WrittenImport} {b : Option Char} {pos : Nat} {t : Text}

/-- At a path no import starts, even when the word `import` is a path. -/
theorem WellFormed.blocks_path (hw : w.WellFormed) (t : Text) :
    Blocks (w.path ++ (w.ending ++ t)) where
  head := by
    obtain ⟨cs, c, hpath, _⟩ := hw.path.last
    obtain ⟨d, ds, hds⟩ := List.exists_cons_of_ne_nil (show w.path ≠ [] by simp [hpath])
    rw [hds]
    exact Text.forall_head (hw.path.isSpace d (by simp [hds])) _
  core b := by
    refine fails_seq_of_language fun u hu rest heq => ?_
    obtain rfl := mem_language_lit.mp hu
    refine fails_seq_of_language fun sp hsp rest hrest => ?_
    subst hrest
    obtain ⟨hne, hspace⟩ := mem_language_plus_char.mp hsp
    obtain ⟨left, hleft, rfl⟩ :=
      hw.spaced.word_of_path_eq hw.path.isSpace (by decide) hne hspace heq
    have hstatic : (keyword ["static"]).Fails (Text.lastOr (Text.lastOr b "import".toList) sp)
        (left ++ ';' :: t) := by
      refine fails_keyword fun s hs ⟨c, v, hv, _⟩ => ?_
      obtain rfl : s = "static" := by simpa using hs
      have hhead : ∀ c ∈ (left ++ ';' :: t).head?, c ≠ 's' :=
        head_append_of_isSpace (by decide) hleft (Text.forall_head (by decide) _)
      exact hhead 's' (by rw [hv]; rfl) rfl
    exact (hstatic.group _).stays_opt.fails_seq (fails_importPath_of_isSpace hleft)

theorem newline_notMem_wildcardText (i : Import) : '\n' ∉ i.wildcardText := by
  unfold Import.wildcardText
  split <;> decide

theorem WellFormed.skips_path (hw : w.WellFormed) {sp : Text}
    (hsp : ∀ c ∈ sp, Text.isSpace c = true) :
    Skips b (sp ++ (w.path ++ w.ending)) t := by
  have hpath : Skips b (sp ++ (w.path ++ w.decl.wildcardText)) ((w.trail ++ [';']) ++ t) := by
    refine skips_of_blocks hsp ?_ ?_ ?_
    · intro hmem
      rcases List.mem_append.mp hmem with hmem | hmem
      · exact hw.path.notMem (by decide) (by decide) hmem
      · exact newline_notMem_wildcardText _ hmem
    · obtain ⟨cs, c, hcs, _⟩ := hw.path.last
      simp [hcs]
    · simpa [ending] using hw.blocks_path t
  have hend : Skips (Text.lastOr b (sp ++ (w.path ++ w.decl.wildcardText))) (w.trail ++ [';']) t :=
    skips_of_blocks hw.spaced.trail (by decide) (by simp) (blocks_of_ne (by decide) (by decide))
  simpa [ending] using hpath.append hend

/-- Inside an import no other one starts. -/
theorem WellFormed.skips_afterWord (hw : w.WellFormed) : Skips b w.afterWord t := by
  unfold afterWord staticText
  split
  · have hword : Skips b (w.gap ++ "static".toList) ((w.staticGap ++ (w.path ++ w.ending)) ++ t) :=
      skips_of_blocks hw.spaced.gap.2 (by decide) (by decide) (blocks_of_ne (by decide) (by decide))
    simpa using hword.append (hw.skips_path hw.spaced.staticGap.2)
  · exact hw.skips_path hw.spaced.gap.2

theorem WellFormed.notMem_semicolon_staticText (hw : w.WellFormed) : ';' ∉ w.staticText := by
  unfold staticText
  split
  · intro hmem
    rcases List.mem_append.mp hmem with hmem | hmem
    · exact absurd hmem (by decide)
    · exact absurd (hw.spaced.staticGap.2 _ hmem) (by decide)
  · simp

/-- An import with a dollar sign does not start anywhere. -/
theorem WellFormed.blocks_of_dollar (hw : w.WellFormed) (hdollar : '$' ∈ w.path) :
    Blocks ("import".toList ++ (w.afterWord ++ t)) where
  head := Text.forall_head (by decide) _
  core b := by
    obtain ⟨front, back, hpath⟩ := List.append_of_mem hdollar
    have hfront : ';' ∉ "import".toList ++ (w.gap ++ (w.staticText ++ front)) := by
      intro hmem
      simp only [List.mem_append] at hmem
      rcases hmem with hmem | hmem | hmem | hmem
      · exact absurd hmem (by decide)
      · exact absurd (hw.spaced.gap.2 _ hmem) (by decide)
      · exact hw.notMem_semicolon_staticText hmem
      · exact hw.path.notMem (c := ';') (by decide) (by decide) (by simp [hpath, hmem])
    have hfails := @fails_importCore_of_dollar b _ (back ++ (w.ending ++ t)) hfront
    simpa [afterWord, hpath] using hfails

/-- The search passes over an import that is not read. -/
theorem WellFormed.skips_print (hw : w.WellFormed) {fresh : Bool} (hread : ¬w.IsRead fresh)
    (hb : fresh = false → b = some ';') : Skips b w.print t := by
  have hword : Skips b (w.lead ++ "import".toList) (w.afterWord ++ t) := by
    by_cases hdollar : '$' ∈ w.path
    · exact skips_of_blocks hw.spaced.lead (by decide) (by decide) (hw.blocks_of_dollar hdollar)
    · obtain ⟨hfresh, hlead⟩ : fresh = false ∧ '\n' ∉ w.lead := by
        simpa [IsRead, hdollar] using hread
      rw [hb hfresh]
      refine skips_of_notMem (by decide) fun hmem => ?_
      exact (List.mem_append.mp hmem).elim hlead (by decide)
  simpa [print] using hword.append hw.skips_afterWord

/-- The search finds an import that is read. -/
theorem WellFormed.matchesFrom_print (hw : w.WellFormed) {fresh : Bool} (hread : w.IsRead fresh)
    (hb : b = if fresh then none else some ';') (pos : Nat) (t : Text) :
    ∃ m, importOf m = w.decl ∧ importShape.matchesFrom b pos (w.print ++ t) =
      m :: importShape.matchesFrom (some ';') (pos + Text.byteLength w.print) t := by
  have hpath := hw.path.isDottedName hread.1
  cases fresh with
  | true =>
    obtain ⟨marks, htakes, hmarks⟩ :=
      w.takes_import (b := b) (by simp [AtLineStart, hb]) pos hw.spaced hpath t
    have hfound := htakes.matchesFrom_eq (by simp [print])
    rw [lastOr_print] at hfound
    exact ⟨_, importOf_eq hmarks _, hfound⟩
  | false =>
    -- The import starts behind the first end of a line in front of it.
    obtain rfl : b = some ';' := by simpa using hb
    obtain ⟨before, lead, hlead, hline⟩ :=
      List.eq_append_cons_of_mem (hread.2.resolve_left (by simp))
    let moved : WrittenImport := { w with lead }
    have hspaced : moved.Spaced :=
      { hw.spaced with
        lead := fun c hc => hw.spaced.lead c (by simp [hlead, show c ∈ lead from hc]) }
    have hprint : w.print = (before ++ ['\n']) ++ moved.print := by
      show w.lead ++ ("import".toList ++ w.afterWord) =
        _ ++ (lead ++ ("import".toList ++ w.afterWord))
      simp [hlead]
    have hskips : Skips (some ';') (before ++ ['\n']) (moved.print ++ t) :=
      skips_of_notMem_dropLast (by decide) (by simpa using hline)
    obtain ⟨marks, htakes, hmarks⟩ :=
      moved.takes_import (b := Text.lastOr (some ';') (before ++ ['\n']))
      (by simp [AtLineStart]) (pos + Text.byteLength (before ++ ['\n'])) hspaced hpath t
    have hfound := htakes.matchesFrom_eq (by simp [print])
    rw [lastOr_print, Nat.add_assoc, ← Text.byteLength_append, ← hprint] at hfound
    have hsplit : w.print ++ t = (before ++ ['\n']) ++ (moved.print ++ t) := by
      rw [hprint, List.append_assoc]
    have hstart := congrArg (importShape.matchesFrom (some ';') pos) hsplit
    exact ⟨_, importOf_eq hmarks _, hstart.trans ((hskips.matchesFrom_eq pos).trans hfound)⟩

end Passing

theorem WellFormed.isTopChar_afterWord {w : WrittenImport} (hw : w.WellFormed) :
    ∀ c ∈ w.afterWord, isTopChar c = true := by
  have hstatic : ∀ c ∈ w.staticText, isTopChar c = true := by
    unfold staticText
    split
    · intro c hc
      rcases List.mem_append.mp hc with hc | hc
      · exact (by decide : ∀ c ∈ "static".toList, isTopChar c = true) c hc
      · exact isTopChar_of_isSpace (hw.spaced.staticGap.2 c hc)
    · simp
  have hwildcard : ∀ c ∈ w.decl.wildcardText, isTopChar c = true := by
    unfold Import.wildcardText
    split <;> decide
  intro c hc
  simp only [afterWord, ending, List.mem_append, List.mem_singleton] at hc
  rcases hc with hc | hc | hc | hc | hc | rfl
  · exact isTopChar_of_isSpace (hw.spaced.gap.2 c hc)
  · exact hstatic c hc
  · rcases hw.path.chars c hc with hc | rfl
    · simp [isTopChar, hc]
    · decide
  · exact hwildcard c hc
  · exact isTopChar_of_isSpace (hw.spaced.trail c hc)
  · decide

-- ---------------------------------------------------------------------------
-- Imports one after another
-- ---------------------------------------------------------------------------

/-- The imports that are found, `fresh` saying that nothing is written before them. -/
def readFrom : (fresh : Bool) → List WrittenImport → List WrittenImport
  | _, [] => []
  | fresh, w :: ws => if w.IsRead fresh then w :: readFrom false ws else readFrom false ws

theorem length_readFrom_le (fresh : Bool) (ws : List WrittenImport) :
    (readFrom fresh ws).length ≤ ws.length := by
  induction ws generalizing fresh with
  | nil => exact Nat.le_refl 0
  | cons w ws ih =>
    have hws := ih false
    unfold readFrom
    split <;> simp only [List.length_cons] <;> omega

/-- All imports are found when each is read where it stands. -/
theorem map_readFrom_eq_iff (fresh : Bool) (ws : List WrittenImport) :
    (readFrom fresh ws).map decl = ws.map decl ↔
      (∀ w ∈ ws, '$' ∉ w.path) ∧ ∀ w ∈ (if fresh then ws.tail else ws), '\n' ∈ w.lead := by
  induction ws generalizing fresh with
  | nil => simp [readFrom]
  | cons w ws ih =>
    have hrest := ih false
    by_cases hread : w.IsRead fresh
    · have hstep : (readFrom fresh (w :: ws)).map decl = (w :: ws).map decl ↔
          (readFrom false ws).map decl = ws.map decl := by
        rw [readFrom, if_pos hread, List.map_cons, List.map_cons]
        exact ⟨fun h => (List.cons.inj h).2, congrArg (w.decl :: ·)⟩
      rw [hstep, hrest]
      obtain ⟨hdollar, hlead⟩ := hread
      cases fresh with
      | true => simp [hdollar]
      | false => simp [hdollar, show '\n' ∈ w.lead by simpa using hlead]
    · refine iff_of_false (fun heq => ?_) fun ⟨hdollar, hlead⟩ => hread ⟨hdollar w (by simp), ?_⟩
      · have hlength := congrArg List.length heq
        rw [readFrom, if_neg hread, List.length_map, List.length_map, List.length_cons] at hlength
        have hle := length_readFrom_le false ws
        omega
      · cases fresh with
        | true => exact .inl rfl
        | false => exact .inr (hlead w (by simp))

/-- Nothing is found behind a semicolon in a text in which nothing is found by itself. -/
theorem matchesFrom_rest {t : Text} (ht : importShape.allMatches t = []) {b : Option Char}
    (hb : b = none ∨ b = some ';') (pos : Nat) : importShape.matchesFrom b pos t = [] := by
  have hskips : Skips b t [] := by
    rintro u v rfl hv
    rw [List.append_nil]
    cases u with
    | nil =>
      rcases hb with rfl | rfl
      · exact fails_of_allMatches_eq_nil (u := []) ht hv
      · exact (fails_lineOpening_of_ne (by decide)).seq
    | cons c cs => exact fails_of_allMatches_eq_nil (u := c :: cs) ht hv
  have h := hskips.matchesFrom_eq pos
  rw [List.append_nil] at h
  exact h

/-- Of imports one after another those are found that are read. -/
theorem map_importOf_written {ws : List WrittenImport} (hws : ∀ w ∈ ws, w.WellFormed) (fresh : Bool)
    {b : Option Char} (hb : b = if fresh then none else some ';') (pos : Nat) {t : Text}
    (ht : importShape.allMatches t = []) :
    (importShape.matchesFrom b pos (ws.flatMap print ++ t)).map importOf =
      (readFrom fresh ws).map decl := by
  induction ws generalizing fresh b pos with
  | nil =>
    have hstart : b = none ∨ b = some ';' := by
      cases fresh
      · exact .inr hb
      · exact .inl hb
    rw [List.flatMap_nil, List.nil_append, matchesFrom_rest ht hstart]
    rfl
  | cons w ws ih =>
    have hw := hws w (by simp)
    have hrest := fun pos => ih (fun v hv => hws v (by simp [hv])) false (b := some ';') rfl pos
    rw [List.flatMap_cons, List.append_assoc]
    by_cases hread : w.IsRead fresh
    · obtain ⟨m, hm, hfound⟩ := hw.matchesFrom_print hread hb pos (ws.flatMap print ++ t)
      rw [hfound, List.map_cons, hm, hrest, readFrom, if_pos hread, List.map_cons]
    · have hskips : Skips b w.print (ws.flatMap print ++ t) :=
        hw.skips_print hread fun hfresh => by simpa [hfresh] using hb
      rw [hskips.matchesFrom_eq, lastOr_print, hrest, readFrom, if_neg hread]

end WrittenImport

-- ---------------------------------------------------------------------------
-- The top of a file
-- ---------------------------------------------------------------------------

/-- A package with the white space in front of it and between its parts. -/
structure WrittenPackage where
  lead : Text := []
  gap : Text := [' ']
  path : Text
  trail : Text := []

namespace WrittenPackage

/-- What an import of the path of the package would be. -/
def asImport (p : WrittenPackage) : WrittenImport :=
  { lead := p.lead, gap := p.gap, decl := { path := String.ofList p.path }, trail := p.trail }

def print (p : WrittenPackage) : Text :=
  p.lead ++ ("package".toList ++ (p.gap ++ (p.path ++ (p.trail ++ [';']))))

def WellFormed (p : WrittenPackage) : Prop := p.asImport.WellFormed

theorem lastOr_print (p : WrittenPackage) (b : Option Char) : Text.lastOr b p.print = some ';' := by
  simp [print]

theorem print_eq (p : WrittenPackage) :
    p.print = (p.lead ++ "package".toList) ++ p.asImport.afterWord := by
  have hpath : p.asImport.path = p.path := String.toList_ofList
  simp [print, WrittenImport.afterWord, WrittenImport.ending, hpath]
  rfl

/-- No import starts in a package. -/
theorem WellFormed.skips_print {p : WrittenPackage} (hp : p.WellFormed) {b : Option Char}
    {t : Text} :
    Skips b p.print t := by
  have hword : Skips b (p.lead ++ "package".toList) (p.asImport.afterWord ++ t) :=
    skips_of_blocks hp.spaced.lead (by decide) (by decide) (blocks_of_ne (by decide) (by decide))
  rw [print_eq]
  exact hword.append hp.skips_afterWord

end WrittenPackage

/-- What stands in front of the types of a file. -/
structure WrittenTop where
  package : Option WrittenPackage := none
  imports : List WrittenImport

namespace WrittenTop

def print (top : WrittenTop) : Text :=
  (top.package.elim [] WrittenPackage.print) ++ top.imports.flatMap WrittenImport.print

structure WellFormed (top : WrittenTop) : Prop where
  package : ∀ p ∈ top.package, p.WellFormed
  imports : ∀ w ∈ top.imports, w.WellFormed

/-- The imports that are found. -/
def read (top : WrittenTop) : List WrittenImport :=
  WrittenImport.readFrom top.package.isNone top.imports

/-- The imports that something is written before. -/
def later (top : WrittenTop) : List WrittenImport :=
  if top.package.isNone then top.imports.tail else top.imports

variable {top : WrittenTop}

/-- Masking leaves the top of a file as it is. -/
theorem WellFormed.isCodeChar_of_mem (htop : top.WellFormed) :
    ∀ c ∈ top.print, isCodeChar c = true := by
  have hline : ∀ (w : WrittenImport) (word : Text), w.WellFormed →
      (∀ c ∈ word, isTopChar c = true) →
      ∀ c ∈ (w.lead ++ word) ++ w.afterWord, isCodeChar c = true := by
    intro w word hw hword c hc
    refine isCodeChar_of_isTopChar ?_
    rcases List.mem_append.mp hc with hc | hc
    · rcases List.mem_append.mp hc with hc | hc
      · exact isTopChar_of_isSpace (hw.spaced.lead c hc)
      · exact hword c hc
    · exact hw.isTopChar_afterWord c hc
  intro c hc
  rcases List.mem_append.mp hc with hc | hc
  · cases hpackage : top.package with
    | none => simp [hpackage] at hc
    | some p =>
      rw [hpackage, Option.elim_some, p.print_eq] at hc
      exact hline p.asImport _ (htop.package p hpackage) (by decide) c hc
  · obtain ⟨w, hw, hc⟩ := List.mem_flatMap.mp hc
    refine hline w "import".toList (htop.imports w hw) (by decide) c ?_
    rw [List.append_assoc]
    exact hc

theorem WellFormed.map_importOf_eq (htop : top.WellFormed) {t : Text}
    (ht : importLine.allMatches t = []) :
    (importLine.allMatches (top.print ++ t)).map importOf = top.read.map WrittenImport.decl := by
  rw [importLine_eq] at ht ⊢
  rw [allMatches_eq_matchesFrom, print, read]
  cases hpackage : top.package with
  | none => exact WrittenImport.map_importOf_written htop.imports true rfl 0 ht
  | some p =>
    have hskips : Skips none p.print (top.imports.flatMap WrittenImport.print ++ t) :=
      (htop.package p hpackage).skips_print
    have hfound := hskips.matchesFrom_eq 0
    rw [p.lastOr_print] at hfound
    rw [Option.elim_some, List.append_assoc]
    exact (congrArg (List.map importOf) hfound).trans
      (WrittenImport.map_importOf_written htop.imports false rfl _ ht)

end WrittenTop

theorem imports_extract (includeDocs : Bool) (source : String) :
    (extract includeDocs source).imports =
      (importLine.allMatches (mask source.toList).text).map importOf := rfl

/-- The imports at the top of a file are extracted in order, but for those that are not read: a
dollar sign in its path hides an import, and so does text before it on its line. -/
theorem imports_written {top : WrittenTop} (htop : top.WellFormed) (includeDocs : Bool)
    {rest : Text}
    (hrest : (extract includeDocs (String.ofList rest)).imports = []) :
    (extract includeDocs (String.ofList (top.print ++ rest))).imports =
      top.read.map WrittenImport.decl ∧
    ((extract includeDocs (String.ofList (top.print ++ rest))).imports =
      top.imports.map WrittenImport.decl ↔
      (∀ w ∈ top.imports, '$' ∉ w.path) ∧ ∀ w ∈ top.later, '\n' ∈ w.lead) := by
  have hnone : importLine.allMatches (mask rest).text = [] := by
    simpa [imports_extract] using hrest
  have hread : (extract includeDocs (String.ofList (top.print ++ rest))).imports =
      top.read.map WrittenImport.decl := by
    rw [imports_extract, String.toList_ofList, mask_text_code_append htop.isCodeChar_of_mem,
      htop.map_importOf_eq hnone]
  refine ⟨hread, ?_⟩
  rw [hread]
  exact WrittenImport.map_readFrom_eq_iff top.package.isNone top.imports

/-- `import a.B; import static c.D;`, and on lines of their own `import e$F;` and
`import g.H.*;`. -/
def crowdedTop : WrittenTop where
  imports := [
    { decl := { path := "a.B" } },
    { lead := [' '], decl := { path := "c.D", isStatic := true } },
    { lead := ['\n'], decl := { path := "e$F" } },
    { lead := ['\n'], decl := { path := "g.H", isWildcard := true } }]

theorem wellFormed_crowdedTop : crowdedTop.WellFormed := by
  have hspaced : ∀ w ∈ crowdedTop.imports, w.Spaced := by
    have hall : ∀ w ∈ crowdedTop.imports, (∀ c ∈ w.lead, Text.isSpace c = true) ∧ w.gap = [' '] ∧
        w.staticGap = [' '] ∧ w.trail = [] := by decide
    intro w hw
    obtain ⟨hlead, hgap, hstatic, htrail⟩ := hall w hw
    exact ⟨hlead, by rw [hgap]; decide, by rw [hstatic]; decide, by rw [htrail]; decide⟩
  have hnames : ∀ n ∈ ["a", "B", "c", "D", "e$F", "g", "H"].map String.toList,
      n ∈ identifier.language := by
    have hall : ∀ n ∈ ["a", "B", "c", "D", "e$F", "g", "H"].map String.toList,
        n.head?.any (fun c => c.isAlpha || c = '_' || c = '$') = true ∧
        n.tail.all isNameChar = true := by
      decide
    intro n hn
    obtain ⟨hfirst, hrest⟩ := hall n hn
    obtain ⟨c, hc, hfirst⟩ := (Option.any_eq_true _ _).mp hfirst
    exact mem_language_identifier.mpr
      ⟨c, n.tail, (List.cons_head?_tail hc).symm, hfirst, List.all_eq_true.mp hrest⟩
  have hpath : ∀ w ∈ crowdedTop.imports, IsNamePath w.path := by
    have hsplit : ∀ w ∈ crowdedTop.imports, w.path.splitOn '.' ⊆
        ["a", "B", "c", "D", "e$F", "g", "H"].map String.toList := by decide
    exact fun w hw => ⟨w.path.splitOn '.', List.splitOn_ne_nil _ _,
      fun n hn => hnames n (hsplit w hw hn), (List.intercalate_splitOn '.').symm⟩
  exact ⟨nofun, fun w hw => ⟨hspaced w hw, hpath w hw⟩⟩

/-- An import behind another one on a line and one with a dollar sign are missing. -/
theorem imports_written_crowdedTop :
    (extract true (String.ofList "\nclass A {}".toList)).imports = [] ∧
      (extract true (String.ofList (crowdedTop.print ++ "\nclass A {}".toList))).imports =
        [{ path := "a.B" }, { path := "g.H", isWildcard := true }] ∧
      (extract true (String.ofList (crowdedTop.print ++ "\nclass A {}".toList))).imports ≠
        crowdedTop.imports.map WrittenImport.decl := by
  have hrest : (extract true (String.ofList "\nclass A {}".toList)).imports = [] := by
    decide +kernel
  obtain ⟨hread, hiff⟩ := imports_written wellFormed_crowdedTop true hrest
  exact ⟨hrest, hread.trans (by decide), fun heq => absurd (hiff.mp heq).1 (by decide)⟩

end Typings.Source
