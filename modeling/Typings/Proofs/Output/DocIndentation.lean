import Typings.Output.Doc
import Typings.Proofs.Text.Lines

/-!
# Indented comments

A documentation comment keeps its lines at every indentation: only what stands before them differs.
So indenting a second time leaves nothing of the first one, and the comment ends in the written file
where it ends in the text. Main statement: `reindentDoc_canonical`.
-/

namespace Typings

open Text

/-- Spaces and tabs before a line. -/
def IsMargin (indent : Text) : Prop := ∀ c ∈ indent, c = ' ' ∨ c = '\t'

instance (indent : Text) : Decidable (IsMargin indent) :=
  inferInstanceAs (Decidable (∀ c ∈ indent, _))

namespace IsMargin

variable {indent : Text}

theorem isSpace (h : IsMargin indent) : ∀ c ∈ indent, isSpace c = true := by
  intro c hc
  rcases h c hc with rfl | rfl <;> decide

theorem newline_notMem (h : IsMargin indent) : '\n' ∉ indent := fun hmem => by
  rcases h '\n' hmem with heq | heq <;> exact absurd heq (by decide)

end IsMargin

-- ---------------------------------------------------------------------------
-- The lines of a comment
-- ---------------------------------------------------------------------------

/-- A line of a comment after the first, from its star on. -/
def starred : Text → Text
  | [] => ['*']
  | '*' :: l => '*' :: l
  | c :: l => '*' :: ' ' :: c :: l

theorem starred_of_ne {c : Char} (hc : c ≠ '*') (l : Text) :
    starred (c :: l) = '*' :: ' ' :: c :: l := by
  unfold starred
  split <;> simp_all

theorem docLine_eq (indent l : Text) : docLine indent l = indent ++ ' ' :: starred l := by
  rcases l with _ | ⟨c, l⟩
  · rfl
  · by_cases hc : c = '*'
    · subst hc
      rfl
    · rw [starred_of_ne hc]
      simp [docLine, hc]

theorem starred_eq_cons (l : Text) : ∃ rest, starred l = '*' :: rest := by
  unfold starred
  split <;> exact ⟨_, rfl⟩

@[simp] theorem starred_starred (l : Text) : starred (starred l) = starred l := by
  obtain ⟨rest, h⟩ := starred_eq_cons l
  rw [h]
  rfl

theorem suffix_starred (l : Text) : l <:+ starred l := by
  unfold starred
  split
  · exact List.nil_suffix
  · exact List.suffix_refl _
  · exact ⟨['*', ' '], rfl⟩

theorem trimmed_starred {l : Text} (h : l = [] ∨ Trimmed l) : Trimmed (starred l) := by
  refine ⟨?_, ?_⟩
  · obtain ⟨rest, heq⟩ := starred_eq_cons l
    exact ⟨'*', rest, heq, by decide⟩
  · rcases h with rfl | h
    · exact ⟨[], '*', rfl, by decide⟩
    · obtain ⟨u, hu⟩ := suffix_starred l
      obtain ⟨cs, c, hc, hspace⟩ := h.last
      exact ⟨u ++ cs, c, by rw [← hu, List.append_assoc, ← hc], hspace⟩

theorem newline_notMem_starred {l : Text} (h : '\n' ∉ l) : '\n' ∉ starred l := by
  rcases l with _ | ⟨c, l⟩
  · decide
  · by_cases hc : c = '*'
    · subst hc
      exact h
    · rw [starred_of_ne hc]
      simpa using h

/-- The lines of a comment without the white space around each. -/
def docContents (doc : Text) : List Text := (lines (trim doc)).map trim

/-- The lines of a comment from where the indentation ends. -/
def docBody (doc : Text) : List Text :=
  match docContents doc with
  | [] => []
  | first :: rest => first :: rest.map fun l => ' ' :: starred l

theorem docLines_eq_map (indent doc : Text) : docLines indent doc =
    (docBody doc).map (indent ++ ·) := by
  rw [docLines, docBody, ← docContents]
  cases docContents doc with
  | nil => rfl
  | cons first rest => simp [docLine_eq]

theorem length_docBody (doc : Text) : (docBody doc).length = (lines (trim doc)).length := by
  have h : (docContents doc).length = (lines (trim doc)).length := List.length_map _
  rw [← h, docBody]
  cases docContents doc <;> simp

theorem eq_nil_or_trimmed_of_mem_docContents {doc l : Text} (h : l ∈ docContents doc) :
    '\n' ∉ l ∧ (l = [] ∨ Trimmed l) := by
  obtain ⟨line, hline, rfl⟩ := List.mem_map.mp h
  exact ⟨fun hmem => newline_notMem_of_mem_lines hline (mem_of_mem_trim hmem),
    trim_eq_nil_or_trimmed line⟩

/-- The first line holds the start of the comment. -/
theorem trimmed_of_docContents_eq_cons {doc first : Text} {rest : List Text}
    (h : docContents doc = first :: rest) : Trimmed first := by
  rcases trim_eq_nil_or_trimmed doc with hnil | htrimmed
  · simp [docContents, hnil, lines] at h
  · obtain ⟨c, cs, hcs, hc⟩ := htrimmed.head
    obtain ⟨l, ls, hls⟩ := head_lines hcs hc
    have hfirst : trim (c :: l) = first := by
      rw [docContents, hls] at h
      exact (List.cons.inj h).1
    rcases trim_eq_nil_or_trimmed (c :: l) with hnil | ht
    · obtain ⟨before, after, heq, hbefore, hafter⟩ := eq_append_trim_append (c :: l)
      have hspace : isSpace c = true := by
        rw [hnil, List.append_nil] at heq
        have hmem : c ∈ before ++ after := heq ▸ List.mem_cons_self
        rcases List.mem_append.mp hmem with hm | hm
        · exact hbefore c hm
        · exact hafter c hm
      simp [hspace] at hc
    · exact hfirst ▸ ht

/-- A line of the body can be read back behind every margin. -/
theorem isLine_of_mem_docBody {indent doc b : Text} (hindent : IsMargin indent)
    (h : b ∈ docBody doc) :
    IsLine (indent ++ b) ∧ ∃ cs c, b = cs ++ [c] ∧ isSpace c = false := by
  have hb : '\n' ∉ b ∧ ∃ cs c, b = cs ++ [c] ∧ isSpace c = false := by
    unfold docBody at h
    split at h
    · simp at h
    · rename_i first rest heq
      rcases List.mem_cons.mp h with rfl | h
      · have hmem : b ∈ docContents doc := heq ▸ List.mem_cons_self
        exact ⟨(eq_nil_or_trimmed_of_mem_docContents hmem).1,
          (trimmed_of_docContents_eq_cons heq).last⟩
      · obtain ⟨l, hl, rfl⟩ := List.mem_map.mp h
        have hmem : l ∈ docContents doc := heq ▸ List.mem_cons_of_mem _ hl
        obtain ⟨hnewline, hl⟩ := eq_nil_or_trimmed_of_mem_docContents hmem
        obtain ⟨cs, c, hcs, hc⟩ := (trimmed_starred hl).last
        refine ⟨?_, ' ' :: cs, c, by rw [hcs, List.cons_append], hc⟩
        simpa using newline_notMem_starred hnewline
  obtain ⟨hnewline, cs, c, rfl, hc⟩ := hb
  refine ⟨⟨?_, ?_⟩, cs, c, rfl, hc⟩
  · intro hmem
    exact (List.mem_append.mp hmem).elim hindent.newline_notMem hnewline
  · intro d hd
    obtain rfl : c = d := by simpa [← List.append_assoc] using hd
    rintro rfl
    exact absurd hc (by decide)

/-- The written comment has the lines it was written with. -/
theorem lines_reindentDoc (doc : String) {indent : String} (hindent : IsMargin indent.toList) :
    lines (reindentDoc doc indent).toList = docLines indent.toList doc.toList := by
  rw [reindentDoc, String.toList_ofList, lines_flatMap]
  intro l hl
  rw [docLines_eq_map] at hl
  obtain ⟨b, hb, rfl⟩ := List.mem_map.mp hl
  exact (isLine_of_mem_docBody hindent hb).1

-- ---------------------------------------------------------------------------
-- Indenting twice
-- ---------------------------------------------------------------------------

/-- The text of a comment between the first margin and the last newline. -/
theorem trim_reindentDoc (doc : String) {indent : String} (hindent : IsMargin indent.toList)
    {first : Text} {rest : List Text} (h : docBody doc.toList = first :: rest)
    (hfirst : Trimmed first) :
    trim (reindentDoc doc indent).toList =
      ['\n'].intercalate (first :: rest.map (indent.toList ++ ·)) := by
  have hmem : ∀ b ∈ rest, b ∈ docBody doc.toList := fun b hb => h ▸ List.mem_cons_of_mem _ hb
  have hcore : Trimmed (['\n'].intercalate (first :: rest.map (indent.toList ++ ·))) := by
    refine ⟨?_, ?_⟩
    · obtain ⟨c, cs, rfl, hc⟩ := hfirst.head
      cases rest with
      | nil => exact ⟨c, cs, by simp, hc⟩
      | cons b rest => exact ⟨c, _, by rw [List.map_cons, List.intercalate_cons_cons]; rfl, hc⟩
    · have hend : ∀ p ∈ first :: rest.map (indent.toList ++ ·), ∃ cs c, p = cs ++ [c] ∧
          isSpace c = false := by
        intro p hp
        rcases List.mem_cons.mp hp with rfl | hp
        · exact hfirst.last
        · obtain ⟨b, hb, rfl⟩ := List.mem_map.mp hp
          obtain ⟨cs, c, rfl, hc⟩ := (isLine_of_mem_docBody hindent (hmem b hb)).2
          exact ⟨indent.toList ++ cs, c, by rw [List.append_assoc], hc⟩
      obtain ⟨before, p, hp, hjoin⟩ :=
        exists_intercalate_eq_append ['\n'] (List.cons_ne_nil first (rest.map (indent.toList ++ ·)))
      obtain ⟨cs, c, rfl, hc⟩ := hend p hp
      exact ⟨before ++ cs, c, by rw [hjoin, List.append_assoc], hc⟩
  have htext : (reindentDoc doc indent).toList =
      indent.toList ++ (['\n'].intercalate (first :: rest.map (indent.toList ++ ·)) ++ ['\n']) := by
    rw [reindentDoc, String.toList_ofList, docLines_eq_map, h, List.map_cons, List.flatMap_cons,
      ← flatMap_newline_eq (List.cons_ne_nil _ _), List.flatMap_cons]
    simp only [List.append_assoc]
  rw [htext, trim_append_of_isSpace hindent.isSpace, hcore.trim_append (by decide)]

/-- An indented text keeps its lines, with the margin in front of each but the first. -/
theorem lines_trim_reindentDoc (doc : String) {indent : String} (hindent : IsMargin indent.toList)
    {first : Text} {rest : List Text} (hbody : docBody doc.toList = first :: rest)
    (hfirst : Trimmed first) :
    lines (trim (reindentDoc doc indent).toList) = first :: rest.map (indent.toList ++ ·) := by
  rw [trim_reindentDoc doc hindent hbody hfirst]
  have hmem : ∀ b ∈ docBody doc.toList, IsLine (indent.toList ++ b) ∧ _ :=
    fun b hb => isLine_of_mem_docBody hindent hb
  have hnone : IsMargin [] := nofun
  rw [hbody] at hmem
  refine lines_intercalate ?_ ?_
  · intro l hl
    rcases List.mem_cons.mp hl with rfl | hl
    · exact (isLine_of_mem_docBody hnone (hbody ▸ List.mem_cons_self)).1
    · obtain ⟨b, hb, rfl⟩ := List.mem_map.mp hl
      exact (hmem b (List.mem_cons_of_mem _ hb)).1
  · intro l hl
    rcases List.mem_cons.mp (List.mem_of_getLast? hl) with rfl | hl
    · exact hfirst.ne_nil
    · obtain ⟨b, hb, rfl⟩ := List.mem_map.mp hl
      obtain ⟨cs, c, rfl, _⟩ := (hmem b (List.mem_cons_of_mem _ hb)).2
      simp

/-- Indenting leaves the lines as they are from where the indentation ends. -/
theorem docBody_reindentDoc (doc : String) {indent : String} (hindent : IsMargin indent.toList) :
    docBody (reindentDoc doc indent).toList = docBody doc.toList := by
  cases hcontents : docContents doc.toList with
  | nil =>
    have hbody : docBody doc.toList = [] := by rw [docBody, hcontents]
    have htext : (reindentDoc doc indent).toList = [] := by
      rw [reindentDoc, String.toList_ofList, docLines_eq_map, hbody]
      rfl
    rw [htext, hbody]
    rfl
  | cons first contents =>
    have hfirst := trimmed_of_docContents_eq_cons hcontents
    have hbody : docBody doc.toList = first :: contents.map fun l => ' ' :: starred l := by
      rw [docBody, hcontents]
    have hagain : docContents (reindentDoc doc indent).toList = first :: contents.map starred := by
      rw [docContents, lines_trim_reindentDoc doc hindent hbody hfirst, List.map_cons,
        hfirst.trim_eq,
        List.map_map, List.map_map]
      refine congrArg (first :: ·) (List.map_congr_left fun l hl => ?_)
      have hl' := eq_nil_or_trimmed_of_mem_docContents (hcontents ▸ List.mem_cons_of_mem first hl)
      show trim (indent.toList ++ ' ' :: starred l) = starred l
      rw [trim_append_of_isSpace hindent.isSpace, trim_space_cons, (trimmed_starred hl'.2).trim_eq]
    rw [docBody, hagain, hbody]
    simp

-- ---------------------------------------------------------------------------
-- The end of a comment
-- ---------------------------------------------------------------------------

/-- The two characters that end a comment. -/
def docEnd : Text := "*/".toList

theorem docEnd_notMem_of_isSpace {c : Char} (h : isSpace c = true) : c ∉ docEnd := fun hmem => by
  have hc : c = '*' ∨ c = '/' := by simpa [docEnd] using hmem
  rcases hc with rfl | rfl <;> exact absurd h (by decide)

theorem occurrences_docEnd_trim (s : Text) : occurrences docEnd (trim s) =
    occurrences docEnd s := by
  obtain ⟨before, after, hs, hbefore, hafter⟩ := eq_append_trim_append s
  have hne : docEnd ≠ [] := by decide
  calc occurrences docEnd (trim s)
      = occurrences docEnd (before ++ trim s) :=
        (occurrences_append_left hne (fun c hc => docEnd_notMem_of_isSpace (hbefore c hc)) _).symm
    _ = occurrences docEnd (before ++ trim s ++ after) :=
        (occurrences_append_right hne (fun c hc => docEnd_notMem_of_isSpace (hafter c hc)) _).symm
    _ = occurrences docEnd s := by rw [← hs]

/-- The star in front of a line ends no comment: a space stands behind it, or the line had it. -/
theorem occurrences_docEnd_starred (l : Text) :
    occurrences docEnd (' ' :: starred l) = occurrences docEnd l := by
  have hspace : ∀ c ∈ [' '], c ∉ docEnd := by decide
  have h := occurrences_append_left (by decide) hspace (starred l)
  rw [List.singleton_append] at h
  rw [h]
  unfold starred
  split
  · decide
  · rfl
  · rename_i c l _
    have hstar := occurrences_append_cons (w := docEnd) (by decide) (c := ' ')
      (by decide) ['*'] (c :: l)
    rw [List.singleton_append] at hstar
    rw [hstar, show occurrences docEnd ['*'] = 0 by decide, Nat.zero_add]

theorem sum_occurrences_docBody (doc : Text) :
    ((docBody doc).map (occurrences docEnd)).sum = occurrences docEnd (trim doc) := by
  have hcontents : ((docContents doc).map (occurrences docEnd)).sum =
      occurrences docEnd (trim doc) := by
    rw [occurrences_eq_sum_lines (by decide) (by decide) (by decide) (trim doc), docContents,
      List.map_map]
    exact congrArg List.sum (List.map_congr_left fun l _ => occurrences_docEnd_trim l)
  rw [← hcontents, docBody]
  cases docContents doc with
  | nil => rfl
  | cons first rest =>
    rw [List.map_cons, List.map_cons, List.map_map]
    refine congrArg (fun ns => (occurrences docEnd first :: ns).sum) ?_
    exact List.map_congr_left fun l _ => occurrences_docEnd_starred l

/-- A comment ends in the written file as often as in its text. -/
theorem occurrences_docEnd_reindentDoc (doc : String) {indent : String}
    (hindent : IsMargin indent.toList) :
    occurrences docEnd (reindentDoc doc indent).toList = occurrences docEnd (trim doc.toList) := by
  rw [occurrences_eq_sum_lines (by decide) (by decide) (by decide), lines_reindentDoc doc hindent,
    docLines_eq_map, List.map_map, ← sum_occurrences_docBody]
  refine congrArg List.sum (List.map_congr_left fun b _ => ?_)
  exact occurrences_append_left (by decide)
    (fun c hc => docEnd_notMem_of_isSpace (hindent.isSpace c hc)) b

/-- The last line of a comment ends as its text does. -/
theorem suffix_getLast_docLines {indent doc : Text} (h : docEnd <:+ trim doc) :
    ∃ front last, docLines indent doc = front ++ [last] ∧ docEnd <:+ last := by
  have hend : Trimmed docEnd := ⟨⟨'*', ['/'], rfl, by decide⟩, ⟨['*'], '/', rfl, by decide⟩⟩
  have hne : trim doc ≠ [] := fun hnil => by
    rw [hnil] at h
    exact hend.ne_nil (List.suffix_nil.mp h)
  obtain ⟨ls, l, hls⟩ := List.eq_nil_or_concat (lines (trim doc)) |>.resolve_left (lines_ne_nil hne)
  have hl : docEnd <:+ trim l := by
    refine suffix_trim hend (suffix_getLast_lines hend.ne_nil (by decide) h l ?_)
    simp [hls]
  have hcontents : docContents doc = ls.map trim ++ [trim l] := by
    rw [docContents, hls, List.concat_eq_append, List.map_append, List.map_singleton]
  rw [docLines, ← docContents, hcontents]
  cases ls with
  | nil => exact ⟨[], indent ++ trim l, rfl, hl.trans (List.suffix_append _ _)⟩
  | cons first ls =>
    refine ⟨(indent ++ trim first) :: (ls.map trim).map (docLine indent), docLine indent (trim l),
      by simp, ?_⟩
    rw [docLine_eq]
    have hstarred : docEnd <:+ ' ' :: starred (trim l) :=
      (hl.trans (suffix_starred _)).trans (List.suffix_cons _ _)
    exact hstarred.trans (List.suffix_append _ _)

-- ---------------------------------------------------------------------------
-- Main statement
-- ---------------------------------------------------------------------------

/-- A comment that is indented again looks as if it had been indented once; it has the lines of its
text, each after the first under the first star; and where the text of the comment ends with its one
`*/`, the written comment ends with its one `*/` and a newline. -/
theorem reindentDoc_canonical (doc indent again : String) (hindent : IsMargin indent.toList) :
    reindentDoc (reindentDoc doc indent) again = reindentDoc doc again ∧
    (lines (reindentDoc doc indent).toList).length = (lines (trim doc.toList)).length ∧
    (∀ l ∈ (lines (reindentDoc doc indent).toList).tail, indent.toList ++ [' ', '*'] <+: l) ∧
    (docEnd <:+ trim doc.toList → occurrences docEnd (trim doc.toList) = 1 →
      occurrences docEnd (reindentDoc doc indent).toList = 1 ∧
        docEnd ++ ['\n'] <:+ (reindentDoc doc indent).toList) := by
  refine ⟨?_, ?_, ?_, fun hend hone => ⟨?_, ?_⟩⟩
  · have hbody := docBody_reindentDoc doc hindent
    rw [reindentDoc, docLines_eq_map, hbody, ← docLines_eq_map, reindentDoc]
  · rw [lines_reindentDoc doc hindent, docLines_eq_map, List.length_map, length_docBody]
  · intro l hl
    rw [lines_reindentDoc doc hindent, docLines] at hl
    split at hl
    · simp at hl
    · obtain ⟨line, _, rfl⟩ := List.mem_map.mp hl
      obtain ⟨rest, hrest⟩ := starred_eq_cons line
      exact ⟨rest, by rw [docLine_eq, hrest]; simp⟩
  · rw [occurrences_docEnd_reindentDoc doc hindent, hone]
  · obtain ⟨front, last, hlines, u, hu⟩ := @suffix_getLast_docLines indent.toList _ hend
    refine ⟨front.flatMap (· ++ ['\n']) ++ u, ?_⟩
    rw [reindentDoc, String.toList_ofList, hlines, List.flatMap_append,
      List.flatMap_singleton, ← hu]
    simp only [List.append_assoc]

theorem reindentDoc_canonical_tab :
    IsMargin "\t".toList ∧
    reindentDoc (reindentDoc "/** A\n b\n\n/ c */ " "\t") "  " =
      "  /** A\n   * b\n   *\n   * / c */\n" ∧
    occurrences docEnd (reindentDoc "/** A\n b\n\n/ c */ " "\t").toList = 1 := by
  have hmargin : IsMargin "\t".toList := by decide
  obtain ⟨hagain, _, _, hend⟩ := reindentDoc_canonical "/** A\n b\n\n/ c */ " "\t" "  " hmargin
  refine ⟨hmargin, hagain.trans (by decide), (hend (by decide) (by decide)).1⟩

end Typings
