import Mathlib.Data.List.TakeWhile
import Typings.Proofs.Source.Balance
import Typings.Proofs.Source.PrintedHeader
import Typings.Proofs.Source.WrittenTypes
import Typings.Proofs.Text.Bytes

/-!
# Headers as they may be written

Blanks may stand between the parts of a type header as its author likes, its clauses come in any
order, and their texts may be any with balanced angle brackets. Such a header is read back: its
parts are found where they stand, each in its compact form. A character that no header holds before
the brace means that there is none. Main statement: `headerTail_written`.
-/

namespace Typings.Source

-- ---------------------------------------------------------------------------
-- Written headers
-- ---------------------------------------------------------------------------

/-- Whether the word of a clause stands in a text outside angle brackets, between blanks or the ends
of the text. -/
def HasClauseWord (s : Text) : Prop :=
  ∃ before k after, s = before ++ (Clause.word k ++ after) ∧ openAngles 0 before = 0 ∧
    (∀ c ∈ before.getLast?, Text.isBlank c = true) ∧ ∀ c ∈ after.head?, Text.isBlank c = true

theorem Clause.opens_iff {k : Clause} {s : Text} :
    k.opens s = true ↔ ∃ after, s = k.word ++ after ∧ ∀ c ∈ after.head?, Text.isBlank c = true := by
  unfold opens
  constructor
  · intro h
    split at h
    · rename_i after hafter
      exact ⟨after, Text.afterPrefix?_eq_some_iff.mp hafter, Option.all_eq_true _ _ |>.mp h⟩
    · cases h
  · rintro ⟨after, rfl, h⟩
    rw [Text.afterPrefix?_eq_some_iff.mpr rfl]
    exact (Option.all_eq_true _ _).mpr h

theorem hasClauseWord_iff {s : Text} : HasClauseWord s ↔
    ∃ n ∈ List.range (s.length + 1), (∃ k ∈ [Clause.superTypes, .interfaces, .permitted],
      k.opens (s.drop n) = true) ∧ openAngles 0 (s.take n) = 0 ∧
        ∀ c ∈ (s.take n).getLast?, Text.isBlank c = true := by
  constructor
  · rintro ⟨before, k, after, rfl, hdepth, hbefore, hafter⟩
    have hlength : before.length < (before ++ (k.word ++ after)).length + 1 := by
      rw [List.length_append]
      omega
    refine ⟨before.length, List.mem_range.mpr hlength, ⟨k, ?_, ?_⟩, by simpa using hdepth,
      by simpa using hbefore⟩
    · cases k <;> simp
    · rw [List.drop_left]
      exact Clause.opens_iff.mpr ⟨after, rfl, hafter⟩
  · rintro ⟨n, _, ⟨k, _, hk⟩, hdepth, hbefore⟩
    obtain ⟨after, heq, hafter⟩ := Clause.opens_iff.mp hk
    exact ⟨s.take n, k, after, by rw [← heq, List.take_append_drop], hdepth, hbefore, hafter⟩

instance (s : Text) : Decidable (HasClauseWord s) := decidable_of_iff' _ hasClauseWord_iff

/-- A clause as it is written, with blanks before and after its word. -/
structure WrittenClause where
  before : Text
  clause : Clause
  after : Text
  text : Text

namespace WrittenClause

def print (c : WrittenClause) : Text := c.before ++ (c.clause.word ++ (c.after ++ c.text))

structure WellFormed (c : WrittenClause) : Prop where
  before : IsGap c.before ∧ c.before ≠ []
  after : IsGap c.after ∧ c.after ≠ []
  visible : ∃ x ∈ c.text, Text.isSpace x = false
  balanced : Balanced c.text
  chars : ∀ x ∈ c.text, isHeaderChar x = true
  words : ¬HasClauseWord c.text

end WrittenClause

/-- Whether a text is a type-parameter list: angle brackets around balanced text. -/
def IsParameterList (s : Text) : Prop :=
  ∃ inner, s = '<' :: (inner ++ ['>']) ∧ Balanced inner ∧ ∀ c ∈ inner, c ≠ '{' ∧ c ≠ ';'

/-- What stands between the name of a type and the brace of its body. -/
structure WrittenTail where
  lead : Text := []
  typeParameters : Option Text := none
  clauses : List WrittenClause := []
  close : Text := []

namespace WrittenTail

def print (w : WrittenTail) : Text :=
  w.lead ++ (w.typeParameters.getD [] ++ (w.clauses.flatMap WrittenClause.print ++ w.close))

structure WellFormed (w : WrittenTail) : Prop where
  lead : IsGap w.lead
  typeParameters : ∀ s ∈ w.typeParameters, IsParameterList s
  clauses : ∀ c ∈ w.clauses, c.WellFormed
  once : (w.clauses.map (·.clause)).Nodup
  close : IsGap w.close

/-- The text of a clause of a kind. -/
def textOf? (w : WrittenTail) (k : Clause) : Option Text :=
  (w.clauses.find? (·.clause = k)).map (·.text)

/-- The header tail that is written, the name ending at offset `start`. -/
def tail (w : WrittenTail) (start : Nat) : HeaderTail where
  typeParameters := w.typeParameters.map Text.compact
  superTypes := (w.textOf? .superTypes).map Text.compact
  interfaces := (w.textOf? .interfaces).map Text.compact
  brace := start + Text.byteLength w.print

end WrittenTail

-- ---------------------------------------------------------------------------
-- Blanks
-- ---------------------------------------------------------------------------

/-- A blank is no angle bracket and may stand in a header. -/
theorem shape_of_isBlank {c : Char} (h : Text.isBlank c = true) :
    (c ≠ '<' ∧ c ≠ '>') ∧ isHeaderChar c = true := by
  simp only [Text.isBlank, Bool.or_eq_true, decide_eq_true_eq] at h
  rcases h with (((rfl | rfl) | rfl) | rfl) | rfl <;> decide

theorem isBlank_of_mem_word (k : Clause) : ∀ c ∈ k.word, Text.isBlank c = false := by
  cases k <;> decide

theorem shape_word (k : Clause) : (∀ c ∈ k.word, c ≠ '<' ∧ c ≠ '>') ∧
    ∀ c ∈ k.word, isHeaderChar c = true := by
  cases k <;> decide

theorem exists_word_eq_cons (k : Clause) : ∃ c cs, k.word = c :: cs ∧
    Text.isBlank c = false ∧ c ≠ '<' := by
  cases k with
  | superTypes => exact ⟨'e', "xtends".toList, by decide⟩
  | interfaces => exact ⟨'i', "mplements".toList, by decide⟩
  | permitted => exact ⟨'p', "ermits".toList, by decide⟩

theorem compact_padded {gap gap' : Text} (hgap : IsGap gap) (hgap' : IsGap gap') (s : Text) :
    Text.compact (gap ++ (s ++ gap')) = Text.compact s := by
  rw [Text.compact, Text.compact, Text.normalizeSpaces, Text.normalizeSpaces,
    Text.words_padded hgap.isSpace hgap'.isSpace]

namespace Clause

/-- Blanks go by, and a word may start after them. -/
theorem split_gap {gap : Text} (hgap : IsGap gap) (fresh : Bool) (hfresh : gap = [] → fresh = true)
    (t : Text) : split 0 0 fresh (gap ++ t) = extendAll gap (split 0 0 true t) := by
  induction gap generalizing fresh with
  | nil => rw [hfresh rfl]; rfl
  | cons c gap ih =>
    have hc := hgap c (by simp)
    obtain ⟨⟨hopen, hclose⟩, _⟩ := shape_of_isBlank hc
    have hno : at? (c :: (gap ++ t)) = none := by
      refine List.find?_eq_none.mpr fun k _ hk => ?_
      obtain ⟨after, hafter, _⟩ := opens_iff.mp hk
      obtain ⟨d, w, hword, hd, _⟩ := exists_word_eq_cons k
      rw [hword, List.cons_append] at hafter
      rw [← (List.cons.inj hafter).1, hc] at hd
      cases hd
    rw [List.cons_append, split_cons hopen hclose fun _ _ => hno, hc,
      ih (fun d hd => hgap d (by simp [hd])) true fun _ => rfl, extendAll_extendAll]
    rfl

/-- Whether a word may start after a text. -/
def isFresh (s : Text) : Bool := s.getLast?.all Text.isBlank

theorem isFresh_concat (s : Text) (c : Char) : isFresh (s ++ [c]) = Text.isBlank c := by
  simp [isFresh]

/-- The word of a clause that a blank ends stands in the text before the blank. -/
theorem hasClauseWord_of_at? {before s t : Text} (hdepth : openAngles 0 before = 0)
    (hfresh : isFresh before = true) (ht : ∀ c ∈ t.head?, Text.isBlank c = true) {k : Clause}
    (h : at? (s ++ t) = some k) : HasClauseWord (before ++ s) := by
  have hopens := List.find?_some h
  obtain ⟨after, hafter, hblank⟩ := opens_iff.mp hopens
  have hbefore : ∀ c ∈ before.getLast?, Text.isBlank c = true := fun c hc => by
    rw [isFresh, Option.all_eq_true] at hfresh
    exact hfresh c hc
  rcases List.append_eq_append_iff.mp hafter with ⟨m, hm, hafter⟩ | ⟨m, rfl, rfl⟩
  · -- the word ends with the text, since it holds no blank
    cases m with
    | nil => exact ⟨before, k, [], by simp [hm], hdepth, hbefore, by simp⟩
    | cons c m =>
      have hc := ht c (by simp [hafter])
      rw [isBlank_of_mem_word k c (by simp [hm])] at hc
      cases hc
  · refine ⟨before, k, m, by simp, hdepth, hbefore, fun c hc => hblank c ?_⟩
    cases m with
    | nil => cases hc
    | cons d m => exact hc

/-- Text without the word of a clause goes by. -/
theorem split_text (before : Text) {s : Text} (hno : ¬HasClauseWord (before ++ s)) {t : Text}
    (ht : ∀ c ∈ t.head?, Text.isBlank c = true) :
    split 0 (openAngles 0 before) (isFresh before) (s ++ t) =
      extendAll s (split 0 (openAngles 0 (before ++ s)) (isFresh (before ++ s)) t) := by
  induction s generalizing before with
  | nil => simp
  | cons c s ih =>
    have hrest := ih (before ++ [c]) (by simpa using hno)
    rw [isFresh_concat, openAngles_append, openAngles] at hrest
    by_cases hopen : c = '<'
    · subst hopen
      have hblank : Text.isBlank '<' = false := by decide
      rw [hblank, if_pos rfl] at hrest
      rw [List.cons_append, split_open]
      simpa [openAngles] using congrArg (extendAll ['<']) hrest
    · by_cases hclose : c = '>'
      · subst hclose
        have hblank : Text.isBlank '>' = false := by decide
        rw [hblank, if_neg hopen, if_pos rfl] at hrest
        rw [List.cons_append, split_close]
        simpa [openAngles] using congrArg (extendAll ['>']) hrest
      · rw [if_neg hopen, if_neg hclose] at hrest
        rw [List.cons_append, split_cons hopen hclose]
        · simpa [openAngles] using congrArg (extendAll [c]) hrest
        · intro hdepth hfresh
          refine Option.eq_none_iff_forall_ne_some.mpr fun k hk => hno ?_
          exact hasClauseWord_of_at? hdepth hfresh ht (s := c :: s) hk

/-- The clauses of a header are found in order, with the blanks around their texts. -/
theorem split_written {clauses : List WrittenClause} (hclauses : ∀ c ∈ clauses, c.WellFormed)
    {close : Text}
    (hclose : IsGap close) (fresh : Bool) :
    ∃ gap entries, split 0 0 fresh (clauses.flatMap WrittenClause.print ++ close) = (gap, entries) ∧
      IsGap gap ∧ entries.map (fun e => (e.1, Text.compact e.2)) =
        clauses.map fun c => (c.clause, Text.compact c.text) := by
  induction clauses generalizing fresh with
  | nil =>
    refine ⟨close, [], ?_, hclose, rfl⟩
    cases close with
    | nil => rfl
    | cons c cs =>
      have h := split_gap hclose fresh (by simp) []
      simpa [extendAll, split] using h
  | cons c clauses ih =>
    have hc := hclauses c (by simp)
    have hrest : ∀ d ∈ clauses, d.WellFormed := fun d hd => hclauses d (by simp [hd])
    obtain ⟨gap, entries, hsplit, hgap, hentries⟩ := ih hrest (isFresh c.text)
    obtain ⟨b, after, hafter⟩ := List.exists_cons_of_ne_nil hc.after.2
    have hb : Text.isBlank b = true := hc.after.1 b (by simp [hafter])
    have hafterGap : IsGap after := fun d hd => hc.after.1 d (by simp [hafter, hd])
    -- a blank ends the text of the clause: the next clause starts with one, and so does `close`
    have hblank : ∀ d ∈ (clauses.flatMap WrittenClause.print ++ close).head?,
        Text.isBlank d = true := by
      cases clauses with
      | nil => exact fun d hd => hclose d (List.mem_of_mem_head? (by simpa using hd))
      | cons next clauses =>
        obtain ⟨x, xs, hx⟩ := List.exists_cons_of_ne_nil (hrest next (by simp)).before.2
        intro d hd
        obtain rfl : x = d := by simpa [WrittenClause.print, hx] using hd
        exact (hrest next (by simp)).before.1 x (by simp [hx])
    have htext := split_text [] hc.words hblank
    rw [List.nil_append, openAngles_of_balanced hc.balanced, hsplit] at htext
    have hnil : isFresh [] = true := rfl
    have hskip := split_gap hafterGap true (fun _ => rfl)
      (c.text ++ (clauses.flatMap WrittenClause.print ++ close))
    rw [hnil, openAngles] at htext
    rw [htext] at hskip
    refine ⟨c.before, (c.clause, b :: (after ++ (c.text ++ gap))) :: entries, ?_, hc.before.1, ?_⟩
    · have hbefore := split_gap hc.before.1 fresh (fun h => absurd h hc.before.2)
        (c.clause.word ++ b :: (after ++
          (c.text ++ (clauses.flatMap WrittenClause.print ++ close))))
      rw [split_clause c.clause hb, hskip] at hbefore
      simpa [WrittenClause.print, hafter, extendAll] using hbefore
    · have hcompact := compact_padded hc.after.1 hgap c.text
      rw [hafter, List.cons_append] at hcompact
      simp [hcompact, hentries]

/-- The last text of a kind is the only one. -/
theorem lastText?_written {clauses : List WrittenClause} (hclauses : ∀ c ∈ clauses, c.WellFormed)
    (honce : (clauses.map (·.clause)).Nodup) {entries : List (Clause × Text)}
    (hentries : entries.map (fun e => (e.1, Text.compact e.2)) =
      clauses.map fun c => (c.clause, Text.compact c.text)) (k : Clause) :
    k.lastText? entries = ((clauses.find? (·.clause = k)).map (·.text)).map Text.compact := by
  have hkept : (entries.filter (·.1 = k)).map (fun e => Text.compact e.2) =
      (clauses.filter (·.clause = k)).map fun c => Text.compact c.text := by
    have h := congrArg (fun es => (es.filter (·.1 = k)).map (·.2)) hentries
    simpa [List.filter_map, Function.comp_def] using h
  have honly : clauses.filter (·.clause = k) = (clauses.find? (·.clause = k)).toList := by
    clear hclauses hentries hkept
    induction clauses with
    | nil => rfl
    | cons c clauses ih =>
      obtain ⟨hnotMem, hrest⟩ := List.nodup_cons.mp honce
      by_cases hc : c.clause = k
      · have hothers : clauses.filter (·.clause = k) = [] := by
          refine List.filter_eq_nil_iff.mpr fun d hd hdk => hnotMem ?_
          exact List.mem_map.mpr ⟨d, hd, (of_decide_eq_true hdk).trans hc.symm⟩
        simp [hc, hothers]
      · simpa [hc] using ih hrest
  unfold lastText?
  rw [hkept, honly]
  cases hfound : clauses.find? (·.clause = k) with
  | none => rfl
  | some c =>
    obtain ⟨x, hx, hspace⟩ := (hclauses c (List.mem_of_find?_eq_some hfound)).visible
    have hne : Text.compact c.text ≠ [] := by
      intro hnil
      have hmem : x ∈ Text.visible (Text.compact c.text) := by
        rw [Text.visible_compact]
        exact Text.mem_visible.mpr ⟨hx, hspace⟩
      rw [hnil] at hmem
      cases hmem
    simp [hne]

end Clause

-- ---------------------------------------------------------------------------
-- Blanks and the type-parameter list
-- ---------------------------------------------------------------------------

theorem dropWhile_gap {gap : Text} (hgap : IsGap gap) (t : Text) :
    (gap ++ t).dropWhile Text.isBlank = t.dropWhile Text.isBlank := by
  rw [List.dropWhile_append, List.dropWhile_eq_nil_iff.mpr hgap]
  rfl

/-- Blanks before the clauses go by. -/
theorem clausesTail?_gap {gap : Text} (hgap : IsGap gap) (typeParameters : Option Text) (pos : Nat)
    (t : Text) :
    clausesTail? typeParameters pos (gap ++ t) = clausesTail? typeParameters
      (pos + Text.byteLength gap) t := by
  have hdepth : openAngles 0 gap = 0 :=
    openAngles_of_balanced hgap.balanced 0
  have hbrace := beforeBrace?_append (fun c hc => (shape_of_isBlank (hgap c hc)).2) 0 t
  rw [hdepth] at hbrace
  unfold clausesTail?
  rw [hbrace, Option.map_map]
  congr 1
  funext text
  have hsplit : (Clause.split 0 0 true (gap ++ text)).2 = (Clause.split 0 0 true text).2 := by
    rw [Clause.split_gap hgap true (fun _ => rfl)]
    rfl
  simp only [Function.comp_apply, hsplit, Text.byteLength_append, Nat.add_assoc]

/-- The blanks after the name and the type-parameter list go by, when there is one. -/
theorem tailAfterName?_lead {lead : Text} (hlead : IsGap lead) {typeParameters : Option Text}
    (hlist : ∀ s ∈ typeParameters, IsParameterList s) {t : Text}
    (hopen : typeParameters = none → ∀ c ∈ (t.dropWhile Text.isBlank).head?, c ≠ '<')
    (start : Nat) :
    tailAfterName? start (lead ++ (typeParameters.getD [] ++ t)) =
      clausesTail? (typeParameters.map Text.compact)
        (start + Text.byteLength (lead ++ typeParameters.getD [])) t := by
  have hangle : Text.isBlank '<' = false := by decide
  cases typeParameters with
  | none =>
    have hall : IsGap (lead ++ t.takeWhile Text.isBlank) := by
      intro c hc
      rcases List.mem_append.mp hc with hc | hc
      · exact hlead c hc
      · exact List.mem_takeWhile_imp hc
    have htake : (lead ++ t).takeWhile Text.isBlank = lead ++ t.takeWhile Text.isBlank := by
      rw [List.takeWhile_append_of_pos hlead]
    have hcut := clausesTail?_gap (fun c hc => hall c (List.mem_append_right _ hc)) none
      (start + Text.byteLength lead) (t.dropWhile Text.isBlank)
    rw [List.takeWhile_append_dropWhile] at hcut
    have hdrop := dropWhile_gap hlead t
    simp only [Option.getD_none, List.nil_append, List.append_nil, Option.map_none, hcut]
    unfold tailAfterName?
    simp only [htake, hdrop, Text.byteLength_append]
    split
    · rename_i cs hcs
      exact absurd rfl (hopen rfl '<' (by simp [hcs]))
    · rw [Nat.add_assoc]
  | some s =>
    obtain ⟨inner, rfl, hbalanced, hchars⟩ := hlist s rfl
    have hclose : closeAngle? 0 (inner ++ '>' :: t) = some (inner ++ ['>'], t) := by
      rw [closeAngle?_append hbalanced hchars]
      rfl
    have hdrop : (lead ++ '<' :: (inner ++ '>' :: t)).dropWhile Text.isBlank =
        '<' :: (inner ++ '>' :: t) := by
      rw [dropWhile_gap hlead, List.dropWhile_cons_of_neg (by simp [hangle])]
    have htake : (lead ++ '<' :: (inner ++ '>' :: t)).takeWhile Text.isBlank = lead := by
      rw [List.takeWhile_append_of_pos hlead, List.takeWhile_cons_of_neg (by simp [hangle]),
        List.append_nil]
    have hlength : Text.byteLength (lead ++ '<' :: (inner ++ ['>'])) =
        Text.byteLength lead + Text.byteLength ('<' :: (inner ++ ['>'])) :=
      Text.byteLength_append ..
    simp only [Option.getD_some, List.cons_append, List.append_assoc, List.nil_append,
      Option.map_some,
      hlength, tailAfterName?, hdrop, htake, hclose, Nat.add_assoc]

/-- A character that no header holds, before the first brace. -/
theorem beforeBrace?_eq_none {s : Text} (hbrace : '{' ∉ s) {c : Char}
    (hc : c ∈ [';', '(', ')', '=', '}'])
    (depth : Nat) (rest : Text) : beforeBrace? depth (s ++ c :: rest) = none := by
  induction s generalizing depth with
  | nil =>
    simp only [List.mem_cons, List.not_mem_nil, or_false] at hc
    rcases hc with rfl | rfl | rfl | rfl | rfl <;> simp [beforeBrace?]
  | cons d s ih =>
    have hrest := fun depth => ih (fun h => hbrace (List.mem_cons_of_mem _ h)) depth
    have hd : d ≠ '{' := fun h => hbrace (h ▸ List.mem_cons_self)
    simp [beforeBrace?, hrest, hd]

-- ---------------------------------------------------------------------------
-- Written headers are read back
-- ---------------------------------------------------------------------------

theorem WrittenClause.WellFormed.shape {c : WrittenClause} (hc : c.WellFormed) :
    Balanced c.print ∧ ∀ x ∈ c.print, isHeaderChar x = true := by
  have hgap : ∀ {gap : Text}, IsGap gap → Balanced gap ∧ ∀ x ∈ gap, isHeaderChar x = true :=
    fun hgap =>
    ⟨hgap.balanced, fun x hx => (shape_of_isBlank (hgap x hx)).2⟩
  obtain ⟨hwordAngles, hwordChars⟩ := shape_word c.clause
  refine ⟨(hgap hc.before.1).1.append ((Balanced.of_forall hwordAngles).append
    ((hgap hc.after.1).1.append hc.balanced)), fun x hx => ?_⟩
  simp only [WrittenClause.print, List.mem_append] at hx
  rcases hx with hx | hx | hx | hx
  · exact (hgap hc.before.1).2 x hx
  · exact hwordChars x hx
  · exact (hgap hc.after.1).2 x hx
  · exact hc.chars x hx

namespace WrittenTail

variable {w : WrittenTail}

/-- The clauses and the blanks before the brace. -/
def printClauses (w : WrittenTail) : Text := w.clauses.flatMap WrittenClause.print ++ w.close

theorem WellFormed.shape_printClauses (hw : w.WellFormed) :
    Balanced w.printClauses ∧ ∀ x ∈ w.printClauses, isHeaderChar x = true := by
  have hclauses : ∀ clauses : List WrittenClause, (∀ c ∈ clauses, c.WellFormed) →
      Balanced (clauses.flatMap WrittenClause.print) := by
    intro clauses h
    induction clauses with
    | nil => exact .nil
    | cons c clauses ih =>
      exact (h c (by simp)).shape.1.append (ih fun d hd => h d (by simp [hd]))
  refine ⟨(hclauses w.clauses hw.clauses).append hw.close.balanced, fun x hx => ?_⟩
  rcases List.mem_append.mp hx with hx | hx
  · obtain ⟨c, hc, hx⟩ := List.mem_flatMap.mp hx
    exact (hw.clauses c hc).shape.2 x hx
  · exact (shape_of_isBlank (hw.close x hx)).2

/-- The clauses of a written header are read, whatever the type-parameter list before them. -/
theorem WellFormed.clausesTail?_eq (hw : w.WellFormed) (typeParameters : Option Text) (pos : Nat)
    (rest : Text) :
    clausesTail? typeParameters pos (w.printClauses ++ '{' :: rest) =
      some { typeParameters
             superTypes := (w.textOf? .superTypes).map Text.compact
             interfaces := (w.textOf? .interfaces).map Text.compact
             brace := pos + Text.byteLength w.printClauses } := by
  obtain ⟨hbalanced, hchars⟩ := hw.shape_printClauses
  have hbrace : beforeBrace? 0 ('{' :: rest) = some [] := rfl
  have hbefore := beforeBrace?_append hchars 0 ('{' :: rest)
  rw [openAngles_of_balanced hbalanced, hbrace, Option.map_some, List.append_nil] at hbefore
  obtain ⟨gap, entries, hsplit, _, hentries⟩ := Clause.split_written hw.clauses hw.close true
  have hlast := Clause.lastText?_written hw.clauses hw.once hentries
  unfold clausesTail?
  rw [hbefore, Option.map_some, printClauses, hsplit]
  simp only [hlast, textOf?]

/-- No bracket opens the clauses. -/
theorem WellFormed.head_printClauses (hw : w.WellFormed) (rest : Text) :
    ∀ c ∈ ((w.printClauses ++ '{' :: rest).dropWhile Text.isBlank).head?, c ≠ '<' := by
  have hfirst : ∃ gap c t, w.printClauses ++ '{' :: rest = gap ++ c :: t ∧ IsGap gap ∧
      Text.isBlank c = false ∧ c ≠ '<' := by
    cases hclauses : w.clauses with
    | nil =>
      exact ⟨w.close, '{', rest, by simp [printClauses, hclauses], hw.close, by decide, by decide⟩
    | cons k clauses =>
      obtain ⟨c, cs, hcs, hc, hopen⟩ := exists_word_eq_cons k.clause
      have hbefore := (hw.clauses k (by simp [hclauses])).before.1
      exact ⟨k.before, c, _, by simp [printClauses, hclauses, WrittenClause.print, hcs]; rfl,
        hbefore, hc, hopen⟩
  obtain ⟨gap, c, t, heq, hgap, hblank, hopen⟩ := hfirst
  rw [heq, dropWhile_gap hgap, List.dropWhile_cons_of_neg (by simp [hblank])]
  simpa using hopen

end WrittenTail

/-- The rest of a header is read back from where the name ends, however it is written: the compact
type-parameter list, the compact text of each clause, and the offset of the brace. Where a character
that no header holds stands after the type-parameter list and before any brace, nothing is read. -/
theorem headerTail_written :
    (∀ (front rest : Text) (w : WrittenTail), w.WellFormed →
      headerTail (front ++ (w.print ++ '{' :: rest)) (Text.byteLength front) =
        .ok (some (w.tail (Text.byteLength front)))) ∧
    ∀ (front lead : Text) (typeParameters : Option Text) (before : Text) (c : Char) (rest : Text),
      IsGap lead → (∀ s ∈ typeParameters, IsParameterList s) → '{' ∉ before →
      c ∈ [';', '(', ')', '=', '}'] →
      (typeParameters = none → ∀ d ∈ ((before ++ c :: rest).dropWhile Text.isBlank).head?,
        d ≠ '<') →
      headerTail (front ++ (lead ++ (typeParameters.getD [] ++ (before ++ c :: rest))))
        (Text.byteLength front) = .ok none := by
  constructor
  · intro front rest w hw
    have htail := tailAfterName?_lead hw.lead hw.typeParameters (fun _ => hw.head_printClauses rest)
      (Text.byteLength front)
    rw [hw.clausesTail?_eq] at htail
    have hprint : w.print ++ '{' :: rest =
        w.lead ++ (w.typeParameters.getD [] ++ (w.printClauses ++ '{' :: rest)) := by
      simp [WrittenTail.print, WrittenTail.printClauses]
    rw [headerTail, Text.suffixAt?_append]
    simp only [hprint, htail]
    simp [WrittenTail.tail, WrittenTail.print, WrittenTail.printClauses, Nat.add_assoc]
  · intro front lead typeParameters before c rest hlead hlist hbrace hc hopen
    have hnone := beforeBrace?_eq_none hbrace hc 0 rest
    rw [headerTail, Text.suffixAt?_append]
    simp only [tailAfterName?_lead hlead hlist hopen, clausesTail?, hnone, Option.map_none]

/-- A box whose clauses stand in the other order, on lines of their own. -/
def boxTail : WrittenTail where
  lead := [' ']
  typeParameters := some "<T extends Number>".toList
  clauses := [⟨"\n    ".toList, .interfaces, " ".toList,
    "Comparable<? extends T>, Cloneable".toList⟩,
    ⟨"\t".toList, .superTypes, "\n".toList, "Base <T []>".toList⟩]
  close := "\n".toList

theorem headerTail_written_boxTail :
    headerTail ("class Box".toList ++ (boxTail.print ++ '\x7b' :: "\x7d".toList))
        (Text.byteLength "class Box".toList) =
      .ok (some (boxTail.tail (Text.byteLength "class Box".toList))) ∧
    headerTail ("Box".toList ++ ([] ++ ([] ++ (" ".toList ++ '(' :: ") \x7b\x7d".toList))))
      (Text.byteLength "Box".toList) = .ok none := by
  have hclauses : ∀ c ∈ boxTail.clauses, (IsGap c.before ∧ c.before ≠ []) ∧
      (IsGap c.after ∧ c.after ≠ []) ∧
      c.text.any (fun x => !Text.isSpace x) = true ∧ Balanced c.text ∧
      (∀ x ∈ c.text, isHeaderChar x = true) ∧
        ¬HasClauseWord c.text := by decide +kernel
  have hlist : IsParameterList "<T extends Number>".toList :=
    ⟨"T extends Number".toList, by decide, by decide +kernel, by decide +kernel⟩
  have hbox : boxTail.WellFormed := by
    refine ⟨by decide, ?_, fun c hc => ?_, by decide, by decide⟩
    · rintro _ ⟨⟩
      exact hlist
    · obtain ⟨hbefore, hafter, hany, hbalanced, hchars, hwords⟩ := hclauses c hc
      have hvisible : ∃ x ∈ c.text, Text.isSpace x = false := by simpa using hany
      exact ⟨hbefore, hafter, hvisible, hbalanced, hchars, hwords⟩
  exact ⟨headerTail_written.1 "class Box".toList "\x7d".toList boxTail hbox,
    headerTail_written.2 "Box".toList [] none " ".toList '(' ") \x7b\x7d".toList
      (by decide) nofun (by decide)
      (by decide) fun _ => by decide +kernel⟩

end Typings.Source
