import Typings.Proofs.Source.TypeTexts
import Typings.Source.Header

/-!
# Reading a printed header

After the name of a printed type come its type parameters, its clauses and the brace, and they are
read as they were printed. Words in angle brackets do not count as clauses, and outside them every
type starts with a name. Main statement: `tailAfterName?_printTail`.
-/

namespace Typings.Source

-- ---------------------------------------------------------------------------
-- Brackets and braces
-- ---------------------------------------------------------------------------

/-- Balanced text before the closing bracket goes by. -/
theorem closeAngle?_append {s : Text} (hs : Balanced s) (hchars : ∀ c ∈ s, c ≠ '{' ∧ c ≠ ';')
    (depth : Nat) (t : Text) :
    closeAngle? depth (s ++ t) = (closeAngle? depth t).map fun (inside, rest) =>
      (s ++ inside, rest) := by
  induction hs generalizing depth t with
  | nil => simp
  | @cons c s hopen hclose hs ih =>
    obtain ⟨hbrace, hsemi⟩ := hchars c (by simp)
    rw [List.cons_append, closeAngle?.eq_def]
    simp only [if_neg hopen, if_neg hclose, hbrace, hsemi, decide_false, Bool.or_self,
      Bool.false_eq_true, if_false, ih fun d hd => hchars d (by simp [hd])]
    simp [Option.map_map, Function.comp_def]
  | @angled s u hs hu ihs ihu =>
    have hs := ihs (fun d hd => hchars d (by simp [hd])) (depth + 1) ('>' :: (u ++ t))
    have hu := ihu (fun d hd => hchars d (by simp [hd])) depth t
    have hopen : closeAngle? depth ('<' :: (s ++ '>' :: (u ++ t))) =
        (closeAngle? (depth + 1) (s ++ '>' :: (u ++ t))).map fun (inside, rest) =>
          ('<' :: inside, rest) := rfl
    have hclose : closeAngle? (depth + 1) ('>' :: (u ++ t)) =
        (closeAngle? depth (u ++ t)).map fun (inside, rest) => ('>' :: inside, rest) := rfl
    rw [List.cons_append, List.append_assoc, List.cons_append, hopen, hs, hclose, hu]
    simp [Option.map_map, Function.comp_def]

/-- How many angle brackets are open after a text, `depth` being open before it. A closing bracket
without an opening one does not count. -/
def openAngles : (depth : Nat) → Text → Nat
  | depth, [] => depth
  | depth, c :: cs =>
    openAngles (if c = '<' then depth + 1 else if c = '>' then depth - 1 else depth) cs

theorem openAngles_append (depth : Nat) (s t : Text) :
    openAngles depth (s ++ t) = openAngles (openAngles depth s) t := by
  induction s generalizing depth with
  | nil => rfl
  | cons c s ih => exact ih _

theorem openAngles_of_balanced {s : Text} (h : Balanced s) (depth : Nat) :
    openAngles depth s = depth := by
  induction h generalizing depth with
  | nil => rfl
  | cons hopen hclose _ ih => rw [openAngles, if_neg hopen, if_neg hclose, ih]
  | angled _ _ ihs iht =>
    have hclose : '>' ≠ '<' := by decide
    rw [openAngles, if_pos rfl, openAngles_append, ihs, openAngles, if_neg hclose, if_pos rfl, iht,
      Nat.add_sub_cancel]

/-- Characters that may stand between the name of a type and the brace of its body. -/
def isHeaderChar (c : Char) : Bool := !(['{', '}', '(', ')', '=', ';'].contains c)

theorem isHeaderChar_of_isTypeChar {c : Char} (h : isTypeChar c = true) :
    isHeaderChar c = true := by
  have hothers : ∀ d ∈ ['{', '}', '(', ')', '=', ';'], isTypeChar d = false := by decide
  simp only [isHeaderChar, Bool.not_eq_true', List.contains_eq_mem, decide_eq_false_iff_not]
  intro hmem
  rw [hothers c hmem] at h
  cases h

/-- The text of a header goes by. -/
theorem beforeBrace?_append {s : Text} (hchars : ∀ c ∈ s, isHeaderChar c = true) (depth : Nat)
    (t : Text) :
    beforeBrace? depth (s ++ t) = (beforeBrace? (openAngles depth s) t).map (s ++ ·) := by
  induction s generalizing depth with
  | nil => simp [openAngles]
  | cons c s ih =>
    have hrest := fun depth => ih (fun d hd => hchars d (by simp [hd])) depth
    have hother : c ≠ '{' ∧ c ≠ '}' ∧ c ≠ '(' ∧ c ≠ ')' ∧ c ≠ '=' ∧ c ≠ ';' := by
      simpa [isHeaderChar] using hchars c (by simp)
    rw [List.cons_append, beforeBrace?, openAngles]
    by_cases hopen : c = '<'
    · simp [hopen, hrest, Option.map_map, Function.comp_def]
    · by_cases hclose : c = '>'
      · simp [hclose, hrest, Option.map_map, Function.comp_def]
      · simp [hopen, hclose, hother, hrest, Option.map_map, Function.comp_def]

-- ---------------------------------------------------------------------------
-- Clauses
-- ---------------------------------------------------------------------------

namespace Clause

/-- Puts a text in front of the text before the first clause. -/
def extendAll (s : Text) (found : Text × List (Clause × Text)) : Text × List (Clause × Text) :=
  (s ++ found.1, found.2)

theorem split_open (depth : Nat) (fresh : Bool) (t : Text) :
    split 0 depth fresh ('<' :: t) = extendAll ['<'] (split 0 (depth + 1) false t) := rfl

theorem split_close (depth : Nat) (fresh : Bool) (t : Text) :
    split 0 depth fresh ('>' :: t) = extendAll ['>'] (split 0 (depth - 1) false t) := rfl

theorem split_cons {c : Char} {depth : Nat} {fresh : Bool} {t : Text} (hopen : c ≠ '<')
    (hclose : c ≠ '>') (hno : depth = 0 → fresh = true → at? (c :: t) = none) :
    split 0 depth fresh (c :: t) = extendAll [c] (split 0 depth (Text.isBlank c) t) := by
  have hnone : (if depth = 0 && fresh then at? (c :: t) else none) = none := by
    split
    · rename_i h
      simp only [Bool.and_eq_true, decide_eq_true_eq] at h
      exact hno h.1 h.2
    · rfl
  rw [split, if_neg hopen, if_neg hclose, hnone]
  rfl

@[simp] theorem extendAll_nil (found : Text × List (Clause × Text)) : extendAll [] found = found :=
  rfl

@[simp] theorem extendAll_extendAll (s t : Text) (found : Text × List (Clause × Text)) :
    extendAll s (extendAll t found) = extendAll (s ++ t) found := by
  simp [extendAll]

/-- Inside brackets no word opens a clause. -/
theorem split_inside {s : Text} (hs : Balanced s) (depth : Nat) (fresh : Bool) (t : Text) :
    ∃ later, split 0 (depth + 1) fresh (s ++ t) = extendAll s (split 0 (depth + 1) later t) := by
  induction hs generalizing depth fresh t with
  | nil => exact ⟨fresh, rfl⟩
  | @cons c s hopen hclose hs ih =>
    obtain ⟨later, hlater⟩ := ih depth (Text.isBlank c) t
    refine ⟨later, ?_⟩
    rw [List.cons_append, split_cons hopen hclose (by simp), hlater, extendAll_extendAll]
    rfl
  | @angled s u hs hu ihs ihu =>
    obtain ⟨inner, hinner⟩ := ihs (depth + 1) false ('>' :: (u ++ t))
    obtain ⟨later, hlater⟩ := ihu depth false t
    refine ⟨later, ?_⟩
    rw [List.cons_append, List.append_assoc, List.cons_append, split_open, hinner, split_close,
      Nat.add_sub_cancel, hlater]
    simp

/-- Text without blanks and brackets goes by. -/
theorem split_solid {s : Text} (hs : ∀ c ∈ s, Text.isBlank c = false ∧ c ≠ '<' ∧ c ≠ '>')
    (t : Text) : split 0 0 false (s ++ t) = extendAll s (split 0 0 false t) := by
  induction s with
  | nil => rfl
  | cons c s ih =>
    obtain ⟨hblank, hopen, hclose⟩ := hs c (by simp)
    rw [List.cons_append, split_cons hopen hclose (by simp), hblank,
      ih fun d hd => hs d (by simp [hd]), extendAll_extendAll]
    rfl

/-- Text in brackets goes by. -/
theorem split_angled {s : Text} (hs : Balanced s) (fresh : Bool) (t : Text) :
    split 0 0 fresh ('<' :: (s ++ '>' :: t)) =
      extendAll ('<' :: (s ++ ['>'])) (split 0 0 false t) := by
  obtain ⟨later, hlater⟩ := split_inside hs 0 false ('>' :: t)
  rw [split_open, hlater, split_close]
  simp

/-- No clause starts with a name. -/
theorem at?_eq_none {s : Text} (hs : StartsWithName s) : at? s = none := by
  have hword : ∀ k : Clause, isName k.word = false ∧ ∀ c ∈ k.word, isBreak c = false := by
    intro k
    cases k <;> decide
  have hblank : ∀ c, Text.isBlank c = true → isBreak c = true := by
    intro c hc
    simp only [Text.isBlank, Bool.or_eq_true, decide_eq_true_eq] at hc
    rcases hc with (((rfl | rfl) | rfl) | rfl) | rfl <;> decide
  refine List.find?_eq_none.mpr fun k _ hk => ?_
  unfold opens at hk
  split at hk
  · rename_i rest hrest
    refine hs.ne_append (hword k).1 (hword k).2 ?_ (Text.afterPrefix?_eq_some_iff.mp hrest)
    intro c hc
    rw [Option.all_eq_true] at hk
    exact hblank c (hk c hc)
  · exact absurd hk (by simp)

/-- A type goes by. -/
theorem split_type {s t : Text} (hs : IsTypeText s) (ht : ∀ c ∈ t.head?, isBreak c = true) :
    split 0 0 true (s ++ t) = extendAll s (split 0 0 false t) := by
  have hno := at?_eq_none (hs.startsWithName.append ht)
  obtain ⟨base, args, n, rfl, hbase, hargs⟩ := hs.exists_parts
  have hname : ∀ c ∈ base, Text.isBlank c = false ∧ c ≠ '<' ∧ c ≠ '>' := by
    intro c hc
    rcases hbase.chars c hc with hc | rfl
    · exact forall_isPlainChar (P := fun c => Text.isBlank c = false ∧ c ≠ '<' ∧ c ≠ '>')
        (by decide) hc
    · decide
  have hpairs : ∀ c ∈ pairs n, Text.isBlank c = false ∧ c ≠ '<' ∧ c ≠ '>' := by
    intro c hc
    have hc : n ≠ 0 ∧ (c = '[' ∨ c = ']') := by simpa [pairs] using hc
    rcases hc.2 with rfl | rfl <;> decide
  have hargs : split 0 0 false (args ++ (pairs n ++ t)) =
      extendAll args (split 0 0 false (pairs n ++ t)) := by
    rcases hargs with rfl | ⟨inner, rfl, hinner⟩
    · rfl
    · simpa using split_angled hinner false (pairs n ++ t)
  obtain ⟨c, cs, rfl, hc⟩ := hbase.head
  obtain ⟨hblank, hopen, hclose⟩ := hname c (by simp)
  simp only [List.cons_append, List.append_assoc] at hno ⊢
  rw [split_cons hopen hclose fun _ _ => hno, hblank,
    split_solid (fun d hd => hname d (by simp [hd])), hargs, split_solid hpairs]
  simp

/-- A list of types goes by. -/
theorem split_typeList {s t : Text} (hs : IsTypeList s) (ht : ∀ c ∈ t.head?, isBreak c = true) :
    split 0 0 true (s ++ t) = extendAll s (split 0 0 false t) := by
  obtain ⟨types, hne, htypes, rfl⟩ := hs
  induction types with
  | nil => exact absurd rfl hne
  | cons p ps ih =>
    have hp := htypes p (by simp)
    cases ps with
    | nil => simpa using split_type hp ht
    | cons q qs =>
      have hrest := ih (by simp) fun r hr => htypes r (by simp [hr])
      have hcomma : ∀ u, split 0 0 false (',' :: ' ' :: u) =
          extendAll [',', ' '] (split 0 0 true u) := by
        intro u
        rw [split_cons (by decide) (by decide) (by simp),
          split_cons (by decide) (by decide) (by simp [Text.isBlank])]
        rfl
      have hfirst := @split_type p (',' :: ' ' :: ([',', ' '].intercalate (q :: qs) ++ t)) hp (by
        have : isBreak ',' = true := by decide
        simpa using this)
      rw [hcomma, hrest] at hfirst
      simpa using hfirst

theorem split_skip (n depth : Nat) (s : Text) :
    split n depth false s = split 0 depth false (s.drop n) := by
  induction n generalizing s with
  | zero => rfl
  | succ n ih =>
    cases s with
    | nil => rfl
    | cons c cs => exact ih cs

/-- The word of a clause opens it before a blank. -/
theorem split_clause (k : Clause) {c : Char} (hc : Text.isBlank c = true) (t : Text) :
    split 0 0 true (k.word ++ c :: t) =
      ([], (k, c :: (split 0 0 true t).1) :: (split 0 0 true t).2) := by
  have hblank : split 0 0 false (c :: t) = extendAll [c] (split 0 0 true t) := by
    have hangles : ∀ d ∈ ['<', '>'], Text.isBlank d = false := by decide
    rw [split_cons _ _ (by simp), hc]
    · rintro rfl
      simp [hangles] at hc
    · rintro rfl
      simp [hangles] at hc
  obtain ⟨d, w, hword, hopen, hclose⟩ : ∃ d w, k.word = d :: w ∧ d ≠ '<' ∧ d ≠ '>' := by
    cases k with
    | superTypes => exact ⟨'e', "xtends".toList, by decide⟩
    | interfaces => exact ⟨'i', "mplements".toList, by decide⟩
    | permitted => exact ⟨'p', "ermits".toList, by decide⟩
  have hat : at? (k.word ++ c :: t) = some k := by
    have hopens : k.opens (k.word ++ c :: t) = true := by
      rw [opens, Text.afterPrefix?_eq_some_iff.mpr rfl]
      simpa using hc
    have hothers : ∀ j : Clause, j ≠ k → j.opens (k.word ++ c :: t) = false := by
      intro j hj
      cases j <;> cases k <;> first | exact absurd rfl hj | rfl
    cases k <;> simp only [at?, List.find?, hopens, hothers, ne_eq, reduceCtorEq, not_false_eq_true]
  rw [hword, List.cons_append] at hat ⊢
  rw [split, if_neg hopen, if_neg hclose]
  simp only [decide_true, Bool.and_true, if_true, hat, hword, List.length_cons,
    Nat.add_sub_cancel, split_skip, List.drop_left, hblank]
  rfl

/-- A clause with spaces after its word and at its end, when there is one. -/
def print (k : Clause) (text : Option String) : Text :=
  match text with
  | some s => k.word ++ ' ' :: (s.toList ++ [' '])
  | none => []

/-- The clauses that are read back from a printed clause. -/
def printed (k : Clause) (text : Option String) : List (Clause × Text) :=
  match text with
  | some s => [(k, ' ' :: (s.toList ++ [' ']))]
  | none => []

/-- A printed clause is read back. -/
theorem split_print (k : Clause) {text : Option String} (htext : ∀ s ∈ text, IsTypeList s.toList)
    {t : Text} (ht : (split 0 0 true t).1 = []) :
    split 0 0 true (k.print text ++ t) = ([], k.printed text ++ (split 0 0 true t).2) := by
  cases text with
  | none => exact Prod.ext ht rfl
  | some s =>
    have hs := htext s rfl
    have hlist := @split_typeList s.toList (' ' :: t) hs (by
      have : isBreak ' ' = true := by decide
      simpa using this)
    have hspace : split 0 0 false (' ' :: t) = extendAll [' '] (split 0 0 true t) :=
      split_cons (by decide) (by decide) (by simp)
    have hclause := split_clause k (c := ' ') (by decide) (s.toList ++ ' ' :: t)
    rw [hlist, hspace] at hclause
    simpa [print, printed, extendAll, ht] using hclause

theorem lastText?_printed {k : Clause} {text : Option String}
    (htext : ∀ s ∈ text, IsTypeList s.toList) (before after : List (Clause × Text))
    (hbefore : ∀ entry ∈ before, entry.1 ≠ k) (hafter : ∀ entry ∈ after, entry.1 ≠ k) :
    k.lastText? (before ++ (k.printed text ++ after)) = text.map String.toList := by
  have hfilter : ∀ {entries : List (Clause × Text)}, (∀ entry ∈ entries, entry.1 ≠ k) →
      entries.filter (·.1 = k) = [] := by
    intro entries hentries
    simpa [List.filter_eq_nil_iff] using hentries
  unfold lastText?
  rw [List.filter_append, List.filter_append, hfilter hbefore, hfilter hafter]
  cases text with
  | none => rfl
  | some s =>
    have hentry := (htext s rfl).entry
    have hne : s.toList ≠ [] := by
      obtain ⟨c, cs, hcs, _⟩ := hentry.head
      simp [hcs]
    simp [printed, hentry.isCompact.compact_padded, hne]

theorem shape_print (k : Clause) {text : Option String} (htext : ∀ s ∈ text, IsTypeList s.toList) :
    (∀ c ∈ k.print text, isTypeChar c = true) ∧ Balanced (k.print text) := by
  cases text with
  | none => exact ⟨by simp [print], .nil⟩
  | some s =>
    have hentry := (htext s rfl).entry
    have hword : (∀ c ∈ k.word, isTypeChar c = true) ∧ ∀ c ∈ k.word, c ≠ '<' ∧ c ≠ '>' := by
      cases k <;> decide
    have hspace : isTypeChar ' ' = true := by decide
    refine ⟨?_, (Balanced.of_forall hword.2).append (.cons (by decide) (by decide)
      (hentry.balanced.append (.of_forall (by decide))))⟩
    intro c hc
    simp only [print, List.mem_append, List.mem_cons, List.not_mem_nil, or_false] at hc
    rcases hc with hc | rfl | hc | rfl
    · exact hword.1 c hc
    · exact hspace
    · exact hentry.chars c hc
    · exact hspace

end Clause

end Typings.Source

namespace Typings.TypeOutline

open Source

/-- The clauses of a printed header. -/
def printClauses (o : TypeOutline) : Text :=
  Clause.superTypes.print o.superTypes ++ Clause.interfaces.print o.interfaces

theorem printTail_eq (o : TypeOutline) :
    o.printTail = clauseText "" o.typeParameters ++ ' ' :: o.printClauses := by
  have hsuper : " extends ".toList = ' ' :: (Clause.superTypes.word ++ [' ']) := by decide
  have hinterfaces : " implements ".toList = ' ' :: (Clause.interfaces.word ++ [' ']) := by decide
  unfold printTail printClauses
  cases o.superTypes <;> cases o.interfaces <;>
    simp [clauseText, Clause.print, hsuper, hinterfaces]

/-- The header tail that a type outline stands for, its brace at an offset. -/
def headerTail (o : TypeOutline) (brace : Nat) : HeaderTail where
  typeParameters := o.typeParameters.map String.toList
  superTypes := o.superTypes.map String.toList
  interfaces := o.interfaces.map String.toList
  brace := brace

/-- The clauses of a header are read as they were printed, with or without a space before them. -/
theorem clausesTail?_printClauses {o : TypeOutline} (ho : o.Printable) {lead : Text}
    (hlead : lead = [] ∨ lead = [' ']) (pos : Nat) (rest : Text) :
    clausesTail? (o.typeParameters.map String.toList) pos
      (lead ++ (o.printClauses ++ '{' :: rest)) =
      some (o.headerTail (pos + Text.byteLength (lead ++ o.printClauses))) := by
  obtain ⟨hsuperChars, hsuperBalanced⟩ := Clause.superTypes.shape_print ho.superTypes
  obtain ⟨hinterChars, hinterBalanced⟩ := Clause.interfaces.shape_print ho.interfaces
  have hbefore : beforeBrace? 0 (lead ++ (o.printClauses ++ '{' :: rest)) =
      some (lead ++ o.printClauses) := by
    have hbalanced : Balanced (lead ++ o.printClauses) := by
      refine Balanced.append ?_ (hsuperBalanced.append hinterBalanced)
      rcases hlead with rfl | rfl
      · exact .nil
      · exact .of_forall (by decide)
    have hchars : ∀ c ∈ lead ++ o.printClauses, isTypeChar c = true := by
      intro c hc
      rcases List.mem_append.mp hc with hc | hc
      · rcases hlead with rfl | rfl
        · simp at hc
        · obtain rfl : c = ' ' := by simpa using hc
          decide
      · rcases List.mem_append.mp hc with hc | hc
        · exact hsuperChars c hc
        · exact hinterChars c hc
    have h := beforeBrace?_append (fun c hc => isHeaderChar_of_isTypeChar (hchars c hc)) 0
      ('{' :: rest)
    have hbrace : beforeBrace? 0 ('{' :: rest) = some [] := rfl
    rw [openAngles_of_balanced hbalanced, hbrace, Option.map_some, List.append_nil,
      List.append_assoc] at h
    exact h
  have hsplit : (Clause.split 0 0 true (lead ++ o.printClauses)).2 =
      Clause.superTypes.printed o.superTypes ++ Clause.interfaces.printed o.interfaces := by
    have hnil : Clause.split 0 0 true [] = ([], []) := rfl
    have hinter := Clause.split_print .interfaces ho.interfaces (t := []) rfl
    have hsuper := Clause.split_print .superTypes ho.superTypes
      (t := Clause.interfaces.print o.interfaces)
    rw [List.append_nil] at hinter
    rw [hinter] at hsuper
    have hclauses := hsuper rfl
    rcases hlead with rfl | rfl
    · simp [printClauses, hclauses, hnil]
    · rw [List.singleton_append, Clause.split_cons (by decide) (by decide) fun _ _ => rfl]
      have hblank : Text.isBlank ' ' = true := by decide
      simp [printClauses, hclauses, hnil, Clause.extendAll, hblank]
  have hother : ∀ {k l : Clause} {text : Option String}, k ≠ l → ∀ entry ∈ k.printed text,
      entry.1 ≠ l := by
    intro k l text hkl entry hentry
    cases text with
    | none => simp [Clause.printed] at hentry
    | some s =>
      obtain rfl : entry = _ := by simpa [Clause.printed] using hentry
      exact hkl
  have hsuper := Clause.lastText?_printed (k := .superTypes) ho.superTypes []
    (Clause.interfaces.printed o.interfaces) (by simp) (hother (by decide))
  have hinter := Clause.lastText?_printed (k := .interfaces) ho.interfaces
    (Clause.superTypes.printed o.superTypes) [] (hother (by decide)) (by simp)
  rw [List.append_nil] at hinter
  rw [List.nil_append] at hsuper
  unfold clausesTail?
  rw [hbefore, Option.map_some]
  simp only [hsplit, hsuper, hinter]
  rfl

/-- After the name of a type without type parameters comes a space, then a clause or the brace. -/
theorem exists_printClauses_append (o : TypeOutline) (rest : Text) :
    ∃ c cs, o.printClauses ++ '{' :: rest = c :: cs ∧ Text.isBlank c = false ∧ c ≠ '<' := by
  have hword : ∀ k : Clause, ∃ c cs, k.word = c :: cs ∧ Text.isBlank c = false ∧ c ≠ '<' := by
    intro k
    cases k with
    | superTypes => exact ⟨'e', "xtends".toList, by decide⟩
    | interfaces => exact ⟨'i', "mplements".toList, by decide⟩
    | permitted => exact ⟨'p', "ermits".toList, by decide⟩
  obtain ⟨c, cs, hc, hsuper⟩ := hword .superTypes
  obtain ⟨d, ds, hd, hinter⟩ := hword .interfaces
  unfold printClauses
  cases o.superTypes with
  | some s => exact ⟨c, _, by simp only [Clause.print, hc, List.cons_append]; rfl, hsuper⟩
  | none =>
    cases o.interfaces with
    | some s => exact ⟨d, _, by simp only [Clause.print, hd, List.cons_append]; rfl, hinter⟩
    | none => exact ⟨'{', rest, rfl, by decide⟩

/-- The rest of a printed header is read as it was printed. -/
theorem tailAfterName?_printTail {o : TypeOutline} (ho : o.Printable) (start : Nat) (rest : Text) :
    tailAfterName? start (o.printTail ++ '{' :: rest) =
      some (o.headerTail (start + Text.byteLength o.printTail)) := by
  have hblank : Text.isBlank ' ' = true := by decide
  have hangle : Text.isBlank '<' = false := by decide
  rw [printTail_eq]
  cases htp : o.typeParameters with
  | none =>
    have hclauses := clausesTail?_printClauses ho (.inl rfl) (start + ' '.utf8Size) rest
    obtain ⟨c, cs, hcs, hc, hopen⟩ := o.exists_printClauses_append rest
    rw [htp, List.nil_append, List.nil_append, hcs] at hclauses
    simp only [clauseText, List.nil_append, List.cons_append, tailAfterName?, hcs,
      List.takeWhile_cons, List.dropWhile_cons, hblank, hc, if_true, Bool.false_eq_true, if_false]
    split
    · rename_i heq
      exact absurd (List.cons.inj heq).1 hopen
    · refine hclauses.trans ?_
      simp [Nat.add_assoc]
  | some s =>
    obtain ⟨inner, hs, hbalanced, hshape⟩ := (ho.typeParameters s htp).exists_inner
    have hchars : ∀ c ∈ inner, isTypeChar c = true := fun c hc => hshape.chars c (by simp [hs, hc])
    have hcompact := (ho.typeParameters s htp).isCompact.compact_eq
    have hclose : closeAngle? 0 (inner ++ '>' :: ' ' :: (o.printClauses ++ '{' :: rest)) =
        some (inner ++ ['>'], ' ' :: (o.printClauses ++ '{' :: rest)) := by
      rw [closeAngle?_append hbalanced fun c hc =>
        ⟨ne_of_isTypeChar (hchars c hc) (by decide), ne_of_isTypeChar (hchars c hc) (by decide)⟩]
      rfl
    have hclauses := clausesTail?_printClauses ho (.inr rfl)
      (start + Text.byteLength ('<' :: (inner ++ ['>']))) rest
    rw [htp, Option.map_some, List.singleton_append] at hclauses
    rw [hs] at hcompact hclauses
    simp only [clauseText, String.toList_empty, List.nil_append, hs, List.cons_append,
      List.append_assoc, tailAfterName?, List.takeWhile_cons, List.dropWhile_cons, hangle,
      Bool.false_eq_true, if_false, hclose, Text.byteLength_nil, Nat.add_zero, hcompact]
    refine hclauses.trans ?_
    simp [Nat.add_assoc]

end Typings.TypeOutline
