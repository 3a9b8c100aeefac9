import Mathlib.Data.List.TakeWhile
import Typings.Text.Split

/-!
# Splitting a joined list

Splitting outside brackets undoes joining with a separator. A piece may hold the separator inside
brackets, as long as every bracket of the piece is closed in it. Main statement:
`splitTopLevel_intercalate`.
-/

namespace Typings.Text

-- ---------------------------------------------------------------------------
-- Trimming
-- ---------------------------------------------------------------------------

/-- A text that is not empty and has no white space at its ends. -/
structure Trimmed (s : Text) : Prop where
  head : ∃ c cs, s = c :: cs ∧ isSpace c = false
  last : ∃ cs c, s = cs ++ [c] ∧ isSpace c = false

namespace Trimmed

variable {s t : Text}

theorem ne_nil (h : Trimmed s) : s ≠ [] := by
  obtain ⟨c, cs, rfl, _⟩ := h.head
  simp

/-- A text whose characters are no white space is trimmed. -/
theorem of_forall (hne : s ≠ []) (h : ∀ c ∈ s, isSpace c = false) : Trimmed s := by
  refine ⟨?_, ?_⟩
  · obtain ⟨c, cs, rfl⟩ := List.exists_cons_of_ne_nil hne
    exact ⟨c, cs, rfl, h c (by simp)⟩
  · refine ⟨s.dropLast, s.getLast hne, (List.dropLast_concat_getLast hne).symm, ?_⟩
    exact h _ (List.getLast_mem hne)

/-- The ends of a concatenation are those of its outer parts. -/
theorem append (hs : Trimmed s) (ht : Trimmed t) (m : Text) : Trimmed (s ++ m ++ t) := by
  obtain ⟨c, cs, rfl, hc⟩ := hs.head
  obtain ⟨ds, d, rfl, hd⟩ := ht.last
  exact ⟨⟨c, cs ++ m ++ (ds ++ [d]), by simp, hc⟩, ⟨c :: cs ++ m ++ ds, d, by simp, hd⟩⟩

end Trimmed

/-- Trimming the end drops the white space there and nothing else. -/
theorem trimEnd_append {s sp : Text} (hs : ∃ cs c, s = cs ++ [c] ∧ isSpace c = false)
    (hsp : ∀ c ∈ sp, isSpace c = true) : trimEnd (s ++ sp) = s := by
  obtain ⟨cs, c, rfl, hc⟩ := hs
  have hblank : ∀ d ∈ sp.reverse, isSpace d = true := fun d hd => hsp d (List.mem_reverse.mp hd)
  rw [trimEnd, List.reverse_append, List.dropWhile_append_of_pos hblank]
  simp [hc]

theorem trimEnd_prefix (s : Text) : trimEnd s <+: s := by
  rw [trimEnd, ← List.reverse_suffix, List.reverse_reverse]
  exact List.dropWhile_suffix isSpace

/-- A trimmed start stays. -/
theorem Trimmed.trim_append_eq {s : Text} (h : Trimmed s) (t : Text) :
    trim (s ++ t) = s ++ trimEnd t := by
  have hstart : trimStart (s ++ t) = s ++ t := by
    obtain ⟨c, cs, rfl, hc⟩ := h.head
    simp [trimStart, hc]
  have hkeep : s.reverse.dropWhile isSpace = s.reverse := by
    obtain ⟨cs, c, rfl, hc⟩ := h.last
    simp [hc]
  rw [trim, hstart, trimEnd, trimEnd, List.reverse_append, List.dropWhile_append, hkeep]
  split
  · rename_i hempty
    simp [List.isEmpty_iff.1 hempty]
  · simp

theorem Trimmed.trim_append {s sp : Text} (h : Trimmed s) (hsp : ∀ c ∈ sp, isSpace c = true) :
    trim (s ++ sp) = s := by
  have hstart : trimStart (s ++ sp) = s ++ sp := by
    obtain ⟨c, cs, rfl, hc⟩ := h.head
    simp [trimStart, hc]
  rw [trim, hstart, trimEnd_append h.last hsp]

theorem Trimmed.trim_eq {s : Text} (h : Trimmed s) : trim s = s := by
  have hnone : ∀ c ∈ ([] : Text), isSpace c = true := nofun
  simpa using h.trim_append hnone

theorem trim_of_isSpace {s : Text} (h : ∀ c ∈ s, isSpace c = true) : trim s = [] := by
  rw [trim, trimStart, ← List.append_nil s, List.dropWhile_append_of_pos h]
  rfl

theorem trim_append_of_isSpace {sp : Text} (hsp : ∀ c ∈ sp, isSpace c = true) (s : Text) :
    trim (sp ++ s) = trim s := by
  have hdrop : (sp ++ s).dropWhile isSpace = s.dropWhile isSpace := List.dropWhile_append_of_pos hsp
  rw [trim, trim, trimStart, trimStart, hdrop]

theorem trim_space_cons (s : Text) : trim (' ' :: s) = trim s := by
  have hsp : ∀ c ∈ [' '], isSpace c = true := by decide
  exact trim_append_of_isSpace hsp s

theorem trimStart_eq_nil_or (s : Text) :
    trimStart s = [] ∨ ∃ c cs, trimStart s = c :: cs ∧ isSpace c = false := by
  unfold trimStart
  cases h : s.dropWhile isSpace with
  | nil => exact .inl rfl
  | cons c cs =>
    have hhead := List.head?_dropWhile_not isSpace s
    rw [h] at hhead
    exact .inr ⟨c, cs, rfl, by simpa using hhead⟩

/-- What trimming takes away is white space. -/
theorem eq_append_trim_append (s : Text) :
    ∃ before after, s = before ++ trim s ++ after ∧ (∀ c ∈ before, isSpace c = true) ∧
      ∀ c ∈ after, isSpace c = true := by
  refine ⟨s.takeWhile isSpace, ((trimStart s).reverse.takeWhile isSpace).reverse, ?_, ?_, ?_⟩
  · have hend : trim s ++ ((trimStart s).reverse.takeWhile isSpace).reverse = trimStart s := by
      rw [trim, trimEnd, ← List.reverse_append, List.takeWhile_append_dropWhile,
        List.reverse_reverse]
    rw [List.append_assoc, hend]
    exact List.takeWhile_append_dropWhile.symm
  · exact fun c hc => List.mem_takeWhile_imp hc
  · exact fun c hc => List.mem_takeWhile_imp (List.mem_reverse.mp hc)

theorem trim_infix_self (s : Text) : trim s <:+: s := by
  obtain ⟨before, after, heq, -, -⟩ := eq_append_trim_append s
  exact ⟨before, after, heq.symm⟩

theorem mem_of_mem_trim {s : Text} {c : Char} (h : c ∈ trim s) : c ∈ s :=
  (trim_infix_self s).subset h

theorem trim_eq_nil_or_trimmed (s : Text) : trim s = [] ∨ Trimmed (trim s) := by
  rcases trimStart_eq_nil_or s with h | ⟨c, cs, h, hc⟩
  · left
    rw [trim, h]
    rfl
  · right
    have hend : ∃ ds d, trim s = ds ++ [d] ∧ isSpace d = false := by
      rcases trimStart_eq_nil_or (trimStart s).reverse with hnil | ⟨d, ds, hd, hspace⟩
      · have hmem := List.dropWhile_eq_nil_iff.mp hnil c (by simp [h])
        exact absurd hmem (by simp [hc])
      · refine ⟨ds.reverse, d, ?_, hspace⟩
        rw [trim, trimEnd, show (trimStart s).reverse.dropWhile isSpace = d :: ds from hd,
          List.reverse_cons]
    refine ⟨?_, hend⟩
    obtain ⟨ds, d, hds, _⟩ := hend
    have hprefix : trim s <+: c :: cs := h ▸ trimEnd_prefix (trimStart s)
    obtain ⟨e, es, hes⟩ := List.exists_cons_of_ne_nil (show trim s ≠ [] by simp [hds])
    rw [hes, List.cons_prefix_cons] at hprefix
    exact ⟨e, es, hes, hprefix.1 ▸ hc⟩

theorem trim_trim (s : Text) : trim (trim s) = trim s := by
  rcases trim_eq_nil_or_trimmed s with h | h
  · rw [h]
    rfl
  · exact h.trim_eq

/-- A word without white space that a text ends with stays when the text is trimmed. -/
theorem suffix_trim {w s : Text} (hw : Trimmed w) (h : w <:+ s) : w <:+ trim s := by
  obtain ⟨u, rfl⟩ := h
  obtain ⟨c, cs, hwc, hc⟩ := hw.head
  obtain ⟨ds, d, hwd, hd⟩ := hw.last
  have hstart : w <:+ trimStart (u ++ w) := by
    rw [trimStart, List.dropWhile_append]
    split
    · simp [hwc, hc]
    · exact List.suffix_append _ _
  obtain ⟨v, hv⟩ := hstart
  have hend : trimEnd (v ++ w) = v ++ w := by
    have hnone : ∀ c ∈ ([] : Text), isSpace c = true := nofun
    have hlast : ∃ es e, v ++ w = es ++ [e] ∧ isSpace e = false :=
      ⟨v ++ ds, d, by rw [hwd, List.append_assoc], hd⟩
    simpa using trimEnd_append hlast hnone
  rw [trim, ← hv, hend]
  exact List.suffix_append v w

-- ---------------------------------------------------------------------------
-- Joined texts
-- ---------------------------------------------------------------------------

theorem mem_intercalate {sep : Text} {pieces : List Text} {c : Char}
    (h : c ∈ sep.intercalate pieces) : (∃ p ∈ pieces, c ∈ p) ∨ c ∈ sep := by
  induction pieces with
  | nil => simp at h
  | cons p ps ih =>
    cases ps with
    | nil => exact .inl ⟨p, by simp, by simpa using h⟩
    | cons q qs =>
      rw [List.intercalate_cons_cons, List.mem_append, List.mem_append] at h
      rcases h with (hp | hsep) | hrest
      · exact .inl ⟨p, by simp, hp⟩
      · exact .inr hsep
      · rcases ih hrest with ⟨r, hr, hcr⟩ | hsep
        · exact .inl ⟨r, List.mem_cons_of_mem p hr, hcr⟩
        · exact .inr hsep

theorem mem_intercalate_of_mem (sep : Text) {pieces : List Text} {p : Text} (hp : p ∈ pieces)
    {c : Char} (hc : c ∈ p) : c ∈ sep.intercalate pieces := by
  induction pieces with
  | nil => simp at hp
  | cons q qs ih =>
    cases qs with
    | nil =>
      obtain rfl : p = q := by simpa using hp
      simpa using hc
    | cons r rs =>
      rw [List.intercalate_cons_cons, List.mem_append, List.mem_append]
      rcases List.mem_cons.1 hp with rfl | hp
      · exact .inl (.inl hc)
      · exact .inr (ih hp)

theorem mem_of_mem_splitOn {sep : Char} {s p : Text} (hp : p ∈ s.splitOn sep) {c : Char}
    (hc : c ∈ p) : c ∈ s := by
  have hjoined : c ∈ [sep].intercalate (s.splitOn sep) := mem_intercalate_of_mem [sep] hp hc
  rwa [List.intercalate_splitOn] at hjoined

theorem eq_append_of_splitFirst? {sep : Char} {s before after : Text}
    (h : splitFirst? sep s = some (before, after)) : s = before ++ sep :: after := by
  induction s generalizing before with
  | nil => cases h
  | cons c s ih =>
    rw [splitFirst?] at h
    split at h
    · rename_i hc
      cases h
      rw [hc, List.nil_append]
    · obtain ⟨⟨first, rest⟩, hrest, heq⟩ := Option.map_eq_some_iff.1 h
      cases heq
      rw [ih hrest, List.cons_append]

theorem eq_append_of_splitLast? {sep : Char} {s before after : Text}
    (h : splitLast? sep s = some (before, after)) : s = before ++ sep :: after := by
  obtain ⟨⟨first, rest⟩, hfirst, heq⟩ := Option.map_eq_some_iff.1 h
  cases heq
  simpa using congrArg List.reverse (eq_append_of_splitFirst? hfirst)

theorem intercalate_append {sep : Text} {pieces more : List Text} (hpieces : pieces ≠ [])
    (hmore : more ≠ []) :
    sep.intercalate (pieces ++ more) = sep.intercalate pieces ++ sep ++ sep.intercalate more := by
  induction pieces with
  | nil => exact absurd rfl hpieces
  | cons p pieces ih =>
    cases pieces with
    | nil => simp [List.intercalate_cons_of_ne_nil hmore]
    | cons q pieces =>
      rw [List.cons_append, List.intercalate_cons_of_ne_nil (by simp), ih (by simp),
        List.intercalate_cons_cons]
      simp

/-- A joined text ends with one of its pieces. -/
theorem exists_intercalate_eq_append (sep : Text) {pieces : List Text} (hne : pieces ≠ []) :
    ∃ before, ∃ p ∈ pieces, sep.intercalate pieces = before ++ p := by
  induction pieces with
  | nil => exact absurd rfl hne
  | cons p ps ih =>
    cases ps with
    | nil => exact ⟨[], p, by simp, by simp⟩
    | cons q qs =>
      obtain ⟨before, r, hr, hjoin⟩ := ih (by simp)
      refine ⟨p ++ sep ++ before, r, List.mem_cons_of_mem p hr, ?_⟩
      simp only [List.intercalate_cons_cons, hjoin, List.append_assoc]

-- ---------------------------------------------------------------------------
-- Closed pieces
-- ---------------------------------------------------------------------------

/-- How many brackets are open after a text, `depth` being open before it; none when it closes a
bracket that is not open, or holds the separator outside brackets. -/
def openAfter (sep : Char) : (depth : Nat) → Text → Option Nat
  | depth, [] => some depth
  | depth, c :: cs =>
    if isOpening c then openAfter sep (depth + 1) cs
    else if isClosing c then
      match depth with
      | 0 => none
      | outer + 1 => openAfter sep outer cs
    else if c = sep && depth = 0 then none
    else openAfter sep depth cs

/-- A piece that splitting at the separator leaves whole. -/
def Closed (sep : Char) (s : Text) : Prop := openAfter sep 0 s = some 0

instance (sep : Char) (s : Text) : Decidable (Closed sep s) :=
  inferInstanceAs (Decidable (_ = _))

theorem openAfter_append (sep : Char) (depth : Nat) (s t : Text) :
    openAfter sep depth (s ++ t) = (openAfter sep depth s).bind (openAfter sep · t) := by
  induction s generalizing depth with
  | nil => rfl
  | cons c cs ih =>
    simp only [List.cons_append, openAfter]
    split
    · exact ih _
    · split
      · cases depth with
        | zero => rfl
        | succ outer => exact ih outer
      · split
        · rfl
        · exact ih _

/-- Brackets that are open further out make no difference, and hide separators. -/
theorem openAfter_add {sep : Char} {depth final : Nat} {s : Text} (outer : Nat)
    (h : openAfter sep depth s = some final) :
    openAfter sep (depth + outer) s = some (final + outer) := by
  induction s generalizing depth with
  | nil =>
    simp only [openAfter, Option.some.injEq] at h ⊢
    omega
  | cons c cs ih =>
    simp only [openAfter] at h ⊢
    split at h
    · rename_i hopen
      rw [if_pos hopen, Nat.add_right_comm]
      exact ih h
    · rename_i hopen
      rw [if_neg hopen]
      split at h
      · rename_i hclose
        rw [if_pos hclose]
        cases depth with
        | zero => simp at h
        | succ d =>
          rw [Nat.add_right_comm]
          exact ih h
      · rename_i hclose
        rw [if_neg hclose]
        split at h
        · simp at h
        · rename_i hsep
          rw [if_neg fun hs => hsep ?_]
          · exact ih h
          · simp only [Bool.and_eq_true, decide_eq_true_eq] at hs ⊢
            exact ⟨hs.1, by omega⟩

namespace Closed

variable {sep : Char} {s t : Text}

theorem append (hs : Closed sep s) (ht : Closed sep t) : Closed sep (s ++ t) := by
  rw [Closed, openAfter_append, hs]
  exact ht

/-- A closed text leaves the brackets around it open. -/
theorem openAfter_eq (h : Closed sep s) (depth : Nat) : openAfter sep depth s = some depth := by
  simpa using openAfter_add depth h

end Closed

/-- A text that holds neither brackets nor the separator is closed. -/
theorem closed_of_forall {sep : Char} {s : Text}
    (h : ∀ c ∈ s, isOpening c = false ∧ isClosing c = false ∧ c ≠ sep) : Closed sep s := by
  induction s with
  | nil => rfl
  | cons c cs ih =>
    obtain ⟨ho, hc, hs⟩ := h c (by simp)
    have hcs : Closed sep cs := ih fun d hd => h d (by simp [hd])
    simpa [Closed, openAfter, ho, hc, hs] using hcs

/-- White space is no bracket. -/
theorem not_bracket_of_isSpace {c : Char} (h : isSpace c = true) :
    isOpening c = false ∧ isClosing c = false := by
  have hne : ∀ {d : Char}, isSpace d = false → c ≠ d := by
    rintro d hd rfl
    rw [h] at hd
    cases hd
  constructor
  · simp only [isOpening, Bool.or_eq_false_iff, decide_eq_false_iff_not]
    exact ⟨⟨hne (by decide), hne (by decide)⟩, hne (by decide)⟩
  · simp only [isClosing, Bool.or_eq_false_iff, decide_eq_false_iff_not]
    exact ⟨⟨hne (by decide), hne (by decide)⟩, hne (by decide)⟩

/-- White space is closed. -/
theorem closed_of_isSpace {sep : Char} (hsep : isSpace sep = false) {sp : Text}
    (hsp : ∀ c ∈ sp, isSpace c = true) : Closed sep sp := by
  refine closed_of_forall fun c hc => ?_
  obtain ⟨hopen, hclose⟩ := not_bracket_of_isSpace (hsp c hc)
  refine ⟨hopen, hclose, ?_⟩
  rintro rfl
  rw [hsp c hc] at hsep
  cases hsep

/-- Inside brackets the separators of a joined list do no harm. -/
theorem openAfter_intercalate {sep : Char} (hopen : isOpening sep = false)
    (hclose : isClosing sep = false) {sp : Text} (hsp : Closed sep sp) {pieces : List Text}
    (h : ∀ p ∈ pieces, Closed sep p) (depth : Nat) :
    openAfter sep (depth + 1) ((sep :: sp).intercalate pieces) = some (depth + 1) := by
  have hsep : openAfter sep (depth + 1) (sep :: sp) = some (depth + 1) := by
    simpa [openAfter, hopen, hclose] using hsp.openAfter_eq (depth + 1)
  induction pieces with
  | nil => rfl
  | cons p ps ih =>
    cases ps with
    | nil => simpa using (h p (by simp)).openAfter_eq (depth + 1)
    | cons q qs =>
      rw [List.intercalate_cons_cons, openAfter_append, openAfter_append,
        (h p (by simp)).openAfter_eq, Option.bind_some, hsep, Option.bind_some]
      exact ih fun r hr => h r (List.mem_cons_of_mem p hr)

/-- Angle brackets around a joined list close it. -/
theorem closed_angled {sp : Text} (hsp : Closed ',' sp) {pieces : List Text}
    (h : ∀ p ∈ pieces, Closed ',' p) :
    Closed ',' ('<' :: ((',' :: sp).intercalate pieces ++ ['>'])) := by
  have hinner : openAfter ',' 1 ((',' :: sp).intercalate pieces) = some 1 :=
    openAfter_intercalate (by decide) (by decide) hsp h 0
  show openAfter ',' 1 _ = some 0
  rw [openAfter_append, hinner]
  rfl

-- ---------------------------------------------------------------------------
-- Splitting
-- ---------------------------------------------------------------------------

/-- The number of brackets that are open after a character. A closing bracket without an opening one
is ignored. -/
def stepDepth (depth : Nat) (c : Char) : Nat :=
  if isOpening c then depth + 1 else if isClosing c then depth - 1 else depth

/-- Whether a text is split at a character, `depth` brackets being open before it. -/
structure IsCut (sep : Char) (depth : Nat) (c : Char) : Prop where
  not_opening : isOpening c = false
  not_closing : isClosing c = false
  eq_sep : c = sep
  outside : depth = 0

theorem IsCut.stepDepth {sep c : Char} {depth : Nat} (h : IsCut sep depth c) :
    stepDepth depth c = 0 := by
  simp [Text.stepDepth, h.not_opening, h.not_closing, h.outside]

theorem splitOutside_cons_of_isCut {sep c : Char} {depth : Nat} (h : IsCut sep depth c)
    (s : Text) :
    splitOutside sep depth (c :: s) = [] :: splitOutside sep 0 s := by
  obtain ⟨hopen, hclose, rfl, rfl⟩ := h
  simp [splitOutside, hopen, hclose]

theorem splitOutside_cons_of_not_isCut {sep c : Char} {depth : Nat}
    (h : ¬ IsCut sep depth c) (s : Text) :
    splitOutside sep depth (c :: s) =
      splitOutside.extend c (splitOutside sep (stepDepth depth c) s) := by
  rw [splitOutside, stepDepth]
  split
  · rfl
  · split
    · rfl
    · rename_i hopen hclose
      rw [if_neg fun hcut => h ?_]
      rw [Bool.and_eq_true, decide_eq_true_eq, decide_eq_true_eq] at hcut
      exact ⟨by simpa using hopen, by simpa using hclose, hcut.1, hcut.2⟩

theorem flatten_extend (c : Char) (parts : List Text) :
    (splitOutside.extend c parts).flatten = c :: parts.flatten := by
  cases parts <;> rfl

/-- The parts hold nothing that is not in the text. -/
theorem flatten_splitOutside_sublist (sep : Char) (depth : Nat) (s : Text) :
    (splitOutside sep depth s).flatten.Sublist s := by
  induction s generalizing depth with
  | nil => exact List.Sublist.refl _
  | cons c s ih =>
    by_cases hcut : IsCut sep depth c
    · rw [splitOutside_cons_of_isCut hcut, List.flatten_cons, List.nil_append]
      exact (ih 0).cons c
    · rw [splitOutside_cons_of_not_isCut hcut, flatten_extend]
      exact (ih _).cons_cons c

theorem mem_splitTopLevel {sep : Char} {s p : Text} :
    p ∈ splitTopLevel sep s ↔ (∃ part ∈ splitOutside sep 0 s, trim part = p) ∧ p ≠ [] := by
  rw [splitTopLevel, List.mem_filter, List.mem_map]
  simp

theorem sublist_of_mem_splitTopLevel {sep : Char} {s p : Text} (h : p ∈ splitTopLevel sep s) :
    List.Sublist p s := by
  obtain ⟨⟨part, hpart, rfl⟩, -⟩ := mem_splitTopLevel.1 h
  exact (trim_infix_self part).sublist.trans
    ((List.sublist_flatten_of_mem hpart).trans (flatten_splitOutside_sublist sep 0 s))

/-- A text without separators outside brackets goes to the first part whole. -/
theorem splitOutside_append {sep : Char} {depth final : Nat} {s t part : Text} {parts : List Text}
    (hs : openAfter sep depth s = some final) (ht : splitOutside sep final t = part :: parts) :
    splitOutside sep depth (s ++ t) = (s ++ part) :: parts := by
  induction s generalizing depth with
  | nil =>
    simp only [openAfter, Option.some.injEq] at hs
    simpa [hs] using ht
  | cons c cs ih =>
    simp only [openAfter] at hs
    simp only [List.cons_append, splitOutside]
    split at hs
    · rename_i hopen
      rw [if_pos hopen, ih hs]
      rfl
    · rename_i hopen
      rw [if_neg hopen]
      split at hs
      · rename_i hclose
        rw [if_pos hclose]
        cases depth with
        | zero => simp at hs
        | succ d =>
          simp only [Nat.add_sub_cancel]
          rw [ih hs]
          rfl
      · rename_i hclose
        rw [if_neg hclose]
        split at hs
        · simp at hs
        · rename_i hsep
          rw [if_neg hsep, ih hs]
          rfl

theorem splitOutside_of_closed {sep : Char} {s : Text} (h : Closed sep s) :
    splitOutside sep 0 s = [s] := by
  have hend : splitOutside sep 0 [] = [[]] := rfl
  simpa using splitOutside_append h hend

/-- A character that is neither bracket nor white space. -/
structure IsSeparator (sep : Char) : Prop where
  not_opening : isOpening sep = false
  not_closing : isClosing sep = false
  not_space : isSpace sep = false

theorem isSeparator_comma : IsSeparator ',' := ⟨by decide, by decide, by decide⟩

theorem splitOutside_append_sep {sep : Char} (hsep : IsSeparator sep) {s : Text}
    (h : Closed sep s) (t : Text) :
    splitOutside sep 0 (s ++ sep :: t) = s :: splitOutside sep 0 t := by
  have hcut : splitOutside sep 0 (sep :: t) = [] :: splitOutside sep 0 t := by
    simp [splitOutside, hsep.not_opening, hsep.not_closing]
  simpa using splitOutside_append h hcut

/-- The parts of a joined list are its pieces, all but the first with the white space
before them. -/
theorem splitOutside_intercalate {sep : Char} (hsep : IsSeparator sep) {sp : Text}
    (hsp : ∀ c ∈ sp, isSpace c = true) {p : Text} {pieces : List Text} (hp : Closed sep p)
    (h : ∀ q ∈ pieces, Closed sep q) :
    splitOutside sep 0 ((sep :: sp).intercalate (p :: pieces)) = p :: pieces.map (sp ++ ·) := by
  induction pieces generalizing p with
  | nil => simpa using splitOutside_of_closed hp
  | cons q qs ih =>
    have hq : Closed sep (sp ++ q) := (closed_of_isSpace hsep.not_space hsp).append (h q (by simp))
    have hqs : ∀ r ∈ qs, Closed sep r := fun r hr => h r (by simp [hr])
    have hjoin : (sep :: sp).intercalate (p :: q :: qs) =
        p ++ sep :: (sep :: sp).intercalate ((sp ++ q) :: qs) := by
      cases qs <;> simp
    rw [hjoin, splitOutside_append_sep hsep hp, ih hq hqs]
    rfl

/-- The parts of a joined list are its pieces, trimmed; pieces of white space are left out. -/
theorem splitTopLevel_of_closed {sep : Char} (hsep : IsSeparator sep) {sp : Text}
    (hsp : ∀ c ∈ sp, isSpace c = true) {pieces : List Text} (h : ∀ p ∈ pieces, Closed sep p) :
    splitTopLevel sep ((sep :: sp).intercalate pieces) = (pieces.map trim).filter (!·.isEmpty) := by
  cases pieces with
  | nil => rfl
  | cons p ps =>
    have hspace : (trim ∘ fun q => sp ++ q) = trim := funext (trim_append_of_isSpace hsp)
    have hsplit := splitOutside_intercalate hsep hsp (h p (by simp))
      fun q hq => h q (List.mem_cons_of_mem _ hq)
    rw [splitTopLevel, hsplit, List.map_cons, List.map_map, hspace, ← List.map_cons]

theorem splitTopLevel_space_cons {sep : Char} (hsep : IsSeparator sep) {pieces : List Text}
    (h : ∀ p ∈ pieces, Closed sep p) :
    splitTopLevel sep (' ' :: [sep, ' '].intercalate pieces) =
      (pieces.map trim).filter (!·.isEmpty) := by
  have hsp : ∀ c ∈ [' '], isSpace c = true := by decide
  have hspace := closed_of_isSpace hsep.not_space hsp
  have hblank : trim [' '] = [] := by decide
  cases pieces with
  | nil =>
    have hall : ∀ p ∈ [[' ']], Closed sep p := by simpa using hspace
    simpa [hblank] using splitTopLevel_of_closed hsep hsp hall
  | cons p ps =>
    have hjoin : ' ' :: [sep, ' '].intercalate (p :: ps) =
        [sep, ' '].intercalate ((' ' :: p) :: ps) := by
      cases ps <;> simp
    rw [hjoin, splitTopLevel_of_closed hsep hsp, List.map_cons, List.map_cons, trim_space_cons]
    intro q hq
    rcases List.mem_cons.mp hq with rfl | hq
    · exact hspace.append (h p (by simp))
    · exact h q (List.mem_cons_of_mem _ hq)

/-- Splitting at a separator undoes joining with it and a space. -/
theorem splitTopLevel_intercalate {sep : Char} (hsep : IsSeparator sep) {pieces : List Text}
    (h : ∀ p ∈ pieces, Trimmed p ∧ Closed sep p) :
    splitTopLevel sep ([sep, ' '].intercalate pieces) = pieces := by
  have htrim : pieces.map trim = pieces :=
    (List.map_congr_left fun p hp => (h p hp).1.trim_eq).trans (List.map_id _)
  rw [splitTopLevel_of_closed hsep (by decide) fun p hp => (h p hp).2, htrim, List.filter_eq_self]
  intro p hp
  simpa using (h p hp).1.ne_nil

end Typings.Text
