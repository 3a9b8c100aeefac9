import Typings.Proofs.Text.Compaction

/-!
# Gaps in compact forms

White space between two visible characters is kept in the compact form of a text as a single space,
or it is dropped: before a bracket and after an opening one. Which of the two shows in the
characters on either side, since a pass over the text cuts it at every gap and drops the gaps that
its pair of characters stands at. Together with the visible characters, which stay, this describes
the compact form. Main statements: `Neighbours.compact` and `compact_normal`.
-/

namespace Typings.Text

-- ---------------------------------------------------------------------------
-- Gaps
-- ---------------------------------------------------------------------------

/-- Two visible characters `c` and `d` of a text with only the white space `gap` between them. The
visible characters before them are `front`, those after them `back`. -/
structure Neighbours (s front : Text) (c : Char) (gap : Text) (d : Char) (back : Text) : Prop where
  parts : ∃ before after, s = before ++ c :: (gap ++ d :: after) ∧
    visible before = front ∧ visible after = back
  left : isSpace c = false
  right : isSpace d = false
  blank : ∀ e ∈ gap, isSpace e = true

/-- What is left of a gap in a compact form. -/
def keptGap (c : Char) (gap : Text) (d : Char) : Text :=
  if gap ≠ [] ∧ c ∉ ['<', '['] ∧ d ∉ ['<', '>', '[', ']'] then [' '] else []

variable {s front gap back : Text} {c d : Char}

/-- The visible characters before a visible character say where it is. -/
theorem append_cons_inj_of_visible {before before' after after' : Text} {c' : Char}
    (hc : isSpace c = false) (hc' : isSpace c' = false)
    (hvisible : visible before = visible before')
    (h : before ++ c :: after = before' ++ c' :: after') : before = before' ∧ after = after' := by
  induction before generalizing before' with
  | nil =>
    cases before' with
    | nil => exact ⟨rfl, (List.cons.inj h).2⟩
    | cons e before' =>
      obtain ⟨rfl, -⟩ := List.cons.inj h
      simp [visible_cons, hc] at hvisible
  | cons e before ih =>
    cases before' with
    | nil =>
      obtain ⟨rfl, -⟩ := List.cons.inj h
      simp [visible_cons, hc'] at hvisible
    | cons e' before' =>
      obtain ⟨rfl, hrest⟩ := List.cons.inj h
      have hfront : visible before = visible before' := by
        rw [visible_cons, visible_cons] at hvisible
        split at hvisible
        · exact hvisible
        · exact (List.cons.inj hvisible).2
      obtain ⟨rfl, hafter⟩ := ih hfront hrest
      exact ⟨rfl, hafter⟩

/-- A visible character has one gap behind it. -/
theorem Neighbours.gap_unique {gap' back' : Text} {c' d' : Char}
    (h : Neighbours s front c gap d back)
    (h' : Neighbours s front c' gap' d' back') : gap' = gap := by
  obtain ⟨⟨before, after, rfl, hfront, -⟩, hc, hd, hgap⟩ := h
  obtain ⟨⟨before', after', heq, hfront', -⟩, hc', hd', hgap'⟩ := h'
  obtain ⟨-, hrest⟩ := append_cons_inj_of_visible hc hc' (hfront.trans hfront'.symm) heq
  have hvisible : visible gap = visible gap' := by
    rw [visible_of_isSpace hgap, visible_of_isSpace hgap']
  exact (append_cons_inj_of_visible hd hd' hvisible hrest).1.symm

-- ---------------------------------------------------------------------------
-- Single spaces
-- ---------------------------------------------------------------------------

theorem words_ne_nil_of_mem (hd : isSpace d = false) (hmem : d ∈ s) : words s ≠ [] := by
  intro hnil
  have hvisible : d ∈ visible s := mem_visible.mpr ⟨hmem, hd⟩
  rw [← flatten_words, hnil] at hvisible
  cases hvisible

/-- A visible character stays, with a space behind it when white space and another visible character
follow it. -/
theorem normalizeSpaces_cons (hc : isSpace c = false) (hs : words s ≠ []) :
    normalizeSpaces (c :: s) =
      c :: ((if s.head?.any isSpace then [' '] else []) ++ normalizeSpaces s) := by
  cases s with
  | nil => exact absurd rfl hs
  | cons e s =>
    rw [normalizeSpaces, normalizeSpaces, words_cons_cons hc]
    cases hwords : words (e :: s) with
    | nil => exact absurd hwords hs
    | cons w ws =>
      cases he : isSpace e with
      | true => simp [he]
      | false => cases ws <;> simp [he]

theorem normalizeSpaces_append_of_isSpace (hgap : ∀ e ∈ gap, isSpace e = true) (s : Text) :
    normalizeSpaces (gap ++ s) = normalizeSpaces s := by
  rw [normalizeSpaces, normalizeSpaces, words_append_of_isSpace hgap]

theorem head_append_any_isSpace (hgap : ∀ e ∈ gap, isSpace e = true) (hd : isSpace d = false) :
    (gap ++ d :: s).head?.any isSpace = !gap.isEmpty := by
  cases gap with
  | nil => simp [hd]
  | cons e gap => simp [hgap e (by simp)]

/-- A text that starts with a visible character still does so with single spaces. -/
theorem exists_normalizeSpaces_cons (hd : isSpace d = false) (s : Text) :
    ∃ after, normalizeSpaces (d :: s) = d :: after ∧ visible after = visible s := by
  have hvisible := visible_normalizeSpaces (d :: s)
  by_cases hs : words s = []
  · have hblank : visible s = [] := by rw [← flatten_words, hs, List.flatten_nil]
    have hgap : ∀ e ∈ s, isSpace e = true := by
      intro e he
      by_contra hne
      exact words_ne_nil_of_mem (by simpa using hne) he hs
    have hsplit : words (d :: s) = [[d]] := by
      have hpadded : words ([] ++ ([d] ++ s)) = words [d] := words_padded (by simp) hgap [d]
      rwa [List.nil_append, List.singleton_append, words_singleton hd] at hpadded
    exact ⟨[], by simp [normalizeSpaces, hsplit], hblank.symm⟩
  · refine ⟨_, normalizeSpaces_cons hd hs, ?_⟩
    rw [normalizeSpaces_cons hd hs, visible_cons, visible_cons] at hvisible
    simpa [hd] using hvisible

/-- With single spaces, a gap is a single space or empty as before. -/
theorem Neighbours.normalizeSpaces (h : Neighbours s front c gap d back) :
    Neighbours (normalizeSpaces s) front c (if gap = [] then [] else [' ']) d back := by
  obtain ⟨⟨before, after, rfl, rfl, rfl⟩, hc, hd, hgap⟩ := h
  have hspace : ∀ e ∈ (if gap = [] then [] else [' ']), isSpace e = true := by
    intro e he
    split at he
    · cases he
    · rw [List.mem_singleton.mp he]
      decide
  refine ⟨?_, hc, hd, hspace⟩
  obtain ⟨after', hafter, hback⟩ := exists_normalizeSpaces_cons hd after
  induction before with
  | nil =>
    refine ⟨[], after', ?_, rfl, hback⟩
    rw [List.nil_append, normalizeSpaces_cons hc (words_ne_nil_of_mem hd (by simp)),
      head_append_any_isSpace hgap hd, normalizeSpaces_append_of_isSpace hgap, hafter]
    cases gap <;> simp
  | cons e before ih =>
    obtain ⟨before', after', heq, hfront, hback⟩ := ih
    cases he : isSpace e with
    | true =>
      refine ⟨before', after', ?_, by rw [hfront, visible_cons, if_pos he], hback⟩
      have hdrop := @normalizeSpaces_append_of_isSpace [e] (by simpa using he)
        (before ++ c :: (gap ++ d :: after))
      rw [List.cons_append, ← List.singleton_append, hdrop, heq]
    | false =>
      refine ⟨e :: ((if (before ++ c :: (gap ++ d :: after)).head?.any isSpace then [' ']
        else []) ++
        before'), after', ?_, ?_, hback⟩
      · rw [List.cons_append, normalizeSpaces_cons he (words_ne_nil_of_mem hd (by simp)), heq]
        simp
      · have hsep : ∀ b : Bool, visible (if b then [' '] else []) = [] := by decide
        rw [visible_cons, visible_append, hsep, List.nil_append, hfront, visible_cons]

-- ---------------------------------------------------------------------------
-- Passes
-- ---------------------------------------------------------------------------

variable {a b r : Char}

/-- A pass goes over two parts of a text one after the other unless its pair stands where
they meet. -/
theorem replacePair_append_apart {x y : Text} (h : x.getLast? = some a → y.head? ≠ some b) :
    replacePair a b r (x ++ y) = replacePair a b r x ++ replacePair a b r y := by
  induction x using replacePair.induct a b with
  | case1 => rfl
  | case2 c =>
    cases y with
    | nil => simp [replacePair]
    | cons e y =>
      have hpair : ¬(c = a ∧ e = b) := by
        rintro ⟨rfl, rfl⟩
        exact h rfl rfl
      have hstep : replacePair a b r (c :: e :: y) = c :: replacePair a b r (e :: y) := by
        rw [replacePair, if_neg hpair]
      rw [List.singleton_append, hstep]
      rfl
  | case3 c e cs hpair ih =>
    rw [List.cons_append, List.cons_append, replacePair, if_pos hpair, replacePair, if_pos hpair,
      ih fun hlast => h (by cases cs <;> simp_all [List.getLast?_cons_cons]), List.cons_append]
  | case4 c e cs hpair ih =>
    rw [List.cons_append, List.cons_append, replacePair, if_neg hpair, replacePair, if_neg hpair,
      ← List.cons_append, ih fun hlast => h (by rwa [List.getLast?_cons_cons]), List.cons_append]

namespace IsPass

/-- A pass keeps the visible character at the end of a text. -/
theorem exists_replacePair_concat (h : IsPass a b r) (hc : isSpace c = false) (s : Text) :
    ∃ s', replacePair a b r (s ++ [c]) = s' ++ [c] ∧ visible s' = visible s := by
  have hspace : isSpace ' ' = true := by decide
  by_cases hpair : s.getLast? = some a ∧ c = b
  · obtain ⟨hlast, rfl⟩ := hpair
    -- only a space before the bracket can go
    rcases h.2 with ⟨rfl, rfl⟩ | ⟨rfl, rfl⟩
    · obtain ⟨t, rfl⟩ := List.getLast?_eq_some_iff.mp hlast
      refine ⟨replacePair ' ' c c t, ?_, ?_⟩
      · rw [List.append_assoc, replacePair_append_apart (by simpa using fun _ => h.ne_space.symm)]
        simp [replacePair]
      · rw [h.visible_replacePair, visible_append, visible_cons, if_pos hspace, visible_nil,
          List.append_nil]
    · rw [hspace] at hc
      cases hc
  · refine ⟨replacePair a b r s, ?_, h.visible_replacePair s⟩
    rw [replacePair_append_apart fun hlast hhead => hpair ⟨hlast, by simpa using hhead⟩]
    rfl

/-- A pass keeps the visible character at the start of a text. -/
theorem exists_replacePair_cons (h : IsPass a b r) (hd : isSpace d = false) (s : Text) :
    ∃ s', replacePair a b r (d :: s) = d :: s' ∧ visible s' = visible s := by
  have hspace : isSpace ' ' = true := by decide
  cases s with
  | nil => exact ⟨[], rfl, rfl⟩
  | cons e s =>
    rw [replacePair]
    split
    · rename_i hpair
      obtain ⟨rfl, rfl⟩ := hpair
      rcases h.2 with ⟨rfl, rfl⟩ | ⟨rfl, rfl⟩
      · rw [hspace] at hd
        cases hd
      · exact ⟨_, rfl, by rw [h.visible_replacePair, visible_cons, if_pos hspace]⟩
    · exact ⟨_, rfl, h.visible_replacePair _⟩

end IsPass

/-- A pass drops a single space when its pair holds the character on one side of it, and
no other. -/
theorem Neighbours.replacePair (hpass : IsPass a b r) {p : Prop} [Decidable p]
    (h : Neighbours s front c (if p then [] else [' ']) d back) :
    Neighbours (replacePair a b r s) front c (if p ∨ c = a ∨ d = b then [] else [' ']) d back := by
  have hne : ∀ {e : Char}, isSpace e = false → e ≠ ' ' := by
    rintro e he rfl
    exact absurd he (by decide)
  obtain ⟨⟨before, after, rfl, rfl, rfl⟩, hc, hd, hblank⟩ := h
  refine ⟨?_, hc, hd, fun e he => ?_⟩
  · obtain ⟨before', hbefore, hfront⟩ := hpass.exists_replacePair_concat hc before
    obtain ⟨after', hafter, hback⟩ := hpass.exists_replacePair_cons hd after
    have hleft : ∀ t : Text, before ++ c :: t = (before ++ [c]) ++ t := by simp
    by_cases hp : p
    · -- the pair has a space, and there is none here
      have hcut : (before ++ [c]).getLast? = some a → (d :: after).head? ≠ some b := by
        intro hlast hhead
        obtain rfl : c = a := by simpa using hlast
        obtain rfl : d = b := by simpa using hhead
        exact hpass.2.elim (fun h => hne hc h.1) fun h => hne hd h.2
      refine ⟨before', after', ?_, hfront, hback⟩
      rw [if_pos hp, if_pos (.inl hp), List.nil_append, hleft, replacePair_append_apart hcut,
        hbefore, hafter]
      simp
    · rw [if_neg hp]
      by_cases hd' : d = b
      · -- the space and the character behind it are the pair
        subst hd'
        obtain ⟨rfl, rfl⟩ := hpass.2.resolve_right fun h => hne hd h.2
        have hcut : (before ++ [c]).getLast? = some ' ' → (' ' :: d :: after).head? ≠ some d := by
          intro hlast
          exact absurd (by simpa using hlast) (hne hc)
        refine ⟨before', Text.replacePair ' ' d d after, ?_, hfront,
          hpass.visible_replacePair after⟩
        rw [List.singleton_append, hleft, replacePair_append_apart hcut, hbefore, Text.replacePair,
          if_pos ⟨rfl, rfl⟩, if_pos (.inr (.inr rfl))]
        simp
      · by_cases hc' : c = a
        · -- the character before the space and the space are the pair
          subst hc'
          obtain ⟨rfl, rfl⟩ := hpass.2.resolve_left fun h => hne hc h.1
          have hcut : (before ++ [c, ' ']).getLast? = some c → (d :: after).head? ≠ some ' ' := by
            intro _ hhead
            exact hne hd (Option.some.inj hhead)
          have hfirst : before.getLast? = some c → [c, ' '].head? ≠ some ' ' := by
            intro _ hhead
            exact hne hc (Option.some.inj hhead)
          have hsplit : before ++ c :: ([' '] ++ d :: after) =
              (before ++ [c, ' ']) ++ d :: after := by
            simp
          refine ⟨Text.replacePair c ' ' c before, after', ?_,
            hpass.visible_replacePair before, hback⟩
          rw [hsplit, replacePair_append_apart hcut, replacePair_append_apart hfirst, hafter,
            if_pos (.inr (.inl rfl))]
          simp [Text.replacePair]
        · have hcut : (before ++ [c]).getLast? = some a → ([' '] ++ d :: after).head? ≠ some b := by
            intro hlast
            exact absurd (by simpa using hlast) hc'
          have hlast : [' '].getLast? = some a → (d :: after).head? ≠ some b := by
            intro _ hhead
            exact hd' (Option.some.inj hhead)
          refine ⟨before', after', ?_, hfront, hback⟩
          rw [hleft, replacePair_append_apart hcut, replacePair_append_apart hlast, hbefore, hafter,
            if_neg (not_or.mpr ⟨hp, not_or.mpr ⟨hc', hd'⟩⟩)]
          simp [Text.replacePair]
  · split at he
    · cases he
    · rename_i hkept
      exact hblank e (by rwa [if_neg fun hp => hkept (.inl hp)])

-- ---------------------------------------------------------------------------
-- Compact forms
-- ---------------------------------------------------------------------------

/-- The passes drop the gaps before a bracket and after an opening one, and no others. -/
theorem Neighbours.compact (h : Neighbours s front c gap d back) :
    Neighbours (compact s) front c (keptGap c gap d) d back := by
  have hpasses := h.normalizeSpaces
    |>.replacePair (isPass_before (c := '<') (by decide))
    |>.replacePair (isPass_after (c := '<') (by decide))
    |>.replacePair (isPass_before (c := '>') (by decide))
    |>.replacePair (isPass_before (c := '[') (by decide))
    |>.replacePair (isPass_after (c := '[') (by decide))
    |>.replacePair (isPass_before (c := ']') (by decide))
  have hne : ∀ {e : Char}, isSpace e = false → e ≠ ' ' := by
    rintro e he rfl
    exact absurd he (by decide)
  rw [keptGap, ← ite_not]
  simp only [Text.compact, dropSpaceBefore, dropSpaceAfter]
  convert hpasses using 2
  simp only [hne h.left, hne h.right, List.mem_cons, List.not_mem_nil, or_false, false_or]
  grind

/-- What a text becomes when its white space is reduced to the single spaces that compact
texts have. -/
structure IsNormalForm (s t : Text) : Prop where
  visible_eq : visible t = visible s
  /-- White space is single spaces, none at the ends and none next to brackets. -/
  compact : IsCompact t
  /-- Neighbours have a space between them exactly where they had white space and no bracket forbids
  it. -/
  gaps : ∀ {front c gap d back}, Neighbours s front c gap d back →
    ∀ kept, Neighbours t front c kept d back ↔ kept = keptGap c gap d

/-- Compact forms are normal forms, and compacting them again changes nothing. -/
theorem compact_normal (s : Text) :
    IsNormalForm s (compact s) ∧ compact (compact s) = compact s := by
  refine ⟨⟨visible_compact s, isCompact_compact s, fun h kept => ⟨?_, ?_⟩⟩,
    (isCompact_compact s).compact_eq⟩
  · exact h.compact.gap_unique
  · rintro rfl
    exact h.compact

/-- White space becomes a single space behind a comma and a closing bracket, and goes elsewhere. -/
example : compact " Map <K,\tList <V [ ] >  > \u00a0x ".toList = "Map<K, List<V[]>> x".toList := by
  decide

end Typings.Text
