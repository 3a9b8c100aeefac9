import Typings.Proofs.Text.Words

/-!
# Compact forms are compact

The compact form of a text has the same visible characters in the same order, with single spaces
between some of them and none where compact texts have none. Each pass drops the spaces on one side
of a bracket and brings no two spaces together, so the later passes keep what the earlier ones did.
Main statements: `visible_compact` and `isCompact_compact`.
-/

namespace Typings.Text

-- ---------------------------------------------------------------------------
-- Visible characters
-- ---------------------------------------------------------------------------

/-- The characters of a text that are not white space. -/
def visible (s : Text) : Text := s.filter (!isSpace ·)

@[simp] theorem visible_nil : visible [] = [] := rfl

theorem visible_cons (c : Char) (s : Text) :
    visible (c :: s) = if isSpace c then visible s else c :: visible s := by
  unfold visible
  by_cases h : isSpace c = true <;> simp [h]

@[simp] theorem visible_append (s t : Text) : visible (s ++ t) = visible s ++ visible t :=
  List.filter_append ..

theorem mem_visible {c : Char} {s : Text} : c ∈ visible s ↔ c ∈ s ∧ isSpace c = false := by
  simp [visible]

theorem visible_of_forall {s : Text} (h : ∀ c ∈ s, isSpace c = false) : visible s = s :=
  List.filter_eq_self.mpr fun c hc => by simp [h c hc]

theorem visible_visible (s : Text) : visible (visible s) = visible s :=
  visible_of_forall fun _ hc => (mem_visible.mp hc).2

theorem visible_of_isSpace {s : Text} (h : ∀ c ∈ s, isSpace c = true) : visible s = [] :=
  List.filter_eq_nil_iff.mpr fun c hc => by simp [h c hc]

theorem visible_trim (s : Text) : visible (trim s) = visible s := by
  obtain ⟨before, after, heq, hbefore, hafter⟩ := eq_append_trim_append s
  conv_rhs => rw [heq]
  rw [visible_append, visible_append, visible_of_isSpace hbefore, visible_of_isSpace hafter,
    List.nil_append, List.append_nil]

/-- Induction on where a text is first cut by a space. -/
theorem first_space_induction {P : Text → Prop} (solid : ∀ s, (∀ c ∈ s, isSpace c = false) → P s)
    (cut : ∀ x c y, (∀ d ∈ x, isSpace d = false) → isSpace c = true → P y → P (x ++ c :: y))
    (s : Text) :
    P s := by
  induction hn : s.length using Nat.strongRecOn generalizing s with
  | ind n ih =>
    rcases forall_or_exists_space s with hs | ⟨x, c, y, rfl, hx, hc⟩
    · exact solid s hs
    · have hlength : (x ++ c :: y).length = x.length + (y.length + 1) := by simp
      exact cut x c y hx hc (ih y.length (by omega) y rfl)

/-- The words of a text hold its visible characters. -/
theorem flatten_words (s : Text) : (words s).flatten = visible s := by
  have hsolid : ∀ s : Text, (∀ c ∈ s, isSpace c = false) → (words s).flatten = visible s := by
    intro s hs
    cases s with
    | nil => rfl
    | cons c cs => rw [words_of_forall (by simp) hs, visible_of_forall hs, List.flatten_singleton]
  induction s using first_space_induction with
  | solid s hs => exact hsolid s hs
  | cut x c y hx hc ih =>
    rw [words_append_first_space hx hc, List.flatten_append, ih, hsolid x hx, visible_append,
      visible_cons,
      if_pos hc]

theorem ne_nil_of_mem_words {w s : Text} (h : w ∈ words s) : w ≠ [] := by
  have hsolid : ∀ s : Text, (∀ c ∈ s, isSpace c = false) → w ∈ words s → w ≠ [] := by
    intro s hs h
    cases s with
    | nil => cases h
    | cons c cs =>
      rw [words_of_forall (by simp) hs, List.mem_singleton] at h
      simp [h]
  induction s using first_space_induction with
  | solid s hs => exact hsolid s hs h
  | cut x c y hx hc ih =>
    rw [words_append_first_space hx hc] at h
    exact (List.mem_append.mp h).elim (hsolid x hx) ih

theorem isSpace_of_mem_words {w s : Text} (h : w ∈ words s) : ∀ c ∈ w, isSpace c = false := by
  intro c hc
  have hmem : c ∈ (words s).flatten := List.mem_flatten.mpr ⟨w, h, hc⟩
  rw [flatten_words] at hmem
  exact (mem_visible.mp hmem).2

theorem visible_intercalate_space (ws : List Text) :
    visible ([' '].intercalate ws) = visible ws.flatten := by
  have hspace : visible [' '] = [] := rfl
  induction ws with
  | nil => rfl
  | cons w ws ih =>
    cases ws with
    | nil => simp
    | cons v vs =>
      have hjoin : [' '].intercalate (w :: v :: vs) =
          w ++ ([' '] ++ [' '].intercalate (v :: vs)) := by simp
      rw [hjoin, visible_append, visible_append, hspace, ih, List.nil_append, ← visible_append,
        ← List.flatten_cons]

theorem visible_normalizeSpaces (s : Text) : visible (normalizeSpaces s) = visible s := by
  rw [normalizeSpaces, visible_intercalate_space, flatten_words, visible_visible]

theorem words_normalizeSpaces (s : Text) : words (normalizeSpaces s) = words s := by
  have hspace : isSpace ' ' = true := by decide
  unfold normalizeSpaces
  have hwords : ∀ w ∈ words s, w ≠ [] ∧ ∀ c ∈ w, isSpace c = false := fun w hw =>
    ⟨ne_nil_of_mem_words hw, isSpace_of_mem_words hw⟩
  generalize words s = ws at hwords
  induction ws with
  | nil => rfl
  | cons w ws ih =>
    obtain ⟨hne, hw⟩ := hwords w (by simp)
    cases ws with
    | nil => simpa using words_of_forall hne hw
    | cons v vs =>
      have hcut := words_append_first_space hw hspace ([' '].intercalate (v :: vs))
      rw [words_of_forall hne hw, ih fun u hu => hwords u (by simp [hu])] at hcut
      simpa using hcut

/-- The last word of a text that ends with a visible character stands at its end, after white space
or alone. -/
theorem exists_append_of_words_concat {s w : Text} {ws : List Text} (hwords : words s = ws ++ [w])
    (hlast : ∀ c ∈ s.getLast?, isSpace c = false) :
    ∃ front, s = front ++ w ∧ ∀ c ∈ front.getLast?, isSpace c = true := by
  induction s using first_space_induction generalizing ws with
  | solid s hs =>
    cases s with
    | nil =>
      have hnil : words [] = [] := rfl
      rw [hnil] at hwords
      simp at hwords
    | cons c cs =>
      rw [words_of_forall (by simp) hs, List.singleton_eq_append_iff] at hwords
      rcases hwords with ⟨_, hw⟩ | ⟨_, hw⟩
      · exact ⟨[], by simpa using hw.symm, by simp⟩
      · cases hw
  | cut x c y hx hc ih =>
    rw [words_append_first_space hx hc] at hwords
    cases y with
    | nil =>
      rw [hlast c (by simp)] at hc
      cases hc
    | cons d y =>
      have hlasty : ∀ e ∈ (d :: y).getLast?, isSpace e = false := fun e he => hlast e (by
        simpa [List.getLast?_append, List.getLast?_cons_cons] using he)
      have hne : words (d :: y) ≠ [] := by
        intro hnil
        have hvisible := flatten_words (d :: y)
        obtain ⟨e, he⟩ := List.getLast?_isSome.mpr
          (List.cons_ne_nil d y) |> Option.isSome_iff_exists.mp
        have hmem : e ∈ visible (d :: y) := mem_visible.mpr ⟨List.mem_of_getLast? he, hlasty e he⟩
        rw [← hvisible, hnil] at hmem
        cases hmem
      obtain ⟨ws', v, hy⟩ : ∃ ws' v, words (d :: y) = ws' ++ [v] :=
        ⟨_, _, (List.dropLast_append_getLast hne).symm⟩
      rw [hy, ← List.append_assoc] at hwords
      obtain ⟨_, hv⟩ := List.append_inj' hwords rfl
      obtain rfl : v = w := by simpa using hv
      obtain ⟨front, hfront, hspace⟩ := ih hy hlasty
      refine ⟨x ++ c :: front, by simp [hfront], fun e he => ?_⟩
      cases front with
      | nil =>
        obtain rfl : c = e := by simpa using he
        exact hc
      | cons f front =>
        exact hspace e (by simpa [List.getLast?_append, List.getLast?_cons_cons] using he)

-- ---------------------------------------------------------------------------
-- Passes
-- ---------------------------------------------------------------------------

/-- What a pass that drops spaces next to a character replaces. -/
def IsPass (a b r : Char) : Prop := isSpace r = false ∧ ((a = ' ' ∧ b = r) ∨ (a = r ∧ b = ' '))

namespace IsPass

variable {a b r : Char} {s : Text}

theorem ne_space (h : IsPass a b r) : r ≠ ' ' := by
  rintro rfl
  exact absurd h.1 (by decide)

theorem visible_replacePair (h : IsPass a b r) (s : Text) :
    visible (replacePair a b r s) = visible s := by
  have hspace : isSpace ' ' = true := by decide
  induction s using replacePair.induct a b with
  | case1 => rfl
  | case2 c => rfl
  | case3 c d cs hpair ih =>
    obtain ⟨rfl, rfl⟩ := hpair
    rw [replacePair, if_pos ⟨rfl, rfl⟩]
    rcases h.2 with ⟨rfl, rfl⟩ | ⟨rfl, rfl⟩ <;> simp [visible_cons, ih, hspace]
  | case4 c d cs hpair ih => rw [replacePair, if_neg hpair, visible_cons, ih, ← visible_cons]

theorem mem_replacePair (h : IsPass a b r) {c : Char} (hc : c ∈ replacePair a b r s) : c ∈ s := by
  induction s using replacePair.induct a b with
  | case1 => exact hc
  | case2 d => exact hc
  | case3 d e cs hpair ih =>
    obtain ⟨rfl, rfl⟩ := hpair
    rw [replacePair, if_pos ⟨rfl, rfl⟩] at hc
    rcases List.mem_cons.mp hc with rfl | hc
    · rcases h.2 with ⟨rfl, rfl⟩ | ⟨rfl, rfl⟩ <;> simp
    · simp [ih hc]
  | case4 d e cs hpair ih =>
    rw [replacePair, if_neg hpair] at hc
    rcases List.mem_cons.mp hc with rfl | hc
    · simp
    · exact List.mem_cons_of_mem _ (ih hc)

/-- The first character stays, or the space before `r` goes. -/
theorem head_replacePair (h : IsPass a b r) (s : Text) :
    (replacePair a b r s).head? = s.head? ∨
      (s.head? = some ' ' ∧ (replacePair a b r s).head? = some r) := by
  match s with
  | [] => exact .inl rfl
  | [_] => exact .inl rfl
  | c :: d :: cs =>
    rw [replacePair]
    split
    · rename_i hpair
      rcases h.2 with ⟨rfl, _⟩ | ⟨rfl, _⟩ <;> simp [hpair.1]
    · exact .inl rfl

theorem last_replacePair (h : IsPass a b r) (hlast : ∀ c ∈ s.getLast?, c ≠ ' ') :
    ∀ c ∈ (replacePair a b r s).getLast?, c ≠ ' ' := by
  have hcons : ∀ {x : Char} {t : Text}, (t = [] → x ≠ ' ') → (∀ c ∈ t.getLast?, c ≠ ' ') →
      ∀ c ∈ (x :: t).getLast?, c ≠ ' ' := by
    intro x t hx ht c hc
    cases t with
    | nil =>
      obtain rfl : x = c := by simpa using hc
      exact hx rfl
    | cons y t => exact ht c (by simpa [List.getLast?_cons_cons] using hc)
  induction s using replacePair.induct a b with
  | case1 => exact hlast
  | case2 d => exact hlast
  | case3 d e cs hpair ih =>
    rw [replacePair, if_pos hpair]
    refine hcons (fun _ => h.ne_space) (ih fun c hc => hlast c ?_)
    cases cs with
    | nil => cases hc
    | cons _ _ => simpa [List.getLast?_cons_cons] using hc
  | case4 d e cs hpair ih =>
    rw [replacePair, if_neg hpair]
    refine hcons (fun hnil => ?_) (ih fun c hc => hlast c ?_)
    · have hhead := h.head_replacePair (e :: cs)
      simp [hnil] at hhead
    · simpa [List.getLast?_cons_cons] using hc

/-- A pass parts its pair of characters everywhere. What held of all neighbours still holds when it
holds of any two characters but spaces and forbids two spaces. -/
theorem isChain_replacePair (h : IsPass a b r) {R : Char → Char → Prop}
    (hfree : ∀ c d, c ≠ ' ' → d ≠ ' ' → R c d) (hsingle : ¬R ' ' ' ') (hs : s.IsChain R) :
    (replacePair a b r s).IsChain fun c d => R c d ∧ ¬(c = a ∧ d = b) := by
  have hr := h.ne_space
  have hab : a = ' ' ∨ b = ' ' := h.2.imp And.left And.right
  have hopen : ∀ c d, c ≠ ' ' → d ≠ ' ' → R c d ∧ ¬(c = a ∧ d = b) := fun c d hc hd =>
    ⟨hfree c d hc hd, fun ⟨hca, hdb⟩ => hab.elim (fun ha => hc (hca.trans ha)) fun hb =>
      hd (hdb.trans hb)⟩
  induction s using replacePair.induct a b with
  | case1 => exact .nil
  | case2 c => exact .singleton c
  | case3 c d cs hpair ih =>
    obtain ⟨rfl, rfl⟩ := hpair
    rw [List.isChain_cons_cons] at hs
    rw [replacePair, if_pos ⟨rfl, rfl⟩, List.isChain_cons]
    refine ⟨fun e he => ?_, ih hs.2.tail⟩
    rcases h.head_replacePair cs with hhead | ⟨_, hhead⟩
    · rw [hhead] at he
      have hnext : R d e := (List.isChain_cons.mp hs.2).1 e he
      rcases h.2 with ⟨rfl, rfl⟩ | ⟨rfl, rfl⟩
      · exact ⟨hnext, fun hpair => hr hpair.1⟩
      · refine hopen _ _ hr ?_
        rintro rfl
        exact hsingle hnext
    · rw [hhead] at he
      obtain rfl : r = e := by simpa using he
      exact hopen _ _ hr hr
  | case4 c d cs hpair ih =>
    rw [List.isChain_cons_cons] at hs
    rw [replacePair, if_neg hpair, List.isChain_cons]
    refine ⟨fun e he => ?_, ih hs.2⟩
    rcases h.head_replacePair (d :: cs) with hhead | ⟨hspace, hhead⟩
    · rw [hhead] at he
      obtain rfl : d = e := by simpa using he
      exact ⟨hs.1, hpair⟩
    · rw [hhead] at he
      obtain rfl : r = e := by simpa using he
      obtain rfl : d = ' ' := by simpa using hspace
      refine hopen _ _ ?_ hr
      rintro rfl
      exact hsingle hs.1

end IsPass

-- ---------------------------------------------------------------------------
-- Compact forms
-- ---------------------------------------------------------------------------

/-- A text with single spaces, none at its ends, and neighbours as a relation wants them. -/
structure IsSpaced (R : Char → Char → Prop) (s : Text) : Prop where
  spaces : ∀ c ∈ s, isSpace c = true → c = ' '
  chain : s.IsChain R
  head : ∀ c ∈ s.head?, c ≠ ' '
  last : ∀ c ∈ s.getLast?, c ≠ ' '

theorem isSpaced_normalizeSpaces (s : Text) :
    IsSpaced (fun c d => ¬(c = ' ' ∧ d = ' ')) (normalizeSpaces s) := by
  unfold normalizeSpaces
  have hwords : ∀ w ∈ words s, w ≠ [] ∧ ∀ c ∈ w, isSpace c = false := fun w hw =>
    ⟨ne_nil_of_mem_words hw, isSpace_of_mem_words hw⟩
  have hne : ∀ {c : Char}, isSpace c = false → c ≠ ' ' := by
    rintro c hc rfl
    exact absurd hc (by decide)
  generalize words s = ws at hwords
  induction ws with
  | nil => exact ⟨by simp, .nil, by simp, by simp⟩
  | cons w ws ih =>
    obtain ⟨hnil, hw⟩ := hwords w (by simp)
    have hchain : w.IsChain fun c d => ¬(c = ' ' ∧ d = ' ') :=
      List.Pairwise.isChain (List.pairwise_of_forall_mem_list fun c hc d _ hpair =>
        hne (hw c hc) hpair.1)
    obtain ⟨x, xs, rfl⟩ := List.exists_cons_of_ne_nil hnil
    cases ws with
    | nil =>
      refine ⟨?_, by simpa using hchain, ?_, ?_⟩
      · intro c hc hspace
        rw [hw c (by simpa using hc)] at hspace
        cases hspace
      · intro c hc
        exact hne (hw c (List.mem_of_mem_head? (by simpa using hc)))
      · intro c hc
        exact hne (hw c (List.mem_of_getLast? (by simpa using hc)))
    | cons v vs =>
      have hrest := ih fun u hu => hwords u (by simp [hu])
      obtain ⟨y, ys, hjoin⟩ : ∃ y ys, [' '].intercalate (v :: vs) = y :: ys := by
        obtain ⟨z, zs, rfl⟩ := List.exists_cons_of_ne_nil (hwords v (by simp)).1
        cases vs <;> exact ⟨z, _, by simp; rfl⟩
      have heq : [' '].intercalate ((x :: xs) :: v :: vs) = (x :: xs) ++ ' ' :: y :: ys := by
        rw [← hjoin]
        simp
      rw [hjoin] at hrest
      rw [heq]
      refine ⟨?_, ?_, ?_, ?_⟩
      · intro c hc hspace
        rcases List.mem_append.mp hc with hc | hc
        · rw [hw c hc] at hspace
          cases hspace
        · rcases List.mem_cons.mp hc with rfl | hc
          · rfl
          · exact hrest.spaces c hc hspace
      · refine List.isChain_append.mpr ⟨hchain, ?_, ?_⟩
        · exact List.isChain_cons_cons.mpr ⟨fun hpair => hrest.head y rfl hpair.2, hrest.chain⟩
        · exact fun c hc d _ hpair => hne (hw c (List.mem_of_getLast? hc)) hpair.1
      · exact fun c hc => hne (hw c (List.mem_of_mem_head? (by simpa using hc)))
      · intro c hc
        rw [List.getLast?_append_of_ne_nil _ (List.cons_ne_nil _ _), List.getLast?_cons_cons] at hc
        exact hrest.last c hc

theorem IsSpaced.replacePair {R : Char → Char → Prop} {a b r : Char} {s : Text} (h : IsPass a b r)
    (hfree : ∀ c d, c ≠ ' ' → d ≠ ' ' → R c d) (hsingle : ¬R ' ' ' ') (hs : IsSpaced R s) :
    IsSpaced (fun c d => R c d ∧ ¬(c = a ∧ d = b)) (replacePair a b r s) where
  spaces c hc := hs.spaces c (h.mem_replacePair hc)
  chain := h.isChain_replacePair hfree hsingle hs.chain
  head c hc := by
    rcases h.head_replacePair s with hhead | ⟨_, hhead⟩
    · exact hs.head c (hhead ▸ hc)
    · rw [hhead] at hc
      obtain rfl : r = c := by simpa using hc
      exact h.ne_space
  last := h.last_replacePair hs.last

theorem isPass_before {c : Char} (hc : isSpace c = false) : IsPass ' ' c c := ⟨hc, .inl ⟨rfl, rfl⟩⟩

theorem isPass_after {c : Char} (hc : isSpace c = false) : IsPass c ' ' c := ⟨hc, .inr ⟨rfl, rfl⟩⟩

/-- A compact form has the visible characters of the text. -/
theorem visible_compact (s : Text) : visible (compact s) = visible s := by
  simp only [compact, dropSpaceBefore, dropSpaceAfter]
  rw [(isPass_before (by decide)).visible_replacePair,
    (isPass_after (by decide)).visible_replacePair,
    (isPass_before (by decide)).visible_replacePair,
    (isPass_before (by decide)).visible_replacePair,
    (isPass_after (by decide)).visible_replacePair, (isPass_before (by decide)).visible_replacePair,
    visible_normalizeSpaces]

/-- Compact forms are compact. -/
theorem isCompact_compact (s : Text) : IsCompact (compact s) := by
  have hspaced := (((((isSpaced_normalizeSpaces s
    |>.replacePair (isPass_before (c := '<') (by decide)) (by simp +contextual) (by simp))
    |>.replacePair (isPass_after (c := '<') (by decide)) (by simp +contextual) (by simp))
    |>.replacePair (isPass_before (c := '>') (by decide)) (by simp +contextual) (by simp))
    |>.replacePair (isPass_before (c := '[') (by decide)) (by simp +contextual) (by simp))
    |>.replacePair (isPass_after (c := '[') (by decide)) (by simp +contextual) (by simp))
    |>.replacePair (isPass_before (c := ']') (by decide)) (by simp +contextual) (by simp)
  refine ⟨hspaced.spaces, hspaced.chain.imp fun c d hcd => ?_, hspaced.head, hspaced.last⟩
  constructor
  · rintro rfl
    simpa [and_assoc] using hcd
  · rintro rfl
    simp only [and_true] at hcd
    simp_all

end Typings.Text
