import Mathlib.Data.List.Chain
import Typings.Proofs.Text.Splitting
import Typings.Text.Compact
import Typings.Text.Word

/-!
# Words in a text

A text holds a word when the word stands in it with no word character next to it. Cutting a text at
a character that the word does not have keeps the word in one of the parts. A type expression that
is compact already stays as it is; whether it is can be told from neighbouring characters. Main
statements: `Avoids.append_cons_iff` and `IsCompact.compact_eq`.
-/

namespace Typings.Text

theorem forall_head {P : Char → Prop} {c : Char} (h : P c) (s : Text) :
    ∀ d ∈ (c :: s).head?, P d := by
  simpa using h

-- ---------------------------------------------------------------------------
-- Standing words
-- ---------------------------------------------------------------------------

theorem isWordChar_of_isSpace {c : Char} (h : isSpace c = true) : isWordChar c = false := by
  by_cases hlt : c.toNat < 0x80
  · have hascii : ∀ n < 0x80, isSpace (Char.ofNat n) = true →
        isWordChar (Char.ofNat n) = false := by
      decide
    have := hascii c.toNat hlt
    rw [Char.ofNat_toNat] at this
    exact this h
  · rw [isWordChar, if_neg hlt]
    simp only [isSpace, Bool.or_eq_true, Bool.and_eq_true, decide_eq_true_eq] at h
    generalize c.toNat = n at h hlt ⊢
    have hothers : ∀ m ∈ [0x85, 0xA0, 0x1680, 0x2000, 0x2001, 0x2002, 0x2003, 0x2004, 0x2005,
        0x2006, 0x2007, 0x2008, 0x2009, 0x200A, 0x2028, 0x2029, 0x202F, 0x205F, 0x3000],
        inRanges m wordRanges = false := by decide +kernel
    refine hothers n ?_
    simp only [List.mem_cons, List.not_mem_nil, or_false]
    omega

/-- Whether `w` stands in `s` with no word character next to it. -/
def HasWord (w s : Text) : Prop :=
  ∃ a b, s = a ++ w ++ b ∧ (∀ c ∈ a.getLast?, isWordChar c = false) ∧
    ∀ c ∈ b.head?, isWordChar c = false

/-- A character that a word does not have stands before it or after it. -/
theorem HasWord.of_append_cons {w x y : Text} {c : Char} (hc : c ∉ w)
    (h : HasWord w (x ++ c :: y)) : HasWord w x ∨ HasWord w y := by
  obtain ⟨a, b, heq, ha, hb⟩ := h
  rw [List.append_assoc] at heq
  rcases List.append_eq_append_iff.mp heq with ⟨m, rfl, hm⟩ | ⟨m, rfl, hm⟩
  · cases m with
    | nil =>
      cases w with
      | nil => exact .inl ⟨x, [], by simp, by simpa using ha, by simp⟩
      | cons d w =>
        have : c = d := by simpa using (List.cons.inj hm).1
        simp [this] at hc
    | cons d m =>
      obtain ⟨rfl, rfl⟩ := List.cons.inj hm
      refine .inr ⟨m, b, by simp, fun d hd => ha d ?_, hb⟩
      cases m <;> simp_all
  · rcases List.append_eq_append_iff.mp hm with ⟨n, rfl, hn⟩ | ⟨n, rfl, hn⟩
    · refine .inl ⟨a, n, by simp, ha, fun d hd => hb d ?_⟩
      cases n <;> simp_all
    · cases n with
      | nil => exact .inl ⟨a, [], by simp, ha, by simp⟩
      | cons d n =>
        obtain ⟨rfl, rfl⟩ := List.cons.inj hn
        simp at hc

theorem HasWord.append_cons {w x y : Text} {c : Char} (hc : isWordChar c = false)
    (h : HasWord w x ∨ HasWord w y) : HasWord w (x ++ c :: y) := by
  rcases h with ⟨a, b, rfl, ha, hb⟩ | ⟨a, b, rfl, ha, hb⟩
  · refine ⟨a, b ++ c :: y, by simp, ha, fun d hd => ?_⟩
    cases b with
    | nil =>
      obtain rfl : c = d := by simpa using hd
      exact hc
    | cons e b => exact hb d (by simpa using hd)
  · refine ⟨x ++ c :: a, b, by simp, fun d hd => ?_, hb⟩
    rcases List.eq_nil_or_concat a with rfl | ⟨a, e, rfl⟩
    · obtain rfl : c = d := by simpa using hd
      exact hc
    · rw [List.concat_eq_append, ← List.cons_append, ← List.append_assoc,
        List.getLast?_concat] at hd
      obtain rfl : e = d := by simpa using hd
      exact ha e (by simp)

/-- A text of word characters holds only itself. -/
theorem HasWord.eq_of_forall {w s : Text} (h : HasWord w s)
    (hs : ∀ c ∈ s, isWordChar c = true) : w = s := by
  obtain ⟨a, b, rfl, ha, hb⟩ := h
  have hnil : a = [] := by
    rcases List.eq_nil_or_concat a with rfl | ⟨a, c, rfl⟩
    · rfl
    · have := ha c (by simp)
      have := hs c (by simp)
      simp_all
  cases b with
  | nil => simp [hnil]
  | cons c b =>
    have := hb c (by simp)
    have := hs c (by simp)
    simp_all

/-- Whether a text holds none of the words. -/
def Avoids (words : List Text) (s : Text) : Prop := ∀ w ∈ words, ¬HasWord w s

namespace Avoids

variable {words : List Text} {s x y : Text} {c : Char}

theorem append_cons_iff (hword : isWordChar c = false) (hc : ∀ w ∈ words, c ∉ w) :
    Avoids words (x ++ c :: y) ↔ Avoids words x ∧ Avoids words y := by
  constructor
  · intro h
    exact ⟨fun w hw hx => h w hw (.append_cons hword (.inl hx)),
      fun w hw hy => h w hw (.append_cons hword (.inr hy))⟩
  · rintro ⟨hx, hy⟩ w hw h
    rcases h.of_append_cons (hc w hw) with h | h
    · exact hx w hw h
    · exact hy w hw h

theorem nil (hwords : [] ∉ words) : Avoids words [] := by
  rintro w hw ⟨a, b, heq, _, _⟩
  have : w = [] := by simp_all
  exact hwords (this ▸ hw)

/-- A text of word characters avoids all words but itself. -/
theorem of_forall (hs : ∀ c ∈ s, isWordChar c = true) (hmem : s ∉ words) : Avoids words s := by
  intro w hw h
  exact hmem (h.eq_of_forall hs ▸ hw)

theorem mono {fewer : List Text} (h : Avoids words s) (hsub : fewer ⊆ words) : Avoids fewer s :=
  fun w hw => h w (hsub hw)

end Avoids

-- ---------------------------------------------------------------------------
-- Words between spaces
-- ---------------------------------------------------------------------------

theorem words_cons_of_isSpace {c : Char} (hc : isSpace c = true) (cs : Text) :
    words (c :: cs) = words cs := by
  show (if isSpace c then _ else _) = _
  rw [if_pos hc]

theorem words_cons_cons {c : Char} (hc : isSpace c = false) (d : Char) (ds : Text) :
    words (c :: d :: ds) =
      match words (d :: ds) with
      | word :: rest => if isSpace d then [c] :: word :: rest else (c :: word) :: rest
      | [] => [[c]] := by
  show (if isSpace c then _ else _) = _
  rw [if_neg (by simp [hc])]
  generalize words (d :: ds) = ws
  cases ws with
  | nil => rfl
  | cons _ _ => rfl

theorem words_singleton {c : Char} (hc : isSpace c = false) : words [c] = [[c]] := by
  show (if isSpace c then _ else _) = _
  rw [if_neg (by simp [hc])]
  rfl

/-- A text without spaces is one word. -/
theorem words_of_forall {s : Text} (hne : s ≠ []) (hs : ∀ c ∈ s, isSpace c = false) :
    words s = [s] := by
  induction s with
  | nil => exact absurd rfl hne
  | cons c cs ih =>
    have hc := hs c (by simp)
    cases cs with
    | nil => exact words_singleton hc
    | cons d ds =>
      have hds := ih (by simp) fun e he => hs e (by simp [he])
      have hd := hs d (by simp)
      rw [words_cons_cons hc, hds]
      simp [hd]

/-- The first space of a text ends its first word. -/
theorem words_append_first_space {c : Char} {s : Text} (hs : ∀ d ∈ s, isSpace d = false)
    (hc : isSpace c = true) (t : Text) : words (s ++ c :: t) = words s ++ words t := by
  induction s with
  | nil => exact words_cons_of_isSpace hc t
  | cons d ds ih =>
    have hd := hs d (by simp)
    have hrest : ∀ e ∈ ds, isSpace e = false := fun e he => hs e (by simp [he])
    cases ds with
    | nil =>
      rw [List.singleton_append, words_cons_cons hd, words_cons_of_isSpace hc, words_singleton hd]
      cases words t <;> simp [hc]
    | cons e es =>
      have hcons := ih hrest
      rw [List.cons_append] at hcons
      rw [List.cons_append, List.cons_append, words_cons_cons hd, hcons, words_cons_cons hd,
        words_of_forall (by simp) hrest]
      simp [hrest e (by simp)]

/-- A text has no spaces or is cut at its first one. -/
theorem forall_or_exists_space (s : Text) :
    (∀ c ∈ s, isSpace c = false) ∨
      ∃ x c y, s = x ++ c :: y ∧ (∀ d ∈ x, isSpace d = false) ∧ isSpace c = true := by
  induction s with
  | nil => exact .inl (by simp)
  | cons c cs ih =>
    by_cases hc : isSpace c = true
    · exact .inr ⟨[], c, cs, rfl, by simp, hc⟩
    · rw [Bool.not_eq_true] at hc
      rcases ih with h | ⟨x, d, y, rfl, hx, hd⟩
      · exact .inl (by simpa [hc] using h)
      · exact .inr ⟨c :: x, d, y, rfl, by simpa [hc] using hx, hd⟩

/-- A space ends a word. -/
theorem words_append_space {c : Char} (hc : isSpace c = true) (s t : Text) :
    words (s ++ c :: t) = words s ++ words t := by
  induction hn : s.length using Nat.strongRecOn generalizing s with
  | ind n ih =>
    rcases forall_or_exists_space s with hs | ⟨x, d, y, rfl, hx, hd⟩
    · exact words_append_first_space hs hc t
    · have hy := ih y.length (by simp [← hn]; omega) y rfl
      rw [List.append_assoc, List.cons_append, words_append_first_space hx hd, hy,
        words_append_first_space hx hd, List.append_assoc]

theorem words_append_of_isSpace {sp : Text} (hsp : ∀ c ∈ sp, isSpace c = true) (s : Text) :
    words (sp ++ s) = words s := by
  induction sp with
  | nil => rfl
  | cons c sp ih =>
    rw [List.cons_append, words_cons_of_isSpace (hsp c (by simp)), ih fun d hd =>
      hsp d (by simp [hd])]

/-- White space between two texts ends a word. -/
theorem words_append_append {sp : Text} (hsp : ∀ c ∈ sp, isSpace c = true) (hne : sp ≠ [])
    (s t : Text) :
    words (s ++ (sp ++ t)) = words s ++ words t := by
  obtain ⟨c, sp, rfl⟩ := List.exists_cons_of_ne_nil hne
  rw [List.cons_append, words_append_space (hsp c (by simp)),
    words_append_of_isSpace fun d hd => hsp d (by simp [hd])]

/-- White space at the ends makes no difference. -/
theorem words_padded {sp sp' : Text} (hsp : ∀ c ∈ sp, isSpace c = true)
    (hsp' : ∀ c ∈ sp', isSpace c = true)
    (s : Text) : words (sp ++ (s ++ sp')) = words s := by
  rw [words_append_of_isSpace hsp]
  cases sp' with
  | nil => rw [List.append_nil]
  | cons c sp' =>
    have hend := words_append_append hsp' (List.cons_ne_nil c sp') s []
    rw [List.append_nil] at hend
    rw [hend]
    exact List.append_nil _

/-- A word between spaces stands in the text. -/
theorem hasWord_of_mem_words {w s : Text} (h : w ∈ words s) : HasWord w s := by
  induction hn : s.length using Nat.strongRecOn generalizing s with
  | ind n ih =>
    rcases forall_or_exists_space s with hs | ⟨x, c, y, rfl, hx, hc⟩
    · by_cases hne : s = []
      · subst hne
        cases h
      · rw [words_of_forall hne hs, List.mem_singleton] at h
        exact ⟨[], [], by simp [h], by simp, by simp⟩
    · rw [words_append_first_space hx hc] at h
      rcases List.mem_append.mp h with h | h
      · by_cases hne : x = []
        · subst hne
          cases h
        · rw [words_of_forall hne hx, List.mem_singleton] at h
          exact ⟨[], c :: y, by simp [h], by simp, by simpa using isWordChar_of_isSpace hc⟩
      · obtain ⟨a, b, rfl, ha, hb⟩ := ih y.length (by simp [← hn]; omega) h rfl
        refine ⟨x ++ c :: a, b, by simp, fun d hd => ?_, hb⟩
        cases a with
        | nil =>
          obtain rfl : d = c := by simpa using hd.symm
          exact isWordChar_of_isSpace hc
        | cons e es => exact ha d (by simpa [List.getLast?_append] using hd)

-- ---------------------------------------------------------------------------
-- Compact texts
-- ---------------------------------------------------------------------------

/-- Whether two characters may stand next to each other in a compact text. -/
def Tight (a b : Char) : Prop :=
  (a = ' ' → b ∉ [' ', '<', '>', '[', ']']) ∧ (b = ' ' → a ∉ ['<', '['])

instance : DecidableRel Tight := fun _ _ => inferInstanceAs (Decidable (_ ∧ _))

/-- A text with single spaces, none at its ends and none where compact texts have none. -/
structure IsCompact (s : Text) : Prop where
  spaces : ∀ c ∈ s, isSpace c = true → c = ' '
  tight : s.IsChain Tight
  head : ∀ c ∈ s.head?, c ≠ ' '
  last : ∀ c ∈ s.getLast?, c ≠ ' '

theorem replacePair_eq {a b r : Char} {s : Text} (h : s.IsChain fun c d => ¬(c = a ∧ d = b)) :
    replacePair a b r s = s := by
  induction s with
  | nil => rfl
  | cons c cs ih =>
    cases cs with
    | nil => rfl
    | cons d ds =>
      rw [List.isChain_cons_cons] at h
      rw [replacePair, if_neg h.1, ih h.2]

namespace IsCompact

variable {s : Text}

theorem normalizeSpaces_eq (h : IsCompact s) : normalizeSpaces s = s := by
  unfold normalizeSpaces
  induction hn : s.length using Nat.strongRecOn generalizing s with
  | ind n ih =>
    rcases forall_or_exists_space s with hs | ⟨x, c, y, rfl, hx, hc⟩
    · by_cases hne : s = []
      · subst hne
        rfl
      · rw [words_of_forall hne hs]
        simp
    · obtain rfl := h.spaces c (by simp) hc
      have htight := (List.isChain_append.mp h.tight).2.1
      have hxne : x ≠ [] := by
        rintro rfl
        exact h.head ' ' (by simp) rfl
      cases y with
      | nil => exact absurd rfl (h.last ' ' (by simp))
      | cons d ds =>
        have hd := (List.isChain_cons_cons.mp htight).1
        have hy : IsCompact (d :: ds) := by
          refine ⟨fun e he => h.spaces e (by simp [he]), htight.tail, ?_, ?_⟩
          · intro e he
            obtain rfl : d = e := by simpa using he
            have := hd.1 rfl
            simp_all
          · intro e he
            exact h.last e (by simpa [List.getLast?_append] using he)
        have hwords := ih (d :: ds).length (by simp [← hn]; omega) hy rfl
        rw [words_append_first_space hx hc, words_of_forall hxne hx, List.singleton_append]
        cases hw : words (d :: ds) with
        | nil => simp [hw] at hwords
        | cons w ws =>
          rw [hw] at hwords
          simp [← hwords]

theorem dropSpaceBefore_eq (h : IsCompact s) {c : Char} (hc : c ∈ ['<', '>', '[', ']']) :
    dropSpaceBefore c s = s := by
  refine replacePair_eq (h.tight.imp ?_)
  rintro a b hab ⟨rfl, rfl⟩
  exact hab.1 rfl (List.mem_cons_of_mem _ hc)

theorem dropSpaceAfter_eq (h : IsCompact s) {c : Char} (hc : c ∈ ['<', '[']) :
    dropSpaceAfter c s = s := by
  refine replacePair_eq (h.tight.imp ?_)
  rintro a b hab ⟨rfl, rfl⟩
  exact hab.2 rfl hc

/-- White space stands neither first nor last in a compact text. -/
theorem trimmed (h : IsCompact s) (hne : s ≠ []) : Trimmed s := by
  have hspace : ∀ c ∈ s, c ≠ ' ' → isSpace c = false := fun c hc hspace => by
    by_contra hblank
    exact hspace (h.spaces c hc (by simpa using hblank))
  constructor
  · obtain ⟨c, cs, hcs⟩ := List.exists_cons_of_ne_nil hne
    exact ⟨c, cs, hcs, hspace c (by simp [hcs]) (h.head c (by simp [hcs]))⟩
  · obtain ⟨cs, c, hcs⟩ := (List.eq_nil_or_concat s).resolve_left hne
    rw [List.concat_eq_append] at hcs
    exact ⟨cs, c, hcs, hspace c (by simp [hcs]) (h.last c (by simp [hcs]))⟩

/-- A compact text stays as it is. -/
theorem compact_eq (h : IsCompact s) : compact s = s := by
  rw [compact, h.normalizeSpaces_eq, h.dropSpaceBefore_eq (by simp), h.dropSpaceAfter_eq (by simp),
    h.dropSpaceBefore_eq (by simp), h.dropSpaceBefore_eq (by simp), h.dropSpaceAfter_eq (by simp),
    h.dropSpaceBefore_eq (by simp)]

/-- Spaces at the ends go away. -/
theorem compact_padded (h : IsCompact s) : compact (' ' :: (s ++ [' '])) = s := by
  have hspace : isSpace ' ' = true := by decide
  have hwords : words (' ' :: (s ++ [' '])) = words s := by
    rw [words_cons_of_isSpace hspace, words_append_space hspace]
    exact List.append_nil _
  have hcompact := h.compact_eq
  unfold compact normalizeSpaces at hcompact ⊢
  rw [hwords]
  exact hcompact

end IsCompact

end Typings.Text
