import Typings.Source.Trivia

/-!
# Lexing up to a brace

Where a brace stands in the code, everything before it is lexed without a look at what follows.
So a text that is cut before such a brace has the tokens that it has inside the longer text, and
the text after the cut can be replaced. Main statement: `exists_whole_of_tokens_eq`.
-/

namespace Typings.Source

/-- The braces of Java code. -/
def IsBrace (c : Char) : Prop := c = '{' ∨ c = '}'

instance (c : Char) : Decidable (IsBrace c) := inferInstanceAs (Decidable (_ ∨ _))

/-- A text that is empty or starts with a brace. -/
def BraceFirst (s : Text) : Prop := ∀ c ∈ s.head?, IsBrace c

/-- A text whose first character makes no difference to what is lexed before it: no comment and no
text block can open with it. -/
def PlainFirst (s : Text) : Prop := ∀ c ∈ s.head?, c ≠ '"' ∧ c ≠ '/' ∧ c ≠ '*'

namespace IsBrace

variable {c : Char}

theorem ne_newline (h : IsBrace c) : c ≠ '\n' := by
  rcases h with rfl | rfl <;> decide

theorem ne_slash (h : IsBrace c) : c ≠ '/' := by
  rcases h with rfl | rfl <;> decide

theorem ne_star (h : IsBrace c) : c ≠ '*' := by
  rcases h with rfl | rfl <;> decide

theorem ne_quote (h : IsBrace c) : c ≠ '"' := by
  rcases h with rfl | rfl <;> decide

theorem ne_apostrophe (h : IsBrace c) : c ≠ '\'' := by
  rcases h with rfl | rfl <;> decide

theorem triviaAt?_eq (h : IsBrace c) (s : Text) : triviaAt? c s = none := by
  simp [triviaAt?, h.ne_slash, h.ne_quote, h.ne_apostrophe]

theorem braceFirst (h : IsBrace c) (s : Text) : BraceFirst (c :: s) := by
  intro d hd
  obtain rfl : c = d := by simpa using hd
  exact h

end IsBrace

theorem BraceFirst.plainFirst {s : Text} (hs : BraceFirst s) : PlainFirst s :=
  fun c hc => ⟨(hs c hc).ne_quote, (hs c hc).ne_slash, (hs c hc).ne_star⟩

-- ---------------------------------------------------------------------------
-- Comments and literals that end before a cut
-- ---------------------------------------------------------------------------

theorem triviaAt?_textBlock (s : Text) :
    triviaAt? '"' ('"' :: '"' :: s) = some (.literal, textBlockRest s + 2) := by
  simp [triviaAt?]

theorem triviaAt?_quote {s : Text} (h : ∀ r, s ≠ '"' :: '"' :: r) :
    triviaAt? '"' s = some (.literal, quotedRest '"' s) := by
  unfold triviaAt?
  rw [if_neg (by decide), if_pos rfl]
  split
  · exact absurd rfl (h _)
  · rfl

/-- A character is code when it is no quote and no slash that opens a comment. -/
theorem triviaAt?_eq_none_iff {d : Char} {s : Text} :
    triviaAt? d s = none ↔
      d ≠ '"' ∧ d ≠ '\'' ∧ (d = '/' → s.head? ≠ some '/' ∧ s.head? ≠ some '*') := by
  unfold triviaAt?
  split
  · rename_i hd
    subst hd
    split
    · simp
    · simp
    · rename_i hline hblock
      cases s with
      | nil => simp
      | cons e es => simp_all
  · rename_i hd
    split
    · rename_i hquote
      split <;> simp [hquote]
    · rename_i hquote
      split <;> simp_all

/-- Two quotes before a text that starts with no quote stand in the part before it. -/
theorem quotes_of_append {s t r : Text} (ht : ∀ c ∈ t.head?, c ≠ '"')
    (h : s ++ t = '"' :: '"' :: r) : ∃ r, s = '"' :: '"' :: r := by
  have hhead : ∀ v, t ≠ '"' :: v := by
    rintro v rfl
    exact ht '"' rfl rfl
  match s with
  | [] => exact absurd h (hhead _)
  | [d] => exact absurd (List.cons.inj h).2 (hhead _)
  | d :: e :: es =>
    simp only [List.cons_append, List.cons.injEq] at h
    exact ⟨es, by rw [h.1, h.2.1]⟩

/-- A character that starts no escape, whatever follows it, is no backslash. -/
theorem ne_backslash_of_rest {d : Char} {ds : Text} (hnil : d = '\\' → ds = [] → False)
    (hcons : ∀ e es, d = '\\' → ds = e :: es → False) : d ≠ '\\' := by
  intro hd
  cases ds with
  | nil => exact hnil hd rfl
  | cons e es => exact hcons e es hd rfl

theorem min_le_commentRest (s : Text) : min 2 s.length ≤ commentRest s := by
  fun_induction commentRest s with
  | case1 => simp
  | case2 rest => simp
  | case3 c cs hend ih =>
    simp only [List.length_cons]
    omega

theorem quotedRest_cons_pos {quote c : Char} (hc : c ≠ '\n') (s : Text) :
    0 < quotedRest quote (c :: s) := by
  unfold quotedRest
  split
  · contradiction
  · exact Nat.one_pos
  · exact Nat.succ_pos _
  · rename_i hfirst
    obtain ⟨rfl, rfl⟩ := List.cons.inj hfirst
    rw [if_neg hc]
    split
    · exact Nat.one_pos
    · exact Nat.succ_pos _

theorem min_le_textBlockRest (s : Text) : min 3 s.length ≤ textBlockRest s := by
  fun_induction textBlockRest s with
  | case1 => simp
  | case2 => simp
  | case3 d ds ih =>
    simp only [List.length_cons]
    omega
  | case4 rest => simp
  | case5 d ds hnil hcons hquotes ih =>
    simp only [List.length_cons]
    omega

section

variable {c : Char}

theorem lineRest_append (hc : c ≠ '\n') {s t : Text} (h : lineRest (s ++ c :: t) ≤ s.length)
    (u : Text) : lineRest (s ++ u) = lineRest (s ++ c :: t) := by
  induction s with
  | nil => simp [lineRest, hc] at h
  | cons d ds ih =>
    simp only [List.cons_append, lineRest] at h ⊢
    split
    · rfl
    · rename_i hd
      rw [if_neg hd, List.length_cons] at h
      rw [ih (by omega)]

theorem commentRest_append {s t : Text} (h : commentRest (s ++ c :: t) ≤ s.length) (u : Text) :
    commentRest (s ++ u) = commentRest (s ++ c :: t) := by
  induction s using commentRest.induct with
  | case1 =>
    have hmin := min_le_commentRest (c :: t)
    simp only [List.nil_append, List.length_nil, List.length_cons] at h hmin
    omega
  | case2 rest => rfl
  | case3 d ds hend ih =>
    cases ds with
    | nil =>
      -- a single character holds no end of a comment
      have hmin := min_le_commentRest (d :: c :: t)
      simp only [List.cons_append, List.nil_append, List.length_nil, List.length_cons] at h hmin
      omega
    | cons e es =>
      have hstep : ∀ v : Text, commentRest (d :: e :: (es ++ v)) =
          commentRest (e :: (es ++ v)) + 1 := by
        intro v
        refine commentRest.eq_3 _ _ fun _ hstar hslash => ?_
        exact hend es hstar (by rw [(List.cons.inj hslash).1])
      simp only [List.cons_append, List.length_cons, hstep] at h ih ⊢
      rw [ih (by omega)]

theorem quotedRest_append (hc : c ≠ '\n') {quote : Char} {s t : Text}
    (h : quotedRest quote (s ++ c :: t) ≤ s.length) (u : Text) :
    quotedRest quote (s ++ u) = quotedRest quote (s ++ c :: t) := by
  induction s using quotedRest.induct quote with
  | case1 => exact absurd h (Nat.not_le_of_lt (quotedRest_cons_pos hc t))
  | case2 => simp [quotedRest] at h
  | case3 d ds ih =>
    simp only [List.cons_append, quotedRest, List.length_cons] at h ⊢
    rw [ih (by omega)]
  | case4 ds hnil hcons => simp [quotedRest]
  | case5 ds hnil hcons hn =>
    have hd := ne_backslash_of_rest hnil hcons
    simp [quotedRest, hd, hn]
  | case6 d ds hnil hcons hn hdq ih =>
    have hd := ne_backslash_of_rest hnil hcons
    have hstep : ∀ v : Text, quotedRest quote (d :: v) = quotedRest quote v + 1 := by
      intro v
      rw [quotedRest.eq_4 _ _ _ (fun h _ => hd h) fun _ _ h _ => hd h, if_neg hn, if_neg hdq]
    simp only [List.cons_append, List.length_cons, hstep] at h ⊢
    rw [ih (by omega)]

theorem textBlockRest_append {s t : Text} (h : textBlockRest (s ++ c :: t) ≤ s.length) (u : Text) :
    textBlockRest (s ++ u) = textBlockRest (s ++ c :: t) := by
  induction s using textBlockRest.induct with
  | case1 =>
    have hmin := min_le_textBlockRest (c :: t)
    simp only [List.nil_append, List.length_nil, List.length_cons] at h hmin
    omega
  | case2 => simp [textBlockRest] at h
  | case3 d ds ih =>
    simp only [List.cons_append, textBlockRest, List.length_cons] at h ⊢
    rw [ih (by omega)]
  | case4 rest => simp [textBlockRest]
  | case5 d ds hnil hcons hquotes ih =>
    have hd := ne_backslash_of_rest hnil hcons
    -- with fewer than two characters left before the cut, no three quotes fit
    match ds with
    | [] =>
      have hmin := min_le_textBlockRest (d :: c :: t)
      simp only [List.cons_append, List.nil_append, List.length_nil, List.length_cons] at h hmin
      omega
    | [e] =>
      have hmin := min_le_textBlockRest (d :: e :: c :: t)
      simp only [List.cons_append, List.nil_append, List.length_nil, List.length_cons] at h hmin
      omega
    | e :: f :: es =>
      have hlong : ∀ v : Text, textBlockRest (d :: e :: f :: (es ++ v)) =
          textBlockRest (e :: f :: (es ++ v)) + 1 := by
        intro v
        refine textBlockRest.eq_5 _ _ (fun h _ => hd h) (fun _ _ h _ => hd h) fun r hdq hv => ?_
        refine hquotes es hdq ?_
        simp only [List.cons.injEq] at hv ⊢
        exact ⟨hv.1, hv.2.1, trivial⟩
      simp only [List.cons_append, hlong] at h ih ⊢
      rw [ih (by simpa using h)]

/-- The kind of a block comment shows in its first characters. -/
theorem triviaAt?_comment_append {s t : Text} {kind : Trivia} {n : Nat}
    (h : triviaAt? '/' ('*' :: (s ++ c :: t)) = some (kind, n)) (hn : n ≤ s.length + 1) (u : Text) :
    triviaAt? '/' ('*' :: (s ++ u)) = some (kind, n) := by
  simp only [triviaAt?, ↓reduceIte, Option.some.injEq, Prod.mk.injEq] at h ⊢
  obtain ⟨hkind, rfl⟩ := h
  have hmin := min_le_commentRest (s ++ c :: t)
  have hrest := commentRest_append (Nat.le_of_succ_le_succ hn) u
  refine ⟨?_, by rw [hrest]⟩
  rw [← hkind]
  match s with
  | [] =>
    simp only [List.nil_append, List.length_nil, List.length_cons] at hn hmin
    omega
  | [d] =>
    simp only [List.cons_append, List.nil_append, List.length_nil, List.length_cons] at hn hmin
    omega
  | d :: e :: es =>
    by_cases hd : d = '*'
    · by_cases he : e = '/' <;> simp [hd, he]
    · simp [hd]

/-- A comment or literal that ends before a cut is the same whatever follows the cut, quotes and a
newline apart. -/
theorem triviaAt?_append (hnewline : c ≠ '\n') (hquote : c ≠ '"') {d : Char} {s t : Text}
    {kind : Trivia} {n : Nat} (h : triviaAt? d (s ++ c :: t) = some (kind, n)) (hn : n ≤ s.length)
    {u : Text} (hu : ∀ e ∈ u.head?, e ≠ '"') : triviaAt? d (s ++ u) = some (kind, n) := by
  by_cases hslash : d = '/'
  · subst hslash
    match s with
    | [] =>
      simp only [List.nil_append, List.length_nil, triviaAt?, ↓reduceIte] at h hn
      split at h <;> simp_all
    | e :: es =>
      by_cases he : e = '/'
      · subst he
        simp only [List.cons_append, triviaAt?, ↓reduceIte, Option.some.injEq, Prod.mk.injEq] at h ⊢
        obtain ⟨rfl, rfl⟩ := h
        rw [lineRest_append hnewline (Nat.le_of_succ_le_succ hn) u]
        exact ⟨rfl, rfl⟩
      · by_cases hstar : e = '*'
        · subst hstar
          exact triviaAt?_comment_append h hn u
        · simp [triviaAt?, he, hstar] at h
  · by_cases hopen : d = '"'
    · subst hopen
      by_cases hblock : ∃ r, s = '"' :: '"' :: r
      · obtain ⟨r, rfl⟩ := hblock
        simp only [List.cons_append, triviaAt?_textBlock, Option.some.injEq, Prod.mk.injEq] at h ⊢
        obtain ⟨rfl, rfl⟩ := h
        rw [textBlockRest_append (by simpa using hn) u]
        exact ⟨rfl, rfl⟩
      · rw [triviaAt?_quote fun r hr => hblock (quotes_of_append (by simpa using hquote) hr)] at h
        rw [triviaAt?_quote fun r hr => hblock (quotes_of_append hu hr)]
        simp only [Option.some.injEq, Prod.mk.injEq] at h ⊢
        obtain ⟨rfl, rfl⟩ := h
        exact ⟨rfl, quotedRest_append hnewline hn u⟩
    · by_cases hap : d = '\''
      · subst hap
        simp only [triviaAt?, Char.reduceEq, ↓reduceIte, Option.some.injEq, Prod.mk.injEq] at h ⊢
        obtain ⟨rfl, rfl⟩ := h
        exact ⟨rfl, quotedRest_append hnewline hn u⟩
      · simp [triviaAt?, hslash, hopen, hap] at h

end

/-- What may follow a cut before the character `c` so that the text before the cut is read alike:
nothing, a plain character or `c` itself. -/
def FitsFor (c : Char) (u : Text) : Prop := ∀ d ∈ u.head?, d = c ∨ d ≠ '"' ∧ d ≠ '/' ∧ d ≠ '*'

theorem PlainFirst.fitsFor {u : Text} (hu : PlainFirst u) (c : Char) : FitsFor c u :=
  fun d hd => .inr (hu d hd)

theorem fitsFor_cons (c : Char) (u : Text) : FitsFor c (c :: u) := by
  intro d hd
  obtain rfl : c = d := by simpa using hd
  exact .inl rfl

/-- A character of code before a cut is code whatever follows the cut. -/
theorem triviaAt?_eq_none_append {c d : Char} {s t : Text}
    (h : triviaAt? d (s ++ c :: t) = none) {u : Text} (hu : FitsFor c u) :
    triviaAt? d (s ++ u) = none := by
  rw [triviaAt?_eq_none_iff] at h ⊢
  refine ⟨h.1, h.2.1, fun hd => ?_⟩
  cases s with
  | nil =>
    obtain ⟨hslash, hstar⟩ := h.2.2 hd
    simp only [List.nil_append, List.head?_cons, ne_eq, Option.some.injEq] at hslash hstar
    refine ⟨fun hfirst => ?_, fun hfirst => ?_⟩
    · rcases hu '/' hfirst with hc | hplain
      · exact hslash hc.symm
      · exact hplain.2.1 rfl
    · rcases hu '*' hfirst with hc | hplain
      · exact hstar hc.symm
      · exact hplain.2.2 rfl
  | cons e es => exact h.2.2 hd

-- ---------------------------------------------------------------------------
-- Tokens
-- ---------------------------------------------------------------------------

@[simp] theorem tokens_nil : tokens [] = [] := rfl

/-- The first token of a text is the comment, literal or character of code at its front. -/
theorem tokens_cons (c : Char) (cs : Text) :
    tokens (c :: cs) =
      match triviaAt? c cs with
      | some (kind, n) => .trivia kind (c :: cs.take n) :: tokens (cs.drop n)
      | none => .code c :: tokens cs := by
  rw [tokens, tokensAfter]
  cases triviaAt? c cs with
  | none => rfl
  | some found =>
    obtain ⟨kind, n⟩ := found
    simp only [tokensAfter_eq]

theorem tokens_of_triviaAt? {c : Char} {cs : Text} {kind : Trivia} {n : Nat}
    (h : triviaAt? c cs = some (kind, n)) :
    tokens (c :: cs) = .trivia kind (c :: cs.take n) :: tokens (cs.drop n) := by
  rw [tokens_cons, h]

theorem tokens_of_code {c : Char} {cs : Text} (h : triviaAt? c cs = none) :
    tokens (c :: cs) = .code c :: tokens cs := by
  rw [tokens_cons, h]

theorem tokens_append_of_code {s : Text} (hs : ∀ c ∈ s, c ≠ '/' ∧ c ≠ '"' ∧ c ≠ '\'') (t : Text) :
    tokens (s ++ t) = s.map .code ++ tokens t := by
  induction s with
  | nil => rfl
  | cons c cs ih =>
    obtain ⟨hslash, hquote, hapostrophe⟩ := hs c (by simp)
    have hnone : triviaAt? c (cs ++ t) = none :=
      triviaAt?_eq_none_iff.mpr ⟨hquote, hapostrophe, fun h => absurd h hslash⟩
    rw [List.cons_append, tokens_of_code hnone, ih fun d hd => hs d (by simp [hd])]
    rfl

theorem tokens_eq_of_code {s : Text} (hs : ∀ c ∈ s, c ≠ '/' ∧ c ≠ '"' ∧ c ≠ '\'') :
    tokens s = s.map .code := by
  simpa using tokens_append_of_code hs []

theorem text_ne_nil_of_mem_tokens {s : Text} {t : Token} (h : t ∈ tokens s) : t.text ≠ [] := by
  suffices hskip : ∀ skip, t ∈ tokensAfter skip s → t.text ≠ [] from hskip 0 h
  clear h
  induction s with
  | nil =>
    intro skip h
    cases skip <;> cases h
  | cons c cs ih =>
    intro skip h
    cases skip with
    | succ n => exact ih n h
    | zero =>
      rw [tokensAfter] at h
      split at h
      · rcases List.mem_cons.mp h with rfl | h
        · exact List.cons_ne_nil _ _
        · exact ih _ h
      · rcases List.mem_cons.mp h with rfl | h
        · exact List.cons_ne_nil _ _
        · exact ih _ h

theorem IsBrace.tokens_cons {c : Char} (hc : IsBrace c) (s : Text) :
    tokens (c :: s) = .code c :: tokens s :=
  tokens_of_code (hc.triviaAt?_eq s)

/-- The last tokens of a text are the tokens of its end. -/
theorem tokens_flatMap_text {s : Text} {ts us : List Token} (h : tokens s = ts ++ us) :
    tokens (us.flatMap Token.text) = us := by
  induction ts generalizing s with
  | nil =>
    rw [List.nil_append] at h
    rw [← h, flatMap_text_tokens]
  | cons t ts ih =>
    cases s with
    | nil => simp at h
    | cons c cs =>
      rw [tokens_cons] at h
      split at h
      · exact ih (List.cons.inj h).2
      · exact ih (List.cons.inj h).2

/-- The tokens before a cut do not depend on what follows the cut. -/
theorem tokens_append_of_fitsFor {c : Char} (hnewline : c ≠ '\n') (hquote : c ≠ '"') {s t u : Text}
    {ts : List Token} (h : tokens (s ++ c :: t) = ts ++ tokens (c :: t))
    (hs : ts.flatMap Token.text = s) (hu : FitsFor c u) : tokens (s ++ u) = ts ++ tokens u := by
  have hfirst : ∀ d ∈ u.head?, d ≠ '"' := by
    intro d hd
    rcases hu d hd with rfl | hplain
    · exact hquote
    · exact hplain.1
  induction ts generalizing s with
  | nil =>
    obtain rfl : s = [] := by simpa using hs.symm
    rfl
  | cons tok ts ih =>
    cases s with
    | nil =>
      have hlen := congrArg List.length h
      simp only [List.nil_append, List.length_append, List.length_cons] at hlen
      omega
    | cons d ds =>
      rw [List.cons_append] at h ⊢
      cases htr : triviaAt? d (ds ++ c :: t) with
      | none =>
        rw [tokens_of_code htr, List.cons_append] at h
        obtain ⟨rfl, htail⟩ := List.cons.inj h
        have hds : ts.flatMap Token.text = ds := by simpa [Token.text] using hs
        rw [tokens_of_code (triviaAt?_eq_none_append htr hu), ih htail hds]
        rfl
      | some found =>
        obtain ⟨kind, n⟩ := found
        rw [tokens_of_triviaAt? htr, List.cons_append] at h
        obtain ⟨rfl, htail⟩ := List.cons.inj h
        have hcut : (ds ++ c :: t).take n ++ ts.flatMap Token.text = ds := by
          simpa [Token.text] using hs
        have hn : n ≤ ds.length := by
          have := congrArg List.length hcut
          simp only [List.length_append, List.length_take, List.length_cons] at this
          omega
        rw [List.take_append_of_le_length hn] at hcut ⊢
        rw [List.drop_append_of_le_length hn] at htail
        have hds : ts.flatMap Token.text = ds.drop n :=
          List.append_cancel_left (hcut.trans (List.take_append_drop n ds).symm)
        rw [tokens_of_triviaAt? (triviaAt?_append hnewline hquote htr hn hfirst),
          List.take_append_of_le_length hn,
          List.drop_append_of_le_length hn, ih htail hds]
        rfl

/-- A text that ends outside comments and literals: a brace may follow it and is code. -/
def Whole (s : Text) : Prop := ∀ u, BraceFirst u → tokens (s ++ u) = tokens s ++ tokens u

/-- The text before a brace of the code is whole, and cutting there cuts the tokens. -/
theorem exists_whole_of_tokens_eq {s : Text} {ts us : List Token} {c : Char} (hc : IsBrace c)
    (h : tokens s = ts ++ .code c :: us) :
    ∃ t u, s = t ++ c :: u ∧ Whole t ∧ tokens t = ts ∧ tokens u = us := by
  have hrest : tokens (us.flatMap Token.text) = us := by
    have hsplit : tokens s = (ts ++ [.code c]) ++ us := by rw [h]; simp
    exact tokens_flatMap_text hsplit
  have hs : s = ts.flatMap Token.text ++ c :: us.flatMap Token.text := by
    rw [← flatMap_text_tokens s, h]
    simp [Token.text]
  have hcut : tokens (ts.flatMap Token.text ++ c :: us.flatMap Token.text) =
      ts ++ tokens (c :: us.flatMap Token.text) := by
    rw [← hs, h, hc.tokens_cons, hrest]
  have hwhole : ∀ u, BraceFirst u → tokens (ts.flatMap Token.text ++ u) = ts ++ tokens u :=
    fun u hu => tokens_append_of_fitsFor hc.ne_newline hc.ne_quote hcut rfl
      (hu.plainFirst.fitsFor c)
  have hts : tokens (ts.flatMap Token.text) = ts := by
    simpa using hwhole [] (by simp [BraceFirst])
  refine ⟨_, _, hs, ?_, hts, hrest⟩
  intro u hu
  rw [hwhole u hu, hts]

namespace Whole

variable {s t : Text} {c : Char}

theorem tokens_append (h : Whole s) (hc : IsBrace c) (t : Text) :
    tokens (s ++ c :: t) = tokens s ++ .code c :: tokens t := by
  rw [h _ (hc.braceFirst t), hc.tokens_cons]

/-- Any other character may follow a whole text too, if it cannot go on with what stands
before it. -/
theorem tokens_append_of_plainFirst (h : Whole s) (ht : PlainFirst t) :
    tokens (s ++ t) = tokens s ++ tokens t := by
  have hbrace : IsBrace '{' := .inl rfl
  exact tokens_append_of_fitsFor hbrace.ne_newline hbrace.ne_quote (h _ (hbrace.braceFirst []))
    (flatMap_text_tokens s) (ht.fitsFor _)

/-- Whole texts with a brace between them are whole. -/
theorem append (hs : Whole s) (hc : IsBrace c) (ht : Whole t) : Whole (s ++ c :: t) := by
  intro u hu
  rw [List.append_assoc, List.cons_append, hs.tokens_append hc, hs.tokens_append hc, ht u hu,
    List.append_assoc, List.cons_append]

/-- What follows a brace in a whole text is whole. -/
theorem of_append (h : Whole (s ++ c :: t)) (hs : Whole s) (hc : IsBrace c) : Whole t := by
  intro u hu
  have happ := h u hu
  rw [List.append_assoc, List.cons_append, hs.tokens_append hc, hs.tokens_append hc,
    List.append_assoc, List.cons_append] at happ
  exact (List.cons.inj (List.append_cancel_left happ)).2

end Whole

end Typings.Source
