import Typings.Proofs.Source.DocComments
import Typings.Proofs.Source.Masking

/-!
# Parts of masked text

A text without blocks is masked part by part, where no comment or literal goes on from one part into
the next. Code and documentation show as they are written, and a literal in quotes shows as blanks,
whatever it holds. Main statements: `Masks.append` and `masks_quoted`.
-/

namespace Typings.Source

theorem PlainFirst.append {s t : Text} (hs : PlainFirst s) (ht : PlainFirst t) :
    PlainFirst (s ++ t) := by
  cases s with
  | nil => exact ht
  | cons c cs => exact hs

-- ---------------------------------------------------------------------------
-- Quoted literals
-- ---------------------------------------------------------------------------

/-- What stands between the quotes of a literal: characters of its line, and escapes. -/
inductive QuotedBody (quote : Char) : Text → Prop
  | nil : QuotedBody quote []
  | char {c : Char} {cs : Text} (newline : c ≠ '\n') (backslash : c ≠ '\\') (other : c ≠ quote)
      (rest : QuotedBody quote cs) : QuotedBody quote (c :: cs)
  | escape {c : Char} {cs : Text} (rest : QuotedBody quote cs) : QuotedBody quote ('\\' :: c :: cs)

/-- A string or character literal. -/
inductive IsQuoted : Text → Prop
  | intro {quote : Char} {body : Text} (known : quote = '"' ∨ quote = '\'')
      (inside : QuotedBody quote body) : IsQuoted (quote :: (body ++ [quote]))

/-- A literal ends at the quote after its inside. -/
theorem QuotedBody.quotedRest_eq {quote : Char} {body : Text} (h : QuotedBody quote body)
    (hquote : quote = '"' ∨ quote = '\'') (t : Text) :
    quotedRest quote (body ++ quote :: t) = body.length + 1 := by
  have hnewline : quote ≠ '\n' := by rcases hquote with rfl | rfl <;> decide
  have hbackslash : quote ≠ '\\' := by rcases hquote with rfl | rfl <;> decide
  induction h with
  | nil => simp [quotedRest, hnewline, hbackslash]
  | @char c cs hn hb hq _ ih => simp [quotedRest, hn, hb, hq, ih]
  | escape _ ih => simp [quotedRest, ih]

/-- The inside of a literal does not start with its quote. -/
theorem QuotedBody.head_ne {quote c : Char} {body : Text} (h : QuotedBody quote (c :: body))
    (hquote : quote = '"' ∨ quote = '\'') : c ≠ quote := by
  cases h with
  | char _ _ hother _ => exact hother
  | escape _ => rcases hquote with rfl | rfl <;> decide

theorem IsQuoted.tokens_append {s t : Text} (hs : IsQuoted s) (ht : PlainFirst t) :
    tokens (s ++ t) = .trivia .literal s :: tokens t := by
  obtain ⟨hquote, hbody⟩ := hs
  rename_i quote body
  have hrest := hbody.quotedRest_eq hquote t
  have htrivia : triviaAt? quote (body ++ quote :: t) = some (.literal, body.length + 1) := by
    rcases hquote with rfl | rfl
    · rw [triviaAt?_quote, hrest]
      -- Neither an inside nor a quote that a plain character follows opens a text block.
      intro r heq
      cases body with
      | nil => exact (ht '"' (by rw [(List.cons.inj heq).2]; rfl)).1 rfl
      | cons c cs => exact hbody.head_ne (.inl rfl) (List.cons.inj heq).1
    · simp [triviaAt?, hrest]
  have hsplit : body ++ quote :: t = (body ++ [quote]) ++ t := by simp
  have hlength : body.length + 1 = (body ++ [quote]).length := by simp
  rw [hsplit, hlength] at htrivia
  rw [List.cons_append, tokens_of_triviaAt? htrivia, List.take_left, List.drop_left]

-- ---------------------------------------------------------------------------
-- Parts
-- ---------------------------------------------------------------------------

/-- A text outside all blocks that is masked by itself, whatever plain character follows it, and
what it shows as. -/
structure Masks (s view : Text) : Prop where
  tokens_append : ∀ {t}, PlainFirst t → tokens (s ++ t) = tokens s ++ tokens t
  closed : level? 0 (tokens s) = some 0
  shown : shown 0 (tokens s) = view

/-- Characters of code outside comments, literals and braces. -/
def isCodeChar (c : Char) : Bool := !"/\"'\x7b\x7d".toList.contains c

theorem ne_of_isCodeChar {c : Char} (h : isCodeChar c = true) :
    (c ≠ '/' ∧ c ≠ '"' ∧ c ≠ '\'') ∧ c ≠ '{' ∧ c ≠ '}' := by
  have hall : ∀ d ∈ ['/', '"', '\'', '{', '}'], isCodeChar d = false := by decide
  have hne : ∀ d ∈ ['/', '"', '\'', '{', '}'], c ≠ d := by
    rintro d hd rfl
    rw [hall c hd] at h
    cases h
  exact ⟨⟨hne _ (by simp), hne _ (by simp), hne _ (by simp)⟩, hne _ (by simp), hne _ (by simp)⟩

/-- Without braces in the code no block is opened or closed. -/
theorem level?_eq_self {ts : List Token} (h : ∀ c, .code c ∈ ts → c ≠ '{' ∧ c ≠ '}') (depth : Nat) :
    level? depth ts = some depth := by
  induction ts with
  | nil => rfl
  | cons t ts ih =>
    have hts := ih fun c hc => h c (List.mem_cons_of_mem _ hc)
    cases t with
    | trivia kind text => exact hts
    | code c =>
      obtain ⟨hopen, hclose⟩ := h c (by simp)
      simpa [level?, hopen, hclose] using hts

/-- Code outside comments and literals shows as it is written. -/
theorem shown_code {s : Text} (hs : ∀ c ∈ s, isCodeChar c = true) :
    shown 0 (s.map .code) = s ∧ level? 0 (s.map .code) = some 0 := by
  constructor
  · induction s with
    | nil => rfl
    | cons c cs ih =>
      have hc := (ne_of_isCodeChar (hs c (by simp))).2.1
      simp [shown, hc, ih fun d hd => hs d (by simp [hd])]
  · refine level?_eq_self (fun c hc => ?_) 0
    obtain ⟨d, hd, hdc⟩ := List.mem_map.mp hc
    exact Token.code.inj hdc ▸ (ne_of_isCodeChar (hs d hd)).2

/-- Behind code that opens no block a text shows as it does by itself. -/
theorem mask_text_code_append {s : Text} (hs : ∀ c ∈ s, isCodeChar c = true) (t : Text) :
    (mask (s ++ t)).text = s ++ (mask t).text := by
  obtain ⟨hshown, hclosed⟩ := shown_code hs
  rw [mask_text_eq_shown, tokens_append_of_code (fun c hc => (ne_of_isCodeChar (hs c hc)).1),
    shown_append, depthAfter_eq_of_level? hclosed, hshown, ← mask_text_eq_shown]

namespace Masks

variable {s t v w : Text}

theorem mask_text (h : Masks s v) : (mask s).text = v := by rw [mask_text_eq_shown, h.shown]

theorem isBlock (h : Masks s v) : IsBlock s := ⟨fun _ hu => h.tokens_append hu.plainFirst, h.closed⟩

theorem nil : Masks [] [] := ⟨fun _ => rfl, rfl, rfl⟩

theorem append (hs : Masks s v) (ht : Masks t w) (hfirst : PlainFirst t) :
    Masks (s ++ t) (v ++ w) := by
  have htokens := hs.tokens_append hfirst
  refine ⟨fun hu => ?_, ?_, ?_⟩
  · rw [List.append_assoc, hs.tokens_append (hfirst.append hu), ht.tokens_append hu, htokens,
      List.append_assoc]
  · rw [htokens, level?_append, hs.closed]
    exact ht.closed
  · rw [htokens, shown_append, depthAfter_eq_of_level? hs.closed, hs.shown, ht.shown]

/-- Any part may follow code. -/
theorem code_append (hs : ∀ c ∈ s, isCodeChar c = true) (ht : Masks t w) :
    Masks (s ++ t) (s ++ w) := by
  have htokens : ∀ u, tokens (s ++ u) = s.map .code ++ tokens u :=
    tokens_append_of_code fun c hc => (ne_of_isCodeChar (hs c hc)).1
  obtain ⟨hshown, hclosed⟩ := shown_code hs
  refine ⟨fun hu => ?_, ?_, ?_⟩
  · rw [List.append_assoc, htokens, htokens, ht.tokens_append hu, List.append_assoc]
  · rw [htokens, level?_append, hclosed]
    exact ht.closed
  · rw [htokens, shown_append, depthAfter_eq_of_level? hclosed, hshown, ht.shown]

end Masks

theorem masks_code {s : Text} (hs : ∀ c ∈ s, isCodeChar c = true) : Masks s s := by
  simpa using Masks.nil.code_append hs

/-- A literal shows as blanks. -/
theorem masks_quoted {s : Text} (hs : IsQuoted s) : Masks s (Text.blankAll s) := by
  have htokens : tokens s = [.trivia .literal s] := by simpa using hs.tokens_append (t := []) nofun
  refine ⟨fun ht => by rw [hs.tokens_append ht, htokens]; rfl, ?_, ?_⟩
  · rw [htokens]
    rfl
  · simp [htokens, shown]

theorem masks_doc {d : Text} (hd : IsDoc d) : Masks d d := by
  have htokens : tokens d = [.trivia .doc d] := by simpa using hd.tokens_append []
  refine ⟨fun _ => by rw [hd.tokens_append, htokens]; rfl, ?_, ?_⟩
  · rw [htokens]
    rfl
  · simp [htokens, shown]

/-- A text without braces that shows as it is written does so in front of other text too. -/
theorem masks_self {s : Text} (hwhole : Whole s) (hmask : (mask s).text = s)
    (hbrace : ∀ c ∈ s, c ≠ '{' ∧ c ≠ '}') : Masks s s := by
  refine ⟨hwhole.tokens_append_of_plainFirst, level?_eq_self (fun c hc => hbrace c ?_) 0, ?_⟩
  · rw [← flatMap_text_tokens s]
    exact List.mem_flatMap.mpr ⟨_, hc, by simp [Token.text]⟩
  · rw [← mask_text_eq_shown, hmask]

end Typings.Source
