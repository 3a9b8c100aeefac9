import Typings.Proofs.Source.DocComments
import Typings.Proofs.Source.Masking

/-!
# Masking a view

Masking shows a view as it is. The tokens of a view are known from the tokens of the text: what was
blanked is lexed as blank code, and neither a comment nor a literal starts where it did not start
before, since no character that is shown gets a new neighbour other than a blank. Main statement:
`mask_mask`.
-/

namespace Typings.Source

-- ---------------------------------------------------------------------------
-- Tokens of a view
-- ---------------------------------------------------------------------------

/-- The tokens that a view has in the place of a token inside `depth` blocks. -/
def Token.inView (depth : Nat) : Token → List Token
  | .trivia kind text =>
    if depth = 0 ∧ kind = .doc then [.trivia kind text] else (Text.blankAll text).map .code
  | .code c =>
    if depth = 0 ∨ depth = 1 ∧ c = '}' then [.code c] else (Text.blankChar c).map .code

/-- The tokens that a view has in the place of a token sequence inside `depth` blocks. -/
def shownTokens : (depth : Nat) → List Token → List Token
  | _, [] => []
  | depth, t :: ts => t.inView depth ++ shownTokens (t.depthAfter depth) ts

theorem shown_cons (depth : Nat) (t : Token) (ts : List Token) :
    shown depth (t :: ts) = shown depth [t] ++ shown (t.depthAfter depth) ts :=
  shown_append depth [t] ts

/-- Blanks open and close nothing. -/
theorem depthAfter_blank {s : Text} (hs : ∀ c ∈ s, c = ' ' ∨ c = '\n') (depth : Nat) :
    depthAfter depth (s.map .code) = depth := by
  induction s with
  | nil => rfl
  | cons c cs ih =>
    have hc : (Token.code c).depthAfter depth = depth := by
      rcases hs c List.mem_cons_self with rfl | rfl <;> rfl
    rw [List.map_cons, depthAfter_cons, hc, ih fun d hd => hs d (List.mem_cons_of_mem _ hd)]

/-- Blanks are shown at every depth. -/
theorem shown_blank {s : Text} (hs : ∀ c ∈ s, c = ' ' ∨ c = '\n') (depth : Nat) :
    shown depth (s.map .code) = s := by
  induction s with
  | nil => cases depth <;> rfl
  | cons c cs ih =>
    have hc : (Token.code c).depthAfter depth = depth ∧ shown depth [.code c] = [c] := by
      rcases hs c List.mem_cons_self with rfl | rfl <;> cases depth <;> exact ⟨rfl, rfl⟩
    rw [List.map_cons, shown_cons, hc.1, hc.2, ih fun d hd => hs d (List.mem_cons_of_mem _ hd)]
    rfl

theorem shown_code_outer (c : Char) : shown 0 [.code c] = [c] := by simp only [shown]

theorem shown_code_inner {c : Char} {depth : Nat} (h : ¬(depth = 0 ∧ c = '}')) :
    shown (depth + 1) [.code c] = Text.blankChar c := by
  by_cases hopen : c = '{'
  · subst hopen
    rfl
  · by_cases hclose : c = '}'
    · subst hclose
      have hdepth : depth ≠ 0 := fun hdepth => h ⟨hdepth, rfl⟩
      have hshown : shown (depth + 1) [.code '}'] = [' '] := by simp [shown, hdepth]
      exact hshown
    · simp [shown, hopen, hclose]

/-- The tokens of a view make up what is shown. -/
theorem flatMap_text_shown (depth : Nat) (t : Token) :
    (t.inView depth).flatMap Token.text = shown depth [t] := by
  have hcode : ∀ s : Text, (s.map Token.code).flatMap Token.text = s := fun s => by
    simp [List.flatMap_map, Token.text]
  cases t with
  | trivia kind text =>
    simp only [Token.inView, shown, List.append_nil]
    split
    · simp [Token.text]
    · exact hcode _
  | code c =>
    simp only [Token.inView]
    split
    · rename_i hkept
      rcases hkept with rfl | ⟨rfl, rfl⟩
      · exact (shown_code_outer c).symm
      · rfl
    · rename_i hhidden
      obtain ⟨depth, rfl⟩ := Nat.exists_eq_succ_of_ne_zero fun h => hhidden (.inl h)
      rw [hcode, shown_code_inner fun h => hhidden (.inr ⟨by rw [h.1], h.2⟩)]

/-- What is shown of a token starts with a blank or like the token. -/
theorem head_shown_token {depth : Nat} {t : Token} {x : Char} (hx : x ∈ (shown depth [t]).head?) :
    x = ' ' ∨ x = '\n' ∨ t.text.head? = some x := by
  cases t with
  | trivia kind text =>
    simp only [shown, List.append_nil] at hx
    split at hx
    · exact .inr (.inr hx)
    · exact (Text.eq_of_mem_blankAll (List.mem_of_mem_head? hx)).imp_right .inl
  | code c =>
    cases depth with
    | zero =>
      rw [shown_code_outer] at hx
      exact .inr (.inr hx)
    | succ depth =>
      by_cases hclose : depth = 0 ∧ c = '}'
      · obtain ⟨rfl, rfl⟩ := hclose
        exact .inr (.inr hx)
      · rw [shown_code_inner hclose] at hx
        exact (Text.eq_of_mem_blankChar (List.mem_of_mem_head? hx)).imp_right .inl

/-- A view starts with a blank or like the text. -/
theorem head_shown {depth : Nat} {s : Text} {x : Char} (hx : x ∈ (shown depth (tokens s)).head?) :
    x = ' ' ∨ x = '\n' ∨ s.head? = some x := by
  have htext := flatMap_text_tokens s
  cases htokens : tokens s with
  | nil =>
    rw [htokens] at hx
    cases depth <;> simp [shown] at hx
  | cons t ts =>
    have hne : t.text ≠ [] := text_ne_nil_of_mem_tokens (htokens ▸ List.mem_cons_self)
    have hshown : shown depth [t] ≠ [] := by
      intro hnil
      have hlen := byteLength_shown depth [t]
      obtain ⟨c, cs, hcs⟩ := List.exists_cons_of_ne_nil hne
      have hsize := c.utf8Size_pos
      simp only [hnil, List.flatMap_cons, List.flatMap_nil, List.append_nil, hcs,
        Text.byteLength_nil,
        Text.byteLength_cons] at hlen
      omega
    rw [htokens, shown_cons, List.head?_append_of_ne_nil _ hshown] at hx
    rw [htokens, List.flatMap_cons] at htext
    rw [← htext, List.head?_append_of_ne_nil _ hne]
    exact head_shown_token hx

/-- Blanks are lexed as code. -/
theorem tokens_blank_append {s : Text} (hs : ∀ c ∈ s, c = ' ' ∨ c = '\n') (t : Text) :
    tokens (s ++ t) = s.map .code ++ tokens t := by
  refine tokens_append_of_code (fun c hc => ?_) t
  rcases hs c hc with rfl | rfl <;> decide

/-- Code that is shown stays code. -/
theorem triviaAt?_shown {c : Char} {cs : Text} (h : triviaAt? c cs = none) (depth : Nat) :
    triviaAt? c (shown depth (tokens cs)) = none := by
  obtain ⟨hquote, hapostrophe, hslash⟩ := triviaAt?_eq_none_iff.mp h
  refine triviaAt?_eq_none_iff.mpr ⟨hquote, hapostrophe, fun hc => ⟨fun hx => ?_, fun hx => ?_⟩⟩
  · rcases head_shown hx with h | h | h
    · exact absurd h (by decide)
    · exact absurd h (by decide)
    · exact (hslash hc).1 h
  · rcases head_shown hx with h | h | h
    · exact absurd h (by decide)
    · exact absurd h (by decide)
    · exact (hslash hc).2 h

/-- A documentation comment is found again behind what precedes it, closed or not. -/
theorem tokens_doc_append {c : Char} {cs : Text} {k : Nat} (h : triviaAt? c cs = some (.doc, k))
    (depth : Nat) :
    tokens (c :: cs.take k ++ shown depth (tokens (cs.drop k))) =
      .trivia .doc (c :: cs.take k) :: tokens (shown depth (tokens (cs.drop k))) := by
  have htokens := tokens_of_triviaAt? h
  obtain ⟨rest, rfl, rfl, _, htake⟩ := exists_of_triviaAt?_doc h
  rcases closes_take_or rest with hclosed | ⟨hall, _⟩
  · have hend : ['*', '/'] <:+ '/' :: ('*' :: '*' :: rest).take k := by
      obtain ⟨prose, hprose⟩ := hclosed.exists_eq_append
      exact ⟨'/' :: '*' :: '*' :: prose, by rw [htake, hprose]; rfl⟩
    exact (@isDoc_of_tokens_eq _ _ [] _ htokens hend).tokens_append _
  · -- a comment that nothing closes runs to the end
    have hnil : ('*' :: '*' :: rest).drop k = [] := by
      have hsplit := List.take_append_drop k ('*' :: '*' :: rest)
      rw [htake, hall] at hsplit
      exact List.append_cancel_left (hsplit.trans (List.append_nil _).symm)
    have hshown : shown depth (tokens []) = [] := by cases depth <;> rfl
    rw [htake, hall, hnil] at htokens
    rw [htake, hall, hnil, hshown, List.append_nil]
    exact htokens

/-- Lexing a view finds the tokens that are shown, and blanks. -/
theorem tokens_shown (depth : Nat) (s : Text) :
    tokens (shown depth (tokens s)) = shownTokens depth (tokens s) := by
  induction hlen : s.length using Nat.strong_induction_on generalizing depth s with
  | h n ih =>
    cases s with
    | nil => cases depth <;> rfl
    | cons c cs =>
      rw [List.length_cons] at hlen
      cases htrivia : triviaAt? c cs with
      | some found =>
        obtain ⟨kind, k⟩ := found
        have hrest := ih (cs.drop k).length (by simp; omega) depth (cs.drop k) rfl
        rw [tokens_of_triviaAt? htrivia, shownTokens, Token.inView, Token.depthAfter,
          ← hrest, shown]
        split
        · rename_i hdoc
          obtain ⟨rfl, rfl⟩ := hdoc
          exact tokens_doc_append htrivia 0
        · exact tokens_blank_append (fun d => Text.eq_of_mem_blankAll) _
      | none =>
        have hrest := ih cs.length (by omega) ((Token.code c).depthAfter depth) cs rfl
        rw [tokens_of_code htrivia, shownTokens, Token.inView, ← hrest, shown_cons]
        split
        · rename_i hkept
          have hshown : shown depth [.code c] = [c] := by
            rcases hkept with rfl | ⟨rfl, rfl⟩
            · exact shown_code_outer c
            · rfl
          rw [hshown]
          exact tokens_of_code (triviaAt?_shown htrivia _)
        · rename_i hhidden
          obtain ⟨depth, rfl⟩ := Nat.exists_eq_succ_of_ne_zero fun h => hhidden (.inl h)
          rw [shown_code_inner fun h => hhidden (.inr ⟨by rw [h.1], h.2⟩)]
          exact tokens_blank_append (fun d => Text.eq_of_mem_blankChar) _

-- ---------------------------------------------------------------------------
-- The view of a view
-- ---------------------------------------------------------------------------

/-- What is shown of a token is shown again. Inside blocks a view shows no braces but the last one,
so that at most one block is open. -/
theorem shown_shown_token (depth : Nat) (t : Token) :
    shown (min depth 1) (t.inView depth) = shown depth [t] ∧
      depthAfter (min depth 1) (t.inView depth) = min (t.depthAfter depth) 1 := by
  cases t with
  | trivia kind text =>
    simp only [Token.inView, shown, List.append_nil, Token.depthAfter]
    split
    · rename_i hdoc
      obtain ⟨rfl, rfl⟩ := hdoc
      exact ⟨by simp [shown], rfl⟩
    · have hblank := fun d => @Text.eq_of_mem_blankAll text d
      exact ⟨shown_blank hblank _, depthAfter_blank hblank _⟩
  | code c =>
    simp only [Token.inView]
    split
    · rename_i hkept
      rcases hkept with rfl | ⟨rfl, rfl⟩
      · refine ⟨rfl, ?_⟩
        simp only [depthAfter_cons, depthAfter_nil, Token.depthAfter, Nat.zero_min, Nat.zero_add]
        split
        · rfl
        · split <;> rfl
      · exact ⟨rfl, rfl⟩
    · rename_i hhidden
      obtain ⟨depth, rfl⟩ := Nat.exists_eq_succ_of_ne_zero fun h => hhidden (.inl h)
      have hblank := fun d => @Text.eq_of_mem_blankChar c d
      rw [shown_blank hblank, depthAfter_blank hblank,
        shown_code_inner fun h => hhidden (.inr ⟨by rw [h.1], h.2⟩)]
      refine ⟨rfl, ?_⟩
      simp only [Token.depthAfter]
      split
      · omega
      · split
        · rename_i hclose
          have hdepth : depth ≠ 0 := fun h => hhidden (.inr ⟨by rw [h], hclose⟩)
          omega
        · rfl

theorem shown_shownTokens (depth : Nat) (ts : List Token) :
    shown (min depth 1) (shownTokens depth ts) = shown depth ts := by
  induction ts generalizing depth with
  | nil => rw [shownTokens]; simp [shown]
  | cons t ts ih =>
    obtain ⟨hshown, hdepth⟩ := shown_shown_token depth t
    rw [shownTokens, shown_append, hshown, hdepth, ih, ← shown_cons]

/-- Code is no documentation. -/
theorem filterMap_docSpan?_code (pos depth : Nat) (s : Text) :
    (outer pos depth (s.map .code)).filterMap docSpan? = [] := by
  induction s generalizing pos depth with
  | nil => rfl
  | cons c cs ih =>
    rw [List.map_cons, outer, List.filterMap_append, ih, List.append_nil]
    split <;> rfl

theorem docs_shown_token (pos depth : Nat) (t : Token) :
    (outer pos (min depth 1) (t.inView depth)).filterMap docSpan? =
      (outer pos depth [t]).filterMap docSpan? := by
  have hone : outer pos depth [t] = if depth = 0 then [(pos, t)] else [] := List.append_nil _
  rw [hone]
  cases t with
  | trivia kind text =>
    simp only [Token.inView]
    split
    · rename_i hdoc
      obtain ⟨rfl, rfl⟩ := hdoc
      rfl
    · rename_i hhidden
      rw [filterMap_docSpan?_code]
      split
      · rename_i hdepth
        cases kind with
        | doc => exact absurd ⟨hdepth, rfl⟩ hhidden
        | comment => rfl
        | literal => rfl
      · rfl
  | code c =>
    have hnone : (if depth = 0 then [(pos, Token.code c)] else []).filterMap docSpan? = [] := by
      split <;> rfl
    have hcode : ∃ s : Text, (Token.code c).inView depth = s.map .code := by
      simp only [Token.inView]
      split
      · exact ⟨[c], rfl⟩
      · exact ⟨_, rfl⟩
    obtain ⟨s, hs⟩ := hcode
    rw [hnone, hs, filterMap_docSpan?_code]

theorem docs_shownTokens (pos depth : Nat) (ts : List Token) :
    (outer pos (min depth 1) (shownTokens depth ts)).filterMap docSpan? =
      (outer pos depth ts).filterMap docSpan? := by
  induction ts generalizing pos depth with
  | nil => rfl
  | cons t ts ih =>
    have hlen : Text.byteLength ((t.inView depth).flatMap Token.text) = Text.byteLength t.text := by
      rw [flatMap_text_shown, byteLength_shown, List.flatMap_cons, List.flatMap_nil,
        List.append_nil]
    have hcons := outer_append pos depth [t] ts
    rw [List.flatMap_cons, List.flatMap_nil, List.append_nil, depthAfter_cons,
      depthAfter_nil] at hcons
    rw [shownTokens, outer_append, List.filterMap_append, docs_shown_token, hlen,
      (shown_shown_token depth t).2, ih, ← List.filterMap_append, ← hcons]
    rfl

/-- Masking is idempotent: a view is its own view, with the same documentation comments. -/
theorem mask_mask (s : Text) : mask (mask s).text = mask s := by
  rw [mask_text_eq_shown, mask_eq (shown 0 (tokens s)), tokens_shown, mask_eq]
  have htext := shown_shownTokens 0 (tokens s)
  have hdocs := docs_shownTokens 0 0 (tokens s)
  rw [Nat.zero_min] at htext hdocs
  rw [htext, hdocs]

end Typings.Source
