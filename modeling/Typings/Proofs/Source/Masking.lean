import Typings.Proofs.Source.Lexing
import Typings.Proofs.Text.Bytes
import Typings.Source.Mask

/-!
# What a masked text shows

Masking collects spans and blanks them afterwards. The result is known token by token: at the outer
level documentation comments and code stay, everything else is blanked. A block is the text
between a brace and the brace that matches it; its inside is blanked as a whole. Main statements:
`mask_text_eq_shown` and `blockEnd?_eq_some_iff`.
-/

namespace Typings.Source

-- ---------------------------------------------------------------------------
-- Depth
-- ---------------------------------------------------------------------------

/-- How many blocks are open after a token when `depth` are open before it. A closing brace outside
all blocks closes none. -/
def Token.depthAfter (depth : Nat) : Token → Nat
  | .trivia _ _ => depth
  | .code c => if c = '{' then depth + 1 else if c = '}' then depth - 1 else depth

/-- How many blocks are open after a token sequence when `depth` are open before it. -/
def depthAfter (depth : Nat) (ts : List Token) : Nat := ts.foldl Token.depthAfter depth

/-- How many blocks are open after a token sequence when `depth` are open before it; none when it
closes more than that. -/
def level? : (depth : Nat) → List Token → Option Nat
  | depth, [] => some depth
  | depth, .trivia _ _ :: ts => level? depth ts
  | depth, .code c :: ts =>
    if c = '{' then level? (depth + 1) ts
    else if c = '}' then
      match depth with
      | 0 => none
      | outer + 1 => level? outer ts
    else level? depth ts

@[simp] theorem depthAfter_nil (depth : Nat) : depthAfter depth [] = depth := rfl

@[simp] theorem depthAfter_cons (depth : Nat) (t : Token) (ts : List Token) :
    depthAfter depth (t :: ts) = depthAfter (t.depthAfter depth) ts := rfl

theorem depthAfter_append (depth : Nat) (ts us : List Token) :
    depthAfter depth (ts ++ us) = depthAfter (depthAfter depth ts) us := List.foldl_append

theorem level?_append (depth : Nat) (ts us : List Token) :
    level? depth (ts ++ us) = (level? depth ts).bind (level? · us) := by
  induction ts generalizing depth with
  | nil => rfl
  | cons t ts ih =>
    cases t with
    | trivia kind text => exact ih depth
    | code c =>
      simp only [List.cons_append, level?]
      split
      · exact ih _
      · split
        · cases depth with
          | zero => rfl
          | succ outer => exact ih outer
        · exact ih _

/-- More blocks that are open before stay open. -/
theorem level?_add {depth final : Nat} {ts : List Token} (h : level? depth ts = some final)
    (more : Nat) : level? (depth + more) ts = some (final + more) := by
  induction ts generalizing depth with
  | nil =>
    obtain rfl : depth = final := by simpa [level?] using h
    rfl
  | cons t ts ih =>
    cases t with
    | trivia kind text => exact ih h
    | code c =>
      simp only [level?] at h ⊢
      split at h
      · rename_i hopen
        rw [if_pos hopen, Nat.add_right_comm]
        exact ih h
      · rename_i hopen
        rw [if_neg hopen]
        split at h
        · rename_i hclose
          rw [if_pos hclose]
          cases depth with
          | zero => simp at h
          | succ d =>
            rw [Nat.add_right_comm]
            exact ih h
        · rename_i hclose
          rw [if_neg hclose]
          exact ih h

theorem depthAfter_eq_of_level? {depth final : Nat} {ts : List Token}
    (h : level? depth ts = some final) : depthAfter depth ts = final := by
  induction ts generalizing depth with
  | nil => simpa [level?] using h
  | cons t ts ih =>
    cases t with
    | trivia kind text => exact ih h
    | code c =>
      simp only [level?] at h
      simp only [depthAfter_cons, Token.depthAfter]
      split at h
      · rename_i hopen
        rw [if_pos hopen]
        exact ih h
      · rename_i hopen
        rw [if_neg hopen]
        split at h
        · rename_i hclose
          rw [if_pos hclose]
          cases depth with
          | zero => simp at h
          | succ d => exact ih h
        · rename_i hclose
          rw [if_neg hclose]
          exact ih h

/-- Open blocks that are all closed are closed one after another. -/
theorem exists_level?_of_depthAfter {depth : Nat} {ts : List Token}
    (h : depthAfter (depth + 1) ts = 0) :
    ∃ us vs, ts = us ++ .code '}' :: vs ∧ level? depth us = some 0 ∧ depthAfter 0 vs = 0 := by
  induction ts generalizing depth with
  | nil => simp at h
  | cons t ts ih =>
    cases t with
    | trivia kind text =>
      obtain ⟨us, vs, rfl, hus, hvs⟩ := ih h
      exact ⟨.trivia kind text :: us, vs, rfl, hus, hvs⟩
    | code c =>
      simp only [depthAfter_cons, Token.depthAfter] at h
      split at h
      · rename_i hopen
        obtain ⟨us, vs, rfl, hus, hvs⟩ := ih h
        exact ⟨.code c :: us, vs, rfl, by simp [level?, hopen, hus], hvs⟩
      · rename_i hopen
        split at h
        · rename_i hclose
          subst hclose
          cases depth with
          | zero => exact ⟨[], ts, rfl, rfl, h⟩
          | succ d =>
            obtain ⟨us, vs, rfl, hus, hvs⟩ := ih h
            exact ⟨.code '}' :: us, vs, rfl, by simp [level?, hus], hvs⟩
        · rename_i hclose
          obtain ⟨us, vs, rfl, hus, hvs⟩ := ih h
          exact ⟨.code c :: us, vs, rfl, by simp [level?, hopen, hclose, hus], hvs⟩

-- ---------------------------------------------------------------------------
-- Shown text
-- ---------------------------------------------------------------------------

/-- What masking shows of a token sequence inside `depth` blocks. -/
def shown : (depth : Nat) → List Token → Text
  | _, [] => []
  | depth, .trivia kind text :: ts =>
    (if depth = 0 ∧ kind = .doc then text else Text.blankAll text) ++ shown depth ts
  | 0, .code c :: ts => c :: shown (if c = '{' then 1 else 0) ts
  | depth + 1, .code c :: ts =>
    if c = '{' then ' ' :: shown (depth + 2) ts
    else if c = '}' then (if depth = 0 then '}' else ' ') :: shown depth ts
    else Text.blankChar c ++ shown (depth + 1) ts

theorem shown_append (depth : Nat) (ts us : List Token) :
    shown depth (ts ++ us) = shown depth ts ++ shown (depthAfter depth ts) us := by
  induction ts generalizing depth with
  | nil => cases depth <;> rfl
  | cons t ts ih =>
    cases t with
    | trivia kind text => simp [shown, Token.depthAfter, ih]
    | code c =>
      cases depth with
      | zero =>
        simp only [List.cons_append, shown, depthAfter_cons, Token.depthAfter, ih]
        by_cases hopen : c = '{'
        · simp [hopen]
        · simp [hopen]
      | succ depth =>
        simp only [List.cons_append, shown, depthAfter_cons, Token.depthAfter, ih]
        by_cases hopen : c = '{'
        · simp [hopen]
        · by_cases hclose : c = '}'
          · simp [hclose]
          · simp [hopen, hclose]

/-- The inside of a block is blanked. -/
theorem shown_eq_blankAll {depth final : Nat} {ts : List Token} (h : level? depth ts = some final) :
    shown (depth + 1) ts = Text.blankAll (ts.flatMap Token.text) := by
  induction ts generalizing depth with
  | nil => rfl
  | cons t ts ih =>
    cases t with
    | trivia kind text =>
      have hts := ih h
      simp [shown, Token.text, hts]
    | code c =>
      simp only [level?] at h
      simp only [shown, List.flatMap_cons, Text.blankAll_append, Token.text]
      split at h
      · rename_i hopen
        rw [if_pos hopen, ih h, hopen]
        rfl
      · rename_i hopen
        rw [if_neg hopen]
        split at h
        · rename_i hclose
          rw [if_pos hclose, hclose]
          cases depth with
          | zero => simp at h
          | succ d =>
            rw [ih h]
            rfl
        · rename_i hclose
          rw [if_neg hclose, ih h]
          simp

/-- Masking keeps offsets. -/
theorem byteLength_shown (depth : Nat) (ts : List Token) :
    Text.byteLength (shown depth ts) = Text.byteLength (ts.flatMap Token.text) := by
  induction ts generalizing depth with
  | nil => cases depth <;> rfl
  | cons t ts ih =>
    cases t with
    | trivia kind text =>
      simp only [shown, List.flatMap_cons, Token.text, Text.byteLength_append, ih]
      split
      · rfl
      · rw [Text.byteLength_blankAll]
    | code c =>
      cases depth with
      | zero => simp [shown, Token.text, ih]
      | succ depth =>
        simp only [shown, List.flatMap_cons, Token.text, Text.byteLength_append]
        split
        · rename_i hopen
          subst hopen
          rw [Text.byteLength_cons, ih]
          rfl
        · split
          · rename_i hclose
            subst hclose
            have hsize : (if depth = 0 then '}' else ' ').utf8Size = 1 := by split <;> rfl
            rw [Text.byteLength_cons, ih, hsize]
            rfl
          · simp [ih]

/-- The blanked regions of a token sequence lie after its offset, except for the block that is
open there, which comes first. -/
theorem regions_blanked (ts : List Token) :
    (∀ pos start, ∀ s ∈ (regions pos 0 start ts).blanked, pos ≤ s.start) ∧
    (∀ pos depth start, ∃ stop later,
      (regions pos (depth + 1) start ts).blanked = ⟨start, stop⟩ :: later ∧ pos ≤ stop ∧
        ∀ s ∈ later, stop ≤ s.start) := by
  induction ts with
  | nil =>
    refine ⟨?_, ?_⟩
    · intro pos start s hs
      simp [regions] at hs
    · intro pos depth start
      exact ⟨pos, [], rfl, Nat.le_refl _, by simp⟩
  | cons t ts ih =>
    obtain ⟨ihOuter, ihInner⟩ := ih
    cases t with
    | trivia kind text =>
      refine ⟨?_, ?_⟩
      · intro pos start s hs
        simp only [regions] at hs
        split at hs
        · exact Nat.le_trans (Nat.le_add_right _ _) (ihOuter _ start s hs)
        · rcases List.mem_cons.mp hs with rfl | hs
          · exact Nat.le_refl _
          · exact Nat.le_trans (Nat.le_add_right _ _) (ihOuter _ start s hs)
      · intro pos depth start
        obtain ⟨stop, later, heq, hstop, hlater⟩ := ihInner (pos + Text.byteLength text) depth start
        exact ⟨stop, later, heq, by omega, hlater⟩
    | code c =>
      refine ⟨?_, ?_⟩
      · intro pos start s hs
        simp only [regions] at hs
        split at hs
        · obtain ⟨stop, later, heq, hstop, hlater⟩ := ihInner (pos + 1) 0 (pos + 1)
          rw [heq] at hs
          rcases List.mem_cons.mp hs with rfl | hs
          · exact Nat.le_succ pos
          · have := hlater s hs
            omega
        · exact Nat.le_trans (Nat.le_add_right _ _) (ihOuter _ start s hs)
      · intro pos depth start
        simp only [regions]
        split
        · obtain ⟨stop, later, heq, hstop, hlater⟩ := ihInner (pos + 1) (depth + 1) start
          exact ⟨stop, later, heq, by omega, hlater⟩
        · split
          · cases depth with
            | zero =>
              refine ⟨pos, _, rfl, Nat.le_refl _, ?_⟩
              intro s hs
              exact Nat.le_of_succ_le (ihOuter (pos + 1) start s hs)
            | succ depth =>
              obtain ⟨stop, later, heq, hstop, hlater⟩ := ihInner (pos + 1) depth start
              exact ⟨stop, later, heq, by omega, hlater⟩
          · obtain ⟨stop, later, heq, hstop, hlater⟩ := ihInner (pos + c.utf8Size) depth start
            exact ⟨stop, later, heq, by omega, hlater⟩

theorem utf8Size_openBrace : '{'.utf8Size = 1 := rfl

theorem utf8Size_closeBrace : '}'.utf8Size = 1 := rfl

/-- Outside all blocks, what lies before a token sequence is in none of its regions. -/
theorem covers_regions_outer {ts : List Token} {pos start i : Nat} (hi : i < pos) :
    Span.covers (regions pos 0 start ts).blanked i = false := by
  refine Span.covers_eq_false_iff.mpr fun s hs hle => ?_
  have := (regions_blanked ts).1 pos start s hs
  omega

/-- A block starts after its brace. -/
theorem covers_regions_opened {ts : List Token} {pos i : Nat} (hi : i < pos) :
    Span.covers (regions pos 1 pos ts).blanked i = false := by
  obtain ⟨stop, later, heq, hstop, hlater⟩ := (regions_blanked ts).2 pos 0 pos
  rw [heq, Span.covers_eq_false_iff]
  intro s hs hle
  rcases List.mem_cons.mp hs with rfl | hs
  · simp only at hle
    omega
  · have := hlater s hs
    omega

/-- What is read of an open block is in its region. -/
theorem covers_regions_inner {ts : List Token} {pos depth start i : Nat} (hlo : start ≤ i)
    (hi : i < pos) : Span.covers (regions pos (depth + 1) start ts).blanked i = true := by
  obtain ⟨stop, later, heq, hstop, _⟩ := (regions_blanked ts).2 pos depth start
  rw [heq, Span.covers_eq_true_iff]
  exact ⟨_, List.mem_cons_self, hlo, by simp only; omega⟩

/-- A region that ends at or before an offset does not matter from there on. -/
theorem blankWhere_covers_cons {r : Span} {spans : List Span} {pos : Nat} (h : r.stop ≤ pos)
    (s : Text) :
    Text.blankWhere (Span.covers (r :: spans)) pos s =
      Text.blankWhere (Span.covers spans) pos s := by
  refine Text.blankWhere_congr fun i hlo _ => ?_
  have hout : r.contains i = false := by
    simp only [Span.contains, Bool.and_eq_false_iff, decide_eq_false_iff_not]
    omega
  rw [Span.covers_cons, hout, Bool.false_or]

/-- Whether blanking the regions of a token sequence shows it token by token, wherever it starts. -/
def ShowsRegions (ts : List Token) : Prop :=
  ∀ {pos depth start : Nat}, (0 < depth → start ≤ pos) →
    Text.blankWhere (Span.covers (regions pos depth start ts).blanked) pos (ts.flatMap Token.text) =
      shown depth ts

theorem ShowsRegions.trivia {ts : List Token} (h : ShowsRegions ts) (kind : Trivia) (text : Text) :
    ShowsRegions (.trivia kind text :: ts) := by
  intro pos depth start hstart
  have hrest := @h (pos + Text.byteLength text) depth start (by omega)
  rw [List.flatMap_cons, Text.blankWhere_append]
  cases depth with
  | zero =>
    simp only [regions, Token.text, shown, true_and]
    split
    · rw [Text.blankWhere_of_shown fun i _ hi => covers_regions_outer hi, hrest]
    · have hhidden : ∀ i, pos ≤ i → i < pos + Text.byteLength text →
          Span.covers (⟨pos, pos + Text.byteLength text⟩ ::
            (regions (pos + Text.byteLength text) 0 start ts).blanked) i = true :=
        fun i hlo hhi => Span.covers_eq_true_iff.mpr ⟨_, List.mem_cons_self, hlo, hhi⟩
      rw [Text.blankWhere_of_hidden hhidden, blankWhere_covers_cons (Nat.le_refl _), hrest]
  | succ depth =>
    have hle : start ≤ pos := hstart (Nat.succ_pos depth)
    have hhidden : ∀ i, pos ≤ i → i < pos + Text.byteLength text →
        Span.covers (regions (pos + Text.byteLength text) (depth + 1) start ts).blanked i = true :=
      fun i hlo hhi => covers_regions_inner (by omega) hhi
    simp only [regions, Token.text, shown, Nat.succ_ne_zero, false_and, ↓reduceIte]
    rw [Text.blankWhere_of_hidden hhidden, hrest]

/-- Outside all blocks a character of the code is shown. -/
theorem ShowsRegions.code_outer {ts : List Token} (h : ShowsRegions ts) (c : Char)
    (pos start : Nat) :
    Text.blankWhere (Span.covers (regions pos 0 start (.code c :: ts)).blanked) pos
      ((Token.code c :: ts).flatMap Token.text) = shown 0 (.code c :: ts) := by
  have hsize := c.utf8Size_pos
  by_cases hopen : c = '{'
  · subst hopen
    have hrest := @h (pos + 1) 1 (pos + 1) fun _ => Nat.le_refl _
    have hkept : Span.covers (regions (pos + 1) 1 (pos + 1) ts).blanked pos = false :=
      covers_regions_opened (Nat.lt_succ_self pos)
    simpa [regions, shown, Token.text, Text.blankWhere, hkept, utf8Size_openBrace] using hrest
  · have hrest := @h (pos + c.utf8Size) 0 start (by omega)
    have hkept : Span.covers (regions (pos + c.utf8Size) 0 start ts).blanked pos = false :=
      covers_regions_outer (by omega)
    simpa [regions, shown, Token.text, Text.blankWhere, hopen, hkept] using hrest

/-- In a block a character of the code is hidden, except for the brace that ends the
outermost one. -/
theorem ShowsRegions.code_inner {ts : List Token} (h : ShowsRegions ts) (c : Char) {pos start : Nat}
    (depth : Nat) (hle : start ≤ pos) :
    Text.blankWhere (Span.covers (regions pos (depth + 1) start (.code c :: ts)).blanked) pos
      ((Token.code c :: ts).flatMap Token.text) = shown (depth + 1) (.code c :: ts) := by
  have hsize := c.utf8Size_pos
  by_cases hopen : c = '{'
  · subst hopen
    have hrest := @h (pos + 1) (depth + 2) start (by omega)
    have hhidden : Span.covers (regions (pos + 1) (depth + 2) start ts).blanked pos = true :=
      covers_regions_inner hle (Nat.lt_succ_self pos)
    simpa [regions, shown, Token.text, Text.blankWhere, hhidden, Text.blankChar, utf8Size_openBrace]
      using hrest
  · by_cases hclose : c = '}'
    · subst hclose
      have hrest := @h (pos + 1) depth start (by omega)
      cases depth with
      | zero =>
        have hkept : Span.covers (⟨start, pos⟩ ::
            (regions (pos + 1) 0 start ts).blanked) pos = false := by
          rw [Span.covers_cons, covers_regions_outer (Nat.lt_succ_self pos)]
          simp [Span.contains]
        have hskip := @blankWhere_covers_cons ⟨start, pos⟩
          (regions (pos + 1) 0 start ts).blanked (pos + 1) (Nat.le_succ pos)
          (ts.flatMap Token.text)
        rw [hrest] at hskip
        simpa [regions, shown, Token.text, Text.blankWhere, hkept, utf8Size_closeBrace] using hskip
      | succ depth =>
        have hhidden : Span.covers (regions (pos + 1) (depth + 1) start ts).blanked pos = true :=
          covers_regions_inner hle (Nat.lt_succ_self pos)
        simpa [regions, shown, Token.text, Text.blankWhere, hhidden, Text.blankChar,
          utf8Size_closeBrace] using hrest
    · have hrest := @h (pos + c.utf8Size) (depth + 1) start (by omega)
      have hhidden : Span.covers
          (regions (pos + c.utf8Size) (depth + 1) start ts).blanked pos = true :=
        covers_regions_inner hle (by omega)
      simpa [regions, shown, Token.text, Text.blankWhere, hopen, hclose, hhidden] using hrest

/-- Blanking the regions of a token sequence shows it token by token. -/
theorem showsRegions (ts : List Token) : ShowsRegions ts := by
  induction ts with
  | nil =>
    intro pos depth start _
    cases depth <;> rfl
  | cons t ts ih =>
    cases t with
    | trivia kind text => exact ih.trivia kind text
    | code c =>
      intro pos depth start hstart
      cases depth with
      | zero => exact ih.code_outer c pos start
      | succ depth => exact ih.code_inner c depth (hstart (Nat.succ_pos depth))

theorem mask_text_eq_shown (s : Text) : (mask s).text = shown 0 (tokens s) := by
  have h := @showsRegions (tokens s) 0 0 0 (by simp)
  rw [flatMap_text_tokens] at h
  rw [mask, Text.blank_eq_blankWhere, h]

-- ---------------------------------------------------------------------------
-- The outer level
-- ---------------------------------------------------------------------------

/-- The tokens outside all blocks with their offsets, in a token sequence at offset `pos` inside
`depth` blocks. -/
def outer : (pos depth : Nat) → List Token → List (Nat × Token)
  | _, _, [] => []
  | pos, depth, t :: ts =>
    (if depth = 0 then [(pos, t)] else []) ++
      outer (pos + Text.byteLength t.text) (t.depthAfter depth) ts

theorem outer_append (pos depth : Nat) (ts us : List Token) :
    outer pos depth (ts ++ us) = outer pos depth ts ++
      outer (pos + Text.byteLength (ts.flatMap Token.text)) (depthAfter depth ts) us := by
  induction ts generalizing pos depth with
  | nil => rfl
  | cons t ts ih => simp [outer, ih, Nat.add_assoc]

/-- Nothing in a block is outside all blocks. -/
theorem outer_eq_nil {pos depth final : Nat} {ts : List Token} (h : level? depth ts = some final) :
    outer pos (depth + 1) ts = [] := by
  induction ts generalizing pos depth with
  | nil => rfl
  | cons t ts ih =>
    cases t with
    | trivia kind text => simpa [outer, Token.depthAfter] using ih h
    | code c =>
      simp only [level?] at h
      simp only [outer, Token.depthAfter, Nat.succ_ne_zero, ↓reduceIte, List.nil_append]
      split at h
      · rename_i hopen
        rw [if_pos hopen]
        exact ih h
      · rename_i hopen
        rw [if_neg hopen]
        split at h
        · rename_i hclose
          rw [if_pos hclose]
          cases depth with
          | zero => simp at h
          | succ d => exact ih h
        · rename_i hclose
          rw [if_neg hclose]
          exact ih h

/-- A token outside all blocks divides the token sequence. -/
theorem exists_append_of_mem_outer {pos depth i : Nat} {t : Token} {ts : List Token}
    (h : (i, t) ∈ outer pos depth ts) :
    ∃ us vs, ts = us ++ t :: vs ∧ depthAfter depth us = 0 ∧
      i = pos + Text.byteLength (us.flatMap Token.text) := by
  induction ts generalizing pos depth with
  | nil => simp [outer] at h
  | cons u ts ih =>
    rcases List.mem_append.mp h with h | h
    · by_cases hdepth : depth = 0
      · simp only [hdepth, ↓reduceIte, List.mem_singleton, Prod.mk.injEq] at h
        obtain ⟨rfl, rfl⟩ := h
        exact ⟨[], ts, rfl, hdepth, rfl⟩
      · simp [hdepth] at h
    · obtain ⟨us, vs, rfl, hus, rfl⟩ := ih h
      exact ⟨u :: us, vs, rfl, hus, by simp [Nat.add_assoc]⟩

/-- The span of a documentation comment. -/
def docSpan? : Nat × Token → Option Span
  | (pos, .trivia .doc text) => some ⟨pos, pos + Text.byteLength text⟩
  | _ => none

theorem regions_docs (pos depth start : Nat) (ts : List Token) :
    (regions pos depth start ts).docs = (outer pos depth ts).filterMap docSpan? := by
  induction ts generalizing pos depth start with
  | nil => cases depth <;> rfl
  | cons t ts ih =>
    rw [outer, List.filterMap_append]
    cases t with
    | trivia kind text =>
      cases depth with
      | zero =>
        simp only [regions, Token.text, Token.depthAfter, ← ih _ 0 start]
        cases kind <;> rfl
      | succ depth => simp [regions, Token.text, Token.depthAfter, ih]
    | code c =>
      have hcode : (if depth = 0 then [(pos, Token.code c)] else []).filterMap docSpan? = [] := by
        split <;> rfl
      rw [hcode, List.nil_append]
      cases depth with
      | zero =>
        simp only [regions, Token.text, Token.depthAfter]
        split
        · rename_i hopen
          subst hopen
          exact ih _ _ _
        · rw [ih]
          simp
      | succ depth =>
        simp only [regions, Token.text, Token.depthAfter]
        split
        · rename_i hopen
          subst hopen
          exact ih _ _ _
        · split
          · rename_i hclose
            subst hclose
            have hrest := ih (pos + 1) depth start
            split
            · exact hrest
            · exact hrest
          · rw [ih]
            simp

/-- A view is known from the tokens of the text. -/
theorem mask_eq (s : Text) :
    mask s = ⟨shown 0 (tokens s), (outer 0 0 (tokens s)).filterMap docSpan?⟩ := by
  rw [← mask_text_eq_shown, ← regions_docs 0 0 0]
  rfl

-- ---------------------------------------------------------------------------
-- Blocks
-- ---------------------------------------------------------------------------

/-- The text between a brace and the brace that matches it. -/
structure IsBlock (s : Text) : Prop where
  whole : Whole s
  closed : level? 0 (tokens s) = some 0

theorem closingBrace?_append {pos depth final : Nat} {ts : List Token}
    (h : level? depth ts = some final) (us : List Token) :
    closingBrace? pos depth (ts ++ us) =
      closingBrace? (pos + Text.byteLength (ts.flatMap Token.text)) final us := by
  induction ts generalizing pos depth with
  | nil =>
    obtain rfl : depth = final := by simpa [level?] using h
    rfl
  | cons t ts ih =>
    rw [List.flatMap_cons, Text.byteLength_append, ← Nat.add_assoc]
    cases t with
    | trivia kind text => exact ih h
    | code c =>
      simp only [List.cons_append, closingBrace?, level?] at h ⊢
      split at h
      · rename_i hopen
        subst hopen
        exact ih h
      · rename_i hopen
        rw [if_neg hopen]
        split at h
        · rename_i hclose
          subst hclose
          cases depth with
          | zero => simp at h
          | succ d => exact ih h
        · rename_i hclose
          rw [if_neg hclose, ih h]
          simp [Token.text]

/-- The brace that ends a block is the first that closes what was open before. -/
theorem exists_append_of_closingBrace? {pos depth close : Nat} {ts : List Token}
    (h : closingBrace? pos depth ts = some close) :
    ∃ us vs, ts = us ++ .code '}' :: vs ∧ level? depth us = some 0 ∧
      close = pos + Text.byteLength (us.flatMap Token.text) := by
  induction ts generalizing pos depth with
  | nil => simp [closingBrace?] at h
  | cons t ts ih =>
    cases t with
    | trivia kind text =>
      obtain ⟨us, vs, rfl, hus, rfl⟩ := ih h
      exact ⟨.trivia kind text :: us, vs, rfl, hus, by simp [Token.text, Nat.add_assoc]⟩
    | code c =>
      simp only [closingBrace?] at h
      split at h
      · rename_i hopen
        subst hopen
        obtain ⟨us, vs, rfl, hus, rfl⟩ := ih h
        exact ⟨.code '{' :: us, vs, rfl, hus,
          by simp [Token.text, utf8Size_openBrace, Nat.add_assoc]⟩
      · rename_i hopen
        split at h
        · rename_i hclose
          subst hclose
          cases depth with
          | zero => exact ⟨[], ts, rfl, rfl, by simpa using h.symm⟩
          | succ d =>
            obtain ⟨us, vs, rfl, hus, rfl⟩ := ih h
            exact ⟨.code '}' :: us, vs, rfl, hus,
              by simp [Token.text, utf8Size_closeBrace, Nat.add_assoc]⟩
        · rename_i hclose
          obtain ⟨us, vs, rfl, hus, rfl⟩ := ih h
          exact ⟨.code c :: us, vs, rfl, by simp [level?, hopen, hclose, hus],
            by simp [Token.text, Nat.add_assoc]⟩

theorem blockEnd?_append (s t : Text) :
    blockEnd? (s ++ '{' :: t) (Text.byteLength s) =
      closingBrace? (Text.byteLength s + 1) 0 (tokens t) := by
  unfold blockEnd?
  rw [Text.suffixAt?_append]
  rfl

/-- The end of a block that follows a brace is the brace after the block. -/
theorem IsBlock.blockEnd?_eq {block : Text} (h : IsBlock block) (s t : Text) :
    blockEnd? (s ++ '{' :: (block ++ '}' :: t)) (Text.byteLength s) =
      some (Text.byteLength s + 1 + Text.byteLength block) := by
  rw [blockEnd?_append, h.whole.tokens_append (.inr rfl), closingBrace?_append h.closed,
    flatMap_text_tokens]
  rfl

/-- A brace has an end exactly when a block and a closing brace follow it. -/
theorem blockEnd?_eq_some_iff {s : Text} {brace close : Nat} :
    blockEnd? s brace = some close ↔
      ∃ before block after, s = before ++ '{' :: (block ++ '}' :: after) ∧
        brace = Text.byteLength before ∧ close = brace + 1 + Text.byteLength block ∧
        IsBlock block := by
  constructor
  · intro h
    unfold blockEnd? at h
    split at h
    · rename_i inside hsuffix
      obtain ⟨before, rfl, rfl⟩ := Text.suffixAt?_eq_some_iff.mp hsuffix
      obtain ⟨us, vs, htokens, hclosed, rfl⟩ := exists_append_of_closingBrace? h
      obtain ⟨block, after, rfl, hwhole, rfl, rfl⟩ :=
        exists_whole_of_tokens_eq (.inr rfl) htokens
      exact ⟨before, block, after, rfl, rfl, by rw [flatMap_text_tokens], hwhole, hclosed⟩
    · simp at h
  · rintro ⟨before, block, after, rfl, rfl, rfl, hblock⟩
    exact hblock.blockEnd?_eq before after

/-- What stands from a brace on is cut from the text after the brace. -/
theorem slice_brace (s t : Text) (close : Nat) :
    Text.slice (s ++ '{' :: t) (Text.byteLength s + 1) close =
      Text.takeBytes (close - (Text.byteLength s + 1)) t := by
  have hlen : Text.byteLength (s ++ ['{']) = Text.byteLength s + 1 := by
    simp [utf8Size_openBrace]
  have hdrop := Text.dropBytes_append (s ++ ['{']) t
  rw [hlen, List.append_assoc, List.singleton_append] at hdrop
  rw [Text.slice, hdrop]

/-- What stands between the braces of a block. -/
theorem slice_block (s block t : Text) :
    Text.slice (s ++ '{' :: (block ++ '}' :: t)) (Text.byteLength s + 1)
      (Text.byteLength s + 1 + Text.byteLength block) = block := by
  rw [slice_brace, Nat.add_sub_cancel_left, Text.takeBytes_append]

namespace IsBlock

variable {before block after : Text}

theorem tokens_eq (h : IsBlock block) (hbefore : Whole before) (after : Text) :
    tokens (before ++ '{' :: (block ++ '}' :: after)) =
      tokens before ++ .code '{' :: (tokens block ++ .code '}' :: tokens after) := by
  rw [hbefore.tokens_append (.inl rfl), h.whole.tokens_append (.inr rfl)]

/-- A block closes what it opens, however many blocks are open around it. -/
theorem depthAfter_eq (h : IsBlock block) (depth : Nat) :
    depthAfter (depth + 1) (tokens block) = depth + 1 :=
  depthAfter_eq_of_level? (by simpa using level?_add h.closed (depth + 1))

theorem level?_eq (h : IsBlock block) (hbefore : Whole before) (depth : Nat) (after : Text) :
    level? depth (tokens (before ++ '{' :: (block ++ '}' :: after))) =
      (level? depth (tokens before)).bind (level? · (tokens after)) := by
  rw [h.tokens_eq hbefore, level?_append]
  congr 1
  funext d
  have hblock := level?_add h.closed (d + 1)
  rw [Nat.zero_add] at hblock
  show level? (d + 1) _ = _
  rw [level?_append, hblock]
  rfl

/-- What masking shows of a text with a block at its outer level. -/
theorem shown_eq (h : IsBlock block) (hbefore : Whole before)
    (hdepth : depthAfter 0 (tokens before) = 0) (after : Text) :
    shown 0 (tokens (before ++ '{' :: (block ++ '}' :: after))) =
      shown 0 (tokens before) ++ '{' :: (Text.blankAll block ++ '}' :: shown 0 (tokens after)) := by
  have hblock := shown_eq_blankAll h.closed
  rw [flatMap_text_tokens] at hblock
  rw [h.tokens_eq hbefore, shown_append, hdepth]
  simp only [shown, ↓reduceIte]
  rw [shown_append, hblock, h.depthAfter_eq]
  rfl

/-- The tokens at the outer level of a text with a block there. -/
theorem outer_eq (h : IsBlock block) (hbefore : Whole before)
    (hdepth : depthAfter 0 (tokens before) = 0) (after : Text) :
    outer 0 0 (tokens (before ++ '{' :: (block ++ '}' :: after))) =
      outer 0 0 (tokens before) ++ (Text.byteLength before, .code '{') ::
        outer (Text.byteLength before + 1 + Text.byteLength block + 1) 0 (tokens after) := by
  rw [h.tokens_eq hbefore, outer_append, hdepth, flatMap_text_tokens, Nat.zero_add]
  congr 1
  simp only [outer, ↓reduceIte, List.singleton_append]
  congr 1
  show outer (Text.byteLength before + 1) 1 _ = _
  rw [outer_append, outer_eq_nil h.closed, h.depthAfter_eq, flatMap_text_tokens]
  rfl

/-- In a block, a block may be replaced by another. -/
theorem replace {other : Text} (h : IsBlock (before ++ '{' :: (block ++ '}' :: after)))
    (hbefore : Whole before) (hblock : IsBlock block) (hother : IsBlock other) :
    IsBlock (before ++ '{' :: (other ++ '}' :: after)) := by
  have hafter : Whole after :=
    (h.whole.of_append hbefore (.inl rfl)).of_append hblock.whole (.inr rfl)
  refine ⟨hbefore.append (.inl rfl) (hother.whole.append (.inr rfl) hafter), ?_⟩
  rw [hother.level?_eq hbefore, ← hblock.level?_eq hbefore]
  exact h.closed

end IsBlock

end Typings.Source
