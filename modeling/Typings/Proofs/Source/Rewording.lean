import Typings.Proofs.Source.DocComments
import Typings.Proofs.Source.Noninterference

/-!
# Texts that differ in one documentation comment

Two texts are rewordings of each other when they differ in the words of one documentation comment,
with the same layout. Their tokens agree elsewhere, so at the level of the comment their masked
views differ in the comment only, and at levels around it they do not differ at all. Main
statements: `Reworded.mask_eq_of_hidden`, `Reworded.exists_views` and `Reworded.blockEnd?_eq`.
-/

namespace Typings.Source

/-- Texts that differ in the documentation comment between two offsets only, with the
same layout. -/
inductive Reworded : Span → Text → Text → Prop
  | intro {s t d d' : Text} {ts us : List Token} (left : tokens s = ts ++ .trivia .doc d :: us)
      (right : tokens t = ts ++ .trivia .doc d' :: us) (hd : IsDoc d) (hd' : IsDoc d')
      (hblank : Text.blankAll d = Text.blankAll d') :
      Reworded ⟨Text.byteLength (ts.flatMap Token.text),
        Text.byteLength (ts.flatMap Token.text) + Text.byteLength d⟩ s t

theorem eq_append_of_tokens_eq {s : Text} {ts us : List Token} {tok : Token}
    (h : tokens s = ts ++ tok :: us) :
    s = ts.flatMap Token.text ++ (tok.text ++ us.flatMap Token.text) := by
  rw [← flatMap_text_tokens s, h]
  simp

theorem IsDoc.byteLength_pos {d : Text} (h : IsDoc d) : 0 < Text.byteLength d := by
  obtain ⟨r, rfl, _⟩ := h
  have := Char.utf8Size_pos '/'
  rw [Text.byteLength_cons]
  omega

-- ---------------------------------------------------------------------------
-- One comment for another
-- ---------------------------------------------------------------------------

/-- Texts that hold documentation comments of the same layout between two offsets and agree
elsewhere. -/
structure Swap (block : Span) (d d' before after s t : Text) : Prop where
  left : s = before ++ (d ++ after)
  right : t = before ++ (d' ++ after)
  isDoc : IsDoc d
  isDoc' : IsDoc d'
  blank : Text.blankAll d = Text.blankAll d'
  start : Text.byteLength before = block.start
  stop : block.start + Text.byteLength d = block.stop

namespace Swap

variable {block : Span} {d d' before after s t : Text}

theorem symm (h : Swap block d d' before after s t) : Swap block d' d before after t s :=
  ⟨h.right, h.left, h.isDoc', h.isDoc, h.blank.symm, h.start,
    Text.byteLength_eq_of_blankAll_eq h.blank ▸ h.stop⟩

theorem start_lt_stop (h : Swap block d d' before after s t) : block.start < block.stop := by
  have hpos := h.isDoc.byteLength_pos
  have hstop := h.stop
  omega

/-- The text up to the end of the comment, and the rest. -/
theorem left_eq (h : Swap block d d' before after s t) :
    s = before ++ d ++ after ∧ Text.byteLength (before ++ d) = block.stop :=
  ⟨by rw [h.left, List.append_assoc], by rw [Text.byteLength_append, h.start, h.stop]⟩

theorem byteLength_eq (h : Swap block d d' before after s t) :
    Text.byteLength s = Text.byteLength t := by
  rw [h.left_eq.1, h.symm.left_eq.1, Text.byteLength_append, h.left_eq.2, Text.byteLength_append,
    h.symm.left_eq.2]

theorem stop_le_byteLength (h : Swap block d d' before after s t) :
    block.stop ≤ Text.byteLength s := by
  rw [h.left_eq.1, Text.byteLength_append, h.left_eq.2]
  exact Nat.le_add_right _ _

theorem takeBytes_of_le (h : Swap block d d' before after s t) {n : Nat} (hn : n ≤ block.start) :
    Text.takeBytes n s = Text.takeBytes n t := by
  rw [h.left, h.right, Text.takeBytes_append_of_le (h.start ▸ hn),
    Text.takeBytes_append_of_le (h.start ▸ hn)]

theorem takeBytes_add (h : Swap block d d' before after s t) (k : Nat) :
    Text.takeBytes (block.stop + k) s = before ++ d ++ Text.takeBytes k after := by
  rw [h.left_eq.1, ← h.left_eq.2, Text.takeBytes_append_add]

theorem dropBytes_add (h : Swap block d d' before after s t) (k : Nat) :
    Text.dropBytes (block.stop + k) s = Text.dropBytes k after := by
  rw [h.left_eq.1, ← h.left_eq.2, Text.dropBytes_append_add]

theorem dropBytes_of_le (h : Swap block d d' before after s t) {n : Nat} (hn : block.stop ≤ n) :
    Text.dropBytes n s = Text.dropBytes n t := by
  obtain ⟨k, rfl⟩ := Nat.exists_eq_add_of_le hn
  rw [h.dropBytes_add, h.symm.dropBytes_add]

theorem suffixAt?_of_le (h : Swap block d d' before after s t) {n : Nat} (hn : block.stop ≤ n) :
    Text.suffixAt? n s = Text.suffixAt? n t := by
  obtain ⟨k, rfl⟩ := Nat.exists_eq_add_of_le hn
  have hleft := Text.suffixAt?_append_add (before ++ d) after k
  have hright := Text.suffixAt?_append_add (before ++ d') after k
  rw [h.left_eq.2, ← h.left_eq.1] at hleft
  rw [h.symm.left_eq.2, ← h.symm.left_eq.1] at hright
  rw [hleft, hright]

/-- The character before an offset is the same behind both comments. -/
theorem getLast?_takeBytes_of_le (h : Swap block d d' before after s t) {n : Nat}
    (hn : block.stop ≤ n) : (Text.takeBytes n s).getLast? = (Text.takeBytes n t).getLast? := by
  obtain ⟨k, rfl⟩ := Nat.exists_eq_add_of_le hn
  obtain ⟨u, hu⟩ := h.isDoc.exists_eq_append
  obtain ⟨u', hu'⟩ := h.isDoc'.exists_eq_append
  have hslash : ∀ w : Text, (before ++ (w ++ ['/'])).getLast? = some '/' := by simp
  rw [h.takeBytes_add, h.symm.takeBytes_add, hu, hu', List.getLast?_append,
    List.getLast?_append (l := before ++ _), hslash, hslash]

/-- The matches of a pattern around the comments. -/
theorem around (h : Swap block d d' before after s t) {p : Declaration.Shape}
    (hat : ∀ b, p.AgreeAt .doc block.stop ⟨b, block.start, d ++ after⟩
      ⟨b, block.start, d' ++ after⟩)
    (hs : p.Clear s block) (ht : p.Clear t block) :
    Match.Around .doc block (p.allMatches s) (p.allMatches t) := by
  have hhead : ∀ {c : Text}, IsDoc c → c.head? = some '/' := by
    rintro _ ⟨r, rfl, _⟩
    rfl
  rw [h.left] at hs ⊢
  rw [h.right] at ht ⊢
  exact Pattern.around_allMatches .doc h.start h.stop h.symm.stop (hhead h.isDoc) (hhead h.isDoc')
    (by rw [h.isDoc.lastOr_eq, h.isDoc'.lastOr_eq]) (hat _) hs ht

end Swap

-- ---------------------------------------------------------------------------
-- Tokens
-- ---------------------------------------------------------------------------

/-- The tokens of a text do not change around a documentation comment that changes. -/
theorem tokens_eq_of_reword {s d d' : Text} {ts us : List Token}
    (h : tokens s = ts ++ .trivia .doc d :: us) (hd : IsDoc d) (hd' : IsDoc d') :
    tokens (ts.flatMap Token.text ++ (d' ++ us.flatMap Token.text)) =
      ts ++ .trivia .doc d' :: us := by
  have hrest : tokens (d ++ us.flatMap Token.text) = .trivia .doc d :: us := tokens_flatMap_text h
  have hs : s = ts.flatMap Token.text ++ (d ++ us.flatMap Token.text) := eq_append_of_tokens_eq h
  have hlast := hd'.tokens_append (us.flatMap Token.text)
  rw [hd.tokens_append] at hrest
  rw [(List.cons.inj hrest).2] at hlast
  rw [← hlast]
  rw [hs, ← hrest, ← hd.tokens_append] at h
  obtain ⟨r, rfl, _⟩ := hd
  obtain ⟨r', rfl, _⟩ := hd'
  exact tokens_append_of_fitsFor (by decide) (by decide) h rfl (fitsFor_cons '/' _)

/-- One token stands at each offset. -/
theorem append_inj_of_byteLength {ts us vs ws : List Token} {t u : Token}
    (h : ts ++ t :: us = vs ++ u :: ws)
    (hlen : Text.byteLength (ts.flatMap Token.text) = Text.byteLength (vs.flatMap Token.text))
    (ht : 0 < Text.byteLength t.text) (hu : 0 < Text.byteLength u.text) : ts = vs := by
  rcases List.append_eq_append_iff.mp h with ⟨xs, rfl, hxs⟩ | ⟨xs, rfl, hxs⟩
  · cases xs with
    | nil => simp
    | cons x xs =>
      obtain ⟨rfl, _⟩ := List.cons.inj hxs
      simp only [List.flatMap_append, List.flatMap_cons, Text.byteLength_append] at hlen
      omega
  · cases xs with
    | nil => simp
    | cons x xs =>
      obtain ⟨rfl, _⟩ := List.cons.inj hxs
      simp only [List.flatMap_append, List.flatMap_cons, Text.byteLength_append] at hlen
      omega

-- ---------------------------------------------------------------------------
-- Views
-- ---------------------------------------------------------------------------

/-- What masking shows of a documentation comment, and around it. -/
theorem shown_append_doc (ts us : List Token) (d : Text) :
    shown 0 (ts ++ .trivia .doc d :: us) = shown 0 ts ++
      ((if depthAfter 0 ts = 0 then d else Text.blankAll d) ++ shown (depthAfter 0 ts) us) := by
  rw [shown_append]
  simp [shown]

theorem docs_append_doc (ts us : List Token) (d : Text) :
    (outer 0 0 (ts ++ .trivia .doc d :: us)).filterMap docSpan? =
      (outer 0 0 ts).filterMap docSpan? ++
        ((if depthAfter 0 ts = 0 then [⟨Text.byteLength (ts.flatMap Token.text),
            Text.byteLength (ts.flatMap Token.text) + Text.byteLength d⟩] else []) ++
          (outer (Text.byteLength (ts.flatMap Token.text) + Text.byteLength d) (depthAfter 0 ts)
            us).filterMap docSpan?) := by
  rw [outer_append, List.filterMap_append, Nat.zero_add, outer, List.filterMap_append]
  split <;> rfl

/-- A documentation comment of a level is a token outside all blocks. -/
theorem mem_docs_iff {s : Text} {block : Span} :
    block ∈ (mask s).docs ↔ ∃ ts d us, tokens s = ts ++ .trivia .doc d :: us ∧ depthAfter 0 ts = 0 ∧
      block = ⟨Text.byteLength (ts.flatMap Token.text),
        Text.byteLength (ts.flatMap Token.text) + Text.byteLength d⟩ := by
  constructor
  · intro h
    rw [mask_eq] at h
    obtain ⟨⟨i, tok⟩, hmem, hspan⟩ := List.mem_filterMap.mp h
    obtain ⟨ts, us, hts, hdepth, rfl⟩ := exists_append_of_mem_outer hmem
    cases tok with
    | code c => cases hspan
    | trivia kind text =>
      cases kind with
      | comment => cases hspan
      | literal => cases hspan
      | doc =>
        rw [Nat.zero_add] at hspan
        exact ⟨ts, text, us, hts, hdepth, (Option.some.inj hspan).symm⟩
  · rintro ⟨ts, d, us, hts, hdepth, rfl⟩
    rw [mask_eq, hts, docs_append_doc]
    simp [hdepth]

namespace Reworded

variable {block : Span} {s t : Text}

theorem byteLength_eq (h : Reworded block s t) : Text.byteLength s = Text.byteLength t := by
  obtain ⟨left, right, _, _, hblank⟩ := h
  rw [eq_append_of_tokens_eq left, eq_append_of_tokens_eq right]
  simp [Token.text, Text.byteLength_eq_of_blankAll_eq hblank]

/-- A level that does not show the comment does not tell the texts apart. -/
theorem mask_eq_of_hidden (h : Reworded block s t) (hhidden : block ∉ (mask s).docs) :
    mask s = mask t := by
  obtain ⟨left, right, hd, hd', hblank⟩ := h
  rename_i d d' ts us
  have hdepth : depthAfter 0 ts ≠ 0 := fun hdepth =>
    hhidden (mem_docs_iff.mpr ⟨ts, d, us, left, hdepth, rfl⟩)
  rw [mask_eq, mask_eq, left, right, shown_append_doc, shown_append_doc, docs_append_doc,
    docs_append_doc, Text.byteLength_eq_of_blankAll_eq hblank]
  simp [hdepth, hblank]

/-- The views and texts of a level that shows the comment: they differ in the comment only. -/
structure Views (block : Span) (d d' before after front back s t : Text) : Prop where
  view : Swap block d d' before after (mask s).text (mask t).text
  text : Swap block d d' front back s t
  docs : (mask s).docs = (mask t).docs

theorem exists_views (h : Reworded block s t) (hshown : block ∈ (mask s).docs) :
    ∃ d d' before after front back, Views block d d' before after front back s t := by
  obtain ⟨left, right, hd, hd', hblank⟩ := h
  rename_i d d' ts us
  have hlen := Text.byteLength_eq_of_blankAll_eq hblank
  have hdepth : depthAfter 0 ts = 0 := by
    obtain ⟨vs, text, ws, hvs, hdepth, hspan⟩ := mem_docs_iff.mp hshown
    obtain ⟨hstart, hstop⟩ := Span.mk.inj hspan
    have hpos := hd.byteLength_pos
    rw [append_inj_of_byteLength (left.symm.trans hvs) hstart hpos
      (by simp only [Token.text]; omega)]
    exact hdepth
  refine ⟨d, d', shown 0 ts, shown 0 us, ts.flatMap Token.text, us.flatMap Token.text, ?_, ?_, ?_⟩
  · refine ⟨?_, ?_, hd, hd', hblank, byteLength_shown 0 ts, rfl⟩
    · rw [mask_text_eq_shown, left, shown_append_doc, hdepth]
      rfl
    · rw [mask_text_eq_shown, right, shown_append_doc, hdepth]
      rfl
  · exact ⟨eq_append_of_tokens_eq left, eq_append_of_tokens_eq right, hd, hd', hblank, rfl, rfl⟩
  · rw [mask_eq, mask_eq, left, right, docs_append_doc, docs_append_doc, hlen]

end Reworded

-- ---------------------------------------------------------------------------
-- Blocks
-- ---------------------------------------------------------------------------

theorem closingBrace?_append_doc (pos depth : Nat) (ts us : List Token) {d d' : Text}
    (hlen : Text.byteLength d = Text.byteLength d') :
    closingBrace? pos depth (ts ++ .trivia .doc d :: us) =
      closingBrace? pos depth (ts ++ .trivia .doc d' :: us) := by
  induction ts generalizing pos depth with
  | nil => simp only [List.nil_append, closingBrace?, hlen]
  | cons t ts ih =>
    cases t with
    | trivia kind text => exact ih _ _
    | code c => simp only [List.cons_append, closingBrace?, ih]

/-- A token of code before or after a given one. -/
theorem code_before_or_after {ts us vs ws : List Token} {c : Char} {kind : Trivia} {text : Text}
    (h : ts ++ .trivia kind text :: us = vs ++ .code c :: ws) :
    (∃ xs, ts = vs ++ .code c :: xs ∧ ws = xs ++ .trivia kind text :: us) ∨
      ∃ xs, vs = ts ++ .trivia kind text :: xs ∧ us = xs ++ .code c :: ws := by
  rcases List.append_eq_append_iff.mp h with ⟨xs, rfl, hxs⟩ | ⟨xs, rfl, hxs⟩
  · cases xs with
    | nil => cases (List.cons.inj hxs).1
    | cons x xs =>
      obtain ⟨rfl, rfl⟩ := List.cons.inj hxs
      exact .inr ⟨xs, rfl, rfl⟩
  · cases xs with
    | nil => cases (List.cons.inj hxs).1
    | cons x xs =>
      obtain ⟨rfl, rfl⟩ := List.cons.inj hxs
      exact .inl ⟨xs, rfl, rfl⟩

theorem eq_of_tokens_eq {s t : Text} (h : tokens s = tokens t) : s = t := by
  rw [← flatMap_text_tokens s, h, flatMap_text_tokens]

/-- A block that opens before a comment either ends before it or holds it. -/
theorem blockEnd?_eq_of_before {s t d d' : Text} {vs xs us : List Token}
    (left : tokens s = vs ++ .code '{' :: (xs ++ .trivia .doc d :: us))
    (right : tokens t = vs ++ .code '{' :: (xs ++ .trivia .doc d' :: us)) (hd : IsDoc d)
    (hd' : IsDoc d') (hblank : Text.blankAll d = Text.blankAll d') {brace : Nat}
    (hbrace : brace = Text.byteLength (vs.flatMap Token.text)) :
    blockEnd? s brace = blockEnd? t brace ∧ ∀ close, blockEnd? s brace = some close →
      Text.slice s (brace + 1) close = Text.slice t (brace + 1) close ∨
      brace + 1 + Text.byteLength (xs.flatMap Token.text) + Text.byteLength d ≤ close ∧
        Reworded ⟨Text.byteLength (xs.flatMap Token.text),
            Text.byteLength (xs.flatMap Token.text) + Text.byteLength d⟩
          (Text.slice s (brace + 1) close) (Text.slice t (brace + 1) close) := by
  have hlen := Text.byteLength_eq_of_blankAll_eq hblank
  obtain ⟨before, inside, rfl, _, hbefore, hinside⟩ := exists_whole_of_tokens_eq (.inl rfl) left
  obtain ⟨before', inside', rfl, _, hbefore', hinside'⟩ :=
    exists_whole_of_tokens_eq (.inl rfl) right
  obtain rfl := eq_of_tokens_eq (hbefore.trans hbefore'.symm)
  rw [← hbefore, flatMap_text_tokens] at hbrace
  subst hbrace
  have hends : closingBrace? (Text.byteLength before + 1) 0 (tokens inside) =
      closingBrace? (Text.byteLength before + 1) 0 (tokens inside') := by
    rw [hinside, hinside', closingBrace?_append_doc _ _ _ _ hlen]
  rw [blockEnd?_append, blockEnd?_append]
  refine ⟨hends, fun close hclose => ?_⟩
  obtain ⟨ks, ls, hks, _, rfl⟩ := exists_append_of_closingBrace? hclose
  obtain ⟨block, after, rfl, _, hblock, _⟩ := exists_whole_of_tokens_eq (.inr rfl) hks
  rcases code_before_or_after (hinside.symm.trans hks) with ⟨ys, rfl, rfl⟩ | ⟨ys, rfl, rfl⟩
  · -- the block ends before the comment
    rw [List.append_assoc, List.cons_append] at hinside'
    obtain ⟨block', after', rfl, _, hblock', _⟩ := exists_whole_of_tokens_eq (.inr rfl) hinside'
    obtain rfl := eq_of_tokens_eq (hblock.trans hblock'.symm)
    rw [← hblock, flatMap_text_tokens, slice_block, slice_block]
    exact .inl rfl
  · rw [← List.cons_append, ← List.append_assoc] at hinside'
    obtain ⟨block', after', rfl, _, hblock', _⟩ := exists_whole_of_tokens_eq (.inr rfl) hinside'
    have hsize : Text.byteLength block = Text.byteLength block' := by
      rw [← flatMap_text_tokens block, ← flatMap_text_tokens block', hblock, hblock']
      simp [Token.text, hlen]
    have hslice := slice_block before block' after'
    rw [← hsize] at hslice
    rw [← hblock, flatMap_text_tokens, slice_block, hslice]
    refine .inr ⟨?_, .intro hblock hblock' hd hd' hblank⟩
    rw [← flatMap_text_tokens block, hblock]
    simp only [List.flatMap_append, List.flatMap_cons, Token.text, Text.byteLength_append]
    omega

/-- The blocks of code at a level end at the same offsets, and hold the same unless one holds the
comment. -/
theorem Reworded.blockEnd?_eq {block : Span} {s t : Text} (h : Reworded block s t) {brace : Nat}
    (hbrace : (brace, .code '{') ∈ outer 0 0 (tokens s)) :
    blockEnd? s brace = blockEnd? t brace ∧ ∀ close, blockEnd? s brace = some close →
      Text.slice s (brace + 1) close = Text.slice t (brace + 1) close ∨
      (brace < block.start ∧ block.stop ≤ close) ∧
        Reworded ⟨block.start - (brace + 1), block.stop - (brace + 1)⟩
          (Text.slice s (brace + 1) close) (Text.slice t (brace + 1) close) := by
  obtain ⟨left, right, hd, hd', hblank⟩ := h
  rename_i d d' ts us
  obtain ⟨vs, ws, hvs, _, rfl⟩ := exists_append_of_mem_outer hbrace
  rw [Nat.zero_add]
  rcases code_before_or_after (left.symm.trans hvs) with ⟨xs, rfl, rfl⟩ | ⟨xs, rfl, rfl⟩
  · rw [List.append_assoc, List.cons_append] at left right
    obtain ⟨hend, hbody⟩ := blockEnd?_eq_of_before left right hd hd' hblank rfl
    refine ⟨hend, fun close hclose => (hbody close hclose).imp id ?_⟩
    rintro ⟨hstop, hreword⟩
    simp only [List.flatMap_append, List.flatMap_cons, Token.text, Text.byteLength_append,
      Text.byteLength_cons, Text.byteLength_nil, utf8Size_openBrace]
    refine ⟨by omega, ?_⟩
    convert hreword using 2 <;> omega
  · -- a block that opens after the comment is read from its brace on
    rw [← List.cons_append, ← List.append_assoc] at right
    obtain ⟨before, inside, rfl, _, hbefore, hinside⟩ := exists_whole_of_tokens_eq (.inl rfl) hvs
    obtain ⟨before', inside', rfl, _, hbefore', hinside'⟩ :=
      exists_whole_of_tokens_eq (.inl rfl) right
    obtain rfl := eq_of_tokens_eq (hinside.trans hinside'.symm)
    have hsize : Text.byteLength before = Text.byteLength before' := by
      rw [← flatMap_text_tokens before, ← flatMap_text_tokens before', hbefore, hbefore']
      simp [Token.text, Text.byteLength_eq_of_blankAll_eq hblank]
    rw [← hbefore, flatMap_text_tokens]
    obtain ⟨hend, hslice⟩ := blockEnd?_eq_of_byteLength hsize inside
    exact ⟨hend, fun close _ => .inl (hslice close)⟩

-- ---------------------------------------------------------------------------
-- Offsets in comments
-- ---------------------------------------------------------------------------

/-- Halving finds the place that divides the spans that end at or before an offset from the rest. -/
theorem partitionPoint_eq {spans : Array Span} {offset point : Nat}
    (hbefore : ∀ j s, spans[j]? = some s → j < point → s.stop ≤ offset)
    (hafter : ∀ j s, spans[j]? = some s → point ≤ j → offset < s.stop) {fuel lo count : Nat}
    (hlo : lo ≤ point) (hhi : point ≤ lo + count) (hsize : lo + count ≤ spans.size)
    (hfuel : count ≤ fuel) : Span.partitionPoint spans offset fuel lo count = point := by
  induction fuel generalizing lo count with
  | zero =>
    rw [Span.partitionPoint]
    omega
  | succ fuel ih =>
    rw [Span.partitionPoint]
    split
    · omega
    · rename_i hcount
      have hget : spans[lo + count / 2]? = some (spans[lo + count / 2]) := by
        exact Array.getElem?_eq_getElem (by omega)
      simp only [hget]
      split
      · rename_i hle
        have hpoint : lo + count / 2 < point := by
          by_contra hge
          have := hafter _ _ hget (by omega)
          omega
        exact ih (by omega) (by omega) (by omega) (by omega)
      · rename_i hgt
        have hpoint : point ≤ lo + count / 2 := by
          by_contra hlt
          exact hgt (hbefore _ _ hget (by omega))
        exact ih hlo hpoint (by omega) (by omega)

/-- An offset in one of the spans of an ordered list is found. -/
theorem search_eq_true {spans : List Span} (horder : spans.Pairwise fun s t => s.stop ≤ t.start)
    {s : Span} (hs : s ∈ spans) {offset : Nat} (hin : s.start ≤ offset) (hout : offset < s.stop)
    (hspans : ∀ t ∈ spans, t.start ≤ t.stop) : Span.search spans offset = true := by
  obtain ⟨before, after, rfl⟩ := List.append_of_mem hs
  obtain ⟨_, hafter, hcross⟩ := List.pairwise_append.mp horder
  have hlater := (List.pairwise_cons.mp hafter).1
  have hget : ∀ j : Nat, (before ++ s :: after).toArray[j]? = (before ++ s :: after)[j]? := by
    intro j
    simp
  have hpoint := @partitionPoint_eq (before ++ s :: after).toArray offset before.length ?_ ?_
    (before ++ s :: after).toArray.size 0 (before ++ s :: after).toArray.size (Nat.zero_le _)
    (by simp) (by simp) (Nat.le_refl _)
  · rw [Span.search]
    simp only [hpoint, hget, List.getElem?_append_right (Nat.le_refl _), Nat.sub_self,
      List.getElem?_cons_zero, Span.contains, hin, hout, decide_true, Bool.and_self]
  · intro j t ht hj
    rw [hget, List.getElem?_append_left hj] at ht
    have := hcross t (List.mem_of_getElem? ht) s List.mem_cons_self
    omega
  · intro j t ht hj
    rw [hget, List.getElem?_append_right hj] at ht
    have hmem := List.mem_of_getElem? ht
    rcases List.mem_cons.mp hmem with rfl | hmem
    · exact hout
    · have hstart := hlater t hmem
      have hstop := hspans t (by simp [hmem])
      omega

theorem le_start_of_mem_outer {pos depth : Nat} {ts : List Token} {span : Span}
    (h : span ∈ (outer pos depth ts).filterMap docSpan?) :
    pos ≤ span.start ∧ span.start ≤ span.stop := by
  obtain ⟨⟨i, tok⟩, hmem, hspan⟩ := List.mem_filterMap.mp h
  obtain ⟨us, vs, _, _, rfl⟩ := exists_append_of_mem_outer hmem
  cases tok with
  | code c => cases hspan
  | trivia kind text =>
    cases kind with
    | doc =>
      obtain rfl := Option.some.inj hspan
      exact ⟨Nat.le_add_right _ _, Nat.le_add_right _ _⟩
    | comment => cases hspan
    | literal => cases hspan

/-- The documentation comments of a view follow one another. -/
theorem pairwise_docs (pos depth : Nat) (ts : List Token) :
    ((outer pos depth ts).filterMap docSpan?).Pairwise fun s t => s.stop ≤ t.start := by
  induction ts generalizing pos depth with
  | nil => exact .nil
  | cons t ts ih =>
    rw [outer, List.filterMap_append, List.pairwise_append]
    refine ⟨?_, ih _ _, fun span hspan later hlater => ?_⟩
    · split
      · rw [List.filterMap_cons]
        split <;> simp
      · exact .nil
    · have hle := (le_start_of_mem_outer hlater).1
      split at hspan
      · obtain ⟨⟨i, tok⟩, hmem, hfound⟩ := List.mem_filterMap.mp hspan
        obtain ⟨rfl, rfl⟩ := Prod.mk.inj (List.mem_singleton.mp hmem)
        cases tok with
        | code c => cases hfound
        | trivia kind text =>
          cases kind with
          | doc =>
            obtain rfl := Option.some.inj hfound
            exact hle
          | comment => cases hfound
          | literal => cases hfound
      · cases hspan

/-- An offset in a documentation comment that a view shows is known to be in one. -/
theorem inDoc_eq_true {s : Text} {block : Span} (hblock : block ∈ (mask s).docs) {offset : Nat}
    (hin : block.start ≤ offset) (hout : offset < block.stop) : (mask s).inDoc offset = true := by
  rw [mask_eq] at hblock
  rw [Masked.inDoc, mask_eq]
  exact search_eq_true (pairwise_docs 0 0 (tokens s)) hblock hin hout
    fun span hspan => (le_start_of_mem_outer hspan).2

end Typings.Source
