import Typings.Proofs.Source.Noninterference

/-!
# Reading a block on its own

The inside of a block is read anew, from its first character to the closing brace, as if nothing
stood around it. This finds what is found there in the text around the block: the same comments and
literals at the same places, and the same ends of the blocks inside. The cut at the brace takes
nothing away that the reading of a comment or literal looks at. So it is at every depth, where each
inside is cut from the one around it. Main statements: `blockEnd?_local` and `IsInside.readsAlike`.
-/

namespace Typings

/-- A span further on in a text. -/
def Span.shift (n : Nat) (s : Span) : Span := ⟨s.start + n, s.stop + n⟩

namespace Source

-- ---------------------------------------------------------------------------
-- Tokens and their offsets
-- ---------------------------------------------------------------------------

/-- The tokens of a token sequence at offset `pos`, each with its offset. -/
def withOffsets : (pos : Nat) → List Token → List (Nat × Token)
  | _, [] => []
  | pos, t :: ts => (pos, t) :: withOffsets (pos + Text.byteLength t.text) ts

theorem withOffsets_append (pos : Nat) (ts us : List Token) :
    withOffsets pos (ts ++ us) =
      withOffsets pos ts ++ withOffsets (pos + Text.byteLength (ts.flatMap Token.text)) us := by
  induction ts generalizing pos with
  | nil => rfl
  | cons t ts ih => simp [withOffsets, ih, Nat.add_assoc]

theorem withOffsets_add (pos n : Nat) (ts : List Token) :
    withOffsets (pos + n) ts = (withOffsets pos ts).map fun (i, t) => (i + n, t) := by
  induction ts generalizing pos with
  | nil => rfl
  | cons t ts ih => rw [withOffsets, Nat.add_right_comm, ih, withOffsets, List.map_cons]

/-- A token at an offset divides the token sequence. -/
theorem exists_append_of_mem_withOffsets {pos i : Nat} {t : Token} {ts : List Token}
    (h : (i, t) ∈ withOffsets pos ts) :
    ∃ us vs, ts = us ++ t :: vs ∧ i = pos + Text.byteLength (us.flatMap Token.text) := by
  induction ts generalizing pos with
  | nil => cases h
  | cons u ts ih =>
    rcases List.mem_cons.mp h with h | h
    · obtain ⟨rfl, rfl⟩ := Prod.mk.inj h
      exact ⟨[], ts, rfl, rfl⟩
    · obtain ⟨us, vs, rfl, rfl⟩ := ih h
      exact ⟨u :: us, vs, rfl, by simp [Nat.add_assoc]⟩

/-- The tokens of a text start in the text. -/
theorem offset_bounds {s : Text} {pos i : Nat} {t : Token}
    (h : (i, t) ∈ withOffsets pos (tokens s)) : pos ≤ i ∧ i < pos + Text.byteLength s := by
  obtain ⟨us, vs, hts, rfl⟩ := exists_append_of_mem_withOffsets h
  have htext := flatMap_text_tokens s
  obtain ⟨c, cs, hcs⟩ := List.exists_cons_of_ne_nil
    (text_ne_nil_of_mem_tokens (hts ▸ List.mem_append_right us List.mem_cons_self : t ∈ tokens s))
  have hsize := c.utf8Size_pos
  rw [← htext, hts, List.flatMap_append, List.flatMap_cons, hcs, Text.byteLength_append,
    List.cons_append, Text.byteLength_cons]
  omega

/-- The kind and the span of a comment or literal. -/
def triviaSpan? : Nat × Token → Option (Trivia × Span)
  | (pos, .trivia kind text) => some (kind, ⟨pos, pos + Text.byteLength text⟩)
  | (_, .code _) => none

theorem triviaSpans_eq (pos : Nat) (ts : List Token) :
    triviaSpans pos ts = (withOffsets pos ts).filterMap triviaSpan? := by
  induction ts generalizing pos with
  | nil => rfl
  | cons t ts ih =>
    rw [withOffsets, List.filterMap_cons, ← ih]
    cases t with
    | trivia kind text => rfl
    | code c => exact triviaSpans_code pos c ts

/-- A comment or literal divides the token sequence. -/
theorem exists_append_of_mem_triviaSpans {pos : Nat} {ts : List Token} {kind : Trivia} {span : Span}
    (h : (kind, span) ∈ triviaSpans pos ts) :
    ∃ us text vs, ts = us ++ .trivia kind text :: vs ∧
      span = ⟨pos + Text.byteLength (us.flatMap Token.text),
        pos + Text.byteLength (us.flatMap Token.text) + Text.byteLength text⟩ := by
  rw [triviaSpans_eq] at h
  obtain ⟨⟨start, t⟩, hmem, hspan⟩ := List.mem_filterMap.mp h
  obtain ⟨us, vs, rfl, rfl⟩ := exists_append_of_mem_withOffsets hmem
  cases t with
  | trivia other text =>
    obtain ⟨rfl, rfl⟩ := Prod.mk.inj (Option.some.inj hspan)
    exact ⟨us, text, vs, rfl, rfl⟩
  | code c => cases hspan

/-- Comments and literals move with the text. -/
theorem map_shift_triviaSpans (n : Nat) (ts : List Token) :
    (triviaSpans 0 ts).map (fun (kind, span) => (kind, span.shift n)) = triviaSpans n ts := by
  have hshift : ∀ found : Nat × Token, triviaSpan? (found.1 + n, found.2) =
      (triviaSpan? found).map fun (kind, span) => (kind, span.shift n) := by
    rintro ⟨pos, t⟩
    cases t with
    | trivia kind text => simp [triviaSpan?, Span.shift, Nat.add_right_comm]
    | code c => rfl
  have hadd := withOffsets_add 0 n ts
  rw [Nat.zero_add] at hadd
  rw [triviaSpans_eq, triviaSpans_eq, hadd, List.filterMap_map, List.map_filterMap]
  exact List.filterMap_congr fun found _ => (hshift found).symm

-- ---------------------------------------------------------------------------
-- Blocks in a text
-- ---------------------------------------------------------------------------

/-- A brace of the code divides the text. -/
theorem exists_whole_of_mem_withOffsets {s : Text} {brace : Nat}
    (h : (brace, .code '{') ∈ withOffsets 0 (tokens s)) :
    ∃ before inside, s = before ++ '{' :: inside ∧ brace = Text.byteLength before ∧
    Whole before := by
  obtain ⟨us, vs, hts, rfl⟩ := exists_append_of_mem_withOffsets h
  obtain ⟨before, inside, rfl, hwhole, rfl, _⟩ := exists_whole_of_tokens_eq (.inl rfl) hts
  exact ⟨before, inside, rfl, by rw [flatMap_text_tokens, Nat.zero_add], hwhole⟩

/-- A block between two braces of the code. -/
theorem exists_block_of_blockEnd? {s : Text} {o c : Nat}
    (hopen : (o, .code '{') ∈ withOffsets 0 (tokens s))
    (hclose : blockEnd? s o = some c) :
    ∃ before block after, s = before ++ '{' :: (block ++ '}' :: after) ∧
    o = Text.byteLength before ∧
      c = o + 1 + Text.byteLength block ∧ Whole before ∧ IsBlock block := by
  obtain ⟨before, inside, hs, ho, hwhole⟩ := exists_whole_of_mem_withOffsets hopen
  obtain ⟨front, block, after, hsplit, hfront, hc, hblock⟩ := blockEnd?_eq_some_iff.mp hclose
  obtain ⟨rfl, _⟩ := Text.append_inj_of_byteLength (hsplit.symm.trans hs) (hfront.symm.trans ho)
  exact ⟨front, block, after, hsplit, hfront, hc, hwhole, hblock⟩

/-- What closes the blocks that are open also closes the last of them. -/
theorem exists_closingBrace?_of_level? {ts : List Token} {outer final depth : Nat}
    (hfinal : final ≤ outer)
    (h : level? (outer + 1 + depth) ts = some final) (pos : Nat) :
    ∃ close, closingBrace? pos depth ts = some close := by
  induction ts generalizing pos depth with
  | nil =>
    have hlevel : outer + 1 + depth = final := Option.some.inj h
    omega
  | cons t ts ih =>
    cases t with
    | trivia kind text => exact ih h _
    | code c =>
      simp only [level?] at h
      simp only [closingBrace?]
      split at h
      · rename_i hopen
        have hdeeper : level? (outer + 1 + (depth + 1)) ts = some final := h
        rw [if_pos hopen]
        exact ih hdeeper _
      · rename_i hopen
        rw [if_neg hopen]
        split at h
        · rename_i hclose
          rw [if_pos hclose]
          cases depth with
          | zero => exact ⟨pos, rfl⟩
          | succ depth => exact ih h _
        · rename_i hclose
          rw [if_neg hclose]
          exact ih h _

/-- A block that opens inside a block is closed there. -/
theorem IsBlock.exists_inner {block : Text} (h : IsBlock block) {p : Nat}
    (hp : (p, .code '{') ∈ withOffsets 0 (tokens block)) :
    ∃ front inner rest, block = front ++ '{' :: (inner ++ '}' :: rest) ∧ p = Text.byteLength front ∧
      Whole front ∧ IsBlock inner := by
  obtain ⟨front, inside, rfl, rfl, hwhole⟩ := exists_whole_of_mem_withOffsets hp
  have hlevel := h.closed
  rw [hwhole.tokens_append (.inl rfl), level?_append, Option.bind_eq_some_iff] at hlevel
  obtain ⟨outer, -, houter⟩ := hlevel
  have hinside : level? (outer + 1 + 0) (tokens inside) = some 0 := houter
  obtain ⟨e, he⟩ := exists_closingBrace?_of_level? (Nat.zero_le outer) hinside
    (Text.byteLength front + 1)
  obtain ⟨front', inner, rest, hsplit, hfront, -, -, hinner⟩ :=
    exists_block_of_blockEnd? hp ((blockEnd?_append front inside).trans he)
  obtain ⟨rfl, _⟩ := Text.append_inj_of_byteLength hsplit hfront
  exact ⟨front, inner, rest, hsplit, hfront, hwhole, hinner⟩

-- ---------------------------------------------------------------------------
-- The inside of a block
-- ---------------------------------------------------------------------------

/-- What is found in a part of a text from offset `o + 1` up to offset `c` when the part is read on
its own: what is found between the two offsets in the text. -/
structure ReadsAlike (s : Text) (o c : Nat) (part : Text) : Prop where
  tokens_eq : (withOffsets 0 (tokens part)).map (fun (i, t) => (i + (o + 1), t)) =
    (withOffsets 0 (tokens s)).filter fun found => o < found.1 && found.1 < c
  trivia_eq : (triviaSpans 0 (tokens part)).map (fun (kind, span) => (kind, span.shift (o + 1))) =
    (triviaSpans 0 (tokens s)).filter fun found => o < found.2.start && found.2.start < c
  /-- Each block in the part is closed in it, where it is closed in the text. -/
  blocks : ∀ p, (p, .code '{') ∈ withOffsets 0 (tokens part) →
    ∃ e, blockEnd? part p = some e ∧ blockEnd? s (o + 1 + p) = some (o + 1 + e)

/-- The tokens of a block are the tokens between its braces. -/
theorem filter_withOffsets_block {before block : Text} (hwhole : Whole before)
    (hblock : IsBlock block)
    (after : Text) :
    (withOffsets 0 (tokens (before ++ '{' :: (block ++ '}' :: after)))).filter (fun found =>
        Text.byteLength before < found.1 && found.1 <
          Text.byteLength before + 1 + Text.byteLength block) =
      withOffsets (Text.byteLength before + 1) (tokens block) := by
  have hsplit : withOffsets 0 (tokens (before ++ '{' :: (block ++ '}' :: after))) =
      withOffsets 0 (tokens before) ++ (Text.byteLength before, .code '{') ::
        (withOffsets (Text.byteLength before + 1) (tokens block) ++
          (Text.byteLength before + 1 + Text.byteLength block, .code '}') ::
            withOffsets (Text.byteLength before + 1 + Text.byteLength block + 1)
              (tokens after)) := by
    rw [hblock.tokens_eq hwhole, withOffsets_append, flatMap_text_tokens, Nat.zero_add, withOffsets,
      withOffsets_append, withOffsets]
    simp only [Token.text, Text.byteLength_cons, Text.byteLength_nil, utf8Size_openBrace,
      utf8Size_closeBrace, flatMap_text_tokens, Nat.add_zero]
  have hbefore : ∀ found ∈ withOffsets 0 (tokens before), found.1 < Text.byteLength before := by
    intro found hfound
    have := offset_bounds hfound
    omega
  have hinside : ∀ found ∈ withOffsets (Text.byteLength before + 1) (tokens block),
      Text.byteLength before < found.1 ∧ found.1 <
      Text.byteLength before + 1 + Text.byteLength block :=
    fun found hfound => offset_bounds hfound
  have hafter : ∀ found ∈ withOffsets (Text.byteLength before + 1 + Text.byteLength block + 1)
      (tokens after), Text.byteLength before + 1 + Text.byteLength block < found.1 :=
    fun found hfound => (offset_bounds hfound).1
  rw [hsplit, List.filter_append, List.filter_cons_of_neg (by simp), List.filter_append,
    List.filter_cons_of_neg (by simp), List.filter_eq_nil_iff.mpr fun found hfound => ?_,
    List.filter_eq_self.mpr fun found hfound => ?_,
    List.filter_eq_nil_iff.mpr fun found hfound => ?_,
    List.nil_append, List.append_nil]
  · have := hafter found hfound
    simp only [Bool.and_eq_true, decide_eq_true_eq]
    omega
  · simpa using hinside found hfound
  · have := hbefore found hfound
    simp only [Bool.and_eq_true, decide_eq_true_eq]
    omega

/-- The comments and literals of a token sequence that start between two offsets. -/
theorem filter_triviaSpans (pos o c : Nat) (ts : List Token) :
    (triviaSpans pos ts).filter (fun found => o < found.2.start && found.2.start < c) =
      ((withOffsets pos ts).filter fun found => o < found.1 &&
        found.1 < c).filterMap triviaSpan? := by
  rw [triviaSpans_eq, List.filter_filterMap, List.filterMap_filter]
  refine List.filterMap_congr fun found _ => ?_
  obtain ⟨i, t⟩ := found
  cases t with
  | trivia kind text => simp [triviaSpan?, Option.filter_some]
  | code c => simp [triviaSpan?]

/-- A block in the inside of a block, in the whole text. -/
theorem append_inner_block (before front inner rest after : Text) :
    before ++ '{' :: ((front ++ '{' :: (inner ++ '}' :: rest)) ++ '}' :: after) =
      (before ++ '{' :: front) ++ '{' :: (inner ++ '}' :: (rest ++ '}' :: after)) := by
  simp

theorem byteLength_brace (before front : Text) :
    Text.byteLength (before ++ '{' :: front) = Text.byteLength before + 1 +
      Text.byteLength front := by
  rw [Text.byteLength_append, Text.byteLength_cons, utf8Size_openBrace, Nat.add_assoc]

theorem IsBlock.readsAlike {before block : Text} (hblock : IsBlock block) (hwhole : Whole before)
    (after : Text) :
    ReadsAlike (before ++ '{' :: (block ++ '}' :: after)) (Text.byteLength before)
      (Text.byteLength before + 1 + Text.byteLength block) block := by
  have htokens := filter_withOffsets_block hwhole hblock after
  have hadd := withOffsets_add 0 (Text.byteLength before + 1) (tokens block)
  rw [Nat.zero_add] at hadd
  refine ⟨hadd.symm.trans htokens.symm, ?_, fun p hp => ?_⟩
  · rw [map_shift_triviaSpans, filter_triviaSpans, htokens, triviaSpans_eq]
  · obtain ⟨front, inner, rest, rfl, rfl, -, hinner⟩ := hblock.exists_inner hp
    refine ⟨_, hinner.blockEnd?_eq front rest, ?_⟩
    rw [append_inner_block, ← byteLength_brace, hinner.blockEnd?_eq, byteLength_brace]
    simp only [Nat.add_assoc]

/-- The inside of a block that opens at a brace of the code is read alike on its own and in
the text. -/
theorem blockEnd?_local {s : Text} {o c : Nat} (hopen : (o, .code '{') ∈ withOffsets 0 (tokens s))
    (hclose : blockEnd? s o = some c) : ReadsAlike s o c (Text.slice s (o + 1) c) := by
  obtain ⟨before, block, after, rfl, rfl, rfl, hwhole, hblock⟩ :=
    exists_block_of_blockEnd? hopen hclose
  rw [slice_block]
  exact hblock.readsAlike hwhole after

/-- Braces in a literal and in a comment are in the block, and the block of the method is closed
where it is closed in the text. -/
theorem blockEnd?_local_method :
    let s : Text := "class A \x7b String s = \"\x7d\"; /* \x7b */ void f() \x7b \x7d \x7d".toList
    ReadsAlike s 8 47 (Text.slice s 9 47) ∧ blockEnd? s 8 = some 47 ∧
      ∃ e, blockEnd? (Text.slice s 9 47) 34 = some e ∧ blockEnd? s 43 = some (9 + e) := by
  intro s
  have hopen : (8, .code '{') ∈ withOffsets 0 (tokens s) := by decide +kernel
  have hclose : blockEnd? s 8 = some 47 := by decide +kernel
  have hlocal := blockEnd?_local hopen hclose
  exact ⟨hlocal, hclose, hlocal.blocks 34 (by decide +kernel)⟩

-- ---------------------------------------------------------------------------
-- Blocks in blocks
-- ---------------------------------------------------------------------------

/-- The inside of a block of a text, of a block in such an inside, and so on. Each inside is cut
from the one around it, as the bodies of types are. -/
inductive IsInside (s : Text) : (o c : Nat) → Text → Prop
  | block {o c : Nat} (hopen : (o, .code '{') ∈ withOffsets 0 (tokens s))
      (hclose : blockEnd? s o = some c) :
      IsInside s o c (Text.slice s (o + 1) c)
  | inner {o c p e : Nat} {part : Text} (h : IsInside s o c part)
      (hopen : (p, .code '{') ∈ withOffsets 0 (tokens part)) (hclose : blockEnd? part p = some e) :
      IsInside s (o + 1 + p) (o + 1 + e) (Text.slice part (p + 1) e)

/-- What is cut from the text around it is a block of the whole text. -/
theorem IsInside.exists_block {s part : Text} {o c : Nat} (h : IsInside s o c part) :
    ∃ before after, s = before ++ '{' :: (part ++ '}' :: after) ∧ o = Text.byteLength before ∧
      c = o + 1 + Text.byteLength part ∧ Whole before ∧ IsBlock part := by
  induction h with
  | block hopen hclose =>
    obtain ⟨before, block, after, rfl, rfl, rfl, hwhole, hblock⟩ :=
      exists_block_of_blockEnd? hopen hclose
    rw [slice_block]
    exact ⟨before, after, rfl, rfl, rfl, hwhole, hblock⟩
  | inner _ hopen hclose ih =>
    obtain ⟨before, after, rfl, rfl, -, hwhole, -⟩ := ih
    obtain ⟨front, inner, rest, rfl, rfl, rfl, hfront, hinner⟩ :=
      exists_block_of_blockEnd? hopen hclose
    rw [slice_block]
    refine ⟨before ++ '{' :: front, rest ++ '}' :: after, append_inner_block ..,
      (byteLength_brace ..).symm,
      ?_, hwhole.append (.inl rfl) hfront, hinner⟩
    simp only [Nat.add_assoc]

/-- However deep a block is nested, its inside is read alike on its own and in the whole text. -/
theorem IsInside.readsAlike {s part : Text} {o c : Nat} (h : IsInside s o c part) :
    ReadsAlike s o c part := by
  obtain ⟨before, after, rfl, rfl, rfl, hwhole, hblock⟩ := h.exists_block
  exact hblock.readsAlike hwhole after

end Source

end Typings
