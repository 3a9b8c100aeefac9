import Typings.Proofs.Source.ByteScan
import Typings.Proofs.Source.Rewording

/-!
# What masking does to each byte

A scan over the bytes of a text that counts braces in code only puts each byte into a class: part of
a documentation comment or of code outside all blocks, a brace of an outermost block, or hidden.
Masking keeps the bytes of the first three classes and blanks the hidden ones, newlines apart; and
the documentation comments that it reports are the ones that the scan meets outside all blocks. The
end of a block that is visible as a brace is the next brace that is visible. Main statements:
`mask_exact` and `blockEnd?_agrees`.
-/

namespace Typings.Source

open Text (bytes byteLength IsAscii)

namespace Scan

-- ---------------------------------------------------------------------------
-- Classes of bytes
-- ---------------------------------------------------------------------------

/-- What a byte belongs to. -/
inductive ByteClass where
  /-- A documentation comment that starts outside all blocks. -/
  | doc
  /-- Code outside all blocks. -/
  | code
  /-- A brace that opens or closes an outermost block. -/
  | brace
  /-- Anything else: other comments, literals and the insides of blocks. -/
  | hidden
deriving Repr, DecidableEq, Inhabited

/-- How many blocks are open after a piece when `depth` are open before it. A closing brace outside
all blocks closes none. -/
def Piece.depthAfter (depth : Nat) : Piece → Nat
  | .trivia _ _ => depth
  | .code b => if b = '{'.toUInt8 then depth + 1 else if b = '}'.toUInt8 then depth - 1 else depth

/-- How many blocks are open after pieces that start outside all blocks. -/
def depthOf (ps : List Piece) : Nat := ps.foldl Piece.depthAfter 0

/-- The class of the bytes of a piece inside `depth` blocks. -/
def Piece.byteClass (depth : Nat) : Piece → ByteClass
  | .trivia kind _ => if depth = 0 ∧ kind = .doc then .doc else .hidden
  | .code b =>
    if b = '{'.toUInt8 ∧ depth = 0 ∨ b = '}'.toUInt8 ∧ depth = 1 then .brace
    else if depth = 0 then .code
    else .hidden

/-- The classes of the bytes of pieces, `depth` blocks being open before them. -/
def byteClasses : (depth : Nat) → List Piece → List ByteClass
  | _, [] => []
  | depth, p :: ps =>
    List.replicate p.bytes.length (p.byteClass depth) ++ byteClasses (p.depthAfter depth) ps

/-- What masking makes of a byte of a class. -/
def ByteClass.masked : ByteClass → UInt8 → UInt8
  | .hidden, b => if b = '\n'.toUInt8 then b else ' '.toUInt8
  | _, b => b

/-- The spans of the documentation comments outside all blocks, among pieces at offset `pos` inside
`depth` blocks. -/
def docSpans : (pos depth : Nat) → List Piece → List Span
  | _, _, [] => []
  | pos, depth, p :: ps =>
    (match p with
      | .trivia .doc bs => if depth = 0 then [⟨pos, pos + bs.length⟩] else []
      | _ => []) ++
      docSpans (pos + p.bytes.length) (p.depthAfter depth) ps

-- ---------------------------------------------------------------------------
-- Tokens and pieces
-- ---------------------------------------------------------------------------

theorem flatMap_bytes_piecesOf (t : Token) : (piecesOf t).flatMap Piece.bytes = bytes t.text := by
  cases t with
  | trivia kind text => simp [piecesOf, Piece.bytes, Token.text]
  | code c => simp [piecesOf, Piece.bytes, Token.text, List.flatMap_map]

theorem flatMap_bytes_pieces (ts : List Token) :
    (ts.flatMap piecesOf).flatMap Piece.bytes = bytes (ts.flatMap Token.text) := by
  induction ts with
  | nil => rfl
  | cons t ts ih =>
    rw [List.flatMap_cons, List.flatMap_append, List.flatMap_cons, Text.bytes_append, ih,
      flatMap_bytes_piecesOf]

theorem depthAfter_code_of_without {b : UInt8} (h : Without ['{', '}'] [b]) (depth : Nat) :
    (Piece.code b).depthAfter depth = depth := by
  have hb := h b (by simp)
  simp [Piece.depthAfter, hb '{' (by simp), hb '}' (by simp)]

/-- Bytes that are no braces open and close no block. -/
theorem foldl_depthAfter_of_without {bs : List UInt8} (h : Without ['{', '}'] bs) (depth : Nat) :
    (bs.map Piece.code).foldl Piece.depthAfter depth = depth := by
  induction bs with
  | nil => rfl
  | cons b bs ih =>
    obtain ⟨hb, hbs⟩ := List.forall_mem_cons.mp h
    rw [List.map_cons, List.foldl_cons,
      depthAfter_code_of_without (List.forall_mem_singleton.mpr hb), ih hbs]

theorem without_braces {c : Char} (hopen : c ≠ '{') (hclose : c ≠ '}') :
    Without ['{', '}'] (String.utf8EncodeChar c) :=
  without_utf8EncodeChar (by decide) (by simp [hopen, hclose])

/-- Braces count alike as characters and as bytes. -/
theorem foldl_depthAfter_piecesOf (t : Token) (depth : Nat) :
    (piecesOf t).foldl Piece.depthAfter depth = t.depthAfter depth := by
  cases t with
  | trivia kind text => rfl
  | code c =>
    by_cases hopen : c = '{'
    · subst hopen
      rfl
    · by_cases hclose : c = '}'
      · subst hclose
        rfl
      · rw [piecesOf, foldl_depthAfter_of_without (without_braces hopen hclose)]
        simp [Token.depthAfter, hopen, hclose]

-- ---------------------------------------------------------------------------
-- Shown bytes
-- ---------------------------------------------------------------------------

theorem byteClasses_append (depth : Nat) (ps qs : List Piece) :
    byteClasses depth (ps ++ qs) =
      byteClasses depth ps ++ byteClasses (ps.foldl Piece.depthAfter depth) qs := by
  induction ps generalizing depth with
  | nil => rfl
  | cons p ps ih => simp [byteClasses, ih]

@[simp] theorem length_byteClasses (depth : Nat) (ps : List Piece) :
    (byteClasses depth ps).length = (ps.flatMap Piece.bytes).length := by
  induction ps generalizing depth with
  | nil => rfl
  | cons p ps ih => simp [byteClasses, ih]

/-- Code without braces is of one class. -/
theorem byteClasses_code {bs : List UInt8} (h : Without ['{', '}'] bs) (depth : Nat) :
    byteClasses depth (bs.map .code) =
      List.replicate bs.length (if depth = 0 then .code else .hidden) := by
  induction bs with
  | nil => rfl
  | cons b bs ih =>
    obtain ⟨hb, hbs⟩ := List.forall_mem_cons.mp h
    have hopen := hb '{' (by simp)
    have hclose := hb '}' (by simp)
    rw [List.map_cons, byteClasses, depthAfter_code_of_without (List.forall_mem_singleton.mpr hb),
      ih hbs, List.length_cons, List.replicate_succ]
    simp [Piece.bytes, Piece.byteClass, hopen, hclose]

theorem zipWith_masked_replicate (k : ByteClass) (bs : List UInt8) :
    List.zipWith ByteClass.masked (List.replicate bs.length k) bs = bs.map k.masked := by
  induction bs with
  | nil => rfl
  | cons b bs ih => simp [List.replicate_succ, ih]

theorem bytes_blankAll (s : Text) : bytes (Text.blankAll s) =
    (bytes s).map ByteClass.hidden.masked := by
  have hnewline : '\n'.toUInt8 = 10 := rfl
  rw [Text.blankAll_eq_map]
  induction bytes s with
  | nil => rfl
  | cons b bs ih =>
    rw [List.map_cons, Text.bytes_cons, List.map_cons, ih, Text.blankByte, ByteClass.masked,
      hnewline]
    by_cases hb : b = 10
    · subst hb
      rfl
    · rw [if_neg hb, if_neg hb]
      rfl

/-- What masking shows of one token, byte by byte. -/
theorem bytes_shown_singleton (depth : Nat) (t : Token) :
    bytes (shown depth [t]) =
      List.zipWith ByteClass.masked (byteClasses depth (piecesOf t)) (bytes t.text) := by
  cases t with
  | trivia kind text =>
    simp only [shown, piecesOf, byteClasses, Piece.bytes, Piece.byteClass, Token.text,
      List.append_nil]
    rw [zipWith_masked_replicate]
    split
    · exact (List.map_id _).symm
    · exact bytes_blankAll text
  | code c =>
    by_cases hopen : c = '{'
    · subst hopen
      cases depth <;> rfl
    · by_cases hclose : c = '}'
      · subst hclose
        cases depth with
        | zero => rfl
        | succ outer => cases outer <;> rfl
      · have hbytes : bytes [c] = String.utf8EncodeChar c := List.append_nil _
        rw [piecesOf, byteClasses_code (without_braces hopen hclose), Token.text, hbytes,
          zipWith_masked_replicate, ← hbytes]
        cases depth with
        | zero =>
          have hshown : shown 0 [.code c] = [c] := by simp only [shown]
          rw [hshown]
          exact (List.map_id _).symm
        | succ depth =>
          have hshown : shown (depth + 1) [.code c] = Text.blankAll [c] := by
            simp only [shown, hopen, hclose, ↓reduceIte]
            rfl
          rw [hshown]
          exact bytes_blankAll [c]

/-- What masking shows of tokens, byte by byte. -/
theorem bytes_shown (depth : Nat) (ts : List Token) :
    bytes (shown depth ts) = List.zipWith ByteClass.masked (byteClasses depth (ts.flatMap piecesOf))
      (bytes (ts.flatMap Token.text)) := by
  induction ts generalizing depth with
  | nil => cases depth <;> rfl
  | cons t ts ih =>
    have hlen : (byteClasses depth (piecesOf t)).length = (bytes t.text).length := by
      rw [length_byteClasses, flatMap_bytes_piecesOf]
    rw [← List.singleton_append, shown_append, Text.bytes_append, ih, bytes_shown_singleton,
      List.singleton_append, List.flatMap_cons, List.flatMap_cons, byteClasses_append,
      Text.bytes_append, List.zipWith_append hlen, foldl_depthAfter_piecesOf]
    rfl

-- ---------------------------------------------------------------------------
-- Documentation comments
-- ---------------------------------------------------------------------------

theorem docSpans_append (pos depth : Nat) (ps qs : List Piece) :
    docSpans pos depth (ps ++ qs) = docSpans pos depth ps ++
      docSpans (pos + (ps.flatMap Piece.bytes).length) (ps.foldl Piece.depthAfter depth) qs := by
  induction ps generalizing pos depth with
  | nil => rfl
  | cons p ps ih => simp [docSpans, ih, Nat.add_assoc]

theorem docSpans_code (pos depth : Nat) (bs : List UInt8) :
    docSpans pos depth (bs.map .code) = [] := by
  induction bs generalizing pos depth with
  | nil => rfl
  | cons b bs ih => exact ih _ _

theorem docSpans_piecesOf (pos depth : Nat) (t : Token) :
    docSpans pos depth (piecesOf t) =
      (if depth = 0 then [(pos, t)] else []).filterMap docSpan? := by
  cases t with
  | code c =>
    rw [piecesOf, docSpans_code]
    split <;> rfl
  | trivia kind text =>
    cases kind with
    | doc =>
      simp only [piecesOf, docSpans, Text.length_bytes, List.append_nil]
      split <;> rfl
    | comment => split <;> rfl
    | literal => split <;> rfl

/-- The scan meets the documentation comments that a view shows. -/
theorem docSpans_pieces (pos depth : Nat) (ts : List Token) :
    docSpans pos depth (ts.flatMap piecesOf) = (outer pos depth ts).filterMap docSpan? := by
  induction ts generalizing pos depth with
  | nil => rfl
  | cons t ts ih =>
    rw [List.flatMap_cons, docSpans_append, docSpans_piecesOf, flatMap_bytes_piecesOf,
      Text.length_bytes, foldl_depthAfter_piecesOf, ih, outer, List.filterMap_append]

theorem mem_docSpans_iff {pos depth : Nat} {ps : List Piece} {span : Span} :
    span ∈ docSpans pos depth ps ↔ ∃ qs bs rs, ps = qs ++ .trivia .doc bs :: rs ∧
      qs.foldl Piece.depthAfter depth = 0 ∧
      span = ⟨pos + (qs.flatMap Piece.bytes).length,
        pos + (qs.flatMap Piece.bytes).length + bs.length⟩ := by
  constructor
  · intro h
    induction ps generalizing pos depth with
    | nil => cases h
    | cons p ps ih =>
      rcases List.mem_append.mp h with hfirst | hlater
      · split at hfirst
        · rename_i bs
          by_cases hdepth : depth = 0
          · rw [if_pos hdepth, List.mem_singleton] at hfirst
            exact ⟨[], bs, ps, rfl, hdepth, hfirst⟩
          · rw [if_neg hdepth] at hfirst
            cases hfirst
        · cases hfirst
      · obtain ⟨qs, bs, rs, rfl, hdepth, rfl⟩ := ih hlater
        exact ⟨p :: qs, bs, rs, rfl, hdepth, by simp [Nat.add_assoc]⟩
  · rintro ⟨qs, bs, rs, rfl, hdepth, rfl⟩
    rw [docSpans_append, hdepth]
    simp [docSpans]

end Scan

theorem docSpan?_eq_some_iff {entry : Nat × Token} {span : Span} :
    docSpan? entry = some span ↔
      ∃ d, entry.2 = .trivia .doc d ∧ span = ⟨entry.1, entry.1 + byteLength d⟩ := by
  constructor
  · intro h
    unfold docSpan? at h
    split at h
    · rename_i pos text
      exact ⟨text, rfl, (Option.some.inj h).symm⟩
    · cases h
  · obtain ⟨pos, t⟩ := entry
    rintro ⟨d, rfl, rfl⟩
    rfl

/-- A documentation comment that a view shows is not empty. -/
theorem start_lt_stop_of_mem_docs {s : Text} {span : Span} (h : span ∈ (mask s).docs) :
    span.start < span.stop := by
  rw [mask_eq] at h
  obtain ⟨⟨pos, t⟩, hmem, hspan⟩ := List.mem_filterMap.mp h
  obtain ⟨us, vs, htokens, _, _⟩ := exists_append_of_mem_outer hmem
  obtain ⟨d, rfl, rfl⟩ := docSpan?_eq_some_iff.mp hspan
  have hmem : Token.trivia .doc d ∈ tokens s := by simp [htokens]
  obtain ⟨c, cs, rfl⟩ := List.exists_cons_of_ne_nil (text_ne_nil_of_mem_tokens hmem)
  have := c.utf8Size_pos
  simp only [Text.byteLength_cons]
  omega

-- ---------------------------------------------------------------------------
-- Exactness
-- ---------------------------------------------------------------------------

/-- A view of a text that shows, byte by byte, what a scan over the bytes finds outside all blocks,
and blanks the rest. -/
structure IsExactView (s : Text) (view : Masked) : Prop where
  /-- Each byte has a class. -/
  classified : (Scan.byteClasses 0 (Scan.pieces (bytes s))).length = (bytes s).length
  length_eq : (bytes view.text).length = (bytes s).length
  newlines : ∀ i : Nat, (bytes view.text)[i]? = some '\n'.toUInt8 ↔
    (bytes s)[i]? = some '\n'.toUInt8
  kept : ∀ (i : Nat) k, (Scan.byteClasses 0 (Scan.pieces (bytes s)))[i]? = some k → k ≠ .hidden →
    (bytes view.text)[i]? = (bytes s)[i]?
  blanked : ∀ i : Nat, (Scan.byteClasses 0 (Scan.pieces (bytes s)))[i]? = some .hidden →
    (bytes s)[i]? ≠ some '\n'.toUInt8 → (bytes view.text)[i]? = some ' '.toUInt8
  docs : ∀ span, span ∈ view.docs ↔
    ∃ ps bs qs, Scan.pieces (bytes s) = ps ++ .trivia .doc bs :: qs ∧ Scan.depthOf ps = 0 ∧
      span = ⟨(ps.flatMap Scan.Piece.bytes).length,
        (ps.flatMap Scan.Piece.bytes).length + bs.length⟩
  docs_nonempty : ∀ span ∈ view.docs, span.start < span.stop
  docs_ordered : view.docs.Pairwise fun d e => d.stop ≤ e.start

theorem bytes_mask (s : Text) : bytes (mask s).text =
    List.zipWith Scan.ByteClass.masked (Scan.byteClasses 0 (Scan.pieces (bytes s))) (bytes s) := by
  rw [mask_text_eq_shown, Scan.bytes_shown, Scan.pieces_bytes, flatMap_text_tokens]

theorem length_byteClasses_pieces (s : Text) :
    (Scan.byteClasses 0 (Scan.pieces (bytes s))).length = (bytes s).length := by
  rw [Scan.length_byteClasses, Scan.pieces_bytes, Scan.flatMap_bytes_pieces, flatMap_text_tokens]

theorem docs_mask (s : Text) : (mask s).docs = Scan.docSpans 0 0 (Scan.pieces (bytes s)) := by
  rw [mask_eq, Scan.pieces_bytes, Scan.docSpans_pieces]

/-- The byte of a view at an offset is what its class makes of the byte of the text. -/
theorem getElem?_bytes_mask {s : Text} {i : Nat} {k : Scan.ByteClass}
    (hk : (Scan.byteClasses 0 (Scan.pieces (bytes s)))[i]? = some k) :
    ∃ b, (bytes s)[i]? = some b ∧ (bytes (mask s).text)[i]? = some (k.masked b) := by
  obtain ⟨hi, _⟩ := List.getElem?_eq_some_iff.mp hk
  rw [length_byteClasses_pieces] at hi
  refine ⟨_, List.getElem?_eq_getElem hi, ?_⟩
  rw [bytes_mask, List.getElem?_zipWith, hk, List.getElem?_eq_getElem hi]

theorem Scan.ByteClass.masked_eq_newline_iff (k : Scan.ByteClass) (b : UInt8) :
    k.masked b = '\n'.toUInt8 ↔ b = '\n'.toUInt8 := by
  cases k with
  | hidden =>
    simp only [Scan.ByteClass.masked]
    split
    · rfl
    · rename_i hb
      exact iff_of_false (by decide) hb
  | doc => rfl
  | code => rfl
  | brace => rfl

/-- Masking is exact: what it shows, what it blanks and which documentation comments it reports is
what the scan over the bytes says. -/
theorem mask_exact (s : Text) : IsExactView s (mask s) := by
  have hclassified := length_byteClasses_pieces s
  have hlength : (bytes (mask s).text).length = (bytes s).length := by
    rw [bytes_mask, List.length_zipWith, hclassified, Nat.min_self]
  refine ⟨hclassified, hlength, ?_, ?_, ?_, ?_, fun span => start_lt_stop_of_mem_docs, ?_⟩
  · intro i
    by_cases hi : i < (bytes s).length
    · obtain ⟨b, hb, hview⟩ := getElem?_bytes_mask (List.getElem?_eq_getElem (hclassified ▸ hi))
      rw [hb, hview, Option.some.injEq, Option.some.injEq, Scan.ByteClass.masked_eq_newline_iff]
    · have hbeyond : (bytes s)[i]? = none := List.getElem?_eq_none (Nat.le_of_not_lt hi)
      have hview : (bytes (mask s).text)[i]? = none :=
        List.getElem?_eq_none (hlength ▸ Nat.le_of_not_lt hi)
      rw [hbeyond, hview]
  · intro i k hk hkept
    obtain ⟨b, hb, hview⟩ := getElem?_bytes_mask hk
    rw [hb, hview]
    cases k with
    | hidden => exact absurd rfl hkept
    | doc => rfl
    | code => rfl
    | brace => rfl
  · intro i hhidden hnewline
    obtain ⟨b, hb, hview⟩ := getElem?_bytes_mask hhidden
    rw [hb, Ne, Option.some.injEq] at hnewline
    rw [hview, Scan.ByteClass.masked, if_neg hnewline]
  · intro span
    rw [docs_mask, Scan.mem_docSpans_iff]
    simp only [Nat.zero_add]
    rfl
  · rw [mask_eq]
    exact pairwise_docs 0 0 (tokens s)

-- ---------------------------------------------------------------------------
-- Braces of a view
-- ---------------------------------------------------------------------------

/-- Only an opening brace of the code and a documentation comment, both outside all blocks, can show
an opening brace. -/
theorem not_mem_shown_of_hidden {depth : Nat} {t : Token} (hcode : ¬(depth = 0 ∧ t = .code '{'))
    (hdoc : ∀ d, ¬(depth = 0 ∧ t = .trivia .doc d)) : '{' ∉ shown depth [t] := by
  cases t with
  | code c => exact not_mem_shown_singleton hcode rfl
  | trivia kind text =>
    have hhidden : ¬(depth = 0 ∧ kind = .doc) := by
      rintro ⟨hdepth, rfl⟩
      exact hdoc text ⟨hdepth, rfl⟩
    rw [shown, if_neg hhidden, shown, List.append_nil]
    exact not_mem_blankAll (by decide) (by decide) text

/-- An opening brace that a view shows is a brace of the code outside all blocks, or lies in a
documentation comment there. -/
theorem mem_outer_or_covers_of_shown {ts : List Token} {pos depth : Nat} {before rest : Text}
    (h : shown depth ts = before ++ '{' :: rest) :
    (pos + byteLength before, .code '{') ∈ outer pos depth ts ∨
      ∃ span ∈ (outer pos depth ts).filterMap docSpan?,
        span.contains (pos + byteLength before) = true := by
  induction ts generalizing pos depth before with
  | nil => cases depth <;> simp [shown] at h
  | cons t ts ih =>
    have hlen : byteLength (shown depth [t]) = byteLength t.text := by simp [byteLength_shown]
    rw [← List.singleton_append, shown_append, depthAfter_cons, depthAfter_nil] at h
    -- a brace behind the first token is found in the rest
    have hlater : ∀ middle, before = shown depth [t] ++ middle →
        shown (t.depthAfter depth) ts = middle ++ '{' :: rest →
        (pos + byteLength before, .code '{') ∈ outer pos depth (t :: ts) ∨
          ∃ span ∈ (outer pos depth (t :: ts)).filterMap docSpan?,
            span.contains (pos + byteLength before) = true := by
      rintro middle rfl hrest
      rw [Text.byteLength_append, hlen, ← Nat.add_assoc, outer, List.filterMap_append]
      rcases @ih (pos + byteLength t.text) _ middle hrest with hmem | ⟨span, hspan, hin⟩
      · exact .inl (List.mem_append_right _ hmem)
      · exact .inr ⟨span, List.mem_append_right _ hspan, hin⟩
    by_cases hcode : depth = 0 ∧ t = .code '{'
    · obtain ⟨rfl, rfl⟩ := hcode
      cases before with
      | nil => exact .inl List.mem_cons_self
      | cons c cs =>
        obtain ⟨rfl, hrest⟩ := List.cons.inj h
        exact hlater cs rfl hrest
    · by_cases hdoc : ∃ d, depth = 0 ∧ t = .trivia .doc d
      · obtain ⟨d, rfl, rfl⟩ := hdoc
        have hshown : shown 0 [.trivia .doc d] = d := by simp [shown]
        rw [hshown] at h
        rcases List.append_eq_append_iff.mp h with ⟨middle, hbefore, hrest⟩ | ⟨middle, rfl, hrest⟩
        · exact hlater middle (hshown.symm ▸ hbefore) hrest
        · cases middle with
          | nil => exact hlater [] (by rw [hshown]; simp) hrest.symm
          | cons c cs =>
            have hsize := c.utf8Size_pos
            refine .inr ⟨⟨pos, pos + byteLength (before ++ c :: cs)⟩, List.mem_cons_self, ?_⟩
            simp only [Span.contains, Text.byteLength_append, Text.byteLength_cons,
              Bool.and_eq_true,
              decide_eq_true_eq]
            omega
      · have hnot := not_mem_shown_of_hidden hcode fun d hd => hdoc ⟨d, hd⟩
        obtain ⟨middle, hbefore, hrest⟩ := exists_append_of_not_mem hnot h
        exact hlater middle hbefore hrest

/-- The inside of a block that is never closed is blanked. -/
theorem shown_eq_blankAll_of_open {pos depth : Nat} {ts : List Token}
    (h : closingBrace? pos depth ts = none) :
    shown (depth + 1) ts = Text.blankAll (ts.flatMap Token.text) := by
  induction ts generalizing pos depth with
  | nil => rfl
  | cons t ts ih =>
    cases t with
    | trivia kind text =>
      rw [closingBrace?] at h
      rw [shown, if_neg (by simp), ih h, List.flatMap_cons, Text.blankAll_append]
      rfl
    | code c =>
      simp only [closingBrace?] at h
      rw [shown, List.flatMap_cons, Text.blankAll_append, Token.text]
      split at h
      · rename_i hopen
        subst hopen
        rw [if_pos rfl, ih h]
        rfl
      · rename_i hopen
        rw [if_neg hopen]
        split at h
        · rename_i hclose
          subst hclose
          rw [if_pos rfl]
          cases depth with
          | zero => cases h
          | succ outer =>
            rw [if_neg (Nat.succ_ne_zero outer), ih h]
            rfl
        · rename_i hclose
          rw [if_neg hclose, ih h, Text.blankAll_cons, Text.blankAll_nil, List.append_nil]

/-- What a view shows of a block whose opening brace it shows: the brace, blanks, and the closing
brace where the block ends, or blanks up to the end where it does not. -/
theorem view_of_brace {s : Text} {o : Nat}
    (hopen : (bytes (mask s).text)[o]? = some '{'.toUInt8)
    (hdocs : ∀ span ∈ (mask s).docs, span.contains o = false) :
    ∃ before block, byteLength before = o ∧
      ((∃ after, (mask s).text = before ++ '{' :: (Text.blankAll block ++ '}' :: after) ∧
          blockEnd? s o = some (o + 1 + byteLength block)) ∨
        (mask s).text = before ++ '{' :: Text.blankAll block ∧ blockEnd? s o = none) := by
  obtain ⟨front, rest, hview, rfl⟩ := (@IsAscii.getElem?_bytes_eq_iff '{' rfl _ _).mp hopen
  have hmem : (byteLength front, .code '{') ∈ outer 0 0 (tokens s) := by
    rw [mask_text_eq_shown] at hview
    rcases @mem_outer_or_covers_of_shown _ 0 0 front rest hview with hmem | ⟨span, hspan, hin⟩
    · rwa [Nat.zero_add] at hmem
    · rw [Nat.zero_add, hdocs span (by rwa [mask_eq])] at hin
      cases hin
  obtain ⟨before, inside, rfl, hlen, hwhole, hdepth⟩ := exists_whole_of_mem_outer hmem
  have hshown : (mask (before ++ '{' :: inside)).text =
      shown 0 (tokens before) ++ '{' :: shown 1 (tokens inside) := by
    rw [mask_text_eq_shown, hwhole.tokens_append (.inl rfl), shown_append, hdepth]
    rfl
  have hsize : byteLength (shown 0 (tokens before)) = byteLength front := by
    rw [byteLength_shown, flatMap_text_tokens, hlen]
  rw [hlen, blockEnd?_append, ← hlen, hshown]
  cases hclose : closingBrace? (byteLength front + 1) 0 (tokens inside) with
  | none =>
    refine ⟨_, inside, hsize, .inr ⟨?_, rfl⟩⟩
    rw [shown_eq_blankAll_of_open hclose, flatMap_text_tokens]
  | some close =>
    obtain ⟨us, vs, htokens, hlevel, rfl⟩ := exists_append_of_closingBrace? hclose
    refine ⟨_, us.flatMap Token.text, hsize, .inl ⟨shown 0 vs, ?_, rfl⟩⟩
    rw [htokens, shown_append, shown_eq_blankAll hlevel,
      depthAfter_eq_of_level? (level?_add hlevel 1)]
    rfl

/-- A space or newline stands at an offset. -/
def IsBlankAt (bs : List UInt8) (i : Nat) : Prop :=
  bs[i]? = some ' '.toUInt8 ∨ bs[i]? = some '\n'.toUInt8

instance (bs : List UInt8) (i : Nat) : Decidable (IsBlankAt bs i) :=
  inferInstanceAs (Decidable (_ ∨ _))

/-- The first offset after another that holds a byte. -/
structure IsNext (b : UInt8) (bs : List UInt8) (o c : Nat) : Prop where
  after : o < c
  holds : bs[c]? = some b
  first : ∀ i, o < i → i < c → bs[i]? ≠ some b

theorem IsNext.unique {b : UInt8} {bs : List UInt8} {o c d : Nat} (hc : IsNext b bs o c)
    (hd : IsNext b bs o d) : c = d := by
  rcases Nat.lt_trichotomy c d with hlt | heq | hgt
  · exact absurd hc.holds (hd.first c hc.after hlt)
  · exact heq
  · exact absurd hd.holds (hc.first d hd.after hgt)

theorem IsBlankAt.ne_closeBrace {bs : List UInt8} {i : Nat} (h : IsBlankAt bs i) :
    bs[i]? ≠ some '}'.toUInt8 := by
  rcases h with h | h <;> rw [h] <;> decide

/-- A blanked part of a text holds blanks at its offsets. -/
theorem isBlankAt_blankAll (front block rest : Text) {i : Nat} (hlo : byteLength front ≤ i)
    (hhi : i < byteLength front + byteLength block) :
    IsBlankAt (bytes (front ++ (Text.blankAll block ++ rest))) i := by
  obtain ⟨k, rfl⟩ := Nat.exists_eq_add_of_le hlo
  have hk : k < byteLength block := by omega
  rw [IsBlankAt, Text.getElem?_bytes_append_right,
    Text.getElem?_bytes_append_left (by rwa [Text.byteLength_blankAll]), Scan.bytes_blankAll,
    List.getElem?_map, List.getElem?_eq_getElem (by rwa [Text.length_bytes])]
  simp only [Option.map_some, Scan.ByteClass.masked, Option.some.injEq]
  split
  · exact .inr ‹_›
  · exact .inl rfl

/-- Masking and the search for the end of a block agree: from a brace that a view shows outside its
documentation comments, the block ends at the next closing brace of the view, and up to there, or to
the end of a view that shows none, the view is blank. -/
theorem blockEnd?_agrees {s : Text} {o : Nat}
    (hopen : (bytes (mask s).text)[o]? = some '{'.toUInt8)
    (hdocs : ∀ span ∈ (mask s).docs, span.contains o = false) :
    (∀ c, blockEnd? s o = some c ↔ IsNext '}'.toUInt8 (bytes (mask s).text) o c) ∧
    (∀ c, blockEnd? s o = some c → ∀ i, o < i → i < c → IsBlankAt (bytes (mask s).text) i) ∧
    (blockEnd? s o = none ↔
      ∀ i, o < i → i < (bytes (mask s).text).length → IsBlankAt (bytes (mask s).text) i) := by
  obtain ⟨before, block, hlen, hcases⟩ := view_of_brace hopen hdocs
  have hfront : byteLength (before ++ ['{']) = o + 1 := by simp [hlen, utf8Size_openBrace]
  rcases hcases with ⟨after, hview, hend⟩ | ⟨hview, hend⟩
  · have hsplit : (mask s).text =
        (before ++ ['{']) ++ (Text.blankAll block ++ '}' :: after) := by simp [hview]
    have hblank : ∀ i, o < i → i < o + 1 + byteLength block →
        IsBlankAt (bytes (mask s).text) i := by
      intro i hlo hhi
      rw [hsplit]
      exact isBlankAt_blankAll _ _ _ (by omega) (by omega)
    have hclose : IsNext '}'.toUInt8 (bytes (mask s).text) o (o + 1 + byteLength block) := by
      refine ⟨by omega, ?_, fun i hlo hhi => (hblank i hlo hhi).ne_closeBrace⟩
      refine (@IsAscii.getElem?_bytes_eq_iff '}' rfl _ _).mpr
        ⟨before ++ '{' :: Text.blankAll block, after, by simp [hview], ?_⟩
      simp [hlen, utf8Size_openBrace]
      omega
    rw [hend]
    refine ⟨fun c => ⟨?_, ?_⟩, ?_, ?_⟩
    · intro hc
      exact Option.some.inj hc ▸ hclose
    · intro hc
      rw [hclose.unique hc]
    · intro c hc
      exact Option.some.inj hc ▸ hblank
    · refine iff_of_false (by simp) fun hall => ?_
      obtain ⟨hlt, _⟩ := List.getElem?_eq_some_iff.mp hclose.holds
      exact (hall _ hclose.after hlt).ne_closeBrace hclose.holds
  · have hsplit : (mask s).text = (before ++ ['{']) ++ (Text.blankAll block ++ []) := by
      simp [hview]
    have hblank : ∀ i, o < i → i < (bytes (mask s).text).length →
        IsBlankAt (bytes (mask s).text) i := by
      intro i hlo hhi
      rw [hsplit, Text.length_bytes, Text.byteLength_append, List.append_nil,
        Text.byteLength_blankAll] at hhi
      rw [hsplit]
      exact isBlankAt_blankAll _ _ _ (by omega) hhi
    rw [hend]
    refine ⟨fun c => ⟨nofun, fun hc => ?_⟩, nofun, iff_of_true rfl hblank⟩
    obtain ⟨hlt, _⟩ := List.getElem?_eq_some_iff.mp hc.holds
    exact absurd hc.holds (hblank c hc.after hlt).ne_closeBrace

/-- A class with a brace in a literal and a block in its body, after a comment that shows
a brace. -/
def bracedText : Text :=
  "/** \x7b */ class A \x7b String s = \"\x7d\"; void f() \x7b \x7d \x7d \x7d".toList

theorem blockEnd?_agrees_bracedText :
    (bytes (mask bracedText).text)[17]? = some '{'.toUInt8 ∧
      (∀ span ∈ (mask bracedText).docs, span.contains 17 = false) ∧
      (∀ c, blockEnd? bracedText 17 = some c ↔
        IsNext '}'.toUInt8 (bytes (mask bracedText).text) 17 c) ∧
      blockEnd? bracedText 17 = some 48 := by
  have hopen : (bytes (mask bracedText).text)[17]? = some '{'.toUInt8 := by decide
  have hdocs : ∀ span ∈ (mask bracedText).docs, span.contains 17 = false := by decide
  exact ⟨hopen, hdocs, (blockEnd?_agrees hopen hdocs).1, by decide⟩

end Typings.Source
