import Typings.Proofs.Source.Lexing
import Typings.Proofs.Text.Bytes

/-!
# Scanning bytes

Comments and literals are found on bytes as well, and there a backslash takes the next byte with it,
be it a part of a character only. The bytes that are left of such a character open and close
nothing, so both ways of scanning find the same comments and literals. Main statements:
`triviaAt?_bytes` and `pieces_bytes`.
-/

namespace Typings.Source.Scan

open Text (bytes byteLength startsWithBytes IsAscii)

-- ---------------------------------------------------------------------------
-- Comments and literals
-- ---------------------------------------------------------------------------

/-- Number of bytes up to the end of the line. -/
def lineRest : List UInt8 → Nat
  | [] => 0
  | b :: bs => if b = '\n'.toUInt8 then 0 else lineRest bs + 1

/-- Number of bytes up to and including the next `*/`, or to the end. -/
def commentRest : List UInt8 → Nat
  | [] => 0
  | b :: bs => if startsWithBytes "*/" (b :: bs) then 2 else commentRest bs + 1

/-- Number of bytes up to and including the closing quote of a literal, or up to the end of the
line. The byte after a backslash is `escaped`. -/
def quotedRest (quote : UInt8) : (escaped : Bool) → List UInt8 → Nat
  | _, [] => 0
  | true, _ :: bs => quotedRest quote false bs + 1
  | false, b :: bs =>
    if b = '\\'.toUInt8 then quotedRest quote true bs + 1
    else if b = '\n'.toUInt8 then 0
    else if b = quote then 1
    else quotedRest quote false bs + 1

/-- Number of bytes up to and including the next three quotes. -/
def textBlockRest : (escaped : Bool) → List UInt8 → Nat
  | _, [] => 0
  | true, _ :: bs => textBlockRest false bs + 1
  | false, b :: bs =>
    if b = '\\'.toUInt8 then textBlockRest true bs + 1
    else if startsWithBytes "\"\"\"" (b :: bs) then 3
    else textBlockRest false bs + 1

/-- The kind and the length of the comment or literal at the front. -/
def triviaAt? (bs : List UInt8) : Option (Trivia × Nat) :=
  if startsWithBytes "//" bs then some (.comment, lineRest bs)
  else if startsWithBytes "/*" bs then
    let kind := if startsWithBytes "/**" bs && !startsWithBytes "/**/" bs then Trivia.doc
      else .comment
    some (kind, commentRest (bs.drop 2) + 2)
  else if startsWithBytes "\"\"\"" bs then some (.literal, textBlockRest false (bs.drop 3) + 3)
  else
    match bs with
    | [] => none
    | b :: rest =>
      if b = '"'.toUInt8 || b = '\''.toUInt8 then some (.literal, quotedRest b false rest + 1)
        else none

-- ---------------------------------------------------------------------------
-- Pieces
-- ---------------------------------------------------------------------------

/-- A comment or literal, or one byte of code. -/
inductive Piece where
  | trivia (kind : Trivia) (bytes : List UInt8)
  | code (b : UInt8)
deriving Repr, DecidableEq, Inhabited

/-- The bytes of a piece. -/
def Piece.bytes : Piece → List UInt8
  | .trivia _ bytes => bytes
  | .code b => [b]

/-- The pieces after the first `skip` bytes. -/
def piecesAfter : (skip : Nat) → List UInt8 → List Piece
  | _, [] => []
  | skip + 1, _ :: bs => piecesAfter skip bs
  | 0, b :: bs =>
    match triviaAt? (b :: bs) with
    | some (kind, n) => .trivia kind ((b :: bs).take n) :: piecesAfter (n - 1) bs
    | none => .code b :: piecesAfter 0 bs

/-- The pieces of bytes, found from left to right. -/
def pieces (bs : List UInt8) : List Piece := piecesAfter 0 bs

theorem piecesAfter_eq (skip : Nat) (bs : List UInt8) :
    piecesAfter skip bs = pieces (bs.drop skip) := by
  induction bs generalizing skip with
  | nil => cases skip <;> rfl
  | cons b bs ih =>
    cases skip with
    | zero => rfl
    | succ n => simpa [piecesAfter] using ih n

-- ---------------------------------------------------------------------------
-- Bytes that open and close nothing
-- ---------------------------------------------------------------------------

/-- Bytes none of which belongs to one of the characters. -/
def Without (chars : List Char) (bs : List UInt8) : Prop := ∀ b ∈ bs, ∀ a ∈ chars, b ≠ a.toUInt8

section

variable {chars : List Char} {xs : List UInt8}

theorem without_utf8EncodeChar {c : Char} (h : ∀ a ∈ chars, IsAscii a) (hc : c ∉ chars) :
    Without chars (String.utf8EncodeChar c) := by
  intro b hb a ha
  refine (h a ha).ne_of_mem ?_ hb
  rintro rfl
  exact hc ha

theorem startsWithBytes_eq_false {word : String} {b d : UInt8}
    (hword : (bytes word.toList).head? = some d) (hb : b ≠ d) (bs : List UInt8) :
    startsWithBytes word (b :: bs) = false := by
  obtain ⟨ds, hds⟩ := List.head?_eq_some_iff.mp hword
  rw [startsWithBytes, hds, List.isPrefixOf_cons_cons, beq_eq_false_iff_ne.mpr hb.symm,
    Bool.false_and]

theorem lineRest_append (h : Without ['\n'] xs) (bs : List UInt8) :
    lineRest (xs ++ bs) = xs.length + lineRest bs := by
  induction xs with
  | nil => simp
  | cons b xs ih =>
    obtain ⟨hb, hxs⟩ := List.forall_mem_cons.mp h
    rw [List.cons_append, lineRest, if_neg (hb _ (by simp)), ih hxs, List.length_cons]
    omega

theorem commentRest_append (h : Without ['*'] xs) (bs : List UInt8) :
    commentRest (xs ++ bs) = xs.length + commentRest bs := by
  induction xs with
  | nil => simp
  | cons b xs ih =>
    obtain ⟨hb, hxs⟩ := List.forall_mem_cons.mp h
    have hend : startsWithBytes "*/" (b :: (xs ++ bs)) = false :=
      startsWithBytes_eq_false rfl (hb '*' (by simp)) _
    rw [List.cons_append, commentRest, hend, if_neg Bool.false_ne_true, ih hxs, List.length_cons]
    omega

theorem quotedRest_append {quote : Char} (h : Without ['\\', '\n', quote] xs) (bs : List UInt8) :
    quotedRest quote.toUInt8 false (xs ++ bs) = xs.length + quotedRest quote.toUInt8 false bs := by
  induction xs with
  | nil => simp
  | cons b xs ih =>
    obtain ⟨hb, hxs⟩ := List.forall_mem_cons.mp h
    rw [List.cons_append, quotedRest, if_neg (hb _ (by simp)), if_neg (hb _ (by simp)),
      if_neg (hb _ (by simp)), ih hxs, List.length_cons]
    omega

theorem textBlockRest_append (h : Without ['\\', '"'] xs) (bs : List UInt8) :
    textBlockRest false (xs ++ bs) = xs.length + textBlockRest false bs := by
  induction xs with
  | nil => simp
  | cons b xs ih =>
    obtain ⟨hb, hxs⟩ := List.forall_mem_cons.mp h
    have hend : startsWithBytes "\"\"\"" (b :: (xs ++ bs)) = false :=
      startsWithBytes_eq_false rfl (hb '"' (by simp)) _
    rw [List.cons_append, textBlockRest, if_neg (hb _ (by simp)), hend, if_neg Bool.false_ne_true,
      ih hxs, List.length_cons]
    omega

/-- Where no comment and no text block starts, only a quote opens something. -/
theorem triviaAt?_cons {b : UInt8} {bs : List UInt8}
    (hline : startsWithBytes "//" (b :: bs) = false)
    (hcomment : startsWithBytes "/*" (b :: bs) = false)
    (hblock : startsWithBytes "\"\"\"" (b :: bs) = false) :
    triviaAt? (b :: bs) =
      if b = '"'.toUInt8 || b = '\''.toUInt8 then some (.literal, quotedRest b false bs + 1)
      else none := by
  simp [triviaAt?, hline, hcomment, hblock]

theorem triviaAt?_of_without {b : UInt8} (h : Without ['/', '"', '\''] [b]) (bs : List UInt8) :
    triviaAt? (b :: bs) = none := by
  have hb := h b (by simp)
  have hslash := hb '/' (by simp)
  have hquote := hb '"' (by simp)
  rw [triviaAt?_cons (startsWithBytes_eq_false rfl hslash bs)
    (startsWithBytes_eq_false rfl hslash bs)
    (startsWithBytes_eq_false rfl hquote bs)]
  simp [hquote, hb '\'' (by simp)]

end

-- ---------------------------------------------------------------------------
-- Escapes
-- ---------------------------------------------------------------------------

/-- What is left of a character without its first byte belongs to no ASCII character. -/
theorem exists_first_byte (c : Char) :
    ∃ b more, String.utf8EncodeChar c = b :: more ∧ c.utf8Size = more.length + 1 ∧
      ∀ chars : List Char, (∀ a ∈ chars, IsAscii a) → Without chars more := by
  obtain ⟨b, more, hc, hmore⟩ := Text.exists_utf8EncodeChar_eq c
  refine ⟨b, more, hc, ?_, ?_⟩
  · rw [← String.length_utf8EncodeChar, hc, List.length_cons]
  · rintro chars hchars d hd a ha rfl
    exact hmore a (hchars a ha) hd

/-- An escaped character closes no literal, whatever is left of it after its first byte. -/
theorem quotedRest_escaped {quote : Char} (hquote : IsAscii quote) (c : Char) (bs : List UInt8) :
    quotedRest quote.toUInt8 true (String.utf8EncodeChar c ++ bs) =
      c.utf8Size + quotedRest quote.toUInt8 false bs := by
  obtain ⟨b, more, hc, hsize, hmore⟩ := exists_first_byte c
  have hplain : Without ['\\', '\n', quote] more := hmore _ (by simpa using ⟨rfl, rfl, hquote⟩)
  rw [hc, List.cons_append, quotedRest, quotedRest_append hplain, hsize]
  omega

theorem textBlockRest_escaped (c : Char) (bs : List UInt8) :
    textBlockRest true (String.utf8EncodeChar c ++ bs) = c.utf8Size + textBlockRest false bs := by
  obtain ⟨b, more, hc, hsize, hmore⟩ := exists_first_byte c
  have hplain : Without ['\\', '"'] more := hmore _ (by decide)
  rw [hc, List.cons_append, textBlockRest, textBlockRest_append hplain, hsize]
  omega

-- ---------------------------------------------------------------------------
-- The bytes of a text
-- ---------------------------------------------------------------------------

theorem lineRest_bytes (s : Text) : lineRest (bytes s) =
    byteLength (s.take (Source.lineRest s)) := by
  induction s with
  | nil => rfl
  | cons c cs ih =>
    by_cases hc : c = '\n'
    · subst hc
      rw [@IsAscii.bytes_cons '\n' rfl, lineRest, if_pos rfl]
      rfl
    · have hplain : Without ['\n'] (String.utf8EncodeChar c) :=
        without_utf8EncodeChar (by decide) (by simpa using hc)
      rw [Text.bytes_cons, lineRest_append hplain, ih]
      simp [Source.lineRest, hc]

theorem commentRest_bytes (s : Text) :
    commentRest (bytes s) = byteLength (s.take (Source.commentRest s)) := by
  fun_induction Source.commentRest s with
  | case1 => rfl
  | case2 rest =>
    have hend : startsWithBytes "*/" (bytes ('*' :: '/' :: rest)) = true :=
      Text.startsWithBytes_bytes.mpr ⟨rest, rfl⟩
    rw [@IsAscii.bytes_cons '*' rfl] at hend ⊢
    rw [commentRest, if_pos hend]
    rfl
  | case3 c cs hopen ih =>
    by_cases hc : c = '*'
    · subst hc
      have hend : ¬startsWithBytes "*/" (bytes ('*' :: cs)) = true := by
        rw [Text.startsWithBytes_bytes]
        rintro ⟨t, ht⟩
        exact hopen t rfl (List.cons.inj ht).2
      rw [@IsAscii.bytes_cons '*' rfl] at hend ⊢
      rw [commentRest, if_neg hend, ih, List.take_succ_cons, Text.byteLength_cons]
      exact Nat.add_comm _ _
    · have hplain : Without ['*'] (String.utf8EncodeChar c) :=
        without_utf8EncodeChar (by decide) (by simpa using hc)
      rw [Text.bytes_cons, commentRest_append hplain, ih]
      simp

theorem quotedRest_bytes {quote : Char} (hquote : IsAscii quote) (s : Text) :
    quotedRest quote.toUInt8 false (bytes s) = byteLength (s.take (Source.quotedRest quote s)) := by
  fun_induction Source.quotedRest quote s with
  | case1 => rfl
  | case2 => rfl
  | case3 c cs ih =>
    rw [@IsAscii.bytes_cons '\\' rfl, quotedRest, if_pos rfl, Text.bytes_cons,
      quotedRest_escaped hquote, ih, List.take_succ_cons, List.take_succ_cons, Text.byteLength_cons,
      Text.byteLength_cons]
    exact Nat.add_comm _ _
  | case4 cs hlast hescape => rfl
  | case5 cs hlast hescape hnewline =>
    have hbackslash : quote.toUInt8 ≠ '\\'.toUInt8 :=
      @IsAscii.ne_of_mem '\\' quote rfl (ne_backslash_of_rest hlast hescape) _
        (hquote.mem_utf8EncodeChar_iff.mpr rfl)
    have hline : quote.toUInt8 ≠ '\n'.toUInt8 :=
      @IsAscii.ne_of_mem '\n' quote rfl hnewline _ (hquote.mem_utf8EncodeChar_iff.mpr rfl)
    rw [hquote.bytes_cons, quotedRest, if_neg hbackslash, if_neg hline, if_pos rfl]
    exact hquote.symm
  | case6 c cs hlast hescape hnewline hne ih =>
    have hplain : Without ['\\', '\n', quote] (String.utf8EncodeChar c) := by
      refine without_utf8EncodeChar (by simpa using ⟨rfl, rfl, hquote⟩) ?_
      simp [hnewline, hne, ne_backslash_of_rest hlast hescape]
    rw [Text.bytes_cons, quotedRest_append hplain, ih]
    simp

theorem textBlockRest_bytes (s : Text) :
    textBlockRest false (bytes s) = byteLength (s.take (Source.textBlockRest s)) := by
  fun_induction Source.textBlockRest s with
  | case1 => rfl
  | case2 => rfl
  | case3 c cs ih =>
    rw [@IsAscii.bytes_cons '\\' rfl, textBlockRest, if_pos rfl, Text.bytes_cons,
      textBlockRest_escaped, ih, List.take_succ_cons, List.take_succ_cons, Text.byteLength_cons,
      Text.byteLength_cons]
    exact Nat.add_comm _ _
  | case4 rest =>
    have hend : startsWithBytes "\"\"\"" (bytes ('"' :: '"' :: '"' :: rest)) = true :=
      Text.startsWithBytes_bytes.mpr ⟨rest, rfl⟩
    rw [@IsAscii.bytes_cons '"' rfl] at hend ⊢
    rw [textBlockRest, if_neg (by decide), if_pos hend]
    rfl
  | case5 c cs hlast hescape hquotes ih =>
    have hbackslash := ne_backslash_of_rest hlast hescape
    by_cases hc : c = '"'
    · subst hc
      have hend : ¬startsWithBytes "\"\"\"" (bytes ('"' :: cs)) = true := by
        rw [Text.startsWithBytes_bytes]
        rintro ⟨t, ht⟩
        exact hquotes t rfl (List.cons.inj ht).2
      rw [@IsAscii.bytes_cons '"' rfl] at hend ⊢
      rw [textBlockRest, if_neg (by decide), if_neg hend, ih, List.take_succ_cons,
        Text.byteLength_cons]
      exact Nat.add_comm _ _
    · have hplain : Without ['\\', '"'] (String.utf8EncodeChar c) :=
        without_utf8EncodeChar (by decide) (by simp [hbackslash, hc])
      rw [Text.bytes_cons, textBlockRest_append hplain, ih]
      simp

/-- Whether bytes start with a word shows in the text. -/
theorem startsWithBytes_eq (word : String) (s : Text) :
    startsWithBytes word (bytes s) = (Text.afterPrefix? word.toList s).isSome := by
  rw [Bool.eq_iff_iff, Text.startsWithBytes_bytes, Option.isSome_iff_exists]
  simp only [Text.afterPrefix?_eq_some_iff]

theorem triviaAt?_line (s : Text) :
    triviaAt? (bytes ('/' :: '/' :: s)) =
      some (.comment, byteLength ('/' :: '/' :: s.take (Source.lineRest s))) := by
  have hline : startsWithBytes "//" (bytes ('/' :: '/' :: s)) = true :=
    Text.startsWithBytes_bytes.mpr ⟨s, rfl⟩
  unfold triviaAt?
  rw [if_pos hline, lineRest_bytes]
  rfl

theorem triviaAt?_block (s : Text) :
    triviaAt? (bytes ('/' :: '*' :: s)) = (Source.triviaAt? '/' ('*' :: s)).map fun (kind, _) =>
      (kind, byteLength ('/' :: '*' :: s.take (Source.commentRest s))) := by
  have hdrop : (bytes ('/' :: '*' :: s)).drop 2 = bytes s := rfl
  have hlen : byteLength ('/' :: '*' :: s.take (Source.commentRest s)) =
      byteLength (s.take (Source.commentRest s)) + 2 := by
    rw [Text.byteLength_cons, Text.byteLength_cons, ← Nat.add_assoc]
    exact Nat.add_comm _ _
  simp only [triviaAt?, startsWithBytes_eq, hdrop, commentRest_bytes, hlen, Source.triviaAt?]
  cases s with
  | nil => rfl
  | cons d s =>
    by_cases hd : d = '*'
    · cases s with
      | nil => simp [Text.afterPrefix?, hd]
      | cons e s => by_cases he : e = '/' <;> simp [Text.afterPrefix?, hd, he, eq_comm]
    · simp [Text.afterPrefix?, hd, eq_comm]

theorem triviaAt?_textBlock (s : Text) :
    triviaAt? (bytes ('"' :: '"' :: '"' :: s)) =
      some (.literal, byteLength ('"' :: '"' :: '"' :: s.take (Source.textBlockRest s))) := by
  have hdrop : (bytes ('"' :: '"' :: '"' :: s)).drop 3 = bytes s := rfl
  have hlen : byteLength ('"' :: '"' :: '"' :: s.take (Source.textBlockRest s)) =
      byteLength (s.take (Source.textBlockRest s)) + 3 := by
    rw [Text.byteLength_cons, Text.byteLength_cons, Text.byteLength_cons, ← Nat.add_assoc,
      ← Nat.add_assoc]
    exact Nat.add_comm _ _
  simp only [triviaAt?, startsWithBytes_eq, hdrop, textBlockRest_bytes, hlen]
  simp [Text.afterPrefix?]

theorem triviaAt?_quoted {quote : Char} (hquote : quote = '"' ∨ quote = '\'') {s : Text}
    (hs : quote = '"' → ∀ r, s ≠ '"' :: '"' :: r) :
    triviaAt? (bytes (quote :: s)) =
      some (.literal, byteLength (quote :: s.take (Source.quotedRest quote s))) := by
  have hascii : IsAscii quote := by rcases hquote with rfl | rfl <;> rfl
  have hslash : quote.toUInt8 ≠ '/'.toUInt8 := by rcases hquote with rfl | rfl <;> decide
  have hopens : (quote.toUInt8 = '"'.toUInt8 || quote.toUInt8 = '\''.toUInt8) = true := by
    rcases hquote with rfl | rfl <;> rfl
  have hblock : startsWithBytes "\"\"\"" (bytes (quote :: s)) = false := by
    rw [Bool.eq_false_iff, Ne, Text.startsWithBytes_bytes]
    rintro ⟨r, hr⟩
    obtain ⟨hhead, hrest⟩ := List.cons.inj hr
    exact hs hhead r hrest
  rw [hascii.bytes_cons] at hblock ⊢
  rw [triviaAt?_cons (startsWithBytes_eq_false rfl hslash _) (startsWithBytes_eq_false rfl hslash _)
    hblock, if_pos hopens, quotedRest_bytes hascii, Text.byteLength_cons, hascii, Nat.add_comm]

/-- A slash that opens no comment is code. -/
theorem triviaAt?_slash {s : Text} (hline : s.head? ≠ some '/') (hcomment : s.head? ≠ some '*') :
    triviaAt? (bytes ('/' :: s)) = none := by
  have hstart : ∀ d : Char, s.head? ≠ some d →
      startsWithBytes (String.ofList ['/', d]) (bytes ('/' :: s)) = false := by
    intro d hd
    rw [Bool.eq_false_iff, Ne, Text.startsWithBytes_bytes, String.toList_ofList]
    rintro ⟨t, ht⟩
    rw [(List.cons.inj ht).2] at hd
    exact hd rfl
  have hslashes := hstart '/' hline
  have hstar := hstart '*' hcomment
  rw [@IsAscii.bytes_cons '/' rfl] at hslashes hstar ⊢
  rw [triviaAt?_cons hslashes hstar (startsWithBytes_eq_false rfl (by decide) _)]
  rfl

/-- The first byte of a character opens a comment or literal when the character does, and to the
same end. -/
theorem triviaAt?_bytes (c : Char) (cs : Text) :
    triviaAt? (bytes (c :: cs)) =
      (Source.triviaAt? c cs).map fun (kind, n) => (kind, byteLength (c :: cs.take n)) := by
  by_cases hslash : c = '/'
  · subst hslash
    by_cases hline : cs.head? = some '/'
    · obtain ⟨s, rfl⟩ := List.head?_eq_some_iff.mp hline
      exact triviaAt?_line s
    · by_cases hcomment : cs.head? = some '*'
      · obtain ⟨s, rfl⟩ := List.head?_eq_some_iff.mp hcomment
        rw [triviaAt?_block]
        rfl
      · rw [triviaAt?_slash hline hcomment, triviaAt?_eq_none_iff.mpr
          ⟨by decide, by decide, fun _ => ⟨hline, hcomment⟩⟩]
        rfl
  · by_cases hquote : c = '"'
    · subst hquote
      by_cases hblock : ∃ r, cs = '"' :: '"' :: r
      · obtain ⟨r, rfl⟩ := hblock
        rw [triviaAt?_textBlock, Source.triviaAt?_textBlock]
        rfl
      · rw [triviaAt?_quoted (.inl rfl) fun _ r hr => hblock ⟨r, hr⟩,
          triviaAt?_quote fun r hr => hblock ⟨r, hr⟩]
        rfl
    · by_cases happos : c = '\''
      · subst happos
        exact triviaAt?_quoted (.inr rfl) fun h => absurd h (by decide)
      · have hplain : Without ['/', '"', '\''] (String.utf8EncodeChar c) :=
          without_utf8EncodeChar (by decide) (by simp [hslash, hquote, happos])
        obtain ⟨b, more, hbytes, _⟩ := exists_first_byte c
        rw [hbytes] at hplain
        rw [triviaAt?_eq_none_iff.mpr ⟨hquote, happos, fun h => absurd h hslash⟩, Text.bytes_cons,
          hbytes, List.cons_append, triviaAt?_of_without fun d hd => hplain d (by simp_all)]
        rfl

-- ---------------------------------------------------------------------------
-- The pieces of a text
-- ---------------------------------------------------------------------------

/-- The pieces that a token is scanned as. -/
def piecesOf : Token → List Piece
  | .trivia kind text => [.trivia kind (bytes text)]
  | .code c => (String.utf8EncodeChar c).map .code

theorem pieces_cons_of_code {b : UInt8} {bs : List UInt8} (h : triviaAt? (b :: bs) = none) :
    pieces (b :: bs) = .code b :: pieces bs := by
  rw [pieces, piecesAfter, h]
  rfl

/-- A comment or literal is one piece. -/
theorem pieces_append_of_trivia {b : UInt8} {xs bs : List UInt8} {kind : Trivia}
    (h : triviaAt? (b :: (xs ++ bs)) = some (kind, xs.length + 1)) :
    pieces (b :: (xs ++ bs)) = .trivia kind (b :: xs) :: pieces bs := by
  rw [pieces, piecesAfter, h]
  simp only [piecesAfter_eq, Nat.add_sub_cancel, List.take_succ_cons, List.take_left,
    List.drop_left]

/-- Bytes that open nothing are code. -/
theorem pieces_append {xs : List UInt8} (h : Without ['/', '"', '\''] xs) (bs : List UInt8) :
    pieces (xs ++ bs) = xs.map .code ++ pieces bs := by
  induction xs with
  | nil => rfl
  | cons b xs ih =>
    obtain ⟨hb, hxs⟩ := List.forall_mem_cons.mp h
    have hcode : triviaAt? (b :: (xs ++ bs)) = none :=
      triviaAt?_of_without (List.forall_mem_singleton.mpr hb) _
    rw [List.cons_append, pieces_cons_of_code hcode, ih hxs]
    rfl

/-- The first token of a text gives the first pieces of its bytes. -/
theorem pieces_bytes_cons (c : Char) (cs : Text) :
    ∃ token rest, tokens (c :: cs) = token :: tokens rest ∧ rest.length ≤ cs.length ∧
      pieces (bytes (c :: cs)) = piecesOf token ++ pieces (bytes rest) := by
  obtain ⟨b, more, hbytes, hsize, hmore⟩ := exists_first_byte c
  have htrivia := triviaAt?_bytes c cs
  cases hfound : Source.triviaAt? c cs with
  | none =>
    refine ⟨_, cs, tokens_of_code hfound, Nat.le_refl _, ?_⟩
    rw [hfound, Text.bytes_cons, hbytes, List.cons_append] at htrivia
    rw [Text.bytes_cons, hbytes, List.cons_append, pieces_cons_of_code htrivia,
      pieces_append (hmore _ (by decide)), piecesOf, hbytes]
    rfl
  | some found =>
    obtain ⟨kind, n⟩ := found
    refine ⟨_, cs.drop n, tokens_of_triviaAt? hfound, by simp, ?_⟩
    have hsplit : bytes (c :: cs) = b :: (more ++ bytes (cs.take n) ++ bytes (cs.drop n)) := by
      rw [List.append_assoc, ← Text.bytes_append, List.take_append_drop, Text.bytes_cons, hbytes,
        List.cons_append]
    have hlen : byteLength (c :: cs.take n) = (more ++ bytes (cs.take n)).length + 1 := by
      rw [Text.byteLength_cons, hsize, List.length_append, Text.length_bytes]
      omega
    simp only [hfound, hsplit, Option.map_some, hlen] at htrivia
    rw [hsplit, pieces_append_of_trivia htrivia, piecesOf, Text.bytes_cons, hbytes]
    rfl

/-- Scanning the bytes of a text finds its tokens. -/
theorem pieces_bytes (s : Text) : pieces (bytes s) = (tokens s).flatMap piecesOf := by
  induction hlen : s.length using Nat.strong_induction_on generalizing s with
  | h n ih =>
    cases s with
    | nil => rfl
    | cons c cs =>
      obtain ⟨token, rest, htokens, hrest, hpieces⟩ := pieces_bytes_cons c cs
      rw [List.length_cons] at hlen
      rw [hpieces, htokens, List.flatMap_cons, ih rest.length (by omega) rest rfl]

end Typings.Source.Scan
