import Typings.Proofs.Pattern.Boundaries
import Typings.Proofs.Source.ByteScan
import Typings.Proofs.Source.Header
import Typings.Proofs.Source.Masking

/-!
# Headers and blocks read with checks

Reads the rest of a type header and the end of a block on bytes, with offsets, and checks each step
that could go wrong: a cut must be in order, within the text and at character boundaries, and no
bracket or brace may be closed where none is open. No check ever fails, on any text, and what is
read is what `headerTail` and `blockEnd?` give. Main statements: `headerTail_append` and
`blockEnd_bytes`.
-/

namespace Typings.Source.Checked

open Text (bytes byteLength startsWithBytes IsAscii IsBoundary)
open Scan (Without Piece pieces piecesOf)

-- ---------------------------------------------------------------------------
-- Faults and cuts
-- ---------------------------------------------------------------------------

/-- What can go wrong while a file is read. -/
inductive Fault where
  /-- A cut out of order, beyond the text or inside a character. -/
  | cut (start stop : Nat)
  /-- A bracket or brace is closed where none is open. -/
  | unopened
  /-- A count of brackets leaves the range of 32-bit integers. -/
  | overflow
  /-- A part of a declaration took no part in a match. -/
  | missing (part : Declaration.Part)
  /-- Types are nested deeper than was allowed for. -/
  | nesting
deriving Repr, DecidableEq, Inhabited

@[simp] theorem ok_bind {α β : Type} (a : α) (f : α → Except Fault β) :
    Except.ok a >>= f = f a := rfl

/-- The part of a text between two offsets, which have to be in order and character boundaries of
it. -/
def cut (s : Text) (start stop : Nat) : Except Fault Text :=
  if start ≤ stop ∧ IsBoundary s start ∧ IsBoundary s stop then .ok (Text.slice s start stop)
  else .error (.cut start stop)

theorem cut_append (u v w : Text) :
    cut (u ++ (v ++ w)) (byteLength u) (byteLength u + byteLength v) = .ok v := by
  have hstop : byteLength (u ++ v) = byteLength u + byteLength v := Text.byteLength_append u v
  rw [cut, if_pos ⟨Nat.le_add_right _ _, Text.isBoundary_iff.mpr ⟨u, _, rfl, rfl⟩,
    Text.isBoundary_iff.mpr ⟨u ++ v, w, by simp, hstop⟩⟩, Text.slice, Text.dropBytes_append,
    Nat.add_sub_cancel_left, Text.takeBytes_append]

example : cut "aé".toList 1 2 = .error (.cut 1 2) := by decide

theorem cut_front (v w : Text) : cut (v ++ w) 0 (byteLength v) = .ok v := by
  simpa using cut_append [] v w

theorem cut_back (u v : Text) : cut (u ++ v) (byteLength u) (byteLength (u ++ v)) = .ok v := by
  simpa using cut_append u v []

-- ---------------------------------------------------------------------------
-- Blocks
-- ---------------------------------------------------------------------------

/-- Offset of the brace that closes the last of `depth` open blocks, among pieces at
offset `pos`. -/
def closeAfter : (pos depth : Nat) → List Piece → Except Fault (Option Nat)
  | _, _, [] => .ok none
  | pos, depth, .trivia _ bs :: ps => closeAfter (pos + bs.length) depth ps
  | pos, depth, .code b :: ps =>
    if b = '{'.toUInt8 then closeAfter (pos + 1) (depth + 1) ps
    else if b = '}'.toUInt8 then
      match depth with
      | 0 => .error .unopened
      | 1 => .ok (some pos)
      | outer + 2 => closeAfter (pos + 1) (outer + 1) ps
    else closeAfter (pos + 1) depth ps

/-- Offset of the brace that matches the brace at an offset. -/
def blockEnd (bs : List UInt8) (brace : Nat) : Except Fault (Option Nat) :=
  if bs[brace]? = some '{'.toUInt8 then closeAfter brace 0 (pieces (bs.drop brace)) else .ok none

theorem closeAfter_code {bs : List UInt8} (h : Without ['{', '}'] bs) (pos depth : Nat)
    (ps : List Piece) :
    closeAfter pos depth (bs.map .code ++ ps) = closeAfter (pos + bs.length) depth ps := by
  induction bs generalizing pos with
  | nil => rfl
  | cons b bs ih =>
    obtain ⟨hb, hbs⟩ := List.forall_mem_cons.mp h
    simp only [List.map_cons, List.cons_append, closeAfter]
    rw [if_neg (hb '{' (by simp)), if_neg (hb '}' (by simp)), ih hbs, List.length_cons,
      Nat.add_assoc, Nat.add_comm 1]

/-- From inside a block no brace is closed that is not open. -/
theorem closeAfter_pieces (pos depth : Nat) (ts : List Token) :
    closeAfter pos (depth + 1) (ts.flatMap piecesOf) = .ok (closingBrace? pos depth ts) := by
  induction ts generalizing pos depth with
  | nil => rfl
  | cons t ts ih =>
    rw [List.flatMap_cons]
    cases t with
    | trivia kind text =>
      rw [piecesOf, List.singleton_append, closeAfter, closingBrace?, Text.length_bytes, ih]
    | code c =>
      by_cases hopen : c = '{'
      · subst hopen
        exact ih _ _
      · by_cases hclose : c = '}'
        · subst hclose
          cases depth with
          | zero => rfl
          | succ outer => exact ih _ _
        · have hplain : Without ['{', '}'] (String.utf8EncodeChar c) :=
            Scan.without_utf8EncodeChar (by decide) (by simp [hopen, hclose])
          rw [piecesOf, closeAfter_code hplain, ih, String.length_utf8EncodeChar]
          simp [closingBrace?, hopen, hclose]

theorem drop_bytes_append (u s : Text) : (bytes (u ++ s)).drop (byteLength u) = bytes s := by
  rw [Text.bytes_append, ← Text.length_bytes u, List.drop_left]

/-- The end of a block is found without a fault, from every offset. -/
theorem blockEnd_bytes (s : Text) (brace : Nat) :
    blockEnd (bytes s) brace = .ok (blockEnd? s brace) := by
  rw [blockEnd]
  split
  · rename_i hopen
    obtain ⟨before, inside, rfl, rfl⟩ := (@IsAscii.getElem?_bytes_eq_iff '{' rfl _ _).mp hopen
    have hpieces : pieces (bytes ('{' :: inside)) =
        .code '{'.toUInt8 :: (tokens inside).flatMap piecesOf := by
      rw [Scan.pieces_bytes, IsBrace.tokens_cons (.inl rfl)]
      rfl
    rw [drop_bytes_append, hpieces, closeAfter, if_pos rfl, closeAfter_pieces, blockEnd?_append]
  · rename_i hopen
    rw [blockEnd?]
    split
    · rename_i inside hsuffix
      obtain ⟨before, rfl, rfl⟩ := Text.suffixAt?_eq_some_iff.mp hsuffix
      exact absurd ((@IsAscii.getElem?_bytes_eq_iff '{' rfl _ _).mpr
        ⟨before, inside, rfl, rfl⟩) hopen
    · rfl

/-- The text between the braces of a block is cut without a fault. -/
theorem cut_block {s : Text} {brace close : Nat} (h : blockEnd? s brace = some close) :
    cut s (brace + 1) close = .ok (Text.slice s (brace + 1) close) := by
  obtain ⟨before, block, after, rfl, rfl, rfl, -⟩ := blockEnd?_eq_some_iff.mp h
  have hopen : byteLength (before ++ ['{']) = byteLength before + 1 := by
    rw [Text.byteLength_append]
    rfl
  have hcut := cut_append (before ++ ['{']) block ('}' :: after)
  rw [hopen, List.append_assoc, List.singleton_append] at hcut
  rw [hcut, slice_block]

-- ---------------------------------------------------------------------------
-- Blanks
-- ---------------------------------------------------------------------------

/-- The blanks of a header. -/
def blanks : List Char := [' ', '\t', '\n', '\x0c', '\r']

/-- Whether a byte is a blank. -/
def isBlankByte (b : UInt8) : Bool := blanks.any fun c => b = c.toUInt8

theorem isBlank_iff {c : Char} : Text.isBlank c = true ↔ c ∈ blanks := by
  simp [Text.isBlank, blanks, or_assoc]

theorem isBlankByte_of_without {bs : List UInt8} (h : Without blanks bs) :
    ∀ b ∈ bs, isBlankByte b = false := by
  intro b hb
  simpa [isBlankByte] using h b hb

theorem isAscii_of_isBlank {c : Char} (h : Text.isBlank c = true) : IsAscii c := by
  have hall : ∀ d ∈ blanks, IsAscii d := by decide
  exact hall c (isBlank_iff.mp h)

/-- The first byte of a character is a blank when the character is. -/
theorem exists_first_byte (c : Char) :
    ∃ b more, String.utf8EncodeChar c = b :: more ∧ c.utf8Size = more.length + 1 ∧
      isBlankByte b = Text.isBlank c ∧ (more ≠ [] → Text.isBlank c = false) ∧
      ∀ chars : List Char, (∀ a ∈ chars, IsAscii a) → Without chars more := by
  obtain ⟨b, more, hc, hsize, hmore⟩ := Scan.exists_first_byte c
  refine ⟨b, more, hc, hsize, ?_, ?_, hmore⟩
  · cases hblank : Text.isBlank c with
    | true =>
      rw [(isAscii_of_isBlank hblank).utf8EncodeChar_eq] at hc
      obtain ⟨rfl, _⟩ := List.cons.inj hc
      rw [isBlankByte, List.any_eq_true]
      exact ⟨c, isBlank_iff.mp hblank, by simp⟩
    | false =>
      have hnot : c ∉ blanks := fun hmem => by simp [isBlank_iff.mpr hmem] at hblank
      have hplain : Without blanks (String.utf8EncodeChar c) :=
        Scan.without_utf8EncodeChar (by decide) hnot
      exact isBlankByte_of_without hplain b (by simp [hc])
  · intro hne
    rw [Bool.eq_false_iff]
    intro hblank
    rw [(isAscii_of_isBlank hblank).utf8EncodeChar_eq] at hc
    exact hne (List.cons.inj hc).2.symm

/-- The blanks at the front of a text take up the same bytes. -/
theorem length_takeWhile_bytes (s : Text) :
    ((bytes s).takeWhile isBlankByte).length = byteLength (s.takeWhile Text.isBlank) := by
  induction s with
  | nil => rfl
  | cons c cs ih =>
    obtain ⟨b, more, hc, hsize, hblank, hmore, _⟩ := exists_first_byte c
    rw [Text.bytes_cons, hc, List.cons_append, List.takeWhile_cons, List.takeWhile_cons, hblank]
    cases hfirst : Text.isBlank c with
    | false => rfl
    | true =>
      obtain rfl : more = [] := by
        by_contra hne
        simp [hmore hne] at hfirst
      simp [ih, hsize, Nat.add_comm]

-- ---------------------------------------------------------------------------
-- Angle brackets and the brace
-- ---------------------------------------------------------------------------

/-- Offset after the `>` that closes the last of `depth` open angle brackets. A brace or semicolon
before it means there is none. -/
def angleEnd : (pos depth : Nat) → List UInt8 → Except Fault (Option Nat)
  | _, _, [] => .ok none
  | pos, depth, b :: bs =>
    if b = '<'.toUInt8 then angleEnd (pos + 1) (depth + 1) bs
    else if b = '>'.toUInt8 then
      match depth with
      | 0 => .error .unopened
      | 1 => .ok (some (pos + 1))
      | outer + 2 => angleEnd (pos + 1) (outer + 1) bs
    else if b = '{'.toUInt8 || b = ';'.toUInt8 then .ok none
    else angleEnd (pos + 1) depth bs

theorem angleEnd_append {xs : List UInt8} (h : Without ['<', '>', '{', ';'] xs) (pos depth : Nat)
    (bs : List UInt8) : angleEnd pos depth (xs ++ bs) = angleEnd (pos + xs.length) depth bs := by
  induction xs generalizing pos with
  | nil => rfl
  | cons b xs ih =>
    obtain ⟨hb, hxs⟩ := List.forall_mem_cons.mp h
    have hstop : ¬(b = '{'.toUInt8 || b = ';'.toUInt8) = true := by
      simp [hb '{' (by simp), hb ';' (by simp)]
    simp only [List.cons_append, angleEnd]
    rw [if_neg (hb '<' (by simp)), if_neg (hb '>' (by simp)), if_neg hstop, ih hxs,
      List.length_cons,
      Nat.add_assoc, Nat.add_comm 1]

theorem map_end_cons (pos : Nat) (c : Char) (found : Option (Text × Text)) :
    ((found.map fun (inside, rest) => (c :: inside, rest)).map fun (inside, _) =>
      pos + byteLength inside) = found.map fun (inside, _) =>
        pos + c.utf8Size + byteLength inside := by
  cases found with
  | none => rfl
  | some found => simp [Nat.add_assoc]

/-- Behind an opening angle bracket no bracket is closed that is not open. -/
theorem angleEnd_bytes (pos depth : Nat) (s : Text) :
    angleEnd pos (depth + 1) (bytes s) =
      .ok ((closeAngle? depth s).map fun (inside, _) => pos + byteLength inside) := by
  fun_induction closeAngle? depth s generalizing pos with
  | case1 depth => rfl
  | case2 depth cs ih =>
    rw [map_end_cons]
    exact ih _
  | case3 cs hne => rfl
  | case4 cs hne outer ih =>
    rw [map_end_cons]
    exact ih _
  | case5 depth c cs hopen hclose hstop =>
    simp only [Bool.or_eq_true, decide_eq_true_eq] at hstop
    rcases hstop with rfl | rfl <;> rfl
  | case6 depth c cs hopen hclose hstop ih =>
    simp only [Bool.or_eq_true, decide_eq_true_eq, not_or] at hstop
    have hplain : Without ['<', '>', '{', ';'] (String.utf8EncodeChar c) :=
      Scan.without_utf8EncodeChar (by decide) (by simp [hopen, hclose, hstop])
    rw [map_end_cons, Text.bytes_cons, angleEnd_append hplain, String.length_utf8EncodeChar, ih]

/-- Offset of the `{` outside angle brackets, `depth` of them being open. A character that no header
holds before it means that there is none. -/
def braceAfter? : (pos depth : Nat) → List UInt8 → Option Nat
  | _, _, [] => none
  | pos, depth, b :: bs =>
    if b = '<'.toUInt8 then braceAfter? (pos + 1) (depth + 1) bs
    else if b = '>'.toUInt8 then braceAfter? (pos + 1) (depth - 1) bs
    else if b = '{'.toUInt8 && depth = 0 then some pos
    else if b = ';'.toUInt8 || b = '('.toUInt8 || b = ')'.toUInt8 || b = '='.toUInt8 ||
      b = '}'.toUInt8 then none
    else braceAfter? (pos + 1) depth bs

/-- The characters that the search for the brace looks for. -/
def braceSearched : List Char := ['<', '>', '{', ';', '(', ')', '=', '}']

theorem braceAfter?_append {xs : List UInt8} (h : Without braceSearched xs) (pos depth : Nat)
    (bs : List UInt8) : braceAfter? pos depth (xs ++ bs) =
      braceAfter? (pos + xs.length) depth bs := by
  induction xs generalizing pos with
  | nil => rfl
  | cons b xs ih =>
    obtain ⟨hb, hxs⟩ := List.forall_mem_cons.mp h
    simp only [braceSearched, List.forall_mem_cons] at hb
    obtain ⟨hopen, hclose, hbrace, hsemi, hparen, hend, heq, hcurly, _⟩ := hb
    rw [List.cons_append, braceAfter?, if_neg hopen, if_neg hclose, if_neg (by simp [hbrace]),
      if_neg (by simp [hsemi, hparen, hend, heq, hcurly]), ih hxs, List.length_cons, Nat.add_assoc,
      Nat.add_comm 1]

theorem map_brace_cons (pos : Nat) (c : Char) (found : Option Text) :
    (found.map (c :: ·)).map (pos + byteLength ·) =
      found.map (pos + c.utf8Size + byteLength ·) := by
  cases found with
  | none => rfl
  | some text => simp [Nat.add_assoc]

/-- The brace of a header is found at the same offset. -/
theorem braceAfter?_bytes (pos depth : Nat) (s : Text) :
    braceAfter? pos depth (bytes s) = (beforeBrace? depth s).map (pos + byteLength ·) := by
  fun_induction beforeBrace? depth s generalizing pos with
  | case1 depth => rfl
  | case2 depth cs ih =>
    rw [map_brace_cons]
    exact ih _
  | case3 depth cs hne ih =>
    rw [map_brace_cons]
    exact ih _
  | case4 depth c cs hopen hclose hbrace =>
    simp only [Bool.and_eq_true, decide_eq_true_eq] at hbrace
    obtain ⟨rfl, rfl⟩ := hbrace
    rfl
  | case5 depth c cs hopen hclose hbrace hstop =>
    simp only [Bool.or_eq_true, decide_eq_true_eq] at hstop
    rcases hstop with (((rfl | rfl) | rfl) | rfl) | rfl <;> rfl
  | case6 depth c cs hopen hclose hbrace hstop ih =>
    rw [map_brace_cons]
    by_cases hcurly : c = '{'
    · -- a brace inside angle brackets is passed over
      subst hcurly
      have hdepth : depth ≠ 0 := by simpa using hbrace
      rw [@IsAscii.bytes_cons '{' rfl, braceAfter?, if_neg (by decide), if_neg (by decide),
        if_neg (by simp [hdepth]), if_neg (by decide)]
      exact ih _
    · simp only [Bool.or_eq_true, decide_eq_true_eq, not_or] at hstop
      have hplain : Without braceSearched (String.utf8EncodeChar c) :=
        Scan.without_utf8EncodeChar (by decide)
          (by simp [braceSearched, hopen, hclose, hcurly, hstop])
      rw [Text.bytes_cons, braceAfter?_append hplain, String.length_utf8EncodeChar, ih]

-- ---------------------------------------------------------------------------
-- Clauses
-- ---------------------------------------------------------------------------

/-- Whether the word of a clause stands at the front of bytes, before a blank or the end. -/
def opensClause (bs : List UInt8) (k : Clause) : Bool :=
  startsWithBytes (String.ofList k.word) bs && (bs.drop k.word.length).head?.all isBlankByte

/-- The clause that bytes start with. -/
def clauseAt? (bs : List UInt8) : Option Clause :=
  [Clause.superTypes, .interfaces, .permitted].find? (opensClause bs)

/-- The offset of the first clause word, or of the end, and each clause with the span of the text
after its word up to the next. The first `skip` bytes belong to a word already read, `depth` angle
brackets are open, and `fresh` says that a word may start here. -/
def clauseSpans : (pos skip depth : Nat) → (fresh : Bool) → List UInt8 → Nat × List (Clause × Span)
  | pos, _, _, _, [] => (pos, [])
  | pos, skip + 1, depth, _, _ :: bs => clauseSpans (pos + 1) skip depth false bs
  | pos, 0, depth, fresh, b :: bs =>
    if b = '<'.toUInt8 then clauseSpans (pos + 1) 0 (depth + 1) false bs
    else if b = '>'.toUInt8 then clauseSpans (pos + 1) 0 (depth - 1) false bs
    else
      match if depth = 0 && fresh then clauseAt? (b :: bs) else none with
      | some clause =>
        let (stop, later) := clauseSpans (pos + 1) (clause.word.length - 1) depth false bs
        (pos, (clause, ⟨pos + clause.word.length, stop⟩) :: later)
      | none => clauseSpans (pos + 1) 0 depth (isBlankByte b) bs

/-- A clause with the text in its span. -/
def cutClause (text : Text) (entry : Clause × Span) : Except Fault (Clause × Text) := do
  let part ← cut text entry.2.start entry.2.stop
  return (entry.1, part)

/-- The clauses of the rest of a header, each with the text after its word. -/
def splitClauses (text : Text) : Except Fault (List (Clause × Text)) :=
  (clauseSpans 0 0 0 true (bytes text)).2.mapM (cutClause text)

theorem all_head?_bytes (s : Text) :
    (bytes s).head?.all isBlankByte = s.head?.all Text.isBlank := by
  cases s with
  | nil => rfl
  | cons c cs =>
    obtain ⟨b, more, hc, _, hblank, _⟩ := exists_first_byte c
    rw [Text.bytes_cons, hc]
    exact hblank

theorem length_bytes_word (k : Clause) : (bytes k.word).length = k.word.length := by
  cases k <;> rfl

theorem opensClause_bytes (s : Text) (k : Clause) : opensClause (bytes s) k = k.opens s := by
  rw [opensClause, Scan.startsWithBytes_eq, String.toList_ofList, Clause.opens]
  cases hrest : Text.afterPrefix? k.word s with
  | none => rfl
  | some rest =>
    obtain rfl := Text.afterPrefix?_eq_some_iff.mp hrest
    rw [← length_bytes_word, Text.bytes_append, List.drop_left, all_head?_bytes]
    rfl

theorem clauseAt?_bytes (s : Text) : clauseAt? (bytes s) = Clause.at? s := by
  rw [clauseAt?, Clause.at?, funext (opensClause_bytes s)]

/-- What is left of a character starts no clause. -/
theorem clauseSpans_append {xs : List UInt8} (h : Without ('<' :: '>' :: blanks) xs)
    (pos depth : Nat) (bs : List UInt8) :
    clauseSpans pos 0 depth false (xs ++ bs) = clauseSpans (pos + xs.length) 0 depth false bs := by
  induction xs generalizing pos with
  | nil => rfl
  | cons b xs ih =>
    obtain ⟨hb, hxs⟩ := List.forall_mem_cons.mp h
    have hblank : isBlankByte b = false :=
      isBlankByte_of_without (List.forall_mem_singleton.mpr fun c hc =>
        hb c (by simp [hc])) b (by simp)
    rw [List.cons_append, clauseSpans, if_neg (hb '<' (by simp)), if_neg (hb '>' (by simp))]
    simp only [Bool.and_false, Bool.false_eq_true, ↓reduceIte, hblank]
    rw [ih hxs, List.length_cons, Nat.add_assoc, Nat.add_comm 1]

/-- A character that is no angle bracket and starts no clause is passed over. -/
theorem clauseSpans_cons {c : Char} (hopen : c ≠ '<') (hclose : c ≠ '>') {depth : Nat}
    {fresh : Bool}
    {cs : Text} (hclause : (if depth = 0 && fresh then Clause.at? (c :: cs) else none) = none)
    (pos : Nat) :
    clauseSpans pos 0 depth fresh (bytes (c :: cs)) =
      clauseSpans (pos + c.utf8Size) 0 depth (Text.isBlank c) (bytes cs) := by
  obtain ⟨b, more, hc, hsize, hblank, hmore, hplain⟩ := exists_first_byte c
  have hfirst : Without ['<', '>'] (String.utf8EncodeChar c) :=
    Scan.without_utf8EncodeChar (by decide) (by simp [hopen, hclose])
  have hb := hfirst b (by simp [hc])
  rw [← clauseAt?_bytes, Text.bytes_cons, hc, List.cons_append] at hclause
  rw [Text.bytes_cons, hc, List.cons_append, clauseSpans, if_neg (hb '<' (by simp)),
    if_neg (hb '>' (by simp)), hclause, hsize]
  simp only [hblank]
  by_cases hne : more = []
  · subst hne
    rfl
  · rw [hmore hne, clauseSpans_append (hplain _ (by decide)), Nat.add_assoc, Nat.add_comm 1]

/-- A clause word is followed by the text of the clause, up to the next. -/
theorem clauseSpans_clause {c : Char} (hc : IsAscii c) (hopen : c ≠ '<') (hclose : c ≠ '>')
    {depth : Nat} {fresh : Bool} {cs : Text} {clause : Clause}
    (hclause : (if depth = 0 && fresh then Clause.at? (c :: cs) else none) = some clause)
    (pos : Nat) :
    clauseSpans pos 0 depth fresh (bytes (c :: cs)) =
      let later := clauseSpans (pos + c.utf8Size) (clause.word.length - 1) depth false (bytes cs)
      (pos, (clause, ⟨pos + clause.word.length, later.1⟩) :: later.2) := by
  have hfirst : Without ['<', '>'] (String.utf8EncodeChar c) :=
    Scan.without_utf8EncodeChar (by decide) (by simp [hopen, hclose])
  have hb := hfirst c.toUInt8 (hc.mem_utf8EncodeChar_iff.mpr rfl)
  have hsize : c.utf8Size = 1 := hc
  rw [← clauseAt?_bytes, hc.bytes_cons] at hclause
  rw [hc.bytes_cons, clauseSpans, if_neg (hb '<' (by simp)), if_neg (hb '>' (by simp)),
    hclause, hsize]

/-- Offsets that fit a split of a text at offset `pos` into its front and its clauses. -/
structure Fits (text : Text) (pos : Nat) (s : Text) (split : Text × List (Clause × Text))
    (spans : Nat × List (Clause × Span)) : Prop where
  front : ∃ rest, s = split.1 ++ rest
  stop : spans.1 = pos + byteLength split.1
  cuts : spans.2.mapM (cutClause text) = .ok split.2

theorem Fits.extend {text : Text} {pos : Nat} {c : Char} {cs : Text}
    {split : Text × List (Clause × Text)} {spans : Nat × List (Clause × Span)}
    (h : Fits text (pos + c.utf8Size) cs split spans) :
    Fits text pos (c :: cs) (Clause.split.extend c split) spans := by
  obtain ⟨⟨rest, rfl⟩, hstop, hcuts⟩ := h
  exact ⟨⟨rest, rfl⟩, by rw [hstop, Clause.split.extend, Text.byteLength_cons, Nat.add_assoc],
    hcuts⟩

/-- A clause word and the clauses that follow it. -/
theorem Fits.clause {u word cs : Text} {clause : Clause} (hword : word = clause.word)
    {split : Text × List (Clause × Text)} {spans : Nat × List (Clause × Span)}
    (h : Fits (u ++ (word ++ cs)) (byteLength u + byteLength word) cs split spans) :
    Fits (u ++ (word ++ cs)) (byteLength u) (word ++ cs) ([], (clause, split.1) :: split.2)
      (byteLength u, (clause, ⟨byteLength u + clause.word.length, spans.1⟩) :: spans.2) := by
  obtain ⟨⟨rest, rfl⟩, hstop, hcuts⟩ := h
  refine ⟨⟨_, rfl⟩, rfl, ?_⟩
  have hcut : cut (u ++ (word ++ (split.1 ++ rest))) (byteLength u + clause.word.length) spans.1 =
      .ok split.1 := by
    have h := cut_append (u ++ word) split.1 rest
    rw [Text.byteLength_append, List.append_assoc] at h
    rw [hstop, ← length_bytes_word, ← hword, Text.length_bytes]
    exact h
  rw [List.mapM_cons, cutClause, hcut, hcuts]
  rfl

theorem exists_word_of_at? {c : Char} {cs : Text} {clause : Clause}
    (h : Clause.at? (c :: cs) = some clause) :
    ∃ more rest, cs = more ++ rest ∧ clause.word = c :: more := by
  rw [Clause.at?] at h
  have hopens : clause.opens (c :: cs) = true := by simpa using List.find?_some h
  rw [Clause.opens] at hopens
  split at hopens
  · rename_i rest hrest
    have hfront := Text.afterPrefix?_eq_some_iff.mp hrest
    obtain ⟨d, more, hword⟩ : ∃ d more, clause.word = d :: more := by
      cases clause <;> exact ⟨_, _, rfl⟩
    rw [hword] at hfront
    obtain ⟨rfl, rfl⟩ := List.cons.inj hfront
    exact ⟨more, rest, rfl, hword⟩
  · cases hopens

theorem isAscii_of_mem_word {clause : Clause} : ∀ c ∈ clause.word, IsAscii c := by
  cases clause <;> decide

/-- The clauses of a header are cut where they stand. -/
theorem fits_clauseSpans (u s : Text) (skip depth : Nat) (fresh : Bool)
    (hskip : ∀ c ∈ s.take skip, IsAscii c) :
    Fits (u ++ s) (byteLength u + byteLength (s.take skip)) (s.drop skip)
      (Clause.split skip depth fresh s)
        (clauseSpans (byteLength u) skip depth fresh (bytes s)) := by
  induction s generalizing u skip depth fresh with
  | nil =>
    cases skip <;> exact ⟨⟨[], rfl⟩, by simp [clauseSpans, Clause.split], rfl⟩
  | cons c cs ih =>
    have hsplit : u ++ [c] ++ cs = u ++ c :: cs := by simp
    have hlen : byteLength (u ++ [c]) = byteLength u + c.utf8Size := by simp
    cases skip with
    | succ skip =>
      obtain ⟨hc, hcs⟩ := List.forall_mem_cons.mp hskip
      have hrest := ih (u ++ [c]) skip depth false hcs
      have hone : c.utf8Size = 1 := hc
      rw [hsplit, hlen, Nat.add_assoc, hone] at hrest
      rw [hc.bytes_cons, clauseSpans, Clause.split, List.take_succ_cons, Text.byteLength_cons, hone]
      exact hrest
    | zero =>
      have hrest := fun depth fresh => ih (u ++ [c]) 0 depth fresh (by simp)
      rw [hsplit, hlen] at hrest
      simp only [List.take_zero, Text.byteLength_nil, Nat.add_zero, List.drop_zero] at hrest ⊢
      rw [Clause.split]
      by_cases hopen : c = '<'
      · subst hopen
        rw [if_pos rfl]
        exact (hrest _ _).extend
      · rw [if_neg hopen]
        by_cases hclose : c = '>'
        · subst hclose
          rw [if_pos rfl]
          exact (hrest _ _).extend
        · rw [if_neg hclose]
          cases hclause : if depth = 0 && fresh then Clause.at? (c :: cs) else none with
          | none =>
            rw [clauseSpans_cons hopen hclose hclause]
            exact (hrest _ _).extend
          | some clause =>
            have hfound : Clause.at? (c :: cs) = some clause := by
              split at hclause
              · exact hclause
              · cases hclause
            obtain ⟨more, rest, rfl, hword⟩ := exists_word_of_at? hfound
            have hascii := hword ▸ @isAscii_of_mem_word clause
            obtain ⟨hc, hmore⟩ := List.forall_mem_cons.mp hascii
            have hcount : clause.word.length - 1 = more.length := by simp [hword]
            have hlater := ih (u ++ [c]) more.length depth false (by simpa using hmore)
            rw [hsplit, hlen, List.take_left, List.drop_left, Nat.add_assoc, ← Text.byteLength_cons,
              ← hcount] at hlater
            rw [clauseSpans_clause hc hopen hclose hclause]
            exact hlater.clause hword.symm

theorem splitClauses_eq (text : Text) : splitClauses text = .ok (Clause.split 0 0 true text).2 :=
  (fits_clauseSpans [] text 0 0 true (by simp)).cuts

-- ---------------------------------------------------------------------------
-- Headers
-- ---------------------------------------------------------------------------

/-- Reads the clauses of a header and the brace after them, from an offset on. -/
def clausesTail (masked : Text) (typeParameters : Option Text) (start : Nat) :
    Except Fault (Option HeaderTail) :=
  match braceAfter? start 0 ((bytes masked).drop start) with
  | none => return none
  | some brace => do
    let text ← cut masked start brace
    let clauses ← splitClauses text
    return some
      { typeParameters
        superTypes := Clause.superTypes.lastText? clauses
        interfaces := Clause.interfaces.lastText? clauses
        brace }

/-- Reads the type parameters of a header and what follows them, from an offset on. -/
def tailFrom (masked : Text) (pos : Nat) : Except Fault (Option HeaderTail) :=
  if (bytes masked)[pos]? = some '<'.toUInt8 then do
    match ← angleEnd pos 0 ((bytes masked).drop pos) with
    | none => return none
    | some stop =>
      let angled ← cut masked pos stop
      clausesTail masked (some (Text.compact angled)) stop
  else clausesTail masked none pos

/-- Reads the rest of a type header, which starts right after the name at an offset. -/
def headerTail (masked : Text) (start : Nat) : Except Fault (Option HeaderTail) :=
  tailFrom masked (start + (((bytes masked).drop start).takeWhile isBlankByte).length)

theorem clausesTail_append (u s : Text) (typeParameters : Option Text) :
    clausesTail (u ++ s) typeParameters (byteLength u) =
      .ok (clausesTail? typeParameters (byteLength u) s) := by
  rw [clausesTail, drop_bytes_append, braceAfter?_bytes, clausesTail?]
  cases htext : beforeBrace? 0 s with
  | none => rfl
  | some text =>
    obtain ⟨⟨rest, rfl⟩, _⟩ := exists_brace_of_beforeBrace? htext
    simp only [Option.map_some, cut_append, splitClauses_eq]
    rfl

theorem angleEnd_angle (pos : Nat) (s : Text) :
    angleEnd pos 0 (bytes ('<' :: s)) =
      .ok ((closeAngle? 0 s).map fun (inside, _) => pos + byteLength ('<' :: inside)) := by
  rw [@IsAscii.bytes_cons '<' rfl, angleEnd, if_pos rfl, angleEnd_bytes]
  cases closeAngle? 0 s with
  | none => rfl
  | some found => exact congrArg (Except.ok ∘ some) (Nat.add_assoc pos 1 _)

/-- An angle bracket shows in the bytes at the end of the text before it. -/
theorem getElem?_bytes_append_iff (u s : Text) :
    (bytes (u ++ s))[byteLength u]? = some '<'.toUInt8 ↔ ∃ cs, s = '<' :: cs := by
  rw [@IsAscii.getElem?_bytes_eq_iff '<' rfl]
  constructor
  · rintro ⟨v, cs, hv, hlen⟩
    exact ⟨cs, (Text.append_inj_of_byteLength hv hlen.symm).2⟩
  · rintro ⟨cs, rfl⟩
    exact ⟨u, cs, rfl, rfl⟩

theorem tailFrom_append (u s : Text) :
    tailFrom (u ++ s) (byteLength u) = .ok (tailAfterBlanks? (byteLength u) s) := by
  rw [tailFrom]
  split
  · rename_i hangle
    obtain ⟨cs, rfl⟩ := (getElem?_bytes_append_iff u s).mp hangle
    rw [drop_bytes_append, angleEnd_angle, tailAfterBlanks?]
    cases hclose : closeAngle? 0 cs with
    | none => rfl
    | some found =>
      obtain ⟨inside, after⟩ := found
      obtain ⟨rfl, _⟩ := eq_append_of_closeAngle? hclose
      have hcut := cut_append u ('<' :: inside) after
      have htail := clausesTail_append (u ++ '<' :: inside) after
        (some (Text.compact ('<' :: inside)))
      rw [Text.byteLength_append, List.append_assoc] at htail
      simp only [Option.map_some, ok_bind, ← List.cons_append]
      rw [hcut, ok_bind, htail]
  · rename_i hangle
    have hfirst : tailAfterBlanks? (byteLength u) s = clausesTail? none (byteLength u) s := by
      unfold tailAfterBlanks?
      split
      · rename_i cs
        exact absurd ((getElem?_bytes_append_iff u _).mpr ⟨cs, rfl⟩) hangle
      · rfl
    rw [hfirst, clausesTail_append]

/-- The rest of a header is read without a fault from every character boundary. -/
theorem headerTail_append (u s : Text) :
    headerTail (u ++ s) (byteLength u) = .ok (tailAfterName? (byteLength u) s) := by
  have hs : s.takeWhile Text.isBlank ++ s.dropWhile Text.isBlank = s :=
    List.takeWhile_append_dropWhile
  have hblank : ∀ c ∈ s.takeWhile Text.isBlank, Text.isBlank c = true :=
    fun c hc => List.all_eq_true.mp List.all_takeWhile c hc
  have hrest : ∀ c ∈ (s.dropWhile Text.isBlank).head?, Text.isBlank c = false := by
    intro c hc
    have hnot := List.head?_dropWhile_not Text.isBlank s
    rw [hc] at hnot
    simpa using hnot
  have htail := tailAfterName?_append hblank hrest (byteLength u)
  have hfrom := tailFrom_append (u ++ s.takeWhile Text.isBlank) (s.dropWhile Text.isBlank)
  rw [hs, ← Text.byteLength_append] at htail
  rw [List.append_assoc, hs, Text.byteLength_append] at hfrom
  rw [headerTail, drop_bytes_append, length_takeWhile_bytes, hfrom, htail, Text.byteLength_append]

end Typings.Source.Checked
