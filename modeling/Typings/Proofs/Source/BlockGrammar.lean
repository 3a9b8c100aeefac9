import Typings.Proofs.Source.MaskedBytes

/-!
# The grammar of blocks

A block is a brace, any number of items and a closing brace, where an item is a comment or literal,
one byte of other code, or a block. The search for the end of a block counts the blocks that are
open and stops when there is none. It finds the end exactly where the grammar derives a block, and a
block has only one end. Main statement: `blockEnd?_recognizes`.
-/

namespace Typings.Source

open Text (bytes byteLength IsAscii)

namespace Scan

-- ---------------------------------------------------------------------------
-- Counting
-- ---------------------------------------------------------------------------

/-- Offset of the closing brace that ends the block whose inside, pieces at offset `pos`, has
`depth` further blocks open. -/
def closingBrace? : (pos depth : Nat) → List Piece → Option Nat
  | _, _, [] => none
  | pos, depth, .trivia _ bs :: ps => closingBrace? (pos + bs.length) depth ps
  | pos, depth, .code b :: ps =>
    if b = '{'.toUInt8 then closingBrace? (pos + 1) (depth + 1) ps
    else if b = '}'.toUInt8 then
      match depth with
      | 0 => some pos
      | outer + 1 => closingBrace? (pos + 1) outer ps
    else closingBrace? (pos + 1) depth ps

/-- Bytes that are no braces are passed over. -/
theorem closingBrace?_append_code {bs : List UInt8} (h : Without ['{', '}'] bs) (pos depth : Nat)
    (ps : List Piece) :
    closingBrace? pos depth (bs.map .code ++ ps) = closingBrace? (pos + bs.length) depth ps := by
  induction bs generalizing pos with
  | nil => rfl
  | cons b bs ih =>
    obtain ⟨hb, hbs⟩ := List.forall_mem_cons.mp h
    simp only [List.map_cons, List.cons_append, closingBrace?]
    rw [if_neg (hb '{' (by simp)), if_neg (hb '}' (by simp)), ih hbs, List.length_cons,
      Nat.add_assoc,
      Nat.add_comm 1]

/-- Blocks end at the same offset whether characters or bytes are scanned. -/
theorem closingBrace?_pieces (pos depth : Nat) (ts : List Token) :
    closingBrace? pos depth (ts.flatMap piecesOf) = Source.closingBrace? pos depth ts := by
  induction ts generalizing pos depth with
  | nil => rfl
  | cons t ts ih =>
    rw [List.flatMap_cons]
    cases t with
    | trivia kind text =>
      rw [piecesOf, List.singleton_append, closingBrace?, Text.length_bytes, ih]
      rfl
    | code c =>
      simp only [Source.closingBrace?, ← ih]
      by_cases hopen : c = '{'
      · subst hopen
        rfl
      · by_cases hclose : c = '}'
        · subst hclose
          cases depth <;> rfl
        · rw [if_neg hopen, if_neg hclose, piecesOf,
            closingBrace?_append_code (without_braces hopen hclose), String.length_utf8EncodeChar]

-- ---------------------------------------------------------------------------
-- The grammar
-- ---------------------------------------------------------------------------

/-- The symbols of the grammar of blocks. -/
inductive Symbol where
  | block
  | item
  | items

/-- What a symbol derives: the bytes from an offset up to, but not including, another. -/
inductive Derives (bs : List UInt8) : Symbol → Nat → Nat → Prop
  | block {i c : Nat} (opens : bs[i]? = some '{'.toUInt8) (inside : Derives bs .items (i + 1) c)
      (closes : bs[c]? = some '}'.toUInt8) : Derives bs .block i (c + 1)
  /-- A whole comment or literal. -/
  | trivia {i n : Nat} {kind : Trivia} (starts : triviaAt? (bs.drop i) = some (kind, n)) :
      Derives bs .item i (i + n)
  /-- One byte of code that is no brace. -/
  | code {i : Nat} {b : UInt8} (holds : bs[i]? = some b) (opens : b ≠ '{'.toUInt8)
      (closes : b ≠ '}'.toUInt8) (starts : triviaAt? (bs.drop i) = none) :
      Derives bs .item i (i + 1)
  | nested {i j : Nat} (inner : Derives bs .block i j) : Derives bs .item i j
  | nil {i : Nat} : Derives bs .items i i
  | cons {i j k : Nat} (first : Derives bs .item i j) (rest : Derives bs .items j k) :
      Derives bs .items i k

theorem Derives.le {bs : List UInt8} {x : Symbol} {i j : Nat} (h : Derives bs x i j) : i ≤ j := by
  induction h with
  | block _ _ _ ih => omega
  | trivia => omega
  | code => omega
  | nested _ ih => exact ih
  | nil => exact Nat.le_refl _
  | cons _ _ ihfirst ihrest => exact Nat.le_trans ihfirst ihrest

-- ---------------------------------------------------------------------------
-- The search from an offset
-- ---------------------------------------------------------------------------

theorem pos_of_triviaAt? {bs : List UInt8} {kind : Trivia} {n : Nat}
    (h : triviaAt? bs = some (kind, n)) : 0 < n := by
  unfold triviaAt? at h
  split at h
  · rename_i hline
    obtain ⟨-, rfl⟩ := Prod.mk.inj (Option.some.inj h)
    cases bs with
    | nil => exact absurd hline (by decide)
    | cons b bs =>
      have hb : b = '/'.toUInt8 := by
        by_contra hb
        rw [startsWithBytes_eq_false rfl hb] at hline
        exact absurd hline (by decide)
      rw [lineRest, hb, if_neg (by decide)]
      exact Nat.succ_pos _
  · split at h
    · obtain ⟨-, rfl⟩ := Prod.mk.inj (Option.some.inj h)
      exact Nat.succ_pos _
    · split at h
      · obtain ⟨-, rfl⟩ := Prod.mk.inj (Option.some.inj h)
        exact Nat.succ_pos _
      · split at h
        · cases h
        · split at h
          · obtain ⟨-, rfl⟩ := Prod.mk.inj (Option.some.inj h)
            exact Nat.succ_pos _
          · cases h

/-- The comment or literal at the front is the first piece. -/
theorem pieces_of_triviaAt? {bs : List UInt8} {kind : Trivia} {n : Nat}
    (h : triviaAt? bs = some (kind, n)) :
    pieces bs = .trivia kind (bs.take n) :: pieces (bs.drop n) := by
  obtain ⟨k, rfl⟩ := Nat.exists_eq_succ_of_ne_zero (Nat.ne_of_gt (pos_of_triviaAt? h))
  cases bs with
  | nil => exact absurd h (by simp [triviaAt?, Text.startsWithBytes])
  | cons b bs =>
    rw [pieces, piecesAfter, h]
    simp only [piecesAfter_eq, Nat.succ_sub_one, List.drop_succ_cons]

/-- The end of the block around an offset, `depth` further blocks being open there. -/
def endFrom? (bs : List UInt8) (i depth : Nat) : Option Nat :=
  closingBrace? i depth (pieces (bs.drop i))

section

variable {bs : List UInt8} {i depth : Nat}

theorem endFrom?_of_length_le (h : bs.length ≤ i) : endFrom? bs i depth = none := by
  rw [endFrom?, List.drop_of_length_le h]
  rfl

theorem drop_eq_cons {b : UInt8} (h : bs[i]? = some b) : bs.drop i = b :: bs.drop (i + 1) := by
  obtain ⟨hi, rfl⟩ := List.getElem?_eq_some_iff.mp h
  exact List.drop_eq_getElem_cons hi

theorem endFrom?_trivia {n : Nat} {kind : Trivia} (h : triviaAt? (bs.drop i) = some (kind, n)) :
    endFrom? bs i depth = endFrom? bs (i + n) depth := by
  have hpos := pos_of_triviaAt? h
  rw [endFrom?, pieces_of_triviaAt? h, closingBrace?, List.length_take, List.length_drop,
    List.drop_drop]
  by_cases hn : n ≤ bs.length - i
  · rw [Nat.min_eq_left hn]
    rfl
  · -- nothing follows a comment or literal that reaches the end
    rw [endFrom?_of_length_le (by omega), List.drop_of_length_le (by omega)]
    rfl

theorem endFrom?_code {b : UInt8} (hb : bs[i]? = some b) (h : triviaAt? (bs.drop i) = none) :
    endFrom? bs i depth =
      if b = '{'.toUInt8 then endFrom? bs (i + 1) (depth + 1)
      else if b = '}'.toUInt8 then
        match depth with
        | 0 => some i
        | outer + 1 => endFrom? bs (i + 1) outer
      else endFrom? bs (i + 1) depth := by
  rw [drop_eq_cons hb] at h
  rw [endFrom?, drop_eq_cons hb, pieces_cons_of_code h]
  simp only [closingBrace?]
  rfl

theorem triviaAt?_brace {b : UInt8} (hb : bs[i]? = some b) (h : b = '{'.toUInt8 ∨ b = '}'.toUInt8) :
    triviaAt? (bs.drop i) = none := by
  rw [drop_eq_cons hb]
  refine triviaAt?_of_without (List.forall_mem_singleton.mpr fun a ha => ?_) _
  rcases h with rfl | rfl
  all_goals
    simp only [List.mem_cons, List.not_mem_nil, or_false] at ha
    rcases ha with rfl | rfl | rfl <;> decide

theorem endFrom?_open (h : bs[i]? = some '{'.toUInt8) :
    endFrom? bs i depth = endFrom? bs (i + 1) (depth + 1) := by
  rw [endFrom?_code h (triviaAt?_brace h (.inl rfl)), if_pos rfl]

theorem endFrom?_close_zero (h : bs[i]? = some '}'.toUInt8) : endFrom? bs i 0 = some i := by
  rw [endFrom?_code h (triviaAt?_brace h (.inr rfl)), if_neg (by decide), if_pos rfl]

theorem endFrom?_close_succ (h : bs[i]? = some '}'.toUInt8) :
    endFrom? bs i (depth + 1) = endFrom? bs (i + 1) depth := by
  rw [endFrom?_code h (triviaAt?_brace h (.inr rfl)), if_neg (by decide), if_pos rfl]

end

/-- The search passes over what a symbol derives. -/
theorem Derives.endFrom?_eq {bs : List UInt8} {x : Symbol} {i j : Nat} (h : Derives bs x i j)
    (depth : Nat) : endFrom? bs i depth = endFrom? bs j depth := by
  induction h generalizing depth with
  | block opens _ closes ih => rw [endFrom?_open opens, ih, endFrom?_close_succ closes]
  | trivia starts => exact endFrom?_trivia starts
  | code holds opens closes starts =>
    rw [endFrom?_code holds starts, if_neg opens, if_neg closes]
  | nested _ ih => exact ih depth
  | nil => rfl
  | cons _ _ ihfirst ihrest => rw [ihfirst, ihrest]

/-- A search that ends passes over items up to the closing brace of the innermost open block. -/
theorem exists_items_of_endFrom? {bs : List UInt8} {i depth c : Nat}
    (h : endFrom? bs i depth = some c) :
    ∃ j, Derives bs .items i j ∧ bs[j]? = some '}'.toUInt8 ∧ endFrom? bs j depth = some c := by
  induction hlen : bs.length - i using Nat.strong_induction_on generalizing i depth with
  | h n ih =>
    by_cases hi : i < bs.length
    · have hb : bs[i]? = some bs[i] := List.getElem?_eq_getElem hi
      cases htrivia : triviaAt? (bs.drop i) with
      | some found =>
        obtain ⟨kind, k⟩ := found
        have hpos := pos_of_triviaAt? htrivia
        rw [endFrom?_trivia htrivia] at h
        obtain ⟨j, hitems, hclose, hend⟩ := ih (bs.length - (i + k)) (by omega) h rfl
        exact ⟨j, .cons (.trivia htrivia) hitems, hclose, hend⟩
      | none =>
        have hstep := h
        rw [endFrom?_code hb htrivia] at hstep
        split at hstep
        · -- the inside of a nested block, and what follows the block
          rename_i hopen
          rw [hopen] at hb
          obtain ⟨j, hinside, hclose, hend⟩ := ih (bs.length - (i + 1)) (by omega) hstep rfl
          have hle := hinside.le
          rw [endFrom?_close_succ hclose] at hend
          obtain ⟨k, hitems, hlast⟩ := ih (bs.length - (j + 1)) (by omega) hend rfl
          exact ⟨k, .cons (.nested (.block hb hinside hclose)) hitems, hlast⟩
        · rename_i hopen
          split at hstep
          · rename_i hclose
            rw [hclose] at hb
            exact ⟨i, .nil, hb, h⟩
          · rename_i hclose
            obtain ⟨j, hitems, hlast⟩ := ih (bs.length - (i + 1)) (by omega) hstep rfl
            exact ⟨j, .cons (.code hb hopen hclose htrivia) hitems, hlast⟩
    · rw [endFrom?_of_length_le (Nat.le_of_not_lt hi)] at h
      cases h

end Scan

-- ---------------------------------------------------------------------------
-- Recognition
-- ---------------------------------------------------------------------------

/-- The search for the end of a block on the bytes of a text. -/
theorem blockEnd?_eq_endFrom? {s : Text} {o : Nat} (h : (bytes s)[o]? = some '{'.toUInt8) :
    blockEnd? s o = Scan.endFrom? (bytes s) (o + 1) 0 := by
  obtain ⟨before, inside, rfl, rfl⟩ := (@IsAscii.getElem?_bytes_eq_iff '{' rfl _ _).mp h
  have hdrop : (bytes (before ++ '{' :: inside)).drop (byteLength before + 1) = bytes inside := by
    have hsplit : before ++ '{' :: inside = (before ++ ['{']) ++ inside := by simp
    rw [hsplit, Text.bytes_append, List.drop_left']
    rw [Text.length_bytes, Text.byteLength_append]
    rfl
  rw [blockEnd?_append, Scan.endFrom?, hdrop, Scan.pieces_bytes, Scan.closingBrace?_pieces]

theorem blockEnd?_eq_none {s : Text} {o : Nat} (h : (bytes s)[o]? ≠ some '{'.toUInt8) :
    blockEnd? s o = none := by
  cases hend : blockEnd? s o with
  | none => rfl
  | some c =>
    obtain ⟨before, block, after, rfl, rfl, _⟩ := blockEnd?_eq_some_iff.mp hend
    exact absurd ((@IsAscii.getElem?_bytes_eq_iff '{' rfl _ _).mpr ⟨before, _, rfl, rfl⟩) h

/-- What a search for the end of a block that starts at an offset has to answer. -/
structure RecognizesBlock (bs : List UInt8) (o : Nat) (found : Option Nat) : Prop where
  found_iff : ∀ c, found = some c ↔ Scan.Derives bs .block o (c + 1)
  /-- A block has one end. -/
  unique : ∀ c d, Scan.Derives bs .block o (c + 1) → Scan.Derives bs .block o (d + 1) → c = d
  none_of_no_brace : bs[o]? ≠ some '{'.toUInt8 → found = none
  none_iff : found = none ↔ ∀ c, ¬Scan.Derives bs .block o (c + 1)

theorem blockEnd?_eq_some_iff_derives {s : Text} {o c : Nat} :
    blockEnd? s o = some c ↔ Scan.Derives (bytes s) .block o (c + 1) := by
  constructor
  · intro h
    have hopen : (bytes s)[o]? = some '{'.toUInt8 := by
      by_contra hno
      rw [blockEnd?_eq_none hno] at h
      cases h
    rw [blockEnd?_eq_endFrom? hopen] at h
    obtain ⟨j, hinside, hclose, hend⟩ := Scan.exists_items_of_endFrom? h
    rw [Scan.endFrom?_close_zero hclose] at hend
    obtain rfl := Option.some.inj hend
    exact .block hopen hinside hclose
  · intro h
    cases h with
    | block hopen hinside hclose =>
      rw [blockEnd?_eq_endFrom? hopen, hinside.endFrom?_eq, Scan.endFrom?_close_zero hclose]

/-- The search for the end of a block recognizes exactly what the grammar derives. -/
theorem blockEnd?_recognizes (s : Text) (o : Nat) :
    RecognizesBlock (bytes s) o (blockEnd? s o) := by
  refine ⟨fun c => blockEnd?_eq_some_iff_derives, ?_, blockEnd?_eq_none, ?_⟩
  · intro c d hc hd
    rw [← blockEnd?_eq_some_iff_derives] at hc hd
    exact Option.some.inj (hc.symm.trans hd)
  · rw [Option.eq_none_iff_forall_ne_some]
    exact forall_congr' fun c => not_congr blockEnd?_eq_some_iff_derives

end Typings.Source
