import Typings.Proofs.Source.BlockGrammar

/-!
# Quoted literals and lines

A quoted literal ends at its first quote or newline that is not escaped, or with the text. A byte is
escaped when an odd run of backslashes stands before it, which may be a newline: a literal that is
open where its line ends in such a run goes on in the next line. So a literal stays on its line
exactly when its line does not end that way. Main statements: `endsAt_quotedEnd` and
`quotedEnd_line_iff`.
-/

namespace Typings.Source.Scan

open Text (bytes byteLength IsAscii)

-- ---------------------------------------------------------------------------
-- Ends of literals
-- ---------------------------------------------------------------------------

/-- Offset where the quoted literal that starts at an offset ends. -/
def quotedEnd (bs : List UInt8) (start : Nat) : Nat :=
  match bs.drop start with
  | [] => start
  | quote :: rest => start + (quotedRest quote false rest + 1)

/-- Whether an odd run of backslashes stands before an offset, in a literal that starts at
`start`. -/
def escaped (bs : List UInt8) (start i : Nat) : Bool :=
  (((bs.take i).drop (start + 1)).reverse.takeWhile (· = '\\'.toUInt8)).length % 2 = 1

/-- A literal goes on behind an offset: a quote or newline there is escaped. -/
def GoesOn (bs : List UInt8) (start i : Nat) : Prop :=
  bs[i]? = bs[start]? ∨ bs[i]? = some '\n'.toUInt8 → escaped bs start i = true

/-- Where a quoted literal ends that starts at an offset. -/
inductive EndsAt (bs : List UInt8) (start : Nat) : Nat → Prop
  /-- Behind its closing quote. -/
  | closed {k : Nat} (after : start < k) (quote : bs[k]? = bs[start]?)
      (plain : escaped bs start k = false) (before : ∀ i, start < i → i < k → GoesOn bs start i) :
      EndsAt bs start (k + 1)
  /-- At a newline, left open. -/
  | lineEnd {k : Nat} (after : start < k) (newline : bs[k]? = some '\n'.toUInt8)
      (plain : escaped bs start k = false) (before : ∀ i, start < i → i < k → GoesOn bs start i) :
      EndsAt bs start k
  /-- With the text, left open. -/
  | textEnd (before : ∀ i, start < i → i < bs.length → GoesOn bs start i) :
      EndsAt bs start bs.length

section

variable {bs : List UInt8} {start i : Nat} {b : UInt8} {quote : Char}

theorem escaped_first : escaped bs start (start + 1) = false := by
  simp [escaped]

/-- A byte is escaped by a backslash that is not escaped itself. -/
theorem escaped_succ (hi : start < i) (hb : bs[i]? = some b) :
    escaped bs start (i + 1) = (decide (b = '\\'.toUInt8) && !escaped bs start i) := by
  obtain ⟨hlt, rfl⟩ := List.getElem?_eq_some_iff.mp hb
  have hrun : (bs.take (i + 1)).drop (start + 1) = (bs.take i).drop (start + 1) ++ [bs[i]] := by
    rw [List.take_succ_eq_append_getElem hlt, List.drop_append_of_le_length]
    rw [List.length_take]
    omega
  rw [escaped, escaped, hrun, List.reverse_append, List.reverse_singleton, List.singleton_append,
    List.takeWhile_cons]
  by_cases hbackslash : bs[i] = '\\'.toUInt8
  · simp only [hbackslash, decide_true, if_true, List.length_cons, Bool.true_and]
    rw [← decide_not, decide_eq_decide]
    omega
  · simp [hbackslash]

/-- From an offset up to which a literal goes on, the scan finds where it ends. -/
theorem endsAt_of_goesOn (hquote : quote = '"' ∨ quote = '\'')
    (hstart : bs[start]? = some quote.toUInt8)
    (hi : start < i) (hlen : i ≤ bs.length) (hbefore : ∀ j, start < j → j < i → GoesOn bs start j) :
    EndsAt bs start (i + quotedRest quote.toUInt8 (escaped bs start i) (bs.drop i)) := by
  have hbackslash : quote.toUInt8 ≠ '\\'.toUInt8 := by rcases hquote with rfl | rfl <;> decide
  induction hn : bs.length - i generalizing i with
  | zero =>
    obtain rfl : i = bs.length := by omega
    rw [List.drop_length]
    cases escaped bs start bs.length <;> exact .textEnd hbefore
  | succ n ih =>
    have hb : bs[i]? = some bs[i] := List.getElem?_eq_getElem (by omega)
    have hnext := escaped_succ hi hb
    -- what is passed here is passed up to the next byte
    have hpass : GoesOn bs start i → ∀ j, start < j → j < i + 1 → GoesOn bs start j := by
      intro hgoes j hlo hhi
      by_cases hj : j = i
      · exact hj ▸ hgoes
      · exact hbefore j hlo (by omega)
    have hrest : GoesOn bs start i → EndsAt bs start
        (i + 1 + quotedRest quote.toUInt8 (escaped bs start (i + 1)) (bs.drop (i + 1))) :=
      fun hgoes => ih (by omega) (by omega) (hpass hgoes) (by omega)
    rw [drop_eq_cons hb]
    cases hescaped : escaped bs start i with
    | true =>
      rw [hescaped, Bool.not_true, Bool.and_false] at hnext
      rw [quotedRest, Nat.add_comm _ 1, ← Nat.add_assoc, ← hnext]
      exact hrest fun _ => hescaped
    | false =>
      rw [hescaped, Bool.not_false, Bool.and_true] at hnext
      rw [quotedRest]
      split
      · rename_i hslash
        rw [Nat.add_comm _ 1, ← Nat.add_assoc]
        rw [decide_eq_true hslash] at hnext
        rw [← hnext]
        refine hrest ?_
        rw [GoesOn, hb, hstart, hslash]
        rintro (h | h)
        · exact absurd (Option.some.inj h).symm hbackslash
        · exact absurd (Option.some.inj h) (by decide)
      · rename_i hslash
        split
        · rename_i hnewline
          rw [Nat.add_zero]
          exact .lineEnd hi (by rw [hb, hnewline]) hescaped hbefore
        · rename_i hnewline
          split
          · rename_i hclose
            exact .closed hi (by rw [hb, hstart, hclose]) hescaped hbefore
          · rename_i hclose
            rw [Nat.add_comm _ 1, ← Nat.add_assoc]
            rw [decide_eq_false hslash] at hnext
            rw [← hnext]
            refine hrest ?_
            rw [GoesOn, hb, hstart]
            rintro (h | h)
            · exact absurd (Option.some.inj h) hclose
            · exact absurd (Option.some.inj h) hnewline

/-- A quoted literal ends at its first quote or newline that is not escaped, or with the text. -/
theorem endsAt_quotedEnd (hquote : quote = '"' ∨ quote = '\'')
    (hstart : bs[start]? = some quote.toUInt8) : EndsAt bs start (quotedEnd bs start) := by
  obtain ⟨hlt, _⟩ := List.getElem?_eq_some_iff.mp hstart
  have hend := endsAt_of_goesOn hquote hstart (Nat.lt_succ_self start) hlt (by omega)
  rw [Nat.succ_eq_add_one, escaped_first, Nat.add_assoc, Nat.add_comm 1] at hend
  rwa [quotedEnd, drop_eq_cons hstart]

/-- In a text, the end of a quoted literal is where the lexer has it. -/
theorem quotedEnd_bytes (hquote : IsAscii quote) (before rest : Text) :
    quotedEnd (bytes (before ++ quote :: rest)) (byteLength before) =
      byteLength (before ++ quote :: rest.take (Source.quotedRest quote rest)) := by
  have hdrop : (bytes (before ++ quote :: rest)).drop (byteLength before) =
      bytes (quote :: rest) := by
    rw [Text.bytes_append, ← Text.length_bytes before, List.drop_left]
  rw [quotedEnd, hdrop, hquote.bytes_cons, Text.byteLength_append, Text.byteLength_cons, hquote]
  simp only [quotedRest_bytes hquote]
  omega

end

-- ---------------------------------------------------------------------------
-- Lines
-- ---------------------------------------------------------------------------

/-- A literal that ends on the line on which it starts: behind its closing quote, or open at the end
of the line. -/
structure StaysOnLine (bs : List UInt8) (start stop : Nat) : Prop where
  oneLine : ∀ i, start ≤ i → i < stop → bs[i]? ≠ some '\n'.toUInt8
  ending : (∃ k, start < k ∧ stop = k + 1 ∧ bs[k]? = bs[start]?) ∨
    bs[stop]? = some '\n'.toUInt8 ∨ stop = bs.length

/-- The line on which a literal starts leaves it open and ends in an odd run of backslashes. -/
def Continues (bs : List UInt8) (start : Nat) : Prop :=
  ∃ l, start < l ∧ bs[l]? = some '\n'.toUInt8 ∧ escaped bs start l = true ∧
    ∀ i, start < i → i < l → bs[i]? ≠ some '\n'.toUInt8 ∧
    (bs[i]? = bs[start]? → escaped bs start i = true)

namespace EndsAt

variable {bs : List UInt8} {start stop : Nat}

theorem ending (h : EndsAt bs start stop) :
    (∃ k, start < k ∧ stop = k + 1 ∧ bs[k]? = bs[start]?) ∨
      bs[stop]? = some '\n'.toUInt8 ∨ stop = bs.length := by
  cases h with
  | closed after quote => exact .inl ⟨_, after, rfl, quote⟩
  | lineEnd _ newline => exact .inr (.inl newline)
  | textEnd => exact .inr (.inr rfl)

/-- Every newline in a literal is escaped, and so is every quote before it. -/
theorem goesOn_of_newline (h : EndsAt bs start stop) (hstart : bs[start]? ≠ some '\n'.toUInt8)
    {l : Nat}
    (hstop : l < stop) (hnewline : bs[l]? = some '\n'.toUInt8) :
    ∀ i, start < i → i ≤ l → GoesOn bs start i := by
  intro i hlo hhi
  cases h with
  | closed after quote plain before =>
    refine before i hlo (Nat.lt_of_le_of_ne (by omega) ?_)
    rintro rfl
    obtain rfl : l = i := by omega
    exact hstart (quote.symm.trans hnewline)
  | lineEnd after newline plain before => exact before i hlo (by omega)
  | textEnd before => exact before i hlo (by omega)

/-- A literal stays on its line exactly when the line does not leave it open and end in a backslash
that escapes the newline. -/
theorem staysOnLine_iff (h : EndsAt bs start stop) (hstart : bs[start]? ≠ some '\n'.toUInt8) :
    StaysOnLine bs start stop ↔ ¬Continues bs start := by
  constructor
  · rintro hstays ⟨l, hl, hnewline, hescaped, hopen⟩
    have hstop : stop ≤ l := by
      by_contra hlt
      exact hstays.oneLine l (Nat.le_of_lt hl) (by omega) hnewline
    cases h with
    | @closed k after quote plain before =>
      rw [(hopen k after (by omega)).2 quote] at plain
      cases plain
    | @lineEnd k after newline plain before =>
      by_cases hk : stop = l
      · rw [hk, hescaped] at plain
        cases plain
      · exact (hopen stop after (by omega)).1 newline
    | textEnd before =>
      rw [List.getElem?_eq_none hstop] at hnewline
      cases hnewline
  · intro hnot
    refine ⟨fun i hlo hhi hnewline => hnot ?_, h.ending⟩
    -- the first newline of the literal is the end of its line
    have hex : ∃ l, start ≤ l ∧ l < stop ∧ bs[l]? = some '\n'.toUInt8 := ⟨i, hlo, hhi, hnewline⟩
    classical
    obtain ⟨hle, hlt, hfirst⟩ := Nat.find_spec hex
    have hl : start < Nat.find hex := by
      refine Nat.lt_of_le_of_ne hle fun heq => hstart ?_
      rw [heq]
      exact hfirst
    have hgoes := h.goesOn_of_newline hstart hlt hfirst
    refine ⟨_, hl, hfirst, hgoes _ hl (Nat.le_refl _) (.inr hfirst), fun j hj hjl =>
      ⟨fun hline => ?_, ?_⟩⟩
    · exact Nat.find_min hex hjl ⟨Nat.le_of_lt hj, by omega, hline⟩
    · exact fun hquote => hgoes j hj (Nat.le_of_lt hjl) (.inl hquote)

end EndsAt

/-- A quoted literal ends at its first quote or newline that is not escaped, so it stays on its line
exactly when the line does not leave it open and end in a backslash that escapes the newline. In a
text that end is the one of the literal's token. -/
theorem quotedEnd_line_iff {bs : List UInt8} {start : Nat} {quote : Char}
    (hquote : quote = '"' ∨ quote = '\'') (hstart : bs[start]? = some quote.toUInt8) :
    EndsAt bs start (quotedEnd bs start) ∧
    (StaysOnLine bs start (quotedEnd bs start) ↔ ¬Continues bs start) ∧
    ∀ before rest, bs = bytes (before ++ quote :: rest) → start = byteLength before →
      quotedEnd bs start = byteLength
        (before ++ quote :: rest.take (Source.quotedRest quote rest)) := by
  have hend := endsAt_quotedEnd hquote hstart
  have hline : bs[start]? ≠ some '\n'.toUInt8 := by
    rw [hstart]
    rcases hquote with rfl | rfl <;> decide
  have hascii : IsAscii quote := by rcases hquote with rfl | rfl <;> rfl
  refine ⟨hend, hend.staysOnLine_iff hline, ?_⟩
  rintro before rest rfl rfl
  exact quotedEnd_bytes hascii before rest

/-- A literal that is never closed, with a backslash at the end of its line. -/
def continuedText : Text := "\"a\\\nint x;\n".toList

/-- The next line is part of the literal, and a view hides it. -/
theorem quotedEnd_line_iff_continuedText :
    (bytes continuedText)[0]? = some '"'.toUInt8 ∧ Continues (bytes continuedText) 0 ∧
      ¬StaysOnLine (bytes continuedText) 0 (quotedEnd (bytes continuedText) 0) ∧
      quotedEnd (bytes continuedText) 0 = 10 ∧
      (mask continuedText).text = "   \n      \n".toList := by
  have hstart : (bytes continuedText)[0]? = some '"'.toUInt8 := by decide
  have hcontinues : Continues (bytes continuedText) 0 := by
    refine ⟨3, by decide, by decide, by decide, fun i hlo hhi => ?_⟩
    obtain rfl | rfl : i = 1 ∨ i = 2 := by omega
    · decide
    · decide
  obtain ⟨-, hstays, -⟩ := quotedEnd_line_iff (.inl rfl) hstart
  exact ⟨hstart, hcontinues, fun h => hstays.mp h hcontinues, by decide, by decide⟩

end Typings.Source.Scan
