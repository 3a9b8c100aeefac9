import Typings.Proofs.Source.BlockGrammar
import Typings.Proofs.Source.CheckedHeader

/-!
# Loops over bytes

The scans of a text are loops over byte offsets: a turn passes a whole comment or literal, or one
byte of code. A comment or literal ends behind its start, within the bytes, so every turn moves on
and every loop ends, on any bytes. On the bytes of a text a comment or literal starts and ends at
character boundaries, and so does every span that a loop records: the text can be cut there. Main
statements: `Scanner.ends`, `exists_of_triviaEnd?` and `scans_advance`.
-/

namespace Typings.Source.Scan

open Text (bytes byteLength startsWithBytes IsAscii IsBoundary)
open Checked (Fault cut closeAfter)

-- ---------------------------------------------------------------------------
-- Comments and literals
-- ---------------------------------------------------------------------------

/-- The kind and the end of the comment or literal that starts at an offset. -/
def triviaEnd? (bs : List UInt8) (i : Nat) : Option (Trivia × Nat) :=
  (triviaAt? (bs.drop i)).map fun (kind, n) => (kind, i + n)

section

variable {bs : List UInt8}

theorem length_le_of_startsWithBytes {word : String} (h : startsWithBytes word bs = true) :
    byteLength word.toList ≤ bs.length := by
  rw [startsWithBytes, List.isPrefixOf_iff_prefix] at h
  rw [← Text.length_bytes]
  exact h.length_le

theorem lineRest_le (bs : List UInt8) : lineRest bs ≤ bs.length := by
  induction bs with
  | nil => exact Nat.le_refl _
  | cons b bs ih =>
    rw [lineRest, List.length_cons]
    split <;> omega

theorem commentRest_le (bs : List UInt8) : commentRest bs ≤ bs.length := by
  induction bs with
  | nil => exact Nat.le_refl _
  | cons b bs ih =>
    rw [commentRest]
    split
    · exact length_le_of_startsWithBytes ‹_›
    · exact Nat.succ_le_succ ih

theorem quotedRest_le (quote : UInt8) (escaped : Bool) (bs : List UInt8) :
    quotedRest quote escaped bs ≤ bs.length := by
  induction bs generalizing escaped with
  | nil => cases escaped <;> exact Nat.le_refl _
  | cons b bs ih =>
    have hplain := ih false
    have hescaped := ih true
    cases escaped with
    | true => exact Nat.succ_le_succ hplain
    | false =>
      rw [quotedRest, List.length_cons]
      split
      · omega
      · split
        · omega
        · split <;> omega

theorem textBlockRest_le (escaped : Bool) (bs : List UInt8) :
    textBlockRest escaped bs ≤ bs.length := by
  induction bs generalizing escaped with
  | nil => cases escaped <;> exact Nat.le_refl _
  | cons b bs ih =>
    cases escaped with
    | true => exact Nat.succ_le_succ (ih false)
    | false =>
      rw [textBlockRest]
      split
      · exact Nat.succ_le_succ (ih true)
      · split
        · exact length_le_of_startsWithBytes ‹_›
        · exact Nat.succ_le_succ (ih false)

/-- A comment or literal lies within the bytes. -/
theorem le_of_triviaAt? {kind : Trivia} {n : Nat} (h : triviaAt? bs = some (kind, n)) :
    n ≤ bs.length := by
  unfold triviaAt? at h
  split at h
  · obtain ⟨-, rfl⟩ := Prod.mk.inj (Option.some.inj h)
    exact lineRest_le bs
  · split at h
    · rename_i hopen
      obtain ⟨-, rfl⟩ := Prod.mk.inj (Option.some.inj h)
      have hlen : 2 ≤ bs.length := length_le_of_startsWithBytes hopen
      have hrest := commentRest_le (bs.drop 2)
      rw [List.length_drop] at hrest
      omega
    · split at h
      · rename_i hopen
        obtain ⟨-, rfl⟩ := Prod.mk.inj (Option.some.inj h)
        have hlen : 3 ≤ bs.length := length_le_of_startsWithBytes hopen
        have hrest := textBlockRest_le false (bs.drop 3)
        rw [List.length_drop] at hrest
        omega
      · split at h
        · cases h
        · rename_i b rest _ _ _
          split at h
          · obtain ⟨-, rfl⟩ := Prod.mk.inj (Option.some.inj h)
            exact Nat.succ_le_succ (quotedRest_le b false rest)
          · cases h

/-- A comment or literal ends behind its start and within the bytes. -/
theorem triviaEnd?_bounds {i stop : Nat} {kind : Trivia} (h : triviaEnd? bs i = some (kind, stop)) :
    i < stop ∧ stop ≤ bs.length := by
  obtain ⟨⟨_, n⟩, hfound, heq⟩ := Option.map_eq_some_iff.mp h
  obtain ⟨rfl, rfl⟩ := Prod.mk.inj heq
  have hpos := pos_of_triviaAt? hfound
  have hle := le_of_triviaAt? hfound
  rw [List.length_drop] at hle
  omega

end

-- ---------------------------------------------------------------------------
-- Comments and literals of a text
-- ---------------------------------------------------------------------------

/-- Only a slash and the quotes start a comment or literal. -/
theorem opens_of_triviaAt? {b : UInt8} {bs : List UInt8} (h : triviaAt? (b :: bs) ≠ none) :
    ∃ a ∈ ['/', '"', '\''], b = a.toUInt8 := by
  by_contra hnot
  have hplain : Without ['/', '"', '\''] [b] :=
    List.forall_mem_singleton.mpr fun a ha hb => hnot ⟨a, ha, hb⟩
  exact h (triviaAt?_of_without hplain bs)

/-- At a character, the bytes of a text have the comment or literal that the text has there. -/
theorem triviaEnd?_bytes (u : Text) (c : Char) (cs : Text) :
    triviaEnd? (bytes (u ++ c :: cs)) (byteLength u) = (Source.triviaAt? c cs).map fun (kind, n) =>
      (kind, byteLength (u ++ c :: cs.take n)) := by
  rw [triviaEnd?, Checked.drop_bytes_append, triviaAt?_bytes, Option.map_map]
  congr 1
  funext found
  simp [Text.byteLength_append]

/-- Wherever a comment or literal is found in the bytes of a text, a character of the text starts
one, with the same end. -/
theorem exists_of_triviaEnd? {s : Text} {i stop : Nat} {kind : Trivia}
    (h : triviaEnd? (bytes s) i = some (kind, stop)) :
    ∃ u c cs n, s = u ++ c :: cs ∧ i = byteLength u ∧ Source.triviaAt? c cs = some (kind, n) ∧
      stop = byteLength (u ++ c :: cs.take n) := by
  have hlt : i < (bytes s).length := by
    have := triviaEnd?_bounds h
    omega
  have hb : (bytes s)[i]? = some (bytes s)[i] := List.getElem?_eq_getElem hlt
  have hopens : triviaAt? ((bytes s)[i] :: (bytes s).drop (i + 1)) ≠ none := by
    intro hnone
    rw [triviaEnd?, drop_eq_cons hb, hnone] at h
    cases h
  obtain ⟨a, ha, hbyte⟩ := opens_of_triviaAt? hopens
  have hascii : ∀ d ∈ ['/', '"', '\''], IsAscii d := by decide
  rw [hbyte] at hb
  obtain ⟨u, cs, rfl, rfl⟩ := (hascii a ha).getElem?_bytes_eq_iff.mp hb
  rw [triviaEnd?_bytes] at h
  obtain ⟨⟨_, n⟩, hfound, heq⟩ := Option.map_eq_some_iff.mp h
  obtain ⟨rfl, rfl⟩ := Prod.mk.inj heq
  exact ⟨u, a, cs, n, rfl, rfl, hfound, rfl⟩

/-- A comment or literal starts and ends at character boundaries. -/
theorem isBoundary_of_triviaEnd? {s : Text} {i stop : Nat} {kind : Trivia}
    (h : triviaEnd? (bytes s) i = some (kind, stop)) : IsBoundary s i ∧ IsBoundary s stop := by
  obtain ⟨u, c, cs, n, rfl, rfl, -, rfl⟩ := exists_of_triviaEnd? h
  exact ⟨Text.isBoundary_iff.mpr ⟨u, c :: cs, rfl, rfl⟩,
    Text.isBoundary_iff.mpr ⟨u ++ c :: cs.take n, cs.drop n, by simp, rfl⟩⟩

/-- A backslash takes the first byte of a character with it; the other byte closes nothing. -/
example : triviaEnd? (bytes "\"\\é\"x".toList) 0 = some (.literal, 5) := by decide

-- ---------------------------------------------------------------------------
-- Loops
-- ---------------------------------------------------------------------------

/-- What a turn of a loop leads to. -/
inductive Turn (σ ρ : Type) where
  | next (state : σ)
  | stop (result : ρ)
deriving Repr, DecidableEq

/-- A loop that ends from a state with a result. -/
inductive Ends {σ ρ : Type} (turn : σ → Turn σ ρ) : σ → ρ → Prop
  | stop {s : σ} {r : ρ} (last : turn s = .stop r) : Ends turn s r
  | next {s t : σ} {r : ρ} (first : turn s = .next t) (rest : Ends turn t r) : Ends turn s r

namespace Ends

variable {σ ρ : Type} {turn : σ → Turn σ ρ} {s : σ} {r r' : ρ}

/-- A loop ends with one result only. -/
theorem unique (h : Ends turn s r) (h' : Ends turn s r') : r' = r := by
  induction h with
  | stop last =>
    cases h' with
    | stop last' =>
      rw [last] at last'
      exact (Turn.stop.inj last').symm
    | next first' =>
      rw [last] at first'
      cases first'
  | next first _ ih =>
    cases h' with
    | stop last' =>
      rw [first] at last'
      cases last'
    | next first' rest' =>
      rw [first] at first'
      exact ih (Turn.next.inj first' ▸ rest')

theorem iff_eq (h : Ends turn s r) : Ends turn s r' ↔ r' = r :=
  ⟨h.unique, fun heq => heq ▸ h⟩

/-- What every turn keeps and every last turn turns into a property of the result holds of
the result. -/
theorem rule (inv : σ → Prop) (post : ρ → Prop)
    (hnext : ∀ s t, inv s → turn s = .next t → inv t)
    (hstop : ∀ s r, inv s → turn s = .stop r → post r) (h : Ends turn s r) (hs : inv s) :
    post r := by
  induction h with
  | stop last => exact hstop _ _ hs last
  | next first _ ih => exact ih (hnext _ _ hs first)

end Ends

/-- What a loop over bytes does with a comment or literal, with a byte of code, and at the end of
the bytes. -/
structure Scanner (σ ρ : Type) where
  trivia : Trivia → Span → σ → σ
  code : UInt8 → (pos : Nat) → σ → Turn σ ρ
  finish : (length : Nat) → σ → ρ

namespace Scanner

variable {σ ρ : Type}

/-- One turn of the loop, at an offset and in a state. -/
def turn (k : Scanner σ ρ) (bs : List UInt8) : Nat × σ → Turn (Nat × σ) ρ
  | (pos, s) =>
    match bs[pos]? with
    | none => .stop (k.finish bs.length s)
    | some b =>
      match triviaEnd? bs pos with
      | some (kind, stop) => .next (stop, k.trivia kind ⟨pos, stop⟩ s)
      | none =>
        match k.code b pos s with
        | .next s => .next (pos + 1, s)
        | .stop r => .stop r

/-- The result on pieces at an offset, from a state. -/
def run (k : Scanner σ ρ) : (pos : Nat) → σ → List Piece → ρ
  | pos, s, [] => k.finish pos s
  | pos, s, .trivia kind bs :: ps =>
    k.run (pos + bs.length) (k.trivia kind ⟨pos, pos + bs.length⟩ s) ps
  | pos, s, .code b :: ps =>
    match k.code b pos s with
    | .next s => k.run (pos + 1) s ps
    | .stop r => r

variable {k : Scanner σ ρ} {bs : List UInt8} {pos : Nat} {s : σ}

/-- What a turn does that is not the last one. -/
theorem next_cases {t : Nat × σ} (h : k.turn bs (pos, s) = .next t) :
    (∃ kind stop, triviaEnd? bs pos = some (kind, stop) ∧ t = (stop, k.trivia kind ⟨pos, stop⟩ s)) ∨
      ∃ b s', bs[pos]? = some b ∧ triviaEnd? bs pos = none ∧ k.code b pos s = .next s' ∧
        t = (pos + 1, s') := by
  simp only [turn] at h
  split at h
  · cases h
  · rename_i b hb
    split at h
    · rename_i kind stop htrivia
      exact .inl ⟨kind, stop, htrivia, (Turn.next.inj h).symm⟩
    · rename_i htrivia
      split at h
      · rename_i s' hcode
        exact .inr ⟨b, s', hb, htrivia, hcode, (Turn.next.inj h).symm⟩
      · cases h

/-- What the last turn does. -/
theorem stop_cases {r : ρ} (h : k.turn bs (pos, s) = .stop r) :
    (bs.length ≤ pos ∧ r = k.finish bs.length s) ∨
      ∃ b, bs[pos]? = some b ∧ triviaEnd? bs pos = none ∧ k.code b pos s = .stop r := by
  simp only [turn] at h
  split at h
  · rename_i hb
    exact .inl ⟨List.getElem?_eq_none_iff.mp hb, (Turn.stop.inj h).symm⟩
  · rename_i b hb
    split at h
    · cases h
    · rename_i htrivia
      split at h
      · cases h
      · rename_i r' hcode
        obtain rfl := Turn.stop.inj h
        exact .inr ⟨b, hb, htrivia, hcode⟩

/-- Every loop over bytes ends, with the result on the pieces from its offset on. -/
theorem ends (k : Scanner σ ρ) (h : pos ≤ bs.length) (s : σ) :
    Ends (k.turn bs) (pos, s) (k.run pos s (pieces (bs.drop pos))) := by
  -- every turn leaves fewer bytes
  induction hlen : bs.length - pos using Nat.strong_induction_on generalizing pos s with
  | h n ih =>
    by_cases hpos : pos < bs.length
    · have hb : bs[pos]? = some bs[pos] := List.getElem?_eq_getElem hpos
      cases htrivia : triviaAt? (bs.drop pos) with
      | some found =>
        obtain ⟨kind, size⟩ := found
        have hend : triviaEnd? bs pos = some (kind, pos + size) := by
          rw [triviaEnd?, htrivia]
          rfl
        have hbounds := triviaEnd?_bounds hend
        have htake : ((bs.drop pos).take size).length = size := by
          rw [List.length_take, List.length_drop]
          omega
        rw [pieces_of_triviaAt? htrivia, run, htake, List.drop_drop]
        refine .next ?_ (ih (bs.length - (pos + size)) (by omega) hbounds.2 _ rfl)
        simp only [turn, hb, hend]
      | none =>
        have hend : triviaEnd? bs pos = none := by
          rw [triviaEnd?, htrivia]
          rfl
        rw [drop_eq_cons hb] at htrivia ⊢
        rw [pieces_cons_of_code htrivia, run]
        cases hcode : k.code bs[pos] pos s with
        | next s' =>
          refine .next ?_ (ih (bs.length - (pos + 1)) (by omega) hpos s' rfl)
          simp only [turn, hb, hend, hcode]
        | stop r =>
          refine .stop ?_
          simp only [turn, hb, hend, hcode]
    · obtain rfl : pos = bs.length := by omega
      have hnone : bs[bs.length]? = none := List.getElem?_eq_none (Nat.le_refl _)
      rw [List.drop_length]
      refine .stop ?_
      simp only [turn, hnone]
      rfl

/-- Bytes that do not change the state are passed over. -/
theorem run_append_code {xs : List UInt8} (h : ∀ b ∈ xs, ∀ pos, k.code b pos s = .next s)
    (pos : Nat)
    (ps : List Piece) : k.run pos s (xs.map .code ++ ps) = k.run (pos + xs.length) s ps := by
  induction xs generalizing pos with
  | nil => rfl
  | cons b xs ih =>
    obtain ⟨hb, hxs⟩ := List.forall_mem_cons.mp h
    simp only [List.map_cons, List.cons_append, run, hb]
    rw [ih hxs, List.length_cons, Nat.add_assoc, Nat.add_comm 1]

end Scanner

-- ---------------------------------------------------------------------------
-- Masking
-- ---------------------------------------------------------------------------

instance : Append Regions := ⟨fun a b => ⟨a.blanked ++ b.blanked, a.docs ++ b.docs⟩⟩

theorem regions_append_assoc (a b c : Regions) : a ++ b ++ c = a ++ (b ++ c) :=
  congrArg₂ Regions.mk (List.append_assoc _ _ _) (List.append_assoc _ _ _)

theorem regions_append_empty (a : Regions) : a ++ {} = a :=
  congrArg₂ Regions.mk (List.append_nil _) (List.append_nil _)

/-- The state of the loop that masks: how many blocks are open, where the inside of the outermost
one starts, and what was found so far. -/
structure Masking where
  depth : Nat := 0
  start : Nat := 0
  found : Regions := {}
deriving Repr, DecidableEq, Inhabited

/-- The loop that masks. -/
def masking : Scanner Masking Regions where
  trivia kind span st :=
    if st.depth = 0 then
      if kind = .doc then { st with found := st.found ++ { docs := [span] } }
      else { st with found := st.found ++ { blanked := [span] } }
    else st
  code b pos st :=
    if b = '{'.toUInt8 then
      .next { st with depth := st.depth + 1, start := if st.depth = 0 then pos + 1 else st.start }
    else if b = '}'.toUInt8 then
      match st.depth with
      | 0 => .next st
      | 1 => .next { st with depth := 0, found := st.found ++ { blanked := [⟨st.start, pos⟩] } }
      | outer + 2 => .next { st with depth := outer + 1 }
    else .next st
  finish length st :=
    if 0 < st.depth then st.found ++ { blanked := [⟨st.start, length⟩] } else st.found

/-- On the tokens of a text the loop finds the regions that masking treats specially. -/
theorem masking_run (pos : Nat) (st : Masking) (ts : List Token) :
    masking.run pos st (ts.flatMap piecesOf) = st.found ++ regions pos st.depth st.start ts := by
  obtain ⟨depth, start, found⟩ := st
  induction ts generalizing pos depth start found with
  | nil =>
    cases depth with
    | zero => exact (regions_append_empty found).symm
    | succ depth => rfl
  | cons t ts ih =>
    rw [List.flatMap_cons]
    cases t with
    | trivia kind text =>
      rw [piecesOf, List.singleton_append, Scanner.run, Text.length_bytes]
      cases depth with
      | zero =>
        by_cases hdoc : kind = .doc
        · subst hdoc
          exact (ih _ _ _ _).trans (regions_append_assoc _ _ _)
        · simp only [masking, regions, if_neg hdoc, if_true]
          exact (ih _ _ _ _).trans (regions_append_assoc _ _ _)
      | succ depth => exact ih _ _ _ _
    | code c =>
      by_cases hopen : c = '{'
      · subst hopen
        cases depth with
        | zero => exact ih _ _ _ _
        | succ depth => exact ih _ _ _ _
      · by_cases hclose : c = '}'
        · subst hclose
          cases depth with
          | zero => exact ih _ _ _ _
          | succ depth =>
            cases depth with
            | zero => exact (ih _ _ _ _).trans (regions_append_assoc _ _ _)
            | succ outer => exact ih _ _ _ _
        · have hplain := without_braces hopen hclose
          rw [piecesOf, Scanner.run_append_code, ih, String.length_utf8EncodeChar]
          · cases depth <;> simp only [regions, hopen, hclose, if_false]
          · intro b hb pos
            have hb := hplain b hb
            simp only [masking, hb '{' (by simp), hb '}' (by simp), if_false]

-- ---------------------------------------------------------------------------
-- Blocks
-- ---------------------------------------------------------------------------

/-- The loop that looks for the end of a block. Its state is the number of open blocks. -/
def matching : Scanner Nat (Except Fault (Option Nat)) where
  trivia _ _ depth := depth
  code b pos depth :=
    if b = '{'.toUInt8 then .next (depth + 1)
    else if b = '}'.toUInt8 then
      match depth with
      | 0 => .stop (.error .unopened)
      | 1 => .stop (.ok (some pos))
      | outer + 2 => .next (outer + 1)
    else .next depth
  finish _ _ := .ok none

theorem matching_run (pos depth : Nat) (ps : List Piece) :
    matching.run pos depth ps = closeAfter pos depth ps := by
  induction ps generalizing pos depth with
  | nil => rfl
  | cons p ps ih =>
    cases p with
    | trivia kind bs => exact ih _ _
    | code b =>
      simp only [Scanner.run, matching, closeAfter]
      by_cases hopen : b = '{'.toUInt8
      · rw [if_pos hopen, if_pos hopen]
        exact ih _ _
      · rw [if_neg hopen, if_neg hopen]
        by_cases hclose : b = '}'.toUInt8
        · rw [if_pos hclose, if_pos hclose]
          rcases depth with _ | _ | outer
          · rfl
          · rfl
          · exact ih _ _
        · rw [if_neg hclose, if_neg hclose]
          exact ih _ _

-- ---------------------------------------------------------------------------
-- Cuts
-- ---------------------------------------------------------------------------

/-- A text can be cut at a span. -/
def IsCut (s : Text) (span : Span) : Prop :=
  cut s span.start span.stop = .ok (Text.slice s span.start span.stop)

/-- A text can be cut at all regions. -/
def AreCuts (s : Text) (found : Regions) : Prop :=
  ∀ span ∈ found.blanked ++ found.docs, IsCut s span

section

variable {s : Text}

theorem isCut_of_isBoundary {start stop : Nat} (hle : start ≤ stop) (hstart : IsBoundary s start)
    (hstop : IsBoundary s stop) : IsCut s ⟨start, stop⟩ :=
  if_pos ⟨hle, hstart, hstop⟩

theorem areCuts_append {a b : Regions} (ha : AreCuts s a) (hb : AreCuts s b) :
    AreCuts s (a ++ b) := by
  intro span hspan
  have hmem : span ∈ (a.blanked ++ b.blanked) ++ (a.docs ++ b.docs) := hspan
  simp only [List.mem_append] at hmem
  rcases hmem with (h | h) | h | h
  · exact ha span (List.mem_append_left _ h)
  · exact hb span (List.mem_append_left _ h)
  · exact ha span (List.mem_append_right _ h)
  · exact hb span (List.mem_append_right _ h)

theorem areCuts_blanked {span : Span} (h : IsCut s span) : AreCuts s { blanked := [span] } :=
  List.forall_mem_singleton.mpr h

theorem areCuts_docs {span : Span} (h : IsCut s span) : AreCuts s { docs := [span] } :=
  List.forall_mem_singleton.mpr h

theorem isBoundary_byteLength (s : Text) : IsBoundary s (byteLength s) :=
  Text.isBoundary_iff.mpr ⟨s, [], (List.append_nil s).symm, rfl⟩

/-- An ASCII byte is a whole character. -/
theorem isBoundary_of_isAscii {a : Char} (ha : IsAscii a) {i : Nat}
    (h : (bytes s)[i]? = some a.toUInt8) : IsBoundary s i ∧ IsBoundary s (i + 1) := by
  obtain ⟨u, t, rfl, rfl⟩ := ha.getElem?_bytes_eq_iff.mp h
  refine ⟨Text.isBoundary_iff.mpr ⟨u, a :: t, rfl, rfl⟩,
    Text.isBoundary_iff.mpr ⟨u ++ [a], t, by simp, ?_⟩⟩
  rw [Text.byteLength_append, Text.byteLength_cons, ha]
  rfl

/-- What the loop that masks keeps: an open block starts at a character boundary that was passed,
and the text can be cut at what was found. -/
structure Masking.Fits (s : Text) (pos : Nat) (st : Masking) : Prop where
  within : pos ≤ byteLength s
  opened : 0 < st.depth → st.start ≤ pos ∧ IsBoundary s st.start
  cuts : AreCuts s st.found

namespace Masking.Fits

variable {pos : Nat} {st : Masking}

theorem opened_of_le {next : Nat} (h : st.Fits s pos) (hle : pos ≤ next) (hdepth : 0 < st.depth) :
    st.start ≤ next ∧ IsBoundary s st.start :=
  ⟨Nat.le_trans (h.opened hdepth).1 hle, (h.opened hdepth).2⟩

theorem trivia {stop : Nat} {kind : Trivia} (h : st.Fits s pos)
    (hend : triviaEnd? (bytes s) pos = some (kind, stop)) :
    (masking.trivia kind ⟨pos, stop⟩ st).Fits s stop := by
  obtain ⟨hlt, hle⟩ := triviaEnd?_bounds hend
  obtain ⟨hstart, hstop⟩ := isBoundary_of_triviaEnd? hend
  rw [Text.length_bytes] at hle
  have hcut : IsCut s ⟨pos, stop⟩ := isCut_of_isBoundary (Nat.le_of_lt hlt) hstart hstop
  have hopened := h.opened_of_le (Nat.le_of_lt hlt)
  simp only [masking]
  split
  · split
    · exact ⟨hle, hopened, areCuts_append h.cuts (areCuts_docs hcut)⟩
    · exact ⟨hle, hopened, areCuts_append h.cuts (areCuts_blanked hcut)⟩
  · exact ⟨hle, hopened, h.cuts⟩

theorem code {st' : Masking} {b : UInt8} (h : st.Fits s pos)
    (hb : (bytes s)[pos]? = some b) (hcode : masking.code b pos st = .next st') :
    st'.Fits s (pos + 1) := by
  have hlt : pos < (bytes s).length := (List.getElem?_eq_some_iff.mp hb).1
  rw [Text.length_bytes] at hlt
  have hopened := h.opened_of_le (Nat.le_succ pos)
  obtain ⟨depth, start, found⟩ := st
  simp only [masking] at hcode
  split at hcode
  · rename_i hopen
    subst hopen
    obtain rfl := Turn.next.inj hcode
    refine ⟨hlt, fun _ => ?_, h.cuts⟩
    by_cases hdepth : depth = 0
    · rw [if_pos hdepth]
      exact ⟨Nat.le_refl _, (isBoundary_of_isAscii (a := '{') rfl hb).2⟩
    · rw [if_neg hdepth]
      exact hopened (Nat.pos_of_ne_zero hdepth)
  · split at hcode
    · rename_i hclose
      subst hclose
      -- only the brace that closes the outermost block records a span
      rcases depth with _ | _ | outer
      · obtain rfl := Turn.next.inj hcode
        exact ⟨hlt, hopened, h.cuts⟩
      · obtain rfl := Turn.next.inj hcode
        obtain ⟨hle, hstart⟩ := h.opened Nat.one_pos
        have hcut := isCut_of_isBoundary hle hstart (isBoundary_of_isAscii (a := '}') rfl hb).1
        exact ⟨hlt, nofun, areCuts_append h.cuts (areCuts_blanked hcut)⟩
      · obtain rfl := Turn.next.inj hcode
        exact ⟨hlt, fun _ => hopened (Nat.succ_pos _), h.cuts⟩
    · obtain rfl := Turn.next.inj hcode
      exact ⟨hlt, hopened, h.cuts⟩

theorem finish (h : st.Fits s pos) : AreCuts s (masking.finish (byteLength s) st) := by
  simp only [masking]
  split
  · rename_i hdepth
    obtain ⟨hle, hstart⟩ := h.opened_of_le h.within hdepth
    exact areCuts_append h.cuts
      (areCuts_blanked (isCut_of_isBoundary hle hstart (isBoundary_byteLength s)))
  · exact h.cuts

end Masking.Fits

/-- No byte ends the loop that masks. -/
theorem masking_code_ne_stop (b : UInt8) (pos : Nat) (st : Masking) (found : Regions) :
    masking.code b pos st ≠ .stop found := by
  simp only [masking]
  split
  · nofun
  · split
    · split <;> nofun
    · nofun

/-- The text can be cut at everything that the loop that masks finds. -/
theorem areCuts_of_ends {found : Regions} (h : Ends (masking.turn (bytes s)) (0, {}) found) :
    AreCuts s found := by
  have hfirst : Masking.Fits s 0 {} := ⟨Nat.zero_le _, nofun, nofun⟩
  refine h.rule (fun (pos, st) => st.Fits s pos) (AreCuts s) ?_ ?_ hfirst
  · rintro ⟨pos, st⟩ t hfits hturn
    rcases Scanner.next_cases hturn with ⟨kind, stop, hend, rfl⟩ | ⟨b, st', hb, -, hcode, rfl⟩
    · exact hfits.trivia hend
    · exact hfits.code hb hcode
  · rintro ⟨pos, st⟩ r hfits hturn
    rcases Scanner.stop_cases hturn with ⟨-, rfl⟩ | ⟨b, -, -, hcode⟩
    · rw [Text.length_bytes]
      exact hfits.finish
    · exact absurd hcode (masking_code_ne_stop b pos st r)

end

-- ---------------------------------------------------------------------------
-- The loops of a text
-- ---------------------------------------------------------------------------

/-- The scans of a text move on from one character boundary to another and end, and the text can be
cut at what they record. -/
structure ScansAdvance (s : Text) : Prop where
  /-- At a character, the bytes have the comment or literal that the text has there. -/
  agree : ∀ u c cs, s = u ++ c :: cs →
    triviaEnd? (bytes s) (byteLength u) = (Source.triviaAt? c cs).map fun (kind, n) =>
      (kind, byteLength (u ++ c :: cs.take n))
  advance : ∀ i kind stop, triviaEnd? (bytes s) i = some (kind, stop) →
    IsBoundary s i ∧ i < stop ∧ stop ≤ byteLength s ∧ IsBoundary s stop
  /-- The loop that masks ends, with what the view of the text is made from. -/
  mask_ends : ∃ found, (∀ r, Ends (masking.turn (bytes s)) (0, {}) r ↔ r = found) ∧
    mask s = ⟨Text.blank s found.blanked, found.docs⟩ ∧ AreCuts s found
  /-- From a brace, the loop that looks for its end ends without a fault. -/
  block_ends : ∀ o, (bytes s)[o]? = some '{'.toUInt8 →
    ∀ r, Ends (matching.turn (bytes s)) (o, 0) r ↔ r = .ok (blockEnd? s o)
  no_block : ∀ o, (bytes s)[o]? ≠ some '{'.toUInt8 → blockEnd? s o = none
  /-- The text can be cut between the braces. -/
  block_cut : ∀ o close, blockEnd? s o = some close → IsCut s ⟨o + 1, close⟩

theorem mask_ends (s : Text) :
    Ends (masking.turn (bytes s)) (0, {}) (regions 0 0 0 (tokens s)) := by
  have hends := @masking.ends _ _ (bytes s) 0 (Nat.zero_le _) {}
  rwa [List.drop_zero, pieces_bytes, masking_run] at hends

theorem block_ends {s : Text} {o : Nat} (h : (bytes s)[o]? = some '{'.toUInt8) :
    Ends (matching.turn (bytes s)) (o, 0) (.ok (blockEnd? s o)) := by
  have hlt : o < (bytes s).length := (List.getElem?_eq_some_iff.mp h).1
  have hends := matching.ends (Nat.le_of_lt hlt) 0
  have hblock := Checked.blockEnd_bytes s o
  rw [Checked.blockEnd, if_pos h] at hblock
  rwa [matching_run, hblock] at hends

/-- On every text, comments and literals end behind their start at character boundaries, the loops
that mask and that look for the end of a block end, and the text can be cut at what they record. -/
theorem scans_advance (s : Text) : ScansAdvance s where
  agree := by
    rintro u c cs rfl
    exact triviaEnd?_bytes u c cs
  advance i kind stop h := by
    obtain ⟨hlt, hle⟩ := triviaEnd?_bounds h
    obtain ⟨hstart, hstop⟩ := isBoundary_of_triviaEnd? h
    exact ⟨hstart, hlt, Text.length_bytes s ▸ hle, hstop⟩
  mask_ends := ⟨_, fun _ => (mask_ends s).iff_eq, rfl, areCuts_of_ends (mask_ends s)⟩
  block_ends _ h _ := (block_ends h).iff_eq
  no_block _ := blockEnd?_eq_none
  block_cut _ _ := Checked.cut_block

end Typings.Source.Scan
