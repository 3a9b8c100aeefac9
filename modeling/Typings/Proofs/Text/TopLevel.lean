import Typings.Proofs.Text.BracketCounts
import Typings.Proofs.Text.Compaction

/-!
# The parts outside brackets

Splitting at a separator gives back the pieces that were joined with it, whatever white space is
around them, as long as the brackets of each piece are balanced and hide the separators in it. It
loses nothing of any other text either: the pieces hold all visible characters but the separators
where no bracket is open, and none of them can be split further. All this holds when the brackets
are counted in 32 bits, the pieces being balanced by that count as well, whether a sum that leaves
the range of these stops the program or wraps around; where fewer than 2 ^ 31 brackets are open at
once, this count makes no difference. Main statement: `splitTopLevel_lossless`.
-/

namespace Typings.Text

-- ---------------------------------------------------------------------------
-- Splitting with a count of 32 bits
-- ---------------------------------------------------------------------------

/-- What becomes of a sum of 32-bit numbers that leaves their range: it stops the program, or wraps
around. -/
inductive Overflow where
  | stops
  | wraps
deriving Repr, DecidableEq

namespace Overflow

/-- The sum of two numbers; none if it stops the program. -/
def add (o : Overflow) (a b : Int32) : Option Int32 :=
  if o = .wraps ∨ (a + b).toInt = a.toInt + b.toInt then some (a + b) else none

/-- The number of brackets that are open after a character. A closing bracket without an opening one
is ignored. -/
def stepDepth (o : Overflow) (depth : Int32) (c : Char) : Option Int32 :=
  if isOpening c then o.add depth 1
  else if isClosing c then (o.add depth (-1)).map (max · 0)
  else some depth

/-- Whether a text is split at a character, `depth` brackets being open before it. -/
structure Cuts (sep : Char) (depth : Int32) (c : Char) : Prop where
  not_opening : isOpening c = false
  not_closing : isClosing c = false
  eq_sep : c = sep
  outside : depth = 0

instance (sep : Char) (depth : Int32) (c : Char) : Decidable (Cuts sep depth c) :=
  decidable_of_iff (isOpening c = false ∧ isClosing c = false ∧ c = sep ∧ depth = 0)
    ⟨fun ⟨ho, hc, hs, hd⟩ => ⟨ho, hc, hs, hd⟩, fun ⟨ho, hc, hs, hd⟩ => ⟨ho, hc, hs, hd⟩⟩

/-- The parts of a text between the separators outside brackets, `depth` brackets being open before
it. -/
def splitOutside (o : Overflow) (sep : Char) : (depth : Int32) → Text → Option (List Text)
  | _, [] => some [[]]
  | depth, c :: cs =>
    if Cuts sep depth c then (o.splitOutside sep depth cs).map ([] :: ·)
    else do
      let next ← o.stepDepth depth c
      return splitOutside.extend c (← o.splitOutside sep next cs)

/-- The trimmed, non-empty parts of a text between the separators outside brackets. -/
def splitTopLevel (o : Overflow) (sep : Char) (s : Text) : Option (List Text) :=
  (o.splitOutside sep 0 s).map fun parts => (parts.map trim).filter (!·.isEmpty)

/-- A text without the separators outside brackets, `depth` brackets being open before it. -/
def withoutOuter (o : Overflow) (sep : Char) : (depth : Int32) → Text → Option Text
  | _, [] => some []
  | depth, c :: cs => do
    let next ← o.stepDepth depth c
    let rest ← o.withoutOuter sep next cs
    return if c = sep ∧ depth = 0 then rest else c :: rest

variable {o : Overflow} {sep c : Char} {s t : Text} {depth next : Int32}

theorem cuts_iff (hopen : isOpening sep = false) (hclose : isClosing sep = false) :
    Cuts sep depth c ↔ c = sep ∧ depth = 0 :=
  ⟨fun h => ⟨h.eq_sep, h.outside⟩, fun ⟨hc, hd⟩ => ⟨hc ▸ hopen, hc ▸ hclose, hc, hd⟩⟩

theorem Cuts.stepDepth (h : Cuts sep depth c) (o : Overflow) : o.stepDepth depth c = some 0 := by
  simp [Overflow.stepDepth, h.not_opening, h.not_closing, h.outside]

theorem splitOutside_cons_of_cuts (h : Cuts sep depth c) (o : Overflow) (s : Text) :
    o.splitOutside sep depth (c :: s) = (o.splitOutside sep 0 s).map ([] :: ·) := by
  rw [splitOutside, if_pos h, h.outside]

theorem splitOutside_cons_of_not_cuts (h : ¬ Cuts sep depth c) (o : Overflow) (s : Text) :
    o.splitOutside sep depth (c :: s) =
      (o.stepDepth depth c).bind fun next =>
        (o.splitOutside sep next s).map (splitOutside.extend c) := by
  rw [splitOutside, if_neg h]
  cases o.stepDepth depth c with
  | none => rfl
  | some next => cases h : o.splitOutside sep next s <;> simp [h]

theorem withoutOuter_cons (o : Overflow) (sep : Char) (depth : Int32) (c : Char) (s : Text) :
    o.withoutOuter sep depth (c :: s) =
      (o.stepDepth depth c).bind fun next => (o.withoutOuter sep next s).map fun rest =>
        if c = sep ∧ depth = 0 then rest else c :: rest := by
  rw [withoutOuter]
  cases o.stepDepth depth c with
  | none => rfl
  | some next => cases h : o.withoutOuter sep next s <;> simp [h]

-- ---------------------------------------------------------------------------
-- Texts that are not split
-- ---------------------------------------------------------------------------

theorem exists_eq_cons {parts : List Text} (h : o.splitOutside sep depth s = some parts) :
    ∃ first rest, parts = first :: rest := by
  cases s with
  | nil =>
    cases h
    exact ⟨[], [], rfl⟩
  | cons c s =>
    by_cases hcut : Cuts sep depth c
    · rw [splitOutside_cons_of_cuts hcut] at h
      obtain ⟨parts, -, rfl⟩ := Option.map_eq_some_iff.1 h
      exact ⟨_, _, rfl⟩
    · rw [splitOutside_cons_of_not_cuts hcut] at h
      obtain ⟨next, -, h⟩ := Option.bind_eq_some_iff.1 h
      obtain ⟨parts, -, rfl⟩ := Option.map_eq_some_iff.1 h
      cases parts with
      | nil => exact ⟨_, _, rfl⟩
      | cons first rest => exact ⟨_, _, rfl⟩

/-- Whether a text is one part, `depth` brackets being open before it. -/
def Whole (o : Overflow) (sep : Char) (depth : Int32) (s : Text) : Prop :=
  o.splitOutside sep depth s = some [s]

theorem whole_nil : Whole o sep depth [] := rfl

theorem whole_cons :
    Whole o sep depth (c :: s) ↔
      ¬ Cuts sep depth c ∧ ∃ next, o.stepDepth depth c = some next ∧ Whole o sep next s := by
  unfold Whole
  by_cases hcut : Cuts sep depth c
  · simp [splitOutside_cons_of_cuts hcut, hcut]
  · rw [splitOutside_cons_of_not_cuts hcut, Option.bind_eq_some_iff]
    simp only [hcut, not_false_eq_true, true_and]
    refine exists_congr fun next => and_congr_right fun _ => ?_
    constructor
    · intro h
      obtain ⟨parts, hparts, hextend⟩ := Option.map_eq_some_iff.1 h
      obtain ⟨first, rest, rfl⟩ := exists_eq_cons hparts
      cases hextend
      exact hparts
    · intro h
      rw [h]
      rfl

/-- The number of brackets that are open after a text. -/
def depthAfter (o : Overflow) (depth : Int32) (s : Text) : Option Int32 :=
  s.foldlM o.stepDepth depth

theorem whole_append :
    Whole o sep depth (s ++ t) ↔
      Whole o sep depth s ∧ ∃ next, o.depthAfter depth s = some next ∧ Whole o sep next t := by
  induction s generalizing depth with
  | nil => simp [whole_nil, depthAfter]
  | cons c s ih =>
    rw [List.cons_append, whole_cons, whole_cons, depthAfter, List.foldlM_cons]
    cases o.stepDepth depth c with
    | none => simp
    | some next =>
      simp only [Option.some.injEq, exists_eq_left', ih, and_assoc]
      rfl

theorem depthAfter_of_isSpace {sp : Text} (hsp : ∀ c ∈ sp, isSpace c = true) :
    o.depthAfter depth sp = some depth := by
  induction sp with
  | nil => rfl
  | cons c sp ih =>
    obtain ⟨hopen, hclose⟩ := not_bracket_of_isSpace (hsp c (by simp))
    have hstep : o.stepDepth depth c = some depth := by simp [stepDepth, hopen, hclose]
    rw [depthAfter, List.foldlM_cons, hstep]
    exact ih fun d hd => hsp d (List.mem_cons_of_mem c hd)

/-- White space around a text does not count. -/
theorem Whole.trim (h : Whole o sep 0 s) : Whole o sep 0 (trim s) := by
  obtain ⟨before, after, heq, hbefore, -⟩ := eq_append_trim_append s
  rw [heq, whole_append, whole_append, depthAfter_of_isSpace hbefore] at h
  obtain ⟨⟨-, next, hnext, htrim⟩, -⟩ := h
  cases hnext
  exact htrim

/-- A part is not split further. -/
theorem whole_of_splitOutside {first : Text} {rest : List Text}
    (h : o.splitOutside sep depth s = some (first :: rest)) :
    Whole o sep depth first ∧ ∀ part ∈ rest, Whole o sep 0 part := by
  induction s generalizing depth first rest with
  | nil =>
    cases h
    exact ⟨whole_nil, nofun⟩
  | cons c s ih =>
    by_cases hcut : Cuts sep depth c
    · rw [splitOutside_cons_of_cuts hcut] at h
      obtain ⟨parts, hparts, heq⟩ := Option.map_eq_some_iff.1 h
      obtain ⟨part, later, rfl⟩ := exists_eq_cons hparts
      cases heq
      exact ⟨whole_nil, List.forall_mem_cons.2 (ih hparts)⟩
    · rw [splitOutside_cons_of_not_cuts hcut] at h
      obtain ⟨next, hnext, h⟩ := Option.bind_eq_some_iff.1 h
      obtain ⟨parts, hparts, heq⟩ := Option.map_eq_some_iff.1 h
      obtain ⟨part, later, rfl⟩ := exists_eq_cons hparts
      cases heq
      exact ⟨whole_cons.2 ⟨hcut, next, hnext, (ih hparts).1⟩, (ih hparts).2⟩

theorem splitTopLevel_of_whole (h : Whole o sep 0 s) (hne : s ≠ []) (htrim : Text.trim s = s) :
    o.splitTopLevel sep s = some [s] := by
  rw [splitTopLevel, h, Option.map_some, List.map_singleton, htrim]
  simp [hne]

/-- A piece is not empty, has no white space at its ends and is not split further. -/
theorem piece_of_splitTopLevel {pieces : List Text} (h : o.splitTopLevel sep s = some pieces)
    {p : Text} (hp : p ∈ pieces) :
    p ≠ [] ∧ Text.trim p = p ∧ o.splitTopLevel sep p = some [p] := by
  obtain ⟨parts, hparts, rfl⟩ := Option.map_eq_some_iff.1 h
  obtain ⟨first, rest, rfl⟩ := exists_eq_cons hparts
  obtain ⟨hp, hne⟩ := List.mem_filter.1 hp
  obtain ⟨part, hpart, rfl⟩ := List.mem_map.1 hp
  have hne : Text.trim part ≠ [] := by simpa using hne
  have hwhole : Whole o sep 0 part :=
    List.forall_mem_cons.2 (whole_of_splitOutside hparts) part hpart
  exact ⟨hne, trim_trim part, splitTopLevel_of_whole hwhole.trim hne (trim_trim part)⟩

-- ---------------------------------------------------------------------------
-- What is lost
-- ---------------------------------------------------------------------------

/-- The parts hold everything but the separators outside brackets. -/
theorem flatten_splitOutside (hopen : isOpening sep = false) (hclose : isClosing sep = false)
    (o : Overflow) (depth : Int32) (s : Text) :
    (o.splitOutside sep depth s).map List.flatten = o.withoutOuter sep depth s := by
  induction s generalizing depth with
  | nil => rfl
  | cons c s ih =>
    rw [withoutOuter_cons]
    by_cases hcut : Cuts sep depth c
    · rw [splitOutside_cons_of_cuts hcut, hcut.stepDepth, Option.bind_some, ← ih, Option.map_map,
        Option.map_map]
      simp [(cuts_iff hopen hclose).1 hcut, Function.comp_def]
    · rw [splitOutside_cons_of_not_cuts hcut, Option.map_bind]
      refine Option.bind_congr fun next _ => ?_
      rw [Function.comp_apply, Option.map_map, ← ih, Option.map_map]
      simp [mt (cuts_iff hopen hclose).2 hcut, Function.comp_def, flatten_extend]

theorem visible_flatten_map_trim (parts : List Text) :
    visible (parts.map Text.trim).flatten = visible parts.flatten := by
  induction parts with
  | nil => rfl
  | cons part parts ih =>
    rw [List.map_cons, List.flatten_cons, List.flatten_cons, visible_append, visible_append,
      visible_trim, ih]

/-- The pieces hold all visible characters but the separators outside brackets. -/
theorem visible_of_splitTopLevel (hopen : isOpening sep = false) (hclose : isClosing sep = false)
    {pieces : List Text} (h : o.splitTopLevel sep s = some pieces) :
    ∃ rest, o.withoutOuter sep 0 s = some rest ∧ visible pieces.flatten = visible rest := by
  obtain ⟨parts, hparts, rfl⟩ := Option.map_eq_some_iff.1 h
  refine ⟨parts.flatten, ?_, ?_⟩
  · rw [← flatten_splitOutside hopen hclose, hparts, Option.map_some]
  · rw [List.flatten_filter_not_isEmpty, visible_flatten_map_trim]

-- ---------------------------------------------------------------------------
-- Where the range is not left
-- ---------------------------------------------------------------------------

theorem add_eq_some {a b : Int32} {n : Int} (hsum : a.toInt + b.toInt = n) (hle : -2 ^ 31 ≤ n)
    (hlt : n < 2 ^ 31) : ∃ sum, o.add a b = some sum ∧ sum.toInt = n := by
  have hexact : (a + b).toInt = a.toInt + b.toInt := by
    rw [hsum, ← Int32.ofInt_toInt a, ← Int32.ofInt_toInt b, ← Int32.ofInt_add, hsum]
    exact Int32.toInt_ofInt_of_le hle hlt
  exact ⟨a + b, if_pos (.inr hexact), hexact.trans hsum⟩

theorem add_wraps (a b : Int32) : wraps.add a b = some (a + b) := if_pos (.inl rfl)

theorem add_stops_eq_some {a b sum : Int32} (h : stops.add a b = some sum) :
    a.toInt + b.toInt < 2 ^ 31 := by
  obtain ⟨hexact, -⟩ := Option.ite_none_right_eq_some.1 h
  have hlt := (a + b).toInt_lt
  rwa [hexact.resolve_left (by decide)] at hlt

/-- While fewer than 2 ^ 31 brackets are open, their number is exact. -/
theorem stepDepth_eq_some {n : Nat} (hdepth : depth.toInt = n)
    (h : Text.stepDepth n c < 2 ^ 31) (o : Overflow) :
    ∃ next, o.stepDepth depth c = some next ∧ next.toInt = Text.stepDepth n c := by
  rw [Text.stepDepth] at h
  rw [stepDepth, Text.stepDepth]
  split at h <;> rename_i hopen
  · rw [if_pos hopen, if_pos hopen]
    exact add_eq_some (by rw [hdepth]; rfl) (by omega) (by omega)
  · split at h <;> rename_i hclose
    · rw [if_neg hopen, if_pos hclose, if_neg hopen, if_pos hclose]
      have hlt := depth.toInt_lt
      obtain ⟨sum, hsum, hvalue⟩ :=
        @add_eq_some o depth (-1) (n - 1) (by rw [hdepth]; rfl) (by omega) (by omega)
      refine ⟨max sum 0, by rw [hsum, Option.map_some], ?_⟩
      show (if sum ≤ 0 then (0 : Int32) else sum).toInt = _
      split <;> rename_i hle <;> rw [Int32.le_iff_toInt_le, Int32.toInt_zero, hvalue] at hle
      · rw [Int32.toInt_zero]
        omega
      · rw [hvalue]
        omega
    · rw [if_neg hopen, if_neg hclose, if_neg hopen, if_neg hclose]
      exact ⟨depth, rfl, hdepth⟩

theorem lt_of_stepDepth_stops {n : Nat} (hdepth : depth.toInt = n)
    (h : stops.stepDepth depth c = some next) : Text.stepDepth n c < 2 ^ 31 := by
  have hlt := depth.toInt_lt
  rw [stepDepth] at h
  rw [Text.stepDepth]
  split at h <;> rename_i hopen
  · have hsum := add_stops_eq_some h
    rw [Int32.toInt_one] at hsum
    rw [if_pos hopen]
    omega
  · rw [if_neg hopen]
    split <;> omega

theorem eq_zero_iff {n : Nat} (hdepth : depth.toInt = n) : depth = 0 ↔ n = 0 := by
  rw [← Int32.toInt_inj, hdepth, Int32.toInt_zero, Int.natCast_eq_zero]

theorem cuts_iff_isCut {n : Nat} (hdepth : depth.toInt = n) : Cuts sep depth c ↔ IsCut sep n c :=
  ⟨fun ⟨ho, hc, hs, hd⟩ => ⟨ho, hc, hs, (eq_zero_iff hdepth).1 hd⟩,
    fun ⟨ho, hc, hs, hd⟩ => ⟨ho, hc, hs, (eq_zero_iff hdepth).2 hd⟩⟩

/-- While fewer than 2 ^ 31 brackets are open, the parts are those that a count without bounds
gives. -/
theorem splitOutside_eq {n : Nat} (hdepth : depth.toInt = n) (h : NestsFrom n s) (o : Overflow)
    (sep : Char) : o.splitOutside sep depth s = some (Text.splitOutside sep n s) := by
  induction s generalizing depth n with
  | nil => rfl
  | cons c s ih =>
    obtain ⟨hn, hrest⟩ := nestsFrom_cons.1 h
    by_cases hcut : Cuts sep depth c
    · have hcut' := (cuts_iff_isCut hdepth).1 hcut
      rw [hcut'.stepDepth] at hrest
      rw [splitOutside_cons_of_cuts hcut, splitOutside_cons_of_isCut hcut',
        ih Int32.toInt_zero hrest, Option.map_some]
    · obtain ⟨next, hnext, hvalue⟩ := stepDepth_eq_some hdepth hrest.lt o
      rw [splitOutside_cons_of_not_cuts hcut, hnext, Option.bind_some, ih hvalue hrest,
        splitOutside_cons_of_not_isCut (mt (cuts_iff_isCut hdepth).2 hcut), Option.map_some]

/-- A count that stops the program gets through a text exactly if it is exact. -/
theorem isSome_splitOutside_stops_iff {n : Nat} (hdepth : depth.toInt = n) :
    (stops.splitOutside sep depth s).isSome ↔ NestsFrom n s := by
  have hn : n < 2 ^ 31 := by
    have hlt := depth.toInt_lt
    omega
  refine ⟨fun h => ?_, fun h => by rw [splitOutside_eq hdepth h, Option.isSome_some]⟩
  induction s generalizing depth n with
  | nil => exact nestsFrom_nil.2 hn
  | cons c s ih =>
    refine nestsFrom_cons.2 ⟨hn, ?_⟩
    by_cases hcut : Cuts sep depth c
    · rw [splitOutside_cons_of_cuts hcut, Option.isSome_map] at h
      rw [((cuts_iff_isCut hdepth).1 hcut).stepDepth]
      exact ih Int32.toInt_zero (by decide) h
    · rw [splitOutside_cons_of_not_cuts hcut] at h
      obtain ⟨parts, hparts⟩ := Option.isSome_iff_exists.1 h
      obtain ⟨next, hnext, hparts⟩ := Option.bind_eq_some_iff.1 hparts
      obtain ⟨rest, hrest, -⟩ := Option.map_eq_some_iff.1 hparts
      have hlt := lt_of_stepDepth_stops hdepth hnext
      obtain ⟨next', hnext', hvalue⟩ := stepDepth_eq_some hdepth hlt stops
      rw [hnext] at hnext'
      cases hnext'
      exact ih hvalue hlt (by rw [hrest, Option.isSome_some])

theorem isSome_stepDepth_wraps (depth : Int32) (c : Char) :
    ∃ next, wraps.stepDepth depth c = some next := by
  rw [stepDepth, add_wraps, add_wraps]
  split
  · exact ⟨_, rfl⟩
  · split <;> exact ⟨_, rfl⟩

theorem isSome_splitOutside_wraps (sep : Char) (depth : Int32) (s : Text) :
    (wraps.splitOutside sep depth s).isSome := by
  induction s generalizing depth with
  | nil => rfl
  | cons c s ih =>
    by_cases hcut : Cuts sep depth c
    · rw [splitOutside_cons_of_cuts hcut, Option.isSome_map]
      exact ih 0
    · obtain ⟨next, hnext⟩ := isSome_stepDepth_wraps depth c
      rw [splitOutside_cons_of_not_cuts hcut, hnext, Option.bind_some, Option.isSome_map]
      exact ih next

/-- Splitting gives a result unless the count stops the program, for which 2 ^ 31 brackets have to
be open at once. -/
theorem isSome_splitTopLevel_iff :
    (o.splitTopLevel sep s).isSome ↔ o = .wraps ∨ NestsFrom 0 s := by
  rw [splitTopLevel, Option.isSome_map]
  cases o with
  | stops => simp [isSome_splitOutside_stops_iff Int32.toInt_zero]
  | wraps => simp [isSome_splitOutside_wraps]

theorem splitTopLevel_eq (h : NestsFrom 0 s) (o : Overflow) (sep : Char) :
    o.splitTopLevel sep s = some (Text.splitTopLevel sep s) := by
  rw [splitTopLevel, splitOutside_eq Int32.toInt_zero h, Option.map_some, Text.splitTopLevel]

end Overflow

-- ---------------------------------------------------------------------------
-- Joined pieces
-- ---------------------------------------------------------------------------

variable {sep : Char}

/-- A text without the separators outside brackets, `depth` brackets being open before it. -/
def withoutOuter (sep : Char) : (depth : Nat) → Text → Text
  | _, [] => []
  | depth, c :: cs =>
    if c = sep ∧ depth = 0 then withoutOuter sep (stepDepth depth c) cs
    else c :: withoutOuter sep (stepDepth depth c) cs

theorem Overflow.withoutOuter_eq {s : Text} {depth : Int32} {n : Nat} (hdepth : depth.toInt = n)
    (h : NestsFrom n s) (o : Overflow) (sep : Char) :
    o.withoutOuter sep depth s = some (Text.withoutOuter sep n s) := by
  induction s generalizing depth n with
  | nil => rfl
  | cons c s ih =>
    obtain ⟨hn, hrest⟩ := nestsFrom_cons.1 h
    obtain ⟨next, hnext, hvalue⟩ := stepDepth_eq_some hdepth hrest.lt o
    rw [withoutOuter_cons, hnext, Option.bind_some, ih hvalue hrest, Option.map_some,
      Text.withoutOuter]
    simp only [eq_zero_iff hdepth]

/-- A piece with white space around it. -/
structure Padded where
  before : Text
  piece : Text
  after : Text

def Padded.text (p : Padded) : Text := p.before ++ p.piece ++ p.after

/-- Whether a piece is one that splitting at the separator can give, with white space around it. -/
structure Padded.WellFormed (sep : Char) (p : Padded) : Prop where
  before : ∀ c ∈ p.before, isSpace c = true
  after : ∀ c ∈ p.after, isSpace c = true
  ne_nil : p.piece ≠ []
  trim_eq : trim p.piece = p.piece
  balanced : BracketBalanced p.piece
  hidden : HidesSeparators sep p.piece

namespace Padded.WellFormed

variable {p : Padded}

theorem trimmed (h : p.WellFormed sep) : Trimmed p.piece := by
  have hpiece := trim_eq_nil_or_trimmed p.piece
  rw [h.trim_eq] at hpiece
  exact hpiece.resolve_left h.ne_nil

theorem closed (h : p.WellFormed sep) (hsep : IsSeparator sep) : Closed sep p.text :=
  ((closed_of_isSpace hsep.not_space h.before).append
    ((closed_iff hsep.not_opening hsep.not_closing).2 ⟨h.balanced, h.hidden⟩)).append
    (closed_of_isSpace hsep.not_space h.after)

theorem trim_text (h : p.WellFormed sep) : trim p.text = p.piece := by
  rw [text, List.append_assoc, trim_append_of_isSpace h.before, h.trimmed.trim_append h.after]

theorem foldl_stepDepth (h : p.WellFormed sep) : p.text.foldl stepDepth 0 = 0 := by
  rw [text, List.foldl_append, List.foldl_append, stepDepth_of_isSpace h.before,
    h.balanced.foldl_stepDepth, stepDepth_of_isSpace h.after]

theorem nestsFrom (h : p.WellFormed sep) (hpiece : NestsFrom 0 p.piece) : NestsFrom 0 p.text := by
  rw [text, nestsFrom_append, nestsFrom_append, List.foldl_append, stepDepth_of_isSpace h.before,
    h.balanced.foldl_stepDepth]
  exact ⟨⟨nestsFrom_of_isSpace h.before, hpiece⟩, nestsFrom_of_isSpace h.after⟩

end Padded.WellFormed

/-- The pieces of a joined list are read back, whatever white space is around them. -/
theorem splitTopLevel_padded (hsep : IsSeparator sep) {padded : List Padded}
    (h : ∀ p ∈ padded, p.WellFormed sep) :
    splitTopLevel sep ([sep].intercalate (padded.map Padded.text)) = padded.map Padded.piece := by
  have htrim : (padded.map Padded.text).map trim = padded.map Padded.piece := by
    rw [List.map_map]
    exact List.map_congr_left fun p hp => (h p hp).trim_text
  have hclosed : ∀ s ∈ padded.map Padded.text, Closed sep s :=
    List.forall_mem_map.2 fun p hp => (h p hp).closed hsep
  rw [splitTopLevel_of_closed hsep (List.forall_mem_nil _) hclosed, htrim, List.filter_eq_self]
  refine List.forall_mem_map.2 fun p hp => ?_
  simpa using (h p hp).ne_nil

/-- A separator between two pieces opens nothing. -/
theorem nestsFrom_padded (hsep : IsSeparator sep) {padded : List Padded}
    (h : ∀ p ∈ padded, p.WellFormed sep) (hpieces : ∀ p ∈ padded, NestsFrom 0 p.piece) :
    NestsFrom 0 ([sep].intercalate (padded.map Padded.text)) := by
  have hstep : [sep].foldl stepDepth 0 = 0 := by
    simp [stepDepth, hsep.not_opening, hsep.not_closing]
  have hlone : NestsFrom 0 [sep] := nestsFrom_of_countP (by simp [hsep.not_opening])
  induction padded with
  | nil => exact nestsFrom_nil.2 (by decide)
  | cons p padded ih =>
    obtain ⟨hp, hpadded⟩ := List.forall_mem_cons.1 h
    obtain ⟨hpiece, hpieces⟩ := List.forall_mem_cons.1 hpieces
    have htext := hp.nestsFrom hpiece
    cases padded with
    | nil => simpa using htext
    | cons q padded =>
      rw [List.map_cons, List.map_cons, List.intercalate_cons_cons, nestsFrom_append,
        nestsFrom_append, List.foldl_append, hp.foldl_stepDepth, hstep]
      exact ⟨⟨htext, hlone⟩, ih hpadded hpieces⟩

/-- Splitting at a separator undoes joining with it, also with a count of 32 bits if the pieces are
balanced by that count. Whatever the text, its pieces are trimmed, cannot be split further and hold
all visible characters but the separators outside brackets. A count that wraps around always comes
to an end, one that stops the program does unless 2 ^ 31 brackets are open at once, and where fewer
are, both give what a count without bounds gives. -/
theorem splitTopLevel_lossless (hopen : isOpening sep = false) (hclose : isClosing sep = false)
    (o : Overflow) :
    (isSpace sep = false → ∀ padded : List Padded, (∀ p ∈ padded, p.WellFormed sep) →
      splitTopLevel sep ([sep].intercalate (padded.map Padded.text)) =
        padded.map Padded.piece ∧
      ((∀ p ∈ padded, CountedBalanced p.piece) →
        o.splitTopLevel sep ([sep].intercalate (padded.map Padded.text)) =
          some (padded.map Padded.piece))) ∧
    (∀ (s : Text) (pieces : List Text), o.splitTopLevel sep s = some pieces →
      (∀ p ∈ pieces, p ≠ [] ∧ trim p = p ∧ o.splitTopLevel sep p = some [p]) ∧
      ∃ rest, o.withoutOuter sep 0 s = some rest ∧ visible pieces.flatten = visible rest) ∧
    ∀ s : Text, ((o.splitTopLevel sep s).isSome ↔ o = .wraps ∨ NestsFrom 0 s) ∧
      (s.countP isOpening < 2 ^ 31 → NestsFrom 0 s) ∧
      (NestsFrom 0 s → o.splitTopLevel sep s = some (splitTopLevel sep s) ∧
        o.withoutOuter sep 0 s = some (withoutOuter sep 0 s)) := by
  refine ⟨fun hspace padded h => ?_, fun s pieces h => ⟨fun p hp => ?_, ?_⟩,
    fun s => ⟨Overflow.isSome_splitTopLevel_iff, nestsFrom_of_countP, fun h => ⟨?_, ?_⟩⟩⟩
  · have hsep : IsSeparator sep := ⟨hopen, hclose, hspace⟩
    have hjoined := splitTopLevel_padded hsep h
    refine ⟨hjoined, fun hcounted => ?_⟩
    have hnests := nestsFrom_padded hsep h fun p hp => (hcounted p hp).nestsFrom
    rw [Overflow.splitTopLevel_eq hnests, hjoined]
  · exact Overflow.piece_of_splitTopLevel h hp
  · exact Overflow.visible_of_splitTopLevel hopen hclose h
  · exact Overflow.splitTopLevel_eq h o sep
  · exact Overflow.withoutOuter_eq Int32.toInt_zero h o sep

/-- Pieces with separators inside brackets. -/
def paddedPieces : List Padded :=
  [⟨[], "Map<K, V> a".toList, []⟩, ⟨['\n', ' '], "f(x, y)".toList, ['\t']⟩]

/-- The pieces of `paddedPieces`, and a text that closes brackets which are not open and leaves one
open. -/
theorem splitTopLevel_lossless_paddedPieces :
    isOpening ',' = false ∧ isClosing ',' = false ∧ isSpace ',' = false ∧
      Overflow.stops.splitTopLevel ',' "Map<K, V> a,\n f(x, y)\t".toList =
        some ["Map<K, V> a".toList, "f(x, y)".toList] ∧
      ∃ pieces, Overflow.wraps.splitTopLevel ',' "a -> b) , c<d, e".toList = some pieces ∧
        "c<d, e".toList ∈ pieces ∧
        Overflow.wraps.splitTopLevel ',' "c<d, e".toList = some ["c<d, e".toList] ∧
        visible pieces.flatten = "a->b)c<d,e".toList := by
  have hopen : isOpening ',' = false := by decide
  have hclose : isClosing ',' = false := by decide
  have hspace : isSpace ',' = false := by decide
  have hpadded : ∀ p ∈ paddedPieces, p.WellFormed ',' ∧ CountedBalanced p.piece := by
    have hclosed : ∀ p ∈ paddedPieces, Closed ',' p.piece := by decide
    have hrest : ∀ p ∈ paddedPieces, (∀ c ∈ p.before, isSpace c = true) ∧
        (∀ c ∈ p.after, isSpace c = true) ∧ p.piece ≠ [] ∧ trim p.piece = p.piece ∧
        p.piece.countP isOpening < 2 ^ 31 := by decide
    intro p hp
    obtain ⟨hbalanced, hhidden⟩ := (closed_iff hopen hclose).1 (hclosed p hp)
    obtain ⟨hbefore, hafter, hne, htrim, hfew⟩ := hrest p hp
    exact ⟨⟨hbefore, hafter, hne, htrim, hbalanced, hhidden⟩, hbalanced.counted hfew⟩
  obtain ⟨hjoin, -, -⟩ := splitTopLevel_lossless hopen hclose .stops
  obtain ⟨-, hjoined⟩ := hjoin hspace paddedPieces fun p hp => (hpadded p hp).1
  obtain ⟨-, hany, hcount⟩ := splitTopLevel_lossless hopen hclose .wraps
  have hpieces : Overflow.wraps.splitTopLevel ',' "a -> b) , c<d, e".toList =
      some ["a -> b)".toList, "c<d, e".toList] := by decide
  obtain ⟨hwhole, rest, hrest, hvisible⟩ := hany _ _ hpieces
  have hfew := (hcount "a -> b) , c<d, e".toList).2.1 (by decide)
  rw [((hcount _).2.2 hfew).2] at hrest
  refine ⟨hopen, hclose, hspace, hjoined fun p hp => (hpadded p hp).2, _, hpieces, by decide,
    (hwhole _ (by decide)).2.2, ?_⟩
  rw [hvisible, ← Option.some.inj hrest]
  decide

end Typings.Text
