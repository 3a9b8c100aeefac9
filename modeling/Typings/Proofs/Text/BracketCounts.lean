import Mathlib.Algebra.Group.Int.Defs
import Mathlib.Algebra.Group.Nat.Defs
import Mathlib.Data.List.Induction
import Typings.Proofs.Text.Splitting

/-!
# Counting brackets

Whether a text closes the brackets that it opens can be told by counting: each opening bracket
counts one, each closing bracket takes one away. Counted in 32 bits, a text is balanced exactly if
it is balanced and nowhere 2 ^ 31 brackets are open at once. Main statements: `closed_iff` and
`countedBalanced_iff`.
-/

namespace Typings.Text

variable {sep c : Char} {s t : Text}

-- ---------------------------------------------------------------------------
-- Counting brackets
-- ---------------------------------------------------------------------------

/-- What a character adds to the number of brackets that are open. -/
def bracketWeight (c : Char) : Int := if isOpening c then 1 else if isClosing c then -1 else 0

/-- How many brackets more a text opens than it closes. -/
def bracketCount : Text → Int
  | [] => 0
  | c :: s => bracketWeight c + bracketCount s

@[simp] theorem bracketCount_nil : bracketCount [] = 0 := rfl

@[simp] theorem bracketCount_cons (c : Char) (s : Text) :
    bracketCount (c :: s) = bracketWeight c + bracketCount s := rfl

theorem bracketCount_append (s t : Text) :
    bracketCount (s ++ t) = bracketCount s + bracketCount t := by
  induction s with
  | nil => simp
  | cons c s ih => rw [List.cons_append, bracketCount_cons, bracketCount_cons, ih, add_assoc]

/-- Whether a text closes what it opens, and closes nothing before it is opened. -/
structure BracketBalanced (s : Text) : Prop where
  nonneg : ∀ u, u <+: s → 0 ≤ bracketCount u
  total : bracketCount s = 0

/-- Whether the separators in a text are all inside brackets. -/
def HidesSeparators (sep : Char) (s : Text) : Prop :=
  ∀ u v, s = u ++ sep :: v → bracketCount u ≠ 0

/-- Whether a text closes nothing before it is opened and hides its separators, `start` brackets
being open before it. -/
structure StaysOpen (sep : Char) (start : Int) (s : Text) : Prop where
  nonneg : ∀ u, u <+: s → 0 ≤ start + bracketCount u
  hidden : ∀ u v, s = u ++ sep :: v → start + bracketCount u ≠ 0

theorem staysOpen_nil {start : Int} : StaysOpen sep start [] ↔ 0 ≤ start := by
  constructor
  · intro h
    simpa using h.nonneg [] List.prefix_rfl
  · intro h
    refine ⟨fun u hu => ?_, fun u v huv => by simp at huv⟩
    rw [List.prefix_nil.1 hu]
    simpa using h

theorem staysOpen_cons {start : Int} :
    StaysOpen sep start (c :: s) ↔
      0 ≤ start ∧ (c = sep → start ≠ 0) ∧ StaysOpen sep (start + bracketWeight c) s := by
  constructor
  · intro h
    refine ⟨by simpa using h.nonneg [] List.nil_prefix, fun hc => ?_, fun u hu => ?_,
      fun u v huv => ?_⟩
    · simpa using h.hidden [] s (by rw [hc, List.nil_append])
    · simpa [add_assoc] using h.nonneg (c :: u) (List.cons_prefix_cons.2 ⟨rfl, hu⟩)
    · simpa [add_assoc] using h.hidden (c :: u) v (by rw [huv, List.cons_append])
  · rintro ⟨hstart, hsep, h⟩
    refine ⟨fun u hu => ?_, fun u v huv => ?_⟩
    · cases u with
      | nil => simpa using hstart
      | cons d u =>
        obtain ⟨rfl, hprefix⟩ := List.cons_prefix_cons.1 hu
        simpa [add_assoc] using h.nonneg u hprefix
    · cases u with
      | nil => simpa using hsep (List.cons.inj huv).1
      | cons d u =>
        obtain ⟨rfl, htail⟩ := List.cons.inj huv
        simpa [add_assoc] using h.hidden u v htail

/-- The brackets that are open after a text can be told by counting. -/
theorem openAfter_eq_some_iff (hopen : isOpening sep = false) (hclose : isClosing sep = false)
    {depth final : Nat} :
    openAfter sep depth s = some final ↔
      StaysOpen sep depth s ∧ depth + bracketCount s = final := by
  induction s generalizing depth with
  | nil =>
    simp only [openAfter, staysOpen_nil, bracketCount_nil, add_zero, Option.some.injEq]
    omega
  | cons c s ih =>
    have hsep : c = sep → isOpening c = false ∧ isClosing c = false := by
      rintro rfl
      exact ⟨hopen, hclose⟩
    rw [staysOpen_cons, bracketCount_cons, ← add_assoc, bracketWeight]
    simp only [openAfter]
    split
    · rename_i ho
      have hc : c ≠ sep := fun hc => by simp [(hsep hc).1] at ho
      simp [hc, ih]
    · split
      · rename_i hcl
        have hc : c ≠ sep := fun hc => by simp [(hsep hc).2] at hcl
        cases depth with
        | zero =>
          -- a bracket is closed that is not open
          have hbelow : ¬ StaysOpen sep (-1) s := fun h => by
            simpa using h.nonneg [] List.nil_prefix
          simp [hbelow]
        | succ outer =>
          have hstart : (0 : Int) ≤ (outer + 1 : Nat) := Int.natCast_nonneg _
          have hlevel : ((outer + 1 : Nat) : Int) + -1 = (outer : Int) := by omega
          simp only [hlevel, hc, ih, hstart, true_and, false_implies]
      · rw [add_zero]
        by_cases hcut : c = sep ∧ depth = 0
        · simp [hcut]
        · have hzero : c = sep → depth ≠ 0 := fun hc hd => hcut ⟨hc, hd⟩
          simp +contextual [hcut, ih, hzero]

theorem closed_iff (hopen : isOpening sep = false) (hclose : isClosing sep = false) :
    Closed sep s ↔ BracketBalanced s ∧ HidesSeparators sep s := by
  have hzero : ((0 : Nat) : Int) = 0 := rfl
  rw [Closed, openAfter_eq_some_iff hopen hclose, hzero, zero_add]
  constructor
  · rintro ⟨h, htotal⟩
    exact ⟨⟨fun u hu => by simpa using h.nonneg u hu, htotal⟩,
      fun u v huv => by simpa using h.hidden u v huv⟩
  · rintro ⟨h, hhidden⟩
    exact ⟨⟨fun u hu => by simpa using h.nonneg u hu,
      fun u v huv => by simpa using hhidden u v huv⟩, h.total⟩

-- ---------------------------------------------------------------------------
-- Depths
-- ---------------------------------------------------------------------------

theorem bracketCount_concat (s : Text) (c : Char) :
    bracketCount (s ++ [c]) = bracketCount s + bracketWeight c := by
  rw [bracketCount_append, bracketCount_cons, bracketCount_nil, add_zero]

/-- While nothing is closed that is not open, the number of open brackets is the count. -/
theorem cast_foldl_stepDepth (h : ∀ u, u <+: s → 0 ≤ bracketCount u) :
    ((s.foldl stepDepth 0 : Nat) : Int) = bracketCount s := by
  induction s using List.reverseRecOn with
  | nil => rfl
  | append_singleton s c ih =>
    have hdepth := ih fun u hu => h u (hu.trans (List.prefix_append s [c]))
    have hcount := h _ List.prefix_rfl
    rw [bracketCount_concat, bracketWeight] at hcount ⊢
    rw [List.foldl_append, List.foldl_cons, List.foldl_nil, stepDepth]
    split at hcount <;> rename_i hopen
    · simp [hopen, hdepth]
    · split at hcount <;> rename_i hclose
      · rw [if_neg hopen, if_pos hclose, if_neg hopen, if_pos hclose]
        omega
      · simp [hopen, hclose, hdepth]

theorem BracketBalanced.foldl_stepDepth (h : BracketBalanced s) : s.foldl stepDepth 0 = 0 := by
  have hdepth := cast_foldl_stepDepth h.nonneg
  rw [h.total] at hdepth
  exact Int.ofNat_eq_zero.1 hdepth

theorem foldl_stepDepth_le (s : Text) (depth : Nat) :
    s.foldl stepDepth depth ≤ depth + s.countP isOpening := by
  induction s generalizing depth with
  | nil => exact Nat.le_refl _
  | cons c s ih =>
    refine (ih (stepDepth depth c)).trans ?_
    rw [List.countP_cons, stepDepth]
    split
    · omega
    · split <;> omega

/-- Whether, `depth` brackets being open before a text, nowhere in it 2 ^ 31 are open at once. -/
def NestsFrom (depth : Nat) (s : Text) : Prop := ∀ u, u <+: s → u.foldl stepDepth depth < 2 ^ 31

theorem nestsFrom_nil {depth : Nat} : NestsFrom depth [] ↔ depth < 2 ^ 31 := by
  simp [NestsFrom]

theorem nestsFrom_cons {depth : Nat} :
    NestsFrom depth (c :: s) ↔ depth < 2 ^ 31 ∧ NestsFrom (stepDepth depth c) s := by
  constructor
  · intro h
    exact ⟨h [] List.nil_prefix, fun u hu => h (c :: u) (List.cons_prefix_cons.2 ⟨rfl, hu⟩)⟩
  · rintro ⟨hdepth, h⟩ u hu
    cases u with
    | nil => exact hdepth
    | cons d u =>
      obtain ⟨rfl, hprefix⟩ := List.cons_prefix_cons.1 hu
      exact h u hprefix

theorem NestsFrom.lt {depth : Nat} (h : NestsFrom depth s) : depth < 2 ^ 31 := h [] List.nil_prefix

theorem nestsFrom_append {depth : Nat} :
    NestsFrom depth (s ++ t) ↔ NestsFrom depth s ∧ NestsFrom (s.foldl stepDepth depth) t := by
  induction s generalizing depth with
  | nil =>
    rw [List.nil_append, nestsFrom_nil, List.foldl_nil]
    exact ⟨fun h => ⟨h.lt, h⟩, And.right⟩
  | cons c s ih =>
    rw [List.cons_append, nestsFrom_cons, nestsFrom_cons, ih, List.foldl_cons, and_assoc]

/-- A text that opens fewer than 2 ^ 31 brackets. -/
theorem nestsFrom_of_countP (h : s.countP isOpening < 2 ^ 31) : NestsFrom 0 s := fun u hu => by
  have hle := foldl_stepDepth_le u 0
  have hcount := @List.Sublist.countP_le _ isOpening _ _ hu.sublist
  omega

theorem nestsFrom_of_isSpace {sp : Text} (hsp : ∀ c ∈ sp, isSpace c = true) : NestsFrom 0 sp := by
  refine nestsFrom_of_countP ?_
  rw [List.countP_eq_zero.2 fun c hc => by simp [(not_bracket_of_isSpace (hsp c hc)).1]]
  decide

theorem stepDepth_of_isSpace {sp : Text} (hsp : ∀ c ∈ sp, isSpace c = true) (depth : Nat) :
    sp.foldl stepDepth depth = depth := by
  induction sp with
  | nil => rfl
  | cons c sp ih =>
    obtain ⟨hopen, hclose⟩ := not_bracket_of_isSpace (hsp c (by simp))
    have hstep : stepDepth depth c = depth := by simp [stepDepth, hopen, hclose]
    rw [List.foldl_cons, hstep, ih fun d hd => hsp d (List.mem_cons_of_mem c hd)]

-- ---------------------------------------------------------------------------
-- Counting in 32 bits
-- ---------------------------------------------------------------------------

/-- Whether a text is balanced by a count of 32 bits, where 2 ^ 31 open brackets are a negative
number. -/
structure CountedBalanced (s : Text) : Prop where
  nonneg : ∀ u, u <+: s → 0 ≤ Int32.ofInt (bracketCount u)
  total : Int32.ofInt (bracketCount s) = 0

theorem bracketWeight_mem (c : Char) : -1 ≤ bracketWeight c ∧ bracketWeight c ≤ 1 := by
  rw [bracketWeight]
  split <;> [skip; split] <;> omega

/-- A count in 32 bits that never becomes negative is exact: it cannot get past 2 ^ 31. -/
theorem bracketCount_of_counted (h : ∀ u, u <+: s → 0 ≤ Int32.ofInt (bracketCount u)) :
    0 ≤ bracketCount s ∧ bracketCount s < 2 ^ 31 := by
  induction s using List.reverseRecOn with
  | nil => simp
  | append_singleton s c ih =>
    obtain ⟨hle, hlt⟩ := ih fun u hu => h u (hu.trans (List.prefix_append s [c]))
    have hstep := bracketWeight_mem c
    have hlast := Int32.le_iff_toInt_le.1 (h _ List.prefix_rfl)
    rw [bracketCount_concat] at hlast ⊢
    -- one step leads out of the range only to 2 ^ 31, which is the least number of 32 bits
    have hinside : bracketCount s + bracketWeight c ≠ 2 ^ 31 := fun heq => by
      rw [heq] at hlast
      exact absurd hlast (by decide)
    rw [Int32.toInt_ofInt_of_le (by omega) (by omega), Int32.toInt_zero] at hlast
    omega

theorem countedBalanced_iff :
    CountedBalanced s ↔ BracketBalanced s ∧ ∀ u, u <+: s → bracketCount u < 2 ^ 31 := by
  have hexact {n : Int} (hn : 0 ≤ n ∧ n < 2 ^ 31) : (Int32.ofInt n).toInt = n :=
    Int32.toInt_ofInt_of_le (by omega) hn.2
  constructor
  · intro h
    have hcount (u : Text) (hu : u <+: s) := bracketCount_of_counted fun v hv =>
      h.nonneg v (hv.trans hu)
    refine ⟨⟨fun u hu => (hcount u hu).1, ?_⟩, fun u hu => (hcount u hu).2⟩
    have htotal := congrArg Int32.toInt h.total
    rwa [hexact (hcount s List.prefix_rfl), Int32.toInt_zero] at htotal
  · rintro ⟨h, hlt⟩
    refine ⟨fun u hu => ?_, by rw [h.total]; rfl⟩
    rw [Int32.le_iff_toInt_le, hexact ⟨h.nonneg u hu, hlt u hu⟩]
    exact h.nonneg u hu

theorem CountedBalanced.nestsFrom (h : CountedBalanced s) : NestsFrom 0 s := fun u hu => by
  obtain ⟨hbalanced, hlt⟩ := countedBalanced_iff.1 h
  have hdepth := cast_foldl_stepDepth fun v hv => hbalanced.nonneg v (hv.trans hu)
  have hcount := hlt u hu
  omega

/-- A balanced text that opens fewer than 2 ^ 31 brackets. -/
theorem BracketBalanced.counted (h : BracketBalanced s) (hfew : s.countP isOpening < 2 ^ 31) :
    CountedBalanced s := by
  refine countedBalanced_iff.2 ⟨h, fun u hu => ?_⟩
  have hdepth := cast_foldl_stepDepth fun v hv => h.nonneg v (hv.trans hu)
  have hlt := nestsFrom_of_countP hfew u hu
  omega

end Typings.Text
