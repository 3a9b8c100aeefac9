import Mathlib.Data.Nat.Basic
import Typings.Proofs.Order.Stable
import Typings.Text.Span

/-!
# What blanking shows

Blanking sorts its spans, joins those that touch and sweeps once over the text. A character is
blanked exactly when some span of the list holds its offset, whatever the order of the spans and
however they overlap. Main statements: `blank_eq_blankWhere` and `blank_pointwise`.
-/

namespace Typings

-- ---------------------------------------------------------------------------
-- Joining spans
-- ---------------------------------------------------------------------------

namespace Span

/-- Whether an offset lies in one of the spans. -/
def covers (spans : List Span) (offset : Nat) : Bool := spans.any (·.contains offset)

/-- Whether each span ends before the next one starts. -/
def Separated (spans : List Span) : Prop := spans.Pairwise fun s t => s.stop < t.start

@[simp] theorem covers_nil (offset : Nat) : covers [] offset = false := rfl

@[simp] theorem covers_cons (s : Span) (spans : List Span) (offset : Nat) :
    covers (s :: spans) offset = (s.contains offset || covers spans offset) := rfl

theorem covers_eq_true_iff {spans : List Span} {offset : Nat} :
    covers spans offset = true ↔ ∃ s ∈ spans, s.start ≤ offset ∧ offset < s.stop := by
  simp [covers, contains]

theorem covers_eq_false_iff {spans : List Span} {offset : Nat} :
    covers spans offset = false ↔ ∀ s ∈ spans, s.start ≤ offset → s.stop ≤ offset := by
  simp [covers, contains]

theorem contains_join {s t : Span} (hle : s.start ≤ t.start) (ht : t.start ≤ s.stop)
    (offset : Nat) :
    contains ⟨s.start, max s.stop t.stop⟩ offset = (s.contains offset || t.contains offset) := by
  rw [Bool.eq_iff_iff]
  simp only [contains, Bool.or_eq_true, Bool.and_eq_true, decide_eq_true_eq]
  omega

/-- A joined span starts where the first of its parts starts. -/
theorem pairwise_join {s t : Span} {spans : List Span}
    (h : (s :: t :: spans).Pairwise fun x y => x.start ≤ y.start) (stop : Nat) :
    (⟨s.start, stop⟩ :: spans).Pairwise fun x y => x.start ≤ y.start := by
  obtain ⟨hs, hspans⟩ := List.pairwise_cons.mp h
  refine List.pairwise_cons.mpr ⟨?_, hspans.of_cons⟩
  intro x hx
  exact hs x (List.mem_cons_of_mem t hx)

theorem covers_coalesce {s : Span} {spans : List Span}
    (h : (s :: spans).Pairwise fun x y => x.start ≤ y.start) (offset : Nat) :
    covers (coalesce s spans) offset = covers (s :: spans) offset := by
  induction spans generalizing s with
  | nil => rfl
  | cons t ts ih =>
    obtain ⟨hs, hts⟩ := List.pairwise_cons.mp h
    simp only [coalesce]
    split
    · rename_i hjoin
      have hst : s.start ≤ t.start := hs t (by simp)
      rw [ih (pairwise_join h _)]
      simp only [covers_cons, contains_join hst hjoin, Bool.or_assoc]
    · simp only [covers_cons, ih hts]

theorem start_le_of_mem_coalesce {s x : Span} {spans : List Span}
    (h : (s :: spans).Pairwise fun x y => x.start ≤ y.start) (hx : x ∈ coalesce s spans) :
    s.start ≤ x.start := by
  induction spans generalizing s with
  | nil =>
    obtain rfl : x = s := by simpa [coalesce] using hx
    exact Nat.le_refl _
  | cons t ts ih =>
    obtain ⟨hs, hts⟩ := List.pairwise_cons.mp h
    simp only [coalesce] at hx
    split at hx
    · have hjoin := ih (pairwise_join h _) hx
      exact hjoin
    · rcases List.mem_cons.mp hx with rfl | hx
      · exact Nat.le_refl _
      · exact Nat.le_trans (hs t (by simp)) (ih hts hx)

theorem separated_coalesce {s : Span} {spans : List Span}
    (h : (s :: spans).Pairwise fun x y => x.start ≤ y.start) : Separated (coalesce s spans) := by
  induction spans generalizing s with
  | nil => simp [coalesce, Separated]
  | cons t ts ih =>
    obtain ⟨hs, hts⟩ := List.pairwise_cons.mp h
    simp only [coalesce]
    split
    · exact ih (pairwise_join h _)
    · rename_i hgap
      refine List.pairwise_cons.mpr ⟨?_, ih hts⟩
      intro x hx
      exact Nat.lt_of_lt_of_le (Nat.lt_of_not_le hgap) (start_le_of_mem_coalesce hts hx)

theorem separated_merge (spans : List Span) : Separated (merge spans) := by
  have hsorted := @Order.pairwise_sort Span Nat _ Span.start
    (spans.filter fun s => s.start < s.stop)
  unfold merge sort
  split
  · exact .nil
  · rename_i s ts hsort
    rw [hsort] at hsorted
    exact separated_coalesce hsorted

/-- Joining spans keeps the offsets that they cover. -/
theorem covers_merge (spans : List Span) (offset : Nat) :
    covers (merge spans) offset = covers spans offset := by
  have hfilter : covers (spans.filter fun s => s.start < s.stop) offset = covers spans offset := by
    rw [Bool.eq_iff_iff, covers_eq_true_iff, covers_eq_true_iff]
    constructor
    · rintro ⟨s, hs, hin⟩
      exact ⟨s, (List.mem_filter.mp hs).1, hin⟩
    · rintro ⟨s, hs, hin⟩
      exact ⟨s, List.mem_filter.mpr ⟨hs, by simp; omega⟩, hin⟩
  have hsorted := @Order.pairwise_sort Span Nat _ Span.start
    (spans.filter fun s => s.start < s.stop)
  have hperm := Order.sort_perm (fun s t => s.start < t.start)
    (spans.filter fun s => s.start < s.stop)
  rw [← hfilter]
  unfold merge sort
  split
  · rename_i hsort
    rw [hsort] at hperm
    rw [hperm.symm.eq_nil]
  · rename_i s ts hsort
    rw [hsort] at hsorted hperm
    rw [covers_coalesce hsorted]
    exact hperm.any_eq

end Span

-- ---------------------------------------------------------------------------
-- Blanking by offsets
-- ---------------------------------------------------------------------------

namespace Text

/-- The text with every character blanked. -/
def blankAll (s : Text) : Text := s.flatMap blankChar

/-- Blanks the characters whose offsets satisfy a condition, the text starting at `pos`. -/
def blankWhere (hidden : Nat → Bool) : (pos : Nat) → Text → Text
  | _, [] => []
  | pos, c :: cs =>
    (if hidden pos then blankChar c else [c]) ++ blankWhere hidden (pos + c.utf8Size) cs

@[simp] theorem blankAll_nil : blankAll [] = [] := rfl

@[simp] theorem blankAll_cons (c : Char) (cs : Text) :
    blankAll (c :: cs) = blankChar c ++ blankAll cs := rfl

@[simp] theorem blankAll_append (s t : Text) : blankAll (s ++ t) = blankAll s ++ blankAll t :=
  List.flatMap_append

theorem byteLength_replicate (n : Nat) (c : Char) :
    byteLength (List.replicate n c) = n * c.utf8Size := by
  induction n with
  | zero => simp
  | succ n ih => rw [List.replicate_succ, byteLength_cons, ih, Nat.succ_mul, Nat.add_comm]

@[simp] theorem byteLength_blankChar (c : Char) : byteLength (blankChar c) = c.utf8Size := by
  unfold blankChar
  split
  · rename_i hc
    subst hc
    rfl
  · rw [byteLength_replicate]
    exact Nat.mul_one _

@[simp] theorem byteLength_blankAll (s : Text) : byteLength (blankAll s) = byteLength s := by
  induction s with
  | nil => rfl
  | cons c cs ih => simp [ih]

/-- Blanking keeps the length, so texts that are blanked to the same are equally long. -/
theorem byteLength_eq_of_blankAll_eq {s t : Text} (h : blankAll s = blankAll t) :
    byteLength s = byteLength t := by
  rw [← byteLength_blankAll s, h, byteLength_blankAll]

theorem eq_of_mem_blankChar {c d : Char} (h : d ∈ blankChar c) : d = ' ' ∨ d = '\n' := by
  unfold blankChar at h
  split at h
  · exact .inr (by simpa using h)
  · exact .inl (List.eq_of_mem_replicate h)

/-- A blanked text holds spaces and newlines only. -/
theorem eq_of_mem_blankAll {s : Text} {d : Char} (h : d ∈ blankAll s) : d = ' ' ∨ d = '\n' := by
  obtain ⟨c, _, hd⟩ := List.mem_flatMap.mp h
  exact eq_of_mem_blankChar hd

/-- There is nothing to blank in a text of spaces and newlines. -/
theorem blankAll_of_blank {s : Text} (hs : ∀ c ∈ s, c = ' ' ∨ c = '\n') : blankAll s = s := by
  induction s with
  | nil => rfl
  | cons c cs ih =>
    have hc : blankChar c = [c] := by
      rcases hs c List.mem_cons_self with rfl | rfl <;> rfl
    rw [blankAll_cons, hc, ih fun d hd => hs d (List.mem_cons_of_mem _ hd)]
    rfl

theorem blankWhere_append (hidden : Nat → Bool) (pos : Nat) (s t : Text) :
    blankWhere hidden pos (s ++ t) =
      blankWhere hidden pos s ++ blankWhere hidden (pos + byteLength s) t := by
  induction s generalizing pos with
  | nil => simp [blankWhere]
  | cons c cs ih => simp [blankWhere, ih, Nat.add_assoc]

@[simp] theorem byteLength_blankWhere (hidden : Nat → Bool) (pos : Nat) (s : Text) :
    byteLength (blankWhere hidden pos s) = byteLength s := by
  induction s generalizing pos with
  | nil => rfl
  | cons c cs ih =>
    rw [blankWhere, byteLength_append, ih, byteLength_cons]
    split <;> simp

/-- Only the offsets of the text count. -/
theorem blankWhere_congr {hidden other : Nat → Bool} {pos : Nat} {s : Text}
    (h : ∀ i, pos ≤ i → i < pos + byteLength s → hidden i = other i) :
    blankWhere hidden pos s = blankWhere other pos s := by
  induction s generalizing pos with
  | nil => rfl
  | cons c cs ih =>
    have hsize := c.utf8Size_pos
    rw [byteLength_cons] at h
    simp only [blankWhere]
    rw [h pos (Nat.le_refl _) (by omega), ih fun i hlo hhi => h i (by omega) (by omega)]

theorem blankWhere_true (pos : Nat) (s : Text) : blankWhere (fun _ => true) pos s = blankAll s := by
  induction s generalizing pos with
  | nil => rfl
  | cons c cs ih => simp [blankWhere, ih]

theorem blankWhere_false (pos : Nat) (s : Text) : blankWhere (fun _ => false) pos s = s := by
  induction s generalizing pos with
  | nil => rfl
  | cons c cs ih => simp [blankWhere, ih]

/-- A text all of whose offsets are hidden. -/
theorem blankWhere_of_hidden {hidden : Nat → Bool} {pos : Nat} {s : Text}
    (h : ∀ i, pos ≤ i → i < pos + byteLength s → hidden i = true) :
    blankWhere hidden pos s = blankAll s := by
  rw [blankWhere_congr h, blankWhere_true]

/-- A text none of whose offsets is hidden. -/
theorem blankWhere_of_shown {hidden : Nat → Bool} {pos : Nat} {s : Text}
    (h : ∀ i, pos ≤ i → i < pos + byteLength s → hidden i = false) :
    blankWhere hidden pos s = s := by
  rw [blankWhere_congr h, blankWhere_false]

/-- A character that is neither a space nor a newline is shown where it stands. -/
theorem exists_append_of_blankWhere {hidden : Nat → Bool} {pos : Nat} {s u t : Text} {c : Char}
    (hc : c ≠ ' ' ∧ c ≠ '\n') (h : blankWhere hidden pos s = u ++ c :: t) :
    ∃ u' t', s = u' ++ c :: t' ∧ byteLength u' = byteLength u ∧
    hidden (pos + byteLength u) = false ∧
      t = blankWhere hidden (pos + byteLength u + c.utf8Size) t' := by
  induction s generalizing pos u with
  | nil => simp [blankWhere] at h
  | cons x xs ih =>
    have hstep : ∀ m, u = (if hidden pos then blankChar x else [x]) ++ m →
        blankWhere hidden (pos + x.utf8Size) xs = m ++ c :: t → ∃ u' t', x :: xs = u' ++ c :: t' ∧
          byteLength u' = byteLength u ∧ hidden (pos + byteLength u) = false ∧
          t = blankWhere hidden (pos + byteLength u + c.utf8Size) t' := by
      intro m hu hm
      have hlen : byteLength u = x.utf8Size + byteLength m := by
        rw [hu, byteLength_append]
        split <;> simp
      obtain ⟨u', t', rfl, hu', hshown, ht⟩ := ih hm
      refine ⟨x :: u', t', rfl, by simp [hlen, hu'], ?_, ?_⟩
      · rwa [hlen, ← Nat.add_assoc]
      · rwa [hlen, ← Nat.add_assoc]
    rw [blankWhere] at h
    rcases List.append_eq_append_iff.mp h with ⟨m, hu, hm⟩ | ⟨m, hfirst, hrest⟩
    · exact hstep m hu hm
    · cases m with
      | nil => exact hstep [] (by rw [hfirst, List.append_nil, List.append_nil]) hrest.symm
      | cons d m =>
        obtain ⟨rfl, ht⟩ := List.cons.inj hrest
        split at hfirst
        · have hmem : c ∈ blankChar x := by simp [hfirst]
          exact absurd (eq_of_mem_blankChar hmem) (not_or.mpr hc)
        · rename_i hshown
          cases u with
          | cons e u => simp at hfirst
          | nil =>
            obtain ⟨rfl, rfl⟩ : x = c ∧ [] = m := by simpa using hfirst
            exact ⟨[], xs, rfl, rfl, by simpa using hshown, ht⟩

-- ---------------------------------------------------------------------------
-- The sweep
-- ---------------------------------------------------------------------------

/-- Of ordered spans that end after an offset, only the first can hold it. -/
theorem covers_of_ordered {spans : List Span} {pos : Nat}
    (h : spans.Pairwise fun s t => s.stop ≤ t.start)
    (hhead : ∀ s, spans.head? = some s → pos < s.stop) :
    Span.covers spans pos = spans.head?.any (·.start ≤ pos) := by
  cases spans with
  | nil => rfl
  | cons s ts =>
    obtain ⟨hs, _⟩ := List.pairwise_cons.mp h
    have hpos : pos < s.stop := hhead s rfl
    have hrest : Span.covers ts pos = false := by
      rw [Span.covers_eq_false_iff]
      intro t ht hstart
      have := hs t ht
      omega
    simp [hrest, Span.contains, hpos]

/-- Spans that end at or before an offset hold no later one. -/
theorem covers_dropWhile {spans : List Span} {pos offset : Nat} (h : pos ≤ offset) :
    Span.covers (spans.dropWhile fun s => s.stop ≤ pos) offset = Span.covers spans offset := by
  induction spans with
  | nil => rfl
  | cons s ts ih =>
    rw [List.dropWhile_cons]
    split
    · rename_i hs
      have hout : s.contains offset = false := by
        simp only [decide_eq_true_eq] at hs
        simp only [Span.contains, Bool.and_eq_false_iff, decide_eq_false_iff_not]
        omega
      rw [ih, Span.covers_cons, hout, Bool.false_or]
    · rfl

theorem sweep_eq_blankWhere {spans : List Span} (h : Span.Separated spans) (pos : Nat) (s : Text) :
    sweep spans pos s = blankWhere (Span.covers spans) pos s := by
  induction s generalizing spans pos with
  | nil => rfl
  | cons c cs ih =>
    have hpending : Span.Separated (spans.dropWhile fun s => s.stop ≤ pos) :=
      h.sublist (List.dropWhile_sublist _)
    have hhead : ∀ t, (spans.dropWhile fun s => s.stop ≤ pos).head? = some t → pos < t.stop := by
      intro t ht
      have := List.head?_dropWhile_not (fun s : Span => decide (s.stop ≤ pos)) spans
      rw [ht] at this
      simpa using this
    have hinside := covers_of_ordered (hpending.imp Nat.le_of_lt) hhead
    rw [covers_dropWhile (Nat.le_refl pos)] at hinside
    have hlater : blankWhere (Span.covers (spans.dropWhile fun s => s.stop ≤ pos))
        (pos + c.utf8Size) cs = blankWhere (Span.covers spans) (pos + c.utf8Size) cs :=
      blankWhere_congr fun i hi _ => covers_dropWhile (by omega)
    simp only [sweep, blankWhere]
    rw [ih hpending, hlater, hinside]
    cases spans.dropWhile fun s => s.stop ≤ pos with
    | nil => rfl
    | cons t ts => rfl

/-- A character is blanked exactly when one of the spans holds its offset. -/
theorem blank_eq_blankWhere (s : Text) (spans : List Span) :
    blank s spans = blankWhere (Span.covers spans) 0 s := by
  rw [blank, sweep_eq_blankWhere (Span.separated_merge spans)]
  exact blankWhere_congr fun i _ _ => Span.covers_merge spans i

/-- Blanking one part of a text. -/
theorem blank_middle (x y z : Text) :
    blank (x ++ (y ++ z)) [⟨byteLength x, byteLength x + byteLength y⟩] =
      x ++ (blankAll y ++ z) := by
  rw [blank_eq_blankWhere, blankWhere_append, blankWhere_append,
    blankWhere_of_shown, blankWhere_of_hidden, blankWhere_of_shown]
  · intro i hlo _
    refine Span.covers_eq_false_iff.mpr fun span hspan _ => ?_
    obtain rfl := List.mem_singleton.mp hspan
    simp only
    omega
  · intro i hlo hhi
    exact Span.covers_eq_true_iff.mpr ⟨_, List.mem_singleton_self _, by simp only; omega⟩
  · intro i _ hhi
    refine Span.covers_eq_false_iff.mpr fun span hspan hle => ?_
    obtain rfl := List.mem_singleton.mp hspan
    simp only at hle
    omega

-- ---------------------------------------------------------------------------
-- Blanking character by character
-- ---------------------------------------------------------------------------

/-- The characters of a text that starts at offset `pos`, each with its offset. -/
def withOffsets : (pos : Nat) → Text → List (Nat × Char)
  | _, [] => []
  | pos, c :: cs => (pos, c) :: withOffsets (pos + c.utf8Size) cs

theorem blankWhere_eq_flatMap (hidden : Nat → Bool) (pos : Nat) (s : Text) :
    blankWhere hidden pos s =
      (withOffsets pos s).flatMap fun (i, c) => if hidden i then blankChar c else [c] := by
  induction s generalizing pos with
  | nil => rfl
  | cons c cs ih => rw [blankWhere, ih, withOffsets, List.flatMap_cons]

/-- Blanking puts spaces for exactly the characters other than newlines that start in one of the
spans, as many for each as it has bytes, and keeps the others. So the length stays, and the order of
the spans does not matter. -/
theorem blank_pointwise (s : Text) (spans : List Span) :
    blank s spans = (withOffsets 0 s).flatMap (fun (i, c) =>
        if c ≠ '\n' ∧ ∃ r ∈ spans, r.start ≤ i ∧ i < r.stop then List.replicate c.utf8Size ' '
        else [c]) ∧
      byteLength (blank s spans) = byteLength s ∧
      ∀ other, other.Perm spans → blank s other = blank s spans := by
  refine ⟨?_, ?_, fun other hperm => ?_⟩
  · rw [blank_eq_blankWhere, blankWhere_eq_flatMap]
    refine congrArg (List.flatMap · _) (funext fun (i, c) => ?_)
    by_cases hnewline : c = '\n'
    · subst hnewline
      simp [blankChar]
    · simp only [blankChar, hnewline, Span.covers_eq_true_iff, ne_eq, not_false_eq_true, true_and,
        if_false]
  · rw [blank_eq_blankWhere, byteLength_blankWhere]
  · rw [blank_eq_blankWhere, blank_eq_blankWhere]
    exact blankWhere_congr fun i _ _ => hperm.any_eq

/-- Spans that overlap, start inside a character, run backwards or reach beyond the text. -/
def tangledSpans : List Span := [⟨2, 4⟩, ⟨9, 30⟩, ⟨0, 1⟩, ⟨5, 3⟩, ⟨0, 2⟩]

theorem blank_pointwise_tangledSpans :
    tangledSpans.reverse.Perm tangledSpans ∧
      blank "aé\nxyzüw".toList tangledSpans.reverse = "   \nxyzü ".toList := by
  have hperm : tangledSpans.reverse.Perm tangledSpans := by decide
  refine ⟨hperm, ?_⟩
  rw [(blank_pointwise "aé\nxyzüw".toList tangledSpans).2.2 _ hperm]
  decide

end Text

end Typings
