import Typings.Proofs.Pattern.Parting
import Typings.Proofs.Text.Blanking

/-!
# What is left of a text

A text without the matches of a pattern is read from left to right: what the pattern takes goes, and
where it fails everywhere the text stays. Every character stays that stands in no match. Main
statements: `Takes.removeFrom_eq`, `removeFrom_append` and `dropWhere_spansFrom`.
-/

namespace Typings

-- ---------------------------------------------------------------------------
-- Dropped characters
-- ---------------------------------------------------------------------------

/-- The text without the characters whose offsets are hidden. -/
def Text.dropWhere (hidden : Nat → Bool) : (pos : Nat) → Text → Text
  | _, [] => []
  | pos, c :: cs =>
    if hidden pos then dropWhere hidden (pos + c.utf8Size) cs
    else c :: dropWhere hidden (pos + c.utf8Size) cs

namespace Text

variable {hidden hidden' : Nat → Bool} {pos : Nat} {s : Text}

theorem dropWhere_append (hidden : Nat → Bool) (pos : Nat) (s t : Text) :
    dropWhere hidden pos (s ++ t) =
      dropWhere hidden pos s ++ dropWhere hidden (pos + byteLength s) t := by
  induction s generalizing pos with
  | nil => rfl
  | cons c s ih =>
    have hrest := ih (pos + c.utf8Size)
    rw [Nat.add_assoc, ← byteLength_cons] at hrest
    simp only [List.cons_append, dropWhere, hrest]
    split <;> rfl

theorem dropWhere_congr (h : ∀ i, pos ≤ i → hidden i = hidden' i) :
    dropWhere hidden pos s = dropWhere hidden' pos s := by
  induction s generalizing pos with
  | nil => rfl
  | cons c s ih =>
    rw [dropWhere, dropWhere, h pos (Nat.le_refl _), ih fun i hi => h i (by omega)]

theorem dropWhere_of_hidden (h : ∀ i, pos ≤ i → i < pos + byteLength s → hidden i = true) :
    dropWhere hidden pos s = [] := by
  induction s generalizing pos with
  | nil => rfl
  | cons c s ih =>
    have hpos := Char.utf8Size_pos c
    rw [byteLength_cons] at h
    rw [dropWhere, if_pos (h pos (Nat.le_refl _) (by omega)), ih fun i hi hlt =>
      h i (by omega) (by omega)]

theorem dropWhere_of_shown (h : ∀ i, pos ≤ i → i < pos + byteLength s → hidden i = false) :
    dropWhere hidden pos s = s := by
  induction s generalizing pos with
  | nil => rfl
  | cons c s ih =>
    have hpos := Char.utf8Size_pos c
    rw [byteLength_cons] at h
    rw [dropWhere, h pos (Nat.le_refl _) (by omega), ih fun i hi hlt => h i (by omega) (by omega)]
    rfl

end Text

namespace Pattern

variable {γ : Type}

/-- A character is erased exactly when one of the ordered spans holds its offset. -/
theorem erase_eq_dropWhere {spans : List Span} (h : spans.Pairwise fun s t => s.stop ≤ t.start)
    (pos : Nat)
    (s : Text) : erase spans pos s = Text.dropWhere (Span.covers spans) pos s := by
  induction s generalizing spans pos with
  | nil => rfl
  | cons c cs ih =>
    have hpending : (spans.dropWhile fun s => s.stop ≤ pos).Pairwise fun s t => s.stop ≤ t.start :=
      h.sublist (List.dropWhile_sublist _)
    have hhead : ∀ t, (spans.dropWhile fun s => s.stop ≤ pos).head? = some t → pos < t.stop := by
      intro t ht
      have := List.head?_dropWhile_not (fun s : Span => decide (s.stop ≤ pos)) spans
      rw [ht] at this
      simpa using this
    have hinside := Text.covers_of_ordered hpending hhead
    rw [Text.covers_dropWhile (Nat.le_refl pos)] at hinside
    have hlater : Text.dropWhere (Span.covers (spans.dropWhile fun s => s.stop ≤ pos))
        (pos + c.utf8Size) cs =
        Text.dropWhere (Span.covers spans) (pos + c.utf8Size) cs :=
      Text.dropWhere_congr fun i hi => Text.covers_dropWhile (by omega)
    simp only [erase, Text.dropWhere, ih hpending, hlater, hinside]
    cases spans.dropWhile fun s => s.stop ≤ pos with
    | nil => rfl
    | cons t ts => by_cases ht : t.start ≤ pos <;> simp [ht]

-- ---------------------------------------------------------------------------
-- Where matches stand
-- ---------------------------------------------------------------------------

theorem exists_of_mem_places {b : Option Char} {pos : Nat} {s : Text} {r : Place}
    (h : r ∈ places b pos s) :
    ∃ u, s = u ++ r.rest ∧ r.pos = pos + Text.byteLength u := by
  induction s generalizing b pos with
  | nil => cases h
  | cons c cs ih =>
    rcases List.mem_cons.mp h with rfl | h
    · exact ⟨[], rfl, rfl⟩
    · obtain ⟨u, rfl, hpos⟩ := ih h
      exact ⟨c :: u, rfl, by simp [hpos, Nat.add_assoc]⟩

/-- A match stands in the text, and is a word of the language of its pattern. -/
theorem exists_of_mem_matchesFrom {p : Pattern γ} {b : Option Char} {pos : Nat} {s : Text}
    {m : Match γ}
    (h : m ∈ p.matchesFrom b pos s) :
    ∃ u w t, s = u ++ (w ++ t) ∧ w ∈ p.language ∧ m.whole.start = pos + Text.byteLength u ∧
      m.whole.stop = pos + Text.byteLength u + Text.byteLength w := by
  obtain ⟨r, hr, hm⟩ := List.mem_filterMap.mp (mem_of_mem_disjoint h)
  obtain ⟨e, he, rfl⟩ := Option.map_eq_some_iff.mp hm
  obtain ⟨u, hs, hpos⟩ := exists_of_mem_places hr
  obtain ⟨before, start, rest⟩ := r
  obtain ⟨w, t, f, marks, hw, hrest, hdone, rfl, _⟩ := goesOn_of_run he
  obtain rfl := Option.some.inj hdone
  simp only at hs hpos hrest
  exact ⟨u, w, t, hrest ▸ hs, hw, hpos, by simp [matchOf, Ending.marked, hpos]⟩

theorem le_start_of_mem_disjoint {resume : Nat} {ms : List (Match γ)}
    (hms : ∀ m ∈ ms, m.whole.start ≤ m.whole.stop) :
    ∀ m ∈ disjoint resume ms, resume ≤ m.whole.start := by
  induction ms generalizing resume with
  | nil => simp [disjoint]
  | cons n ms ih =>
    have hn := hms n (by simp)
    have hrest : ∀ m ∈ ms, m.whole.start ≤ m.whole.stop := fun m hm => hms m (by simp [hm])
    intro m hm
    rw [disjoint] at hm
    split at hm
    · exact ih hrest m hm
    · rcases List.mem_cons.mp hm with rfl | hm
      · omega
      · have := ih hrest m hm
        omega

theorem pairwise_disjoint {resume : Nat} {ms : List (Match γ)}
    (hms : ∀ m ∈ ms, m.whole.start ≤ m.whole.stop) :
    (disjoint resume ms).Pairwise fun m n => m.whole.stop ≤ n.whole.start := by
  induction ms generalizing resume with
  | nil => exact .nil
  | cons n ms ih =>
    have hrest : ∀ m ∈ ms, m.whole.start ≤ m.whole.stop := fun m hm => hms m (by simp [hm])
    rw [disjoint]
    split
    · exact ih hrest
    · exact List.pairwise_cons.mpr ⟨fun m hm => le_start_of_mem_disjoint hrest m hm, ih hrest⟩

-- ---------------------------------------------------------------------------
-- What is left
-- ---------------------------------------------------------------------------

/-- The spans of the matches from a place on. -/
def spansFrom (p : Pattern γ) (b : Option Char) (pos : Nat) (s : Text) : List Span :=
  (p.matchesFrom b pos s).map fun m => m.whole.span

/-- The text from a place on without the matches. -/
def removeFrom (p : Pattern γ) (b : Option Char) (pos : Nat) (s : Text) : Text :=
  Text.dropWhere (Span.covers (p.spansFrom b pos s)) pos s

theorem removeAll_eq_removeFrom (p : Pattern γ) (s : Text) :
    p.removeAll s = p.removeFrom none 0 s := by
  have hordered : (p.spansFrom none 0 s).Pairwise fun s t => s.stop ≤ t.start := by
    refine List.pairwise_map.mpr (pairwise_disjoint fun m hm => ?_)
    obtain ⟨r, _, hm⟩ := List.mem_filterMap.mp hm
    obtain ⟨e, he, rfl⟩ := Option.map_eq_some_iff.mp hm
    exact (forward_done.run p r e he).1
  rw [removeAll, allMatches_eq_matchesFrom]
  exact erase_eq_dropWhere hordered 0 s

/-- What is taken goes. -/
theorem Takes.removeFrom_eq {p : Pattern γ} {b : Option Char} {pos : Nat} {w t : Text}
    {marks : List (Mark γ)} (h : p.Takes b pos w t marks) (hne : w ≠ []) :
    p.removeFrom b pos (w ++ t) = p.removeFrom (Text.lastOr b w) (pos + Text.byteLength w) t := by
  have hspans : p.spansFrom b pos (w ++ t) = ⟨pos, pos + Text.byteLength w⟩ ::
      p.spansFrom (Text.lastOr b w) (pos + Text.byteLength w) t := by
    rw [spansFrom, h.matchesFrom_eq hne]
    rfl
  rw [removeFrom, hspans, Text.dropWhere_append, Text.dropWhere_of_hidden, List.nil_append,
    removeFrom]
  · refine Text.dropWhere_congr fun i hi => ?_
    have hout : ¬i < pos + Text.byteLength w := by omega
    simp [Span.contains, hout]
  · intro i hi hlt
    simp [Span.contains, hi, hlt]

/-- Where the pattern fails everywhere, the text stays. -/
theorem removeFrom_append {p : Pattern γ} {b : Option Char} {pos : Nat} {w t : Text}
    (h : ∀ u v, w = u ++ v → v ≠ [] → p.Fails (Text.lastOr b u) (v ++ t)) :
    p.removeFrom b pos (w ++ t) = w ++ p.removeFrom (Text.lastOr b w)
      (pos + Text.byteLength w) t := by
  have hspans : p.spansFrom b pos (w ++ t) =
      p.spansFrom (Text.lastOr b w) (pos + Text.byteLength w) t := by
    rw [spansFrom, matchesFrom_append h]
    rfl
  rw [removeFrom, hspans, Text.dropWhere_append, Text.dropWhere_of_shown, removeFrom]
  intro i _ hlt
  refine Span.covers_eq_false_iff.mpr fun s hs hstart => ?_
  obtain ⟨m, hm, rfl⟩ := List.mem_map.mp hs
  obtain ⟨u, _, _, _, _, hpos, _⟩ := exists_of_mem_matchesFrom hm
  have hle : m.whole.span.start = m.whole.start := rfl
  omega

/-- A part of the text that no word of the language can stand in stays. -/
theorem dropWhere_spansFrom {p : Pattern γ} {b : Option Char} {pos : Nat} {u s t : Text}
    (h : ∀ v w x, u ++ (s ++ t) = v ++ (w ++ x) → w ∈ p.language →
      Text.byteLength (v ++ w) ≤ Text.byteLength u ∨ Text.byteLength (u ++ s) ≤ Text.byteLength v) :
    Text.dropWhere (Span.covers (p.spansFrom b pos (u ++ (s ++ t))))
    (pos + Text.byteLength u) s = s := by
  refine Text.dropWhere_of_shown fun i hi hlt =>
    Span.covers_eq_false_iff.mpr fun span hspan hstart => ?_
  obtain ⟨m, hm, rfl⟩ := List.mem_map.mp hspan
  obtain ⟨v, w, x, heq, hw, hpos, hstop⟩ := exists_of_mem_matchesFrom hm
  have hwhole : m.whole.span.start = m.whole.start ∧ m.whole.span.stop = m.whole.stop := ⟨rfl, rfl⟩
  have hapart := h v w x heq hw
  simp only [Text.byteLength_append] at hapart
  omega

end Pattern

end Typings
