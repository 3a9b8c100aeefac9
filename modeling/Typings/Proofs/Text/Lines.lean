import Mathlib.Algebra.GroupWithZero.Nat
import Typings.Proofs.Text.Splitting

/-!
# Lines

A text is cut into lines at its newlines. Lines that are written one after another are read back,
and a word without line ends stands in a text as often as in its lines together. Main statements:
`lines_flatMap`, `lines_intercalate` and `occurrences_eq_sum_lines`.
-/

namespace Typings.Text

-- ---------------------------------------------------------------------------
-- Line by line
-- ---------------------------------------------------------------------------

/-- Induction over a text line by line. -/
theorem line_induction {P : Text → Prop} (empty : P []) (last : ∀ l, l ≠ [] → '\n' ∉ l → P l)
    (line : ∀ l t, '\n' ∉ l → P t → P (l ++ '\n' :: t)) (s : Text) : P s := by
  induction hn : s.length using Nat.strongRecOn generalizing s with
  | ind n ih =>
    by_cases hmem : '\n' ∈ s
    · obtain ⟨l, t, rfl, hl⟩ := List.eq_append_cons_of_mem hmem
      refine line l t hl (ih t.length ?_ t rfl)
      rw [← hn, List.length_append, List.length_cons]
      omega
    · by_cases hs : s = []
      · exact hs ▸ empty
      · exact last s hs hmem

/-- A line without the carriage return at its end. -/
def dropReturn (l : Text) : Text := if l.getLast? = some '\r' then l.dropLast else l

theorem dropReturn_cons_cons (c d : Char) (l : Text) :
    dropReturn (c :: d :: l) = c :: dropReturn (d :: l) := by
  simp only [dropReturn, List.getLast?_cons_cons, List.dropLast_cons_cons]
  split <;> rfl

theorem dropReturn_append_return_or (l : Text) : l = dropReturn l ∨ l = dropReturn l ++ ['\r'] := by
  unfold dropReturn
  split
  · rename_i h
    obtain ⟨u, rfl⟩ := List.getLast?_eq_some_iff.mp h
    exact .inr (by simp)
  · exact .inl rfl

/-- A character that starts no line end belongs to the first line. -/
theorem lines_cons {c : Char} {s : Text} (hc : c ≠ '\n') (hreturn : c = '\r' → ∀ t, s ≠ '\n' :: t) :
    lines (c :: s) = match lines s with
      | line :: rest => (c :: line) :: rest
      | [] => [[c]] :=
  lines.eq_4 c s hc fun t heq hs => hreturn heq t hs

/-- Up to a newline there is one line. -/
theorem lines_append_newline {l : Text} (h : '\n' ∉ l) (t : Text) :
    lines (l ++ '\n' :: t) = dropReturn l :: lines t := by
  induction l with
  | nil => rfl
  | cons c l ih =>
    have hc : c ≠ '\n' := fun heq => h (by simp [heq])
    have hl := ih fun hmem => h (by simp [hmem])
    cases l with
    | nil =>
      by_cases hreturn : c = '\r'
      · subst hreturn
        rfl
      · rw [List.singleton_append, lines_cons hc fun heq => absurd heq hreturn]
        simp [lines, dropReturn, hreturn]
    | cons d l =>
      have hd : d ≠ '\n' := fun heq => h (by simp [heq])
      have hreturn : c = '\r' → ∀ u, d :: l ++ '\n' :: t ≠ '\n' :: u :=
        fun _ u heq => hd (List.cons.inj heq).1
      rw [List.cons_append, lines_cons hc hreturn, hl]
      exact congrArg (· :: lines t) (dropReturn_cons_cons c d l).symm

/-- Without a newline there is one line. -/
theorem lines_of_notMem {l : Text} (h : '\n' ∉ l) (hne : l ≠ []) : lines l = [l] := by
  induction l with
  | nil => exact absurd rfl hne
  | cons c l ih =>
    have hc : c ≠ '\n' := fun heq => h (by simp [heq])
    rw [lines_cons hc fun _ t heq => h (by simp [heq])]
    cases l with
    | nil => rfl
    | cons d l => rw [ih (fun hmem => h (by simp [hmem])) (by simp)]

theorem newline_notMem_of_mem_lines {s l : Text} (h : l ∈ lines s) : '\n' ∉ l := by
  induction s using line_induction with
  | empty => simp [lines] at h
  | last s hne hs =>
    obtain rfl : l = s := by simpa [lines_of_notMem hs hne] using h
    exact hs
  | line first t hfirst ih =>
    rw [lines_append_newline hfirst, List.mem_cons] at h
    rcases h with rfl | h
    · rcases dropReturn_append_return_or first with heq | heq
      · exact heq ▸ hfirst
      · intro hmem
        exact hfirst (heq ▸ List.mem_append_left _ hmem)
    · exact ih h

theorem lines_ne_nil {s : Text} (h : s ≠ []) : lines s ≠ [] := by
  cases s using line_induction with
  | empty => exact absurd rfl h
  | last s hne hs => simp [lines_of_notMem hs hne]
  | line first t hfirst => simp [lines_append_newline hfirst]

/-- The first line starts as the text does, unless that is at a line end. -/
theorem head_lines {s : Text} {c : Char} {cs : Text} (hs : s = c :: cs) (hc : isSpace c = false) :
    ∃ l ls, lines s = (c :: l) :: ls := by
  have hplain : c ≠ '\n' ∧ c ≠ '\r' := by
    constructor <;> rintro rfl <;> exact absurd hc (by decide)
  rw [hs, lines_cons hplain.1 fun heq => absurd heq hplain.2]
  cases lines cs with
  | nil => exact ⟨[], [], rfl⟩
  | cons l ls => exact ⟨l, ls, rfl⟩

/-- The last line ends as the text does. -/
theorem suffix_getLast_lines {w s : Text} (hw : w ≠ []) (hnewline : '\n' ∉ w) (h : w <:+ s) :
    ∀ l ∈ (lines s).getLast?, w <:+ l := by
  induction s using line_induction with
  | empty => exact absurd (List.suffix_nil.mp h) hw
  | last s hne hs => simpa [lines_of_notMem hs hne] using h
  | line first t hfirst ih =>
    have ht : w <:+ t := by
      obtain ⟨u, hu⟩ := h
      rcases List.append_eq_append_iff.mp hu with ⟨m, _, hm⟩ | ⟨m, _, hm⟩
      · exact absurd (by simp [hm]) hnewline
      · cases m with
        | nil => exact absurd (by simp [← show '\n' :: t = w from hm]) hnewline
        | cons c m => exact ⟨m, (List.cons.inj hm).2.symm⟩
    have hne : lines t ≠ [] := lines_ne_nil (by
      rintro rfl
      exact hw (List.suffix_nil.mp ht))
    obtain ⟨l, ls, hls⟩ := List.exists_cons_of_ne_nil hne
    intro l' hl'
    refine ih ht l' ?_
    rw [lines_append_newline hfirst, hls, List.getLast?_cons_cons] at hl'
    rwa [hls]

-- ---------------------------------------------------------------------------
-- Written lines
-- ---------------------------------------------------------------------------

/-- A line that is read back as it was written: it holds no newline and does not end with a
carriage return. -/
structure IsLine (l : Text) : Prop where
  newline : '\n' ∉ l
  last : ∀ c ∈ l.getLast?, c ≠ '\r'

theorem IsLine.dropReturn_eq {l : Text} (h : IsLine l) : dropReturn l = l := by
  unfold dropReturn
  exact if_neg fun hlast => h.last _ hlast rfl

/-- Lines with a newline after each are read back. -/
theorem lines_flatMap {ls : List Text} (h : ∀ l ∈ ls, IsLine l) :
    lines (ls.flatMap (· ++ ['\n'])) = ls := by
  induction ls with
  | nil => rfl
  | cons l ls ih =>
    have hl := h l (by simp)
    rw [List.flatMap_cons, List.append_assoc, List.singleton_append,
      lines_append_newline hl.newline,
      hl.dropReturn_eq, ih fun m hm => h m (by simp [hm])]

/-- Lines with newlines between them are read back when the last one is not empty. -/
theorem lines_intercalate {ls : List Text} (h : ∀ l ∈ ls, IsLine l)
    (hlast : ∀ l ∈ ls.getLast?, l ≠ []) :
    lines (['\n'].intercalate ls) = ls := by
  induction ls with
  | nil => rfl
  | cons l ls ih =>
    have hl := h l (by simp)
    cases ls with
    | nil => rw [List.intercalate_singleton, lines_of_notMem hl.newline (hlast l rfl)]
    | cons m ls =>
      rw [List.intercalate_cons_cons, List.append_assoc, List.singleton_append,
        lines_append_newline hl.newline, hl.dropReturn_eq,
        ih (fun k hk => h k (by simp [hk])) (by simpa using hlast)]

theorem flatMap_newline_eq {ls : List Text} (h : ls ≠ []) :
    ls.flatMap (· ++ ['\n']) = ['\n'].intercalate ls ++ ['\n'] := by
  induction ls with
  | nil => exact absurd rfl h
  | cons l ls ih =>
    cases ls with
    | nil => simp
    | cons m ls =>
      rw [List.flatMap_cons, ih (by simp), List.intercalate_cons_cons]
      simp

-- ---------------------------------------------------------------------------
-- Occurrences of a word
-- ---------------------------------------------------------------------------

/-- At how many places of a text a word starts. -/
def occurrences (w : Text) : Text → Nat
  | [] => if w = [] then 1 else 0
  | c :: s => occurrences w s + if w <+: c :: s then 1 else 0

section Occurrences

variable {w : Text}

theorem occurrences_cons (w : Text) (c : Char) (s : Text) :
    occurrences w (c :: s) = occurrences w s + if w <+: c :: s then 1 else 0 := rfl

theorem occurrences_nil (hw : w ≠ []) : occurrences w [] = 0 := if_neg hw

/-- A word does not reach over a character that it does not have. -/
theorem prefix_append_cons_iff {c : Char} (hc : c ∉ w) {s t : Text} : w <+: s ++ c :: t ↔
    w <+: s := by
  refine ⟨fun ⟨u, hu⟩ => ?_, fun h => h.trans (List.prefix_append s _)⟩
  rcases List.append_eq_append_iff.mp hu with ⟨m, hm, _⟩ | ⟨m, hm, hrest⟩
  · exact ⟨m, hm.symm⟩
  · cases m with
    | nil => exact ⟨[], by simpa using hm⟩
    | cons d m =>
      obtain ⟨rfl, _⟩ := List.cons.inj hrest
      exact absurd (by simp [hm]) hc

theorem occurrences_append_cons (hw : w ≠ []) {c : Char} (hc : c ∉ w) (s t : Text) :
    occurrences w (s ++ c :: t) = occurrences w s + occurrences w t := by
  induction s with
  | nil =>
    have hnone : ¬w <+: c :: t := by
      rw [← List.nil_append (c :: t), prefix_append_cons_iff hc]
      exact fun h => hw (List.prefix_nil.mp h)
    rw [List.nil_append, occurrences_cons, if_neg hnone, occurrences_nil hw, Nat.zero_add,
      Nat.add_zero]
  | cons d s ih =>
    have hhead : w <+: d :: (s ++ c :: t) ↔ w <+: d :: s := prefix_append_cons_iff (s := d :: s) hc
    rw [List.cons_append, occurrences_cons, ih, occurrences_cons]
    simp only [hhead]
    omega

/-- Characters that a word does not have add nothing before a text. -/
theorem occurrences_append_left (hw : w ≠ []) {u : Text} (hu : ∀ c ∈ u, c ∉ w) (s : Text) :
    occurrences w (u ++ s) = occurrences w s := by
  induction u with
  | nil => rfl
  | cons c u ih =>
    have h := occurrences_append_cons hw (hu c (by simp)) [] (u ++ s)
    rw [List.nil_append, occurrences_nil hw, Nat.zero_add] at h
    rw [List.cons_append, h, ih fun d hd => hu d (by simp [hd])]

/-- Nor do they add anything behind it. -/
theorem occurrences_append_right (hw : w ≠ []) {u : Text} (hu : ∀ c ∈ u, c ∉ w) (s : Text) :
    occurrences w (s ++ u) = occurrences w s := by
  cases u with
  | nil => rw [List.append_nil]
  | cons c u =>
    have hrest := occurrences_append_left hw (fun d hd => hu d (by simp [hd])) ([] : Text) (u := u)
    rw [occurrences_append_cons hw (hu c (by simp)), ← List.append_nil u, hrest, occurrences_nil hw,
      Nat.add_zero]

theorem occurrences_dropReturn (hw : w ≠ []) (hreturn : '\r' ∉ w) (l : Text) :
    occurrences w (dropReturn l) = occurrences w l := by
  rcases dropReturn_append_return_or l with h | h
  · rw [← h]
  · have hlast := occurrences_append_right hw (u := ['\r']) (by simpa using hreturn) (dropReturn l)
    rw [← h] at hlast
    exact hlast.symm

/-- A word without line ends stands in a text as often as in its lines together. -/
theorem occurrences_eq_sum_lines (hw : w ≠ []) (hnewline : '\n' ∉ w) (hreturn : '\r' ∉ w)
    (s : Text) :
    occurrences w s = ((lines s).map (occurrences w)).sum := by
  induction s using line_induction with
  | empty => rw [occurrences_nil hw]; rfl
  | last s hne hs => simp [lines_of_notMem hs hne]
  | line l t hl ih =>
    rw [occurrences_append_cons hw hnewline, ih, lines_append_newline hl, List.map_cons,
      List.sum_cons,
      occurrences_dropReturn hw hreturn]

end Occurrences

end Typings.Text
