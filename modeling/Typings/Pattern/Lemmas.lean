import Typings.Pattern.Search

/-!
# Searching finds the matches

The pass over a text finds, at every place, the match that the meaning of the pattern gives there.
Main statement: `allMatches_eq`.
-/

namespace Typings.Pattern

variable {γ : Type}

-- ---------------------------------------------------------------------------
-- Meaning
-- ---------------------------------------------------------------------------

theorem repeatMost_eq (round : Goal γ → Goal γ) (next : Goal γ) (r : Place) :
    repeatMost round next r = (round (after r (repeatMost round next)) r).or (next r) := by
  rw [repeatMost]
  rfl

theorem repeatLeast_eq (round : Goal γ → Goal γ) (next : Goal γ) (r : Place) :
    repeatLeast round next r = (next r).or (round (after r (repeatLeast round next)) r) := by
  rw [repeatLeast]
  rfl

@[simp] theorem after_self (r : Place) (next : Goal γ) : after r next r = none := by
  simp [after]

theorem after_of_lt {r s : Place} (next : Goal γ) (h : s.rest.length < r.rest.length) :
    after r next s = next s := by
  simp [after, h]

/-- A match depends on what follows at its own place and at later ones only. -/
theorem run_congr (p : Pattern γ) {next other : Goal γ} {r : Place}
    (h : ∀ s : Place, s.rest.length ≤ r.rest.length → next s = other s) :
    p.run next r = p.run other r := by
  induction p generalizing next other r with
  | char accepts =>
    simp only [run]
    split
    · rfl
    · rename_i c cs hr
      rw [h _ (by simp [Place.advance, hr])]
  | anchor a => simp only [run, h r (Nat.le_refl _)]
  | empty => exact h r (Nat.le_refl _)
  | seq p q ihp ihq => exact ihp fun s hs => ihq fun t ht => h t (Nat.le_trans ht hs)
  | alt p q ihp ihq => simp only [run, ihp h, ihq h]
  | star p ih =>
    show repeatMost p.run next r = repeatMost p.run other r
    generalize hn : r.rest.length = n
    induction n using Nat.strongRecOn generalizing r with
    | ind n ihn =>
      rw [repeatMost_eq, repeatMost_eq, h r (Nat.le_refl _)]
      congr 1
      refine ih fun s _ => ?_
      by_cases hs : s.rest.length < r.rest.length
      · rw [after_of_lt _ hs, after_of_lt _ hs]
        exact ihn _ (hn ▸ hs) (fun t ht => h t (by omega)) rfl
      · simp [after, hs]
  | lazyStar p ih =>
    show repeatLeast p.run next r = repeatLeast p.run other r
    generalize hn : r.rest.length = n
    induction n using Nat.strongRecOn generalizing r with
    | ind n ihn =>
      rw [repeatLeast_eq, repeatLeast_eq, h r (Nat.le_refl _)]
      congr 1
      refine ih fun s _ => ?_
      by_cases hs : s.rest.length < r.rest.length
      · rw [after_of_lt _ hs, after_of_lt _ hs]
        exact ihn _ (hn ▸ hs) (fun t ht => h t (by omega)) rfl
      · simp [after, hs]
  | group g p ih =>
    simp only [run]
    rw [ih fun s hs => by rw [h s hs]]

-- ---------------------------------------------------------------------------
-- Right traces
-- ---------------------------------------------------------------------------

/-- Whether a trace says how a match goes on after the characters of a pattern at the place `r`,
when the goal after the pattern is `next`. -/
def Traces (r : Place) : Pattern γ → Trace γ → Goal γ → Prop
  | .char _, t, next => ∀ c cs, r.rest = c :: cs → t.ending? = next (r.advance c cs)
  | .anchor _, _, _ => True
  | .empty, _, _ => True
  | .seq p q, t, next => p.Traces r t.left (q.run next) ∧ q.Traces r t.right next
  | .alt p q, t, next => p.Traces r t.left next ∧ q.Traces r t.right next
  | .star p, t, next => p.Traces r t (repeatMost p.run next)
  | .lazyStar p, t, next => p.Traces r t (repeatLeast p.run next)
  | .group g p, t, next => p.Traces r t fun s => (next s).map (·.closed g s)

theorem Traces.congr {p : Pattern γ} {t : Trace γ} {next other : Goal γ} {r : Place}
    (h : ∀ s : Place, s.rest.length < r.rest.length → next s = other s)
    (ht : p.Traces r t next) : p.Traces r t other := by
  induction p generalizing t next other with
  | char accepts =>
    intro c cs hr
    rw [ht c cs hr, h _ (by simp [Place.advance, hr])]
  | anchor a => trivial
  | empty => trivial
  | seq p q ihp ihq =>
    exact ⟨ihp (fun s hs => run_congr q fun u hu => h u (by omega)) ht.1, ihq h ht.2⟩
  | alt p q ihp ihq => exact ⟨ihp h ht.1, ihq h ht.2⟩
  | star p ih => exact ih (fun s hs => run_congr (.star p) fun u hu => h u (by omega)) ht
  | lazyStar p ih => exact ih (fun s hs => run_congr (.lazyStar p) fun u hu => h u (by omega)) ht
  | group g p ih => exact ih (fun s hs => by rw [h s hs]) ht

/-- In a round of a repetition, only later places count. -/
theorem Traces.later {p : Pattern γ} {t : Trace γ} {next : Goal γ} {r : Place}
    (ht : p.Traces r t next) : p.Traces r t (after r next) :=
  ht.congr fun _ hs => (after_of_lt next hs).symm

/-- At the end of a text nothing goes on. -/
theorem traces_of_rest_eq_nil (p : Pattern γ) {next : Goal γ} {r : Place} (hr : r.rest = []) :
    p.Traces r .nothing next := by
  induction p generalizing next with
  | char accepts => intro c cs h; simp [hr] at h
  | anchor a => trivial
  | empty => trivial
  | seq p q ihp ihq => exact ⟨ihp, ihq⟩
  | alt p q ihp ihq => exact ⟨ihp, ihq⟩
  | star p ih => exact ih
  | lazyStar p ih => exact ih
  | group g p ih => exact ih

/-- Where nothing goes on, neither here nor after any character, nothing matches. -/
theorem run_eq_none {p : Pattern γ} {next : Goal γ} {r : Place}
    (ht : p.Traces r .nothing next) (hn : next r = none) : p.run next r = none := by
  induction p generalizing next with
  | char accepts =>
    simp only [run]
    split
    · rfl
    · rename_i c cs hr
      rw [← ht c cs hr]
      exact ite_self _
  | anchor a => simp [run, hn]
  | empty => exact hn
  | seq p q ihp ihq => exact ihp ht.1 (ihq ht.2 hn)
  | alt p q ihp ihq => simp [run, ihp ht.1 hn, ihq ht.2 hn]
  | star p ih =>
    have hp : p.Traces r .nothing (repeatMost p.run next) := ht
    show repeatMost p.run next r = none
    rw [repeatMost_eq, ih hp.later (after_self r _), hn, Option.or_none]
  | lazyStar p ih =>
    have hp : p.Traces r .nothing (repeatLeast p.run next) := ht
    show repeatLeast p.run next r = none
    rw [repeatLeast_eq, ih hp.later (after_self r _), hn, Option.or_none]
  | group g p ih => simp [run, ih ht (by simp [hn])]

-- ---------------------------------------------------------------------------
-- One step
-- ---------------------------------------------------------------------------

theorem isNothing_and_isNone {t : Trace γ} {now : Option (Ending γ)}
    (h : (t.isNothing && now.isNone) = true) : t = .nothing ∧ now = none := by
  cases t <;> cases now <;> simp_all [Trace.isNothing]

/-- Where nothing goes on, a step answers without a look at the pattern, and is right. -/
theorem value_eq_run_of_step {p : Pattern γ} {t : Trace γ} {next : Goal γ} {r : Place}
    (ht : p.Traces r t next)
    (h : ¬(t.isNothing && (next r).isNone) = true → p.value r t (next r) = p.run next r) :
    p.value r t (next r) = p.run next r := by
  by_cases hi : (t.isNothing && (next r).isNone) = true
  · obtain ⟨rfl, hn⟩ := isNothing_and_isNone hi
    rw [value.eq_def, if_pos hi, run_eq_none ht hn]
  · exact h hi

/-- One step over the pattern gives its meaning at a place. -/
theorem value_eq_run {p : Pattern γ} {t : Trace γ} {next : Goal γ} {r : Place}
    (ht : p.Traces r t next) : p.value r t (next r) = p.run next r := by
  induction p generalizing t next with
  | char accepts =>
    refine value_eq_run_of_step ht fun hi => ?_
    rw [value.eq_def, if_neg hi]
    cases hr : r.rest with
    | nil => simp [run, hr]
    | cons c cs => simp [run, hr, ht c cs hr]
  | anchor a =>
    refine value_eq_run_of_step ht fun hi => ?_
    rw [value.eq_def, if_neg hi, run]
  | empty =>
    refine value_eq_run_of_step ht fun hi => ?_
    rw [value.eq_def, if_neg hi, run]
  | seq p q ihp ihq =>
    refine value_eq_run_of_step ht fun hi => ?_
    rw [value.eq_def, if_neg hi, run]
    simp only [ihq ht.2, ihp ht.1]
  | alt p q ihp ihq =>
    refine value_eq_run_of_step ht fun hi => ?_
    rw [value.eq_def, if_neg hi, run]
    simp only [ihp ht.1, ihq ht.2]
  | star p ih =>
    have hp : p.Traces r t (repeatMost p.run next) := ht
    refine value_eq_run_of_step ht fun hi => ?_
    rw [value.eq_def, if_neg hi, run, repeatMost_eq, ← ih hp.later, after_self]
  | lazyStar p ih =>
    have hp : p.Traces r t (repeatLeast p.run next) := ht
    refine value_eq_run_of_step ht fun hi => ?_
    rw [value.eq_def, if_neg hi, run, repeatLeast_eq, ← ih hp.later, after_self]
  | group g p ih =>
    refine value_eq_run_of_step ht fun hi => ?_
    rw [value.eq_def, if_neg hi, run, ← ih ht]

theorem value_star_eq {p : Pattern γ} {t : Trace γ} {next : Goal γ} {r : Place}
    (ht : p.Traces r t (repeatMost p.run next)) :
    (p.value r t none).or (next r) = repeatMost p.run next r := by
  rw [repeatMost_eq, ← value_eq_run ht.later, after_self]

theorem value_lazyStar_eq {p : Pattern γ} {t : Trace γ} {next : Goal γ} {r : Place}
    (ht : p.Traces r t (repeatLeast p.run next)) :
    (next r).or (p.value r t none) = repeatLeast p.run next r := by
  rw [repeatLeast_eq, ← value_eq_run ht.later, after_self]

/-- Where nothing goes on at a place, nothing goes on at the place before it. -/
theorem traces_nothing {p : Pattern γ} {next : Goal γ} {r : Place} {c : Char} {cs : Text}
    (hr : r.rest = c :: cs) (ht : p.Traces (r.advance c cs) .nothing next)
    (hn : next (r.advance c cs) = none) : p.Traces r .nothing next := by
  induction p generalizing next with
  | char accepts =>
    intro d ds hd
    obtain ⟨rfl, rfl⟩ : c = d ∧ cs = ds := by simpa [hr] using hd
    exact hn.symm
  | anchor a => trivial
  | empty => trivial
  | seq p q ihp ihq => exact ⟨ihp ht.1 (run_eq_none ht.2 hn), ihq ht.2 hn⟩
  | alt p q ihp ihq => exact ⟨ihp ht.1 hn, ihq ht.2 hn⟩
  | star p ih => exact ih ht (@run_eq_none _ (star p) _ _ ht hn)
  | lazyStar p ih => exact ih ht (@run_eq_none _ (lazyStar p) _ _ ht hn)
  | group g p ih => exact ih ht (by simp [hn])

/-- Where nothing goes on, a step leaves no trace, and is right. -/
theorem traces_trace_of_step {p : Pattern γ} {t : Trace γ} {next : Goal γ} {r : Place} {c : Char}
    {cs : Text} (hr : r.rest = c :: cs) (ht : p.Traces (r.advance c cs) t next)
    (h : ¬(t.isNothing && (next (r.advance c cs)).isNone) = true →
      p.Traces r (p.trace (r.advance c cs) t (next (r.advance c cs))) next) :
    p.Traces r (p.trace (r.advance c cs) t (next (r.advance c cs))) next := by
  by_cases hi : (t.isNothing && (next (r.advance c cs)).isNone) = true
  · obtain ⟨rfl, hn⟩ := isNothing_and_isNone hi
    rw [trace.eq_def, if_pos hi]
    exact traces_nothing hr ht hn
  · exact h hi

/-- The trace of a place is right for the place before it. -/
theorem traces_trace {p : Pattern γ} {t : Trace γ} {next : Goal γ} {r : Place} {c : Char}
    {cs : Text} (hr : r.rest = c :: cs) (ht : p.Traces (r.advance c cs) t next) :
    p.Traces r (p.trace (r.advance c cs) t (next (r.advance c cs))) next := by
  induction p generalizing t next with
  | char accepts =>
    refine traces_trace_of_step hr ht fun hi => ?_
    rw [trace.eq_def, if_neg hi]
    intro d ds hd
    obtain ⟨rfl, rfl⟩ : c = d ∧ cs = ds := by simpa [hr] using hd
    exact Trace.ending?_ofEnding? _
  | anchor a => trivial
  | empty => trivial
  | seq p q ihp ihq =>
    refine traces_trace_of_step hr ht fun hi => ?_
    rw [trace.eq_def, if_neg hi]
    simp only [value_eq_run ht.2]
    refine ⟨?_, ?_⟩
    · rw [Trace.left_join]
      exact ihp ht.1
    · rw [Trace.right_join]
      exact ihq ht.2
  | alt p q ihp ihq =>
    refine traces_trace_of_step hr ht fun hi => ?_
    rw [trace.eq_def, if_neg hi]
    refine ⟨?_, ?_⟩
    · rw [Trace.left_join]
      exact ihp ht.1
    · rw [Trace.right_join]
      exact ihq ht.2
  | star p ih =>
    refine traces_trace_of_step hr ht fun hi => ?_
    rw [trace.eq_def, if_neg hi]
    simp only [value_star_eq ht]
    exact ih ht
  | lazyStar p ih =>
    refine traces_trace_of_step hr ht fun hi => ?_
    rw [trace.eq_def, if_neg hi]
    simp only [value_lazyStar_eq ht]
    exact ih ht
  | group g p ih =>
    refine traces_trace_of_step hr ht fun hi => ?_
    rw [trace.eq_def, if_neg hi]
    exact ih ht

-- ---------------------------------------------------------------------------
-- The pass
-- ---------------------------------------------------------------------------

/-- The trace that the pass has at a place is right for the place before it. -/
theorem traces_scan (p : Pattern γ) (s : Text) (before : Option Char) (pos : Nat) (c : Char) :
    p.Traces { before, pos, rest := c :: s } (p.scan (some c) (pos + c.utf8Size) s).1 done := by
  induction s generalizing before pos c with
  | nil => exact traces_trace rfl (traces_of_rest_eq_nil p rfl)
  | cons d ds ih => exact traces_trace rfl (ih (some c) (pos + c.utf8Size) d)

/-- The pass finds the matches that start at the places of the text. -/
theorem scan_snd (p : Pattern γ) (s : Text) (before : Option Char) (pos : Nat) :
    (p.scan before pos s).2 = (places before pos s).filterMap p.matchAt? := by
  induction s generalizing before pos with
  | nil => rfl
  | cons c cs ih =>
    have hv := value_eq_run (traces_scan p cs before pos c)
    simp only [scan, places, List.filterMap_cons, matchAt?, hv, ← ih]
    cases p.run done { before, pos, rest := c :: cs } <;> rfl

/-- Searching finds the first match, the first one after it, and so on. -/
theorem allMatches_eq (p : Pattern γ) (s : Text) :
    p.allMatches s = disjoint 0 ((places none 0 s).filterMap p.matchAt?) := by
  rw [allMatches, scan_snd]

end Typings.Pattern
