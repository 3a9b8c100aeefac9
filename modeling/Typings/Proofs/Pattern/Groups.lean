import Typings.Proofs.Pattern.Boundaries

/-!
# What groups remember

The marks of a match belong to the parts of its pattern that they come from, and lie where these
parts matched. A group remembers a word of the pattern inside it, when that pattern is plain:
between the two ends of the group no other group begins or ends. Main statements: `passedOn_of_run`,
`start_le_stop_of_get?` and `exists_mem_language_of_get?`.
-/

namespace Typings

variable {γ : Type}

/-- The name of the group that a mark belongs to. -/
def Mark.group : Mark γ → γ
  | .opened g _ _ => g
  | .closed g _ => g

namespace Pattern

-- ---------------------------------------------------------------------------
-- Marks of a part
-- ---------------------------------------------------------------------------

/-- The names of the groups in a pattern. -/
def groups : Pattern γ → List γ
  | .seq p q => p.groups ++ q.groups
  | .alt p q => p.groups ++ q.groups
  | .star p => p.groups
  | .lazyStar p => p.groups
  | .group g p => g :: p.groups
  | _ => []

/-- How a match goes on after a part of its pattern: the marks before that are of the groups in the
part, and lie between the place where the part starts and the place where the match goes on. -/
inductive PassedOn (names : List γ) (next : Goal γ) (r : Place) (e : Ending γ) : Prop
  | intro (q : Place) (f : Ending γ) (marks : List (Mark γ)) (goes : next q = some f)
      (ending : e = f.marked marks) (forward : r.pos ≤ q.pos)
      (inside : ∀ m ∈ marks, m.group ∈ names ∧ r.pos ≤ m.pos ∧ m.pos ≤ q.pos) :
      PassedOn names next r e

namespace PassedOn

variable {names more : List γ} {again next : Goal γ} {r : Place} {e : Ending γ}

theorem refl (h : next r = some e) : PassedOn names next r e :=
  .intro r e [] h rfl (Nat.le_refl _) (by simp)

theorem mono (hsub : ∀ g ∈ names, g ∈ more) (h : PassedOn names next r e) :
    PassedOn more next r e := by
  obtain ⟨q, f, marks, hf, he, hle, hin⟩ := h
  exact ⟨q, f, marks, hf, he, hle, fun m hm => ⟨hsub _ (hin m hm).1, (hin m hm).2⟩⟩

theorem trans (h : PassedOn names again r e)
    (hagain : ∀ q f, again q = some f → PassedOn names next q f) : PassedOn names next r e := by
  obtain ⟨q, f, marks, hf, rfl, hle, hin⟩ := h
  obtain ⟨q', g, more, hg, rfl, hle', hin'⟩ := hagain q f hf
  refine ⟨q', g, marks ++ more, hg, by simp [Ending.marked], Nat.le_trans hle hle', fun m hm => ?_⟩
  rcases List.mem_append.mp hm with hm | hm
  · obtain ⟨hgroup, hstart, hstop⟩ := hin m hm
    exact ⟨hgroup, hstart, Nat.le_trans hstop hle'⟩
  · obtain ⟨hgroup, hstart, hstop⟩ := hin' m hm
    exact ⟨hgroup, Nat.le_trans hle hstart, hstop⟩

/-- A round of a repetition and the rounds after it. -/
theorem round (h : PassedOn names (after r again) r e)
    (hagain : ∀ q f, q.rest.length < r.rest.length → again q = some f → PassedOn names next q f) :
    PassedOn names next r e := by
  refine h.trans fun q f hf => ?_
  rw [after] at hf
  split at hf
  · exact hagain q f ‹_› hf
  · cases hf

theorem repeats {round : Goal γ → Goal γ} {rep : Goal γ} (hrep : Repeats round next rep)
    (hround : ∀ {again r e}, round again r = some e → PassedOn names again r e)
    (h : rep r = some e) : PassedOn names next r e :=
  hrep.induction (Q := PassedOn names next) (fun _ _ => .refl)
    (fun _ _ hlater hf => (hround hf).round hlater) r e h

end PassedOn

/-- Where a match goes on, its pattern has left marks of its own groups only. -/
theorem passedOn_of_run {p : Pattern γ} {next : Goal γ} {r : Place} {e : Ending γ}
    (h : p.run next r = some e) : PassedOn p.groups next r e := by
  induction p generalizing next r e with
  | char accepts =>
    rw [run] at h
    split at h
    · cases h
    · rename_i c cs hrest
      split at h
      · exact ⟨_, e, [], h, rfl, Nat.le_add_right _ _, by simp⟩
      · cases h
  | anchor a =>
    rw [run] at h
    split at h
    · exact .refl h
    · cases h
  | empty => exact .refl h
  | seq p q ihp ihq =>
    refine ((ihp h).mono fun g hg => List.mem_append_left _ hg).trans fun q' f hf => ?_
    exact (ihq hf).mono fun g hg => List.mem_append_right _ hg
  | alt p q ihp ihq =>
    rcases Option.or_eq_some_iff.mp h with h | ⟨_, h⟩
    · exact (ihp h).mono fun g hg => List.mem_append_left _ hg
    · exact (ihq h).mono fun g hg => List.mem_append_right _ hg
  | star p ih => exact .repeats (repeats_repeatMost p.run next) ih h
  | lazyStar p ih => exact .repeats (repeats_repeatLeast p.run next) ih h
  | group g p ih =>
    obtain ⟨e, he, rfl⟩ := Option.map_eq_some_iff.mp h
    obtain ⟨q, closed, marks, hclosed, rfl, hle, hin⟩ := ih he
    obtain ⟨f, hf, rfl⟩ := Option.map_eq_some_iff.mp hclosed
    refine ⟨q, f, .opened g r.pos r.rest :: (marks ++ [.closed g q.pos]), hf,
      by simp [Ending.marked, Ending.opened, Ending.closed], hle, fun m hm => ?_⟩
    rcases List.mem_cons.mp hm with rfl | hm
    · exact ⟨List.mem_cons_self, Nat.le_refl _, hle⟩
    · rcases List.mem_append.mp hm with hm | hm
      · exact ⟨List.mem_cons_of_mem _ (hin m hm).1, (hin m hm).2⟩
      · obtain rfl := List.mem_singleton.mp hm
        exact ⟨List.mem_cons_self, hle, Nat.le_refl _⟩

/-- A group of the first part of a pattern starts before a group of the second part stops. -/
theorem start_le_stop_of_get? [DecidableEq γ] {p q : Pattern γ} {g h : γ} (hg : g ∉ q.groups)
    (hh : h ∉ p.groups) {s : Text} {m : Match γ} (hm : m ∈ (p ++ q).allMatches s) {c d : Capture}
    (hc : m.get? g = some c) (hd : m.get? h = some d) : c.start ≤ d.stop := by
  obtain ⟨r, e, _, he, rfl⟩ := exists_run_of_mem_allMatches hm
  obtain ⟨mid, f, marks, hf, rfl, _, hin⟩ := @passedOn_of_run _ p (q.run done) _ _ he
  obtain ⟨last, last', more, hlast, rfl, _, hin'⟩ := passedOn_of_run hf
  obtain rfl := Option.some.inj hlast
  have hmarks : (matchOf r (Ending.marked marks (Ending.marked more ⟨last.pos, []⟩))).marks =
      marks ++ more := by simp [matchOf, Ending.marked]
  have hopened := (Match.exists_mem_marks_of_get? hc).1
  have hclosed := (Match.exists_mem_marks_of_get? hd).2
  rw [hmarks, List.mem_append] at hopened hclosed
  have hopened := hopened.resolve_right fun hmem => hg (hin' _ hmem).1
  have hclosed := hclosed.resolve_left fun hmem => hh (hin _ hmem).1
  exact Nat.le_trans (hin _ hopened).2.2 (hin' _ hclosed).2.1

end Pattern

-- ---------------------------------------------------------------------------
-- What a group remembers
-- ---------------------------------------------------------------------------

/-- Marks in which the ends of a group come in pairs, each pair around a text with a property. -/
inductive Mark.Paired (g : γ) (P : Text → Prop) : List (Mark γ) → Prop
  | nil : Paired g P []
  | other {m : Mark γ} {ms : List (Mark γ)} (hm : m.group ≠ g) (hms : Paired g P ms) :
    Paired g P (m :: ms)
  | captured {pos : Nat} {w t : Text} {ms : List (Mark γ)} (hw : P w) (hms : Paired g P ms) :
    Paired g P (Match.captured g pos w t ++ ms)

/-- What a group with paired ends remembers has the property. -/
theorem Mark.Paired.of_get? [DecidableEq γ] {g : γ} {P : Text → Prop} {ms : List (Mark γ)}
    (h : Mark.Paired g P ms) {whole c : Capture} (hc : Match.get? ⟨whole, ms⟩ g = some c) :
    P c.text := by
  induction h with
  | nil => cases hc
  | @other m ms hm _ ih =>
    refine ih ?_
    cases m with
    | opened k pos tail =>
      have hk : k ≠ g := hm
      simpa [Match.get?, Match.opening?, Match.closing?, hk] using hc
    | closed k pos =>
      have hk : k ≠ g := hm
      simpa [Match.get?, Match.opening?, Match.closing?, hk] using hc
  | @captured pos w t ms hw _ _ =>
    rw [Match.get?_captured] at hc
    obtain rfl := Option.some.inj hc
    rwa [Capture.text_append]

namespace Pattern

/-- A goal whose endings have paired ends of a group. -/
def Pairs (g : γ) (P : Text → Prop) (next : Goal γ) : Prop :=
  ∀ r e, next r = some e → Mark.Paired g P e.marks

theorem pairs_after {g : γ} {P : Text → Prop} {next : Goal γ} {r : Place}
    (h : ∀ q e, q.rest.length < r.rest.length → next q = some e → Mark.Paired g P e.marks) :
    Pairs g P (after r next) := by
  intro q e he
  rw [after] at he
  split at he
  · exact h q e ‹_› he
  · cases he

theorem Pairs.repeats {g : γ} {P : Text → Prop} {round : Goal γ → Goal γ} {next rep : Goal γ}
    (h : Pairs g P next) (hrep : Repeats round next rep)
    (hround : ∀ {again}, Pairs g P again → Pairs g P (round again)) : Pairs g P rep :=
  hrep.induction (Q := fun _ e => Mark.Paired g P e.marks) h fun r e hlater =>
    hround (pairs_after hlater) r e

variable [DecidableEq γ]

/-- The patterns inside the groups of a name. -/
def bodies (g : γ) : Pattern γ → List (Pattern γ)
  | .seq p q => p.bodies g ++ q.bodies g
  | .alt p q => p.bodies g ++ q.bodies g
  | .star p => p.bodies g
  | .lazyStar p => p.bodies g
  | .group h p => if h = g then [p] else p.bodies g
  | _ => []

/-- A run pairs the ends of a group when what follows it does. -/
theorem Pairs.run {g : γ} {P : Text → Prop} {next : Goal γ} (h : Pairs g P next) {p : Pattern γ}
    (hp : ∀ q ∈ p.bodies g, q.isPlain = true ∧ ∀ w ∈ q.language, P w) : Pairs g P (p.run next) := by
  induction p generalizing next with
  | char accepts =>
    intro r e he
    rw [Pattern.run] at he
    split at he
    · cases he
    · split at he
      · exact h _ e he
      · cases he
  | anchor a =>
    intro r e he
    rw [Pattern.run] at he
    split at he
    · exact h r e he
    · cases he
  | empty => exact h
  | seq p q ihp ihq =>
    exact ihp (ihq h fun b hb => hp b (List.mem_append_right _ hb))
      fun b hb => hp b (List.mem_append_left _ hb)
  | alt p q ihp ihq =>
    intro r e he
    rcases Option.or_eq_some_iff.mp he with he | ⟨_, he⟩
    · exact ihp h (fun b hb => hp b (List.mem_append_left _ hb)) r e he
    · exact ihq h (fun b hb => hp b (List.mem_append_right _ hb)) r e he
  | star p ih => exact h.repeats (repeats_repeatMost p.run next) fun hagain => ih hagain hp
  | lazyStar p ih => exact h.repeats (repeats_repeatLeast p.run next) fun hagain => ih hagain hp
  | group k p ih =>
    intro r e he
    obtain ⟨f, hf, rfl⟩ := Option.map_eq_some_iff.mp he
    by_cases hk : k = g
    · -- The pattern inside is plain, so the end of the group follows its start.
      subst hk
      obtain ⟨hplain, hwords⟩ := hp p (by simp [bodies])
      obtain ⟨b, pos, s⟩ := r
      obtain ⟨w, t, closed, marks, hw, rfl, hclosed, rfl, _, hbare⟩ := goesOn_of_run hf
      obtain ⟨last, hlast, rfl⟩ := Option.map_eq_some_iff.mp hclosed
      rw [hbare hplain]
      exact .captured (hwords w hw) (h _ last hlast)
    · have hbody : ∀ q ∈ p.bodies g, q.isPlain = true ∧ ∀ w ∈ q.language, P w := by
        simpa [bodies, hk] using hp
      refine .other hk (ih (fun s e he => ?_) hbody r f hf)
      obtain ⟨last, hlast, rfl⟩ := Option.map_eq_some_iff.mp he
      exact .other hk (h s last hlast)

/-- A group remembers a word of one of the patterns inside the groups of its name. -/
theorem exists_mem_language_of_get? {p : Pattern γ} {g : γ}
    (hp : ∀ q ∈ p.bodies g, q.isPlain = true)
    {s : Text} {m : Match γ} (h : m ∈ p.allMatches s) {c : Capture} (hc : m.get? g = some c) :
    ∃ q ∈ p.bodies g, c.text ∈ q.language := by
  obtain ⟨r, e, _, he, rfl⟩ := exists_run_of_mem_allMatches h
  have hdone : Pairs g (fun w => ∃ q ∈ p.bodies g, w ∈ q.language) done := by
    intro r e he
    obtain rfl := Option.some.inj he
    exact .nil
  exact (hdone.run (fun q hq => ⟨hp q hq, fun w hw => ⟨q, hq, hw⟩⟩) r e he).of_get? hc

end Pattern

end Typings
