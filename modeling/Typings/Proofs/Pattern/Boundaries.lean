import Typings.Proofs.Pattern.Parting

/-!
# Where matches begin and end

A match and its groups begin and end at character boundaries of the text that was searched, and a
group that lies on every way through a pattern takes part in every match of it. Main statements:
`isOn_of_mem_allMatches` and `exists_get?_of_captures`.
-/

namespace Typings

/-- Whether an offset is a character boundary of a text. -/
def Text.IsBoundary (s : Text) (n : Nat) : Prop := (Text.suffixAt? n s).isSome = true

instance (s : Text) (n : Nat) : Decidable (Text.IsBoundary s n) :=
  inferInstanceAs (Decidable (_ = true))

theorem Text.isBoundary_iff {s : Text} {n : Nat} :
    Text.IsBoundary s n ↔ ∃ u t, s = u ++ t ∧ Text.byteLength u = n := by
  rw [Text.IsBoundary, Option.isSome_iff_exists]
  constructor
  · rintro ⟨t, ht⟩
    obtain ⟨u, hu, hlen⟩ := Text.suffixAt?_eq_some_iff.mp ht
    exact ⟨u, t, hu, hlen⟩
  · rintro ⟨u, t, hu, hlen⟩
    exact ⟨t, Text.suffixAt?_eq_some_iff.mpr ⟨u, hu, hlen⟩⟩

variable {γ : Type} {s : Text}

/-- A place in a text. -/
def Place.IsOn (s : Text) (r : Place) : Prop := Text.suffixAt? r.pos s = some r.rest

theorem Place.IsOn.isBoundary {r : Place} (h : r.IsOn s) : Text.IsBoundary s r.pos := by
  rw [Text.IsBoundary, h]
  rfl

/-- The place after a character of a text is in the text. -/
theorem Place.IsOn.advance {r : Place} (h : r.IsOn s) {c : Char} {cs : Text}
    (hrest : r.rest = c :: cs) :
    (r.advance c cs).IsOn s := by
  obtain ⟨u, hu, hlen⟩ := Text.suffixAt?_eq_some_iff.mp h
  refine Text.suffixAt?_eq_some_iff.mpr ⟨u ++ [c], ?_, ?_⟩
  · rw [hu, hrest, List.append_assoc]
    rfl
  · simp [Place.advance, hlen]

/-- One end of a group in a text. -/
def Mark.IsOn (s : Text) : Mark γ → Prop
  | .opened _ pos tail => Text.suffixAt? pos s = some tail
  | .closed _ pos => Text.IsBoundary s pos

/-- An ending in a text. -/
structure Ending.IsOn (s : Text) (e : Ending γ) : Prop where
  stop : Text.IsBoundary s e.stop
  marks : ∀ m ∈ e.marks, m.IsOn s

namespace Pattern

-- ---------------------------------------------------------------------------
-- Boundaries
-- ---------------------------------------------------------------------------

/-- A goal that ends in the text in which it starts. -/
def Keeps (s : Text) (next : Goal γ) : Prop := ∀ r e, r.IsOn s → next r = some e → e.IsOn s

theorem keeps_done : Keeps s (done : Goal γ) := by
  intro r e hr he
  obtain rfl := Option.some.inj he
  exact ⟨hr.isBoundary, by simp⟩

theorem Keeps.closed {next : Goal γ} (h : Keeps s next) (g : γ) :
    Keeps s fun r => (next r).map (·.closed g r) := by
  intro r e hr he
  obtain ⟨f, hf, rfl⟩ := Option.map_eq_some_iff.mp he
  obtain ⟨hstop, hmarks⟩ := h r f hr hf
  exact ⟨hstop, List.forall_mem_cons.mpr ⟨hr.isBoundary, hmarks⟩⟩

/-- What keeps to the text from later places on keeps to it behind a round. -/
theorem keeps_after {next : Goal γ} {r : Place}
    (h : ∀ q e, q.rest.length < r.rest.length → q.IsOn s → next q = some e → e.IsOn s) :
    Keeps s (after r next) := by
  intro q e hq he
  rw [after] at he
  split at he
  · exact h q e ‹_› hq he
  · cases he

theorem Keeps.repeats {round : Goal γ → Goal γ} {next rep : Goal γ} (h : Keeps s next)
    (hrep : Repeats round next rep) (hround : ∀ {again}, Keeps s again → Keeps s (round again)) :
    Keeps s rep := by
  intro r e hr he
  refine hrep.induction (Q := fun r e => r.IsOn s → e.IsOn s) (fun r e he hr => h r e hr he)
    (fun r e hlater he hr => ?_) r e he hr
  exact hround (keeps_after fun q f hlt hq hf => hlater q f hlt hf hq) r e hr he

/-- A run keeps to the text when what follows it does. -/
theorem Keeps.run {next : Goal γ} (h : Keeps s next) (p : Pattern γ) : Keeps s (p.run next) := by
  induction p generalizing next with
  | char accepts =>
    intro r e hr he
    rw [Pattern.run] at he
    split at he
    · cases he
    · split at he
      · exact h _ e (hr.advance ‹_›) he
      · cases he
  | anchor a =>
    intro r e hr he
    rw [Pattern.run] at he
    split at he
    · exact h r e hr he
    · cases he
  | empty => exact h
  | seq p q ihp ihq => exact ihp (ihq h)
  | alt p q ihp ihq =>
    intro r e hr he
    rcases Option.or_eq_some_iff.mp he with he | ⟨_, he⟩
    · exact ihp h r e hr he
    · exact ihq h r e hr he
  | star p ih => exact h.repeats (repeats_repeatMost p.run next) ih
  | lazyStar p ih => exact h.repeats (repeats_repeatLeast p.run next) ih
  | group g p ih =>
    intro r e hr he
    obtain ⟨f, hf, rfl⟩ := Option.map_eq_some_iff.mp he
    obtain ⟨hstop, hmarks⟩ := ih (h.closed g) r f hr hf
    exact ⟨hstop, List.forall_mem_cons.mpr ⟨hr, hmarks⟩⟩

theorem isOn_of_mem_places {b : Option Char} {u t : Text} (hs : s = u ++ t) {r : Place}
    (h : r ∈ places b (Text.byteLength u) t) : r.IsOn s := by
  induction t generalizing b u with
  | nil => cases h
  | cons c cs ih =>
    rcases List.mem_cons.mp h with rfl | h
    · exact Text.suffixAt?_eq_some_iff.mpr ⟨u, hs, rfl⟩
    · have hnext : Text.byteLength (u ++ [c]) = Text.byteLength u + c.utf8Size := by simp
      exact ih (u := u ++ [c]) (by simpa using hs) (hnext ▸ h)

/-- A match that is found comes from a run at a place of the text. -/
theorem exists_run_of_mem_allMatches {p : Pattern γ} {m : Match γ} (h : m ∈ p.allMatches s) :
    ∃ r e, r.IsOn s ∧ p.run done r = some e ∧ m = matchOf r e := by
  rw [allMatches_eq_matchesFrom] at h
  obtain ⟨r, hr, hm⟩ := List.mem_filterMap.mp (mem_of_mem_disjoint h)
  obtain ⟨e, he, rfl⟩ := Option.map_eq_some_iff.mp hm
  exact ⟨r, e, isOn_of_mem_places (u := []) rfl hr, he, rfl⟩

-- ---------------------------------------------------------------------------
-- Groups that take part
-- ---------------------------------------------------------------------------

/-- An ending that holds both ends of a group. -/
structure HasGroup (g : γ) (e : Ending γ) : Prop where
  opened : ∃ pos tail, Mark.opened g pos tail ∈ e.marks
  closed : ∃ pos, Mark.closed g pos ∈ e.marks

theorem HasGroup.of_subset {g : γ} {e f : Ending γ} (h : HasGroup g f)
    (hsub : ∀ m ∈ f.marks, m ∈ e.marks) : HasGroup g e := by
  obtain ⟨⟨pos, tail, hopened⟩, stop, hclosed⟩ := h
  exact ⟨⟨pos, tail, hsub _ hopened⟩, stop, hsub _ hclosed⟩

/-- What follows a pattern ends inside the ending of the whole. -/
theorem exists_next_of_run {p : Pattern γ} {next : Goal γ} {r : Place} {e : Ending γ}
    (h : p.run next r = some e) :
    ∃ q f, next q = some f ∧ ∀ m ∈ f.marks, m ∈ e.marks := by
  obtain ⟨b, pos, s⟩ := r
  obtain ⟨w, t, f, marks, _, _, hf, rfl, _, _⟩ := goesOn_of_run h
  exact ⟨_, f, hf, fun m hm => List.mem_append_right _ hm⟩

variable [DecidableEq γ]

/-- Whether each way through a pattern passes a group. -/
def captures (g : γ) : Pattern γ → Bool
  | .seq p q => p.captures g || q.captures g
  | .alt p q => p.captures g && q.captures g
  | .group h p => h = g || p.captures g
  | _ => false

theorem hasGroup_of_run {p : Pattern γ} {g : γ} (hp : p.captures g = true) {next : Goal γ}
    {r : Place}
    {e : Ending γ} (h : p.run next r = some e) : HasGroup g e := by
  induction p generalizing next r e with
  | char accepts => cases hp
  | anchor a => cases hp
  | empty => cases hp
  | star p _ => cases hp
  | lazyStar p _ => cases hp
  | seq p q ihp ihq =>
    rcases Bool.or_eq_true_iff.mp hp with hp | hq
    · exact ihp hp h
    · obtain ⟨r', f, hf, hsub⟩ := @exists_next_of_run _ p (q.run next) r e h
      exact (ihq hq hf).of_subset hsub
  | alt p q ihp ihq =>
    obtain ⟨hp, hq⟩ := Bool.and_eq_true_iff.mp hp
    rcases Option.or_eq_some_iff.mp h with h | ⟨_, h⟩
    · exact ihp hp h
    · exact ihq hq h
  | group k p ih =>
    obtain ⟨f, hf, rfl⟩ := Option.map_eq_some_iff.mp h
    rcases Bool.or_eq_true_iff.mp hp with hk | hp
    · obtain rfl := of_decide_eq_true hk
      obtain ⟨q, closed, hclosed, hsub⟩ := exists_next_of_run hf
      obtain ⟨last, _, rfl⟩ := Option.map_eq_some_iff.mp hclosed
      exact ⟨⟨r.pos, r.rest, List.mem_cons_self⟩, q.pos,
        List.mem_cons_of_mem _ (hsub _ List.mem_cons_self)⟩
    · exact (ih hp hf).of_subset fun m hm => List.mem_cons_of_mem _ hm

theorem exists_get?_of_hasGroup {g : γ} {r : Place} {e : Ending γ} (h : HasGroup g e) :
    ∃ c, (matchOf r e).get? g = some c := by
  obtain ⟨⟨pos, tail, hopened⟩, stop, hclosed⟩ := h
  have hopening : ((matchOf r e).opening? g).isSome = true := by
    rw [Match.opening?, List.findSome?_isSome_iff]
    exact ⟨_, hopened, by simp⟩
  have hclosing : ((matchOf r e).closing? g).isSome = true := by
    rw [Match.closing?, List.findSome?_isSome_iff]
    exact ⟨_, hclosed, by simp⟩
  obtain ⟨⟨start, tail⟩, hstart⟩ := Option.isSome_iff_exists.mp hopening
  obtain ⟨stop, hstop⟩ := Option.isSome_iff_exists.mp hclosing
  exact ⟨⟨start, stop, tail⟩, by rw [Match.get?, hstart, hstop]⟩

/-- A group on every way through a pattern takes part in its matches. -/
theorem exists_get?_of_captures {p : Pattern γ} {g : γ} (hp : p.captures g = true) {m : Match γ}
    (h : m ∈ p.allMatches s) : ∃ c, m.get? g = some c := by
  obtain ⟨r, e, _, he, rfl⟩ := exists_run_of_mem_allMatches h
  exact exists_get?_of_hasGroup (hasGroup_of_run hp he)

end Pattern

-- ---------------------------------------------------------------------------
-- Matches
-- ---------------------------------------------------------------------------

/-- A match in a text, with the ends of its groups. -/
structure Match.IsOn [DecidableEq γ] (s : Text) (m : Match γ) : Prop where
  start : Text.IsBoundary s m.whole.start
  stop : Text.IsBoundary s m.whole.stop
  groups : ∀ g c, m.get? g = some c →
    Text.suffixAt? c.start s = some c.tail ∧ Text.IsBoundary s c.stop

theorem Pattern.isOn_of_mem_allMatches [DecidableEq γ] {p : Pattern γ} {m : Match γ}
    (h : m ∈ p.allMatches s) : m.IsOn s := by
  obtain ⟨r, e, hr, he, rfl⟩ := exists_run_of_mem_allMatches h
  obtain ⟨hstop, hmarks⟩ := keeps_done.run p r e hr he
  refine ⟨hr.isBoundary, hstop, fun g c hc => ?_⟩
  obtain ⟨hopened, hclosed⟩ := Match.exists_mem_marks_of_get? hc
  exact ⟨hmarks _ hopened, hmarks _ hclosed⟩

/-- What a group matches is no longer than the text. -/
theorem Match.IsOn.byteLength_text_le [DecidableEq γ] {m : Match γ} (h : m.IsOn s) {g : γ}
    {c : Capture} (hc : m.get? g = some c) : Text.byteLength c.text ≤ Text.byteLength s := by
  obtain ⟨u, rfl, _⟩ := Text.suffixAt?_eq_some_iff.mp (h.groups g c hc).1
  have hsplit := congrArg Text.byteLength
    (Text.takeBytes_append_dropBytes (c.stop - c.start) c.tail)
  rw [Text.byteLength_append] at hsplit ⊢
  rw [Capture.text]
  omega

end Typings
