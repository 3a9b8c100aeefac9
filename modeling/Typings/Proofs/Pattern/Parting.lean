import Mathlib.Data.Option.Basic
import Typings.Proofs.Pattern.Taking

/-!
# Matches in texts that part

Two texts part at an offset when they agree up to there and go on with the same character, in
whatever ways. A match that keeps to the common part in both texts is the same in both, although a
pattern may look beyond the parting before it gives a longer way up. So two texts that differ in one
block have the same matches around it, unless a match reaches into the block or out of it. Main
statements: `twinGoals_run` and `around_allMatches`.
-/

namespace Typings

namespace Pattern

variable {γ : Type}

-- ---------------------------------------------------------------------------
-- First characters
-- ---------------------------------------------------------------------------

/-- Whether a pattern can match without consuming anything. -/
def nullable : Pattern γ → Bool
  | .char _ => false
  | .anchor _ => true
  | .empty => true
  | .seq p q => p.nullable && q.nullable
  | .alt p q => p.nullable || q.nullable
  | .star _ => true
  | .lazyStar _ => true
  | .group _ p => p.nullable

/-- Whether a pattern can consume a character first. -/
def opensWith (c : Char) : Pattern γ → Bool
  | .char accepts => accepts c
  | .anchor _ => false
  | .empty => false
  | .seq p q => p.opensWith c || (p.nullable && q.opensWith c)
  | .alt p q => p.opensWith c || q.opensWith c
  | .star p => p.opensWith c
  | .lazyStar p => p.opensWith c
  | .group _ p => p.opensWith c

section

open Computability

variable {p : Pattern γ} {c : Char} {w : Text}

theorem nullable_of_nil_mem (h : [] ∈ p.language) : p.nullable = true := by
  induction p with
  | char accepts =>
    obtain ⟨c, _, hc⟩ := h
    cases hc
  | anchor a => rfl
  | empty => rfl
  | seq p q ihp ihq =>
    obtain ⟨u, hu, v, hv, huv⟩ := Language.mem_mul.mp h
    obtain ⟨rfl, rfl⟩ := List.append_eq_nil_iff.mp huv
    rw [nullable, ihp hu, ihq hv, Bool.and_self]
  | alt p q ihp ihq =>
    rcases h with h | h
    · rw [nullable, ihp h, Bool.true_or]
    · rw [nullable, ihq h, Bool.or_true]
  | star p ih => rfl
  | lazyStar p ih => rfl
  | group g p ih => exact ih h

/-- A word of a repetition starts with a word of its round. -/
theorem exists_cons_mem_of_kstar {l : Language Char} (h : c :: w ∈ l∗) : ∃ v, c :: v ∈ l := by
  obtain ⟨words, hw, hwords⟩ := Language.mem_kstar.mp h
  induction words with
  | nil => cases hw
  | cons u words ih =>
    cases u with
    | nil => exact ih hw fun v hv => hwords v (List.mem_cons_of_mem _ hv)
    | cons d u =>
      obtain ⟨rfl, _⟩ := List.cons.inj hw
      exact ⟨u, hwords _ List.mem_cons_self⟩

theorem opensWith_of_cons_mem (h : c :: w ∈ p.language) : p.opensWith c = true := by
  induction p generalizing w with
  | char accepts =>
    obtain ⟨d, hd, hw⟩ := h
    obtain ⟨rfl, _⟩ := List.cons.inj hw
    exact hd
  | anchor a => cases h
  | empty => cases h
  | seq p q ihp ihq =>
    obtain ⟨u, hu, v, hv, huv⟩ := Language.mem_mul.mp h
    cases u with
    | nil =>
      obtain rfl : v = c :: w := huv
      rw [opensWith, nullable_of_nil_mem hu, ihq hv, Bool.and_self, Bool.or_true]
    | cons d u =>
      obtain ⟨rfl, _⟩ := List.cons.inj huv
      rw [opensWith, ihp hu, Bool.true_or]
  | alt p q ihp ihq =>
    rcases h with h | h
    · rw [opensWith, ihp h, Bool.true_or]
    · rw [opensWith, ihq h, Bool.or_true]
  | star p ih =>
    obtain ⟨v, hv⟩ := exists_cons_mem_of_kstar h
    exact ih hv
  | lazyStar p ih =>
    obtain ⟨v, hv⟩ := exists_cons_mem_of_kstar h
    exact ih hv
  | group g p ih => exact ih h

/-- A pattern that has to consume something fails before a character that it cannot consume
first. -/
theorem fails_of_opensWith {b : Option Char} {t : Text} (hnull : p.nullable = false)
    (hopens : p.opensWith c = false) : p.Fails b (c :: t) := by
  refine fails_of_language fun w hw rest hs => ?_
  cases w with
  | nil => exact absurd (nullable_of_nil_mem hw) (by simp [hnull])
  | cons d w =>
    obtain ⟨rfl, _⟩ := List.cons.inj hs
    exact absurd (opensWith_of_cons_mem hw) (by simp [hopens])

end

-- ---------------------------------------------------------------------------
-- Plain patterns
-- ---------------------------------------------------------------------------

section

open Computability

variable {p : Pattern γ} {next : Goal γ} {b : Option Char} {pos : Nat} {w t : Text}

theorem repeatMost_ne_none {round : Goal γ → Goal γ} {r : Place}
    (h : next r ≠ none ∨ round (after r (repeatMost round next)) r ≠ none) :
    repeatMost round next r ≠ none := by
  rw [repeatMost_eq, ne_eq, Option.or_eq_none_iff, not_and_or]
  exact h.symm

theorem repeatLeast_ne_none {round : Goal γ → Goal γ} {r : Place}
    (h : next r ≠ none ∨ round (after r (repeatLeast round next)) r ≠ none) :
    repeatLeast round next r ≠ none := by
  rw [repeatLeast_eq, ne_eq, Option.or_eq_none_iff, not_and_or]
  exact h

/-- A repetition finds a way over words when its round finds one over each of them. -/
theorem rounds_ne_none {round : Goal γ → Goal γ} {rep : Goal γ} {l : Language Char}
    (hrep : ∀ r, next r ≠ none ∨ round (after r rep) r ≠ none → rep r ≠ none)
    (hround : ∀ {again : Goal γ} {b pos w t}, w ∈ l →
      again ⟨Text.lastOr b w, pos + Text.byteLength w, t⟩ ≠ none →
      round again ⟨b, pos, w ++ t⟩ ≠ none)
    {words : List Text} (hwords : ∀ v ∈ words, v ∈ l ∧ v ≠ [])
    (hnext : next ⟨Text.lastOr b words.flatten, pos + Text.byteLength words.flatten, t⟩ ≠ none) :
    rep ⟨b, pos, words.flatten ++ t⟩ ≠ none := by
  induction words generalizing b pos with
  | nil => exact hrep _ (.inl hnext)
  | cons u words ih =>
    obtain ⟨hu, hne⟩ := hwords u List.mem_cons_self
    have hlater := @ih (Text.lastOr b u) (pos + Text.byteLength u)
      (fun v hv => hwords v (List.mem_cons_of_mem _ hv)) (by simpa [Nat.add_assoc] using hnext)
    rw [List.flatten_cons, List.append_assoc]
    refine hrep _ (.inr (hround hu ?_))
    rw [after_append _ hne]
    exact hlater

/-- A plain pattern finds a way over each of its words. -/
theorem run_ne_none_of_mem (hp : p.isPlain = true) (hw : w ∈ p.language)
    (hnext : next ⟨Text.lastOr b w, pos + Text.byteLength w, t⟩ ≠ none) :
    p.run next ⟨b, pos, w ++ t⟩ ≠ none := by
  induction p generalizing next b pos w t with
  | char accepts =>
    obtain ⟨c, hc, rfl⟩ := hw
    simp only [run, List.cons_append, List.nil_append, hc, if_true]
    exact hnext
  | anchor a => cases hp
  | empty =>
    obtain rfl : w = [] := hw
    exact hnext
  | seq p q ihp ihq =>
    obtain ⟨hp, hq⟩ := Bool.and_eq_true_iff.mp hp
    obtain ⟨u, hu, v, hv, rfl⟩ := Language.mem_mul.mp hw
    rw [List.append_assoc]
    refine ihp hp hu (ihq hq hv ?_)
    simpa [Nat.add_assoc] using hnext
  | alt p q ihp ihq =>
    obtain ⟨hp, hq⟩ := Bool.and_eq_true_iff.mp hp
    simp only [run, ne_eq, Option.or_eq_none_iff, not_and_or]
    rcases hw with hw | hw
    · exact .inl (ihp hp hw hnext)
    · exact .inr (ihq hq hw hnext)
  | star p ih =>
    obtain ⟨words, rfl, hwords⟩ := Language.mem_kstar_iff_exists_nonempty.mp hw
    exact rounds_ne_none (fun r h => repeatMost_ne_none h)
      (fun hw hagain => ih hp hw hagain) hwords hnext
  | lazyStar p ih =>
    obtain ⟨words, rfl, hwords⟩ := Language.mem_kstar_iff_exists_nonempty.mp hw
    exact rounds_ne_none (fun r h => repeatLeast_ne_none h)
      (fun hw hagain => ih hp hw hagain) hwords hnext
  | group g p ih => cases hp

/-- A plain pattern before a text with a single word of it goes on after that word. -/
theorem run_eq_of_mem (hp : p.isPlain = true) (hw : w ∈ p.language)
    (honly : ∀ v ∈ p.language, ∀ u, w ++ t = v ++ u → v = w) :
    p.run next ⟨b, pos, w ++ t⟩ = next ⟨Text.lastOr b w, pos + Text.byteLength w, t⟩ := by
  cases hrun : p.run next ⟨b, pos, w ++ t⟩ with
  | none =>
    by_contra hnext
    exact run_ne_none_of_mem hp hw (Ne.symm hnext) hrun
  | some e =>
    obtain ⟨v, u, f, marks, hv, htext, hf, rfl, _, hbare⟩ := goesOn_of_run hrun
    obtain rfl := honly v hv u htext
    obtain rfl := List.append_cancel_left htext
    rw [hf, hbare hp, Ending.marked_nil]

end

-- ---------------------------------------------------------------------------
-- Runs in texts that part
-- ---------------------------------------------------------------------------

/-- Whether a goal ends no match and no group before the place where it is asked. -/
def Forward (next : Goal γ) : Prop :=
  ∀ r e, next r = some e → r.pos ≤ e.stop ∧ ∀ m ∈ e.marks, r.pos ≤ m.pos

theorem forward_done : Forward (done : Goal γ) := by
  rintro r e he
  obtain rfl := Option.some.inj he
  exact ⟨Nat.le_refl _, by simp⟩

theorem Forward.run {next : Goal γ} (h : Forward next) (p : Pattern γ) : Forward (p.run next) := by
  rintro ⟨b, pos, s⟩ e he
  obtain ⟨w, t, f, marks, _, _, hf, rfl, hin, _⟩ := goesOn_of_run he
  obtain ⟨hstop, hmarks⟩ := h _ _ hf
  refine ⟨Nat.le_trans (Nat.le_add_right _ _) hstop, fun m hm => ?_⟩
  rcases List.mem_append.mp hm with hm | hm
  · exact (hin m hm).1
  · exact Nat.le_trans (Nat.le_add_right _ _) (hmarks m hm)

theorem Forward.closed {next : Goal γ} (h : Forward next) (g : γ) :
    Forward fun s => (next s).map (·.closed g s) := by
  intro s e he
  obtain ⟨f, hf, rfl⟩ := Option.map_eq_some_iff.mp he
  obtain ⟨hstop, hmarks⟩ := h s f hf
  refine ⟨hstop, fun m hm => ?_⟩
  rcases List.mem_cons.mp hm with rfl | hm
  · exact Nat.le_refl _
  · exact hmarks m hm

theorem Forward.after {next : Goal γ} (h : Forward next) (r : Place) :
    Forward (Pattern.after r next) := by
  intro s e he
  rw [Pattern.after] at he
  split at he
  · exact h s e he
  · cases he

/-- Places with the same text before them, in texts that go on with `x` and `y` from the offset
`limit` on. -/
inductive Twins (limit : Nat) (x y : Text) : Place → Place → Prop
  | intro (b : Option Char) {pos : Nat} {v : Text} (h : pos + Text.byteLength v = limit) :
      Twins limit x y ⟨b, pos, v ++ x⟩ ⟨b, pos, v ++ y⟩

/-- Ends of groups in the common part of two texts. -/
inductive TwinMarks (limit : Nat) (x y : Text) : Mark γ → Mark γ → Prop
  | opened (g : γ) {pos : Nat} {v : Text} (h : pos + Text.byteLength v = limit) :
      TwinMarks limit x y (.opened g pos (v ++ x)) (.opened g pos (v ++ y))
  | closed (g : γ) {pos : Nat} (h : pos ≤ limit) :
      TwinMarks limit x y (.closed g pos) (.closed g pos)

/-- Endings with the same stop and the ends of groups in the same places. -/
structure TwinEndings (limit : Nat) (x y : Text) (e f : Ending γ) : Prop where
  stop : e.stop = f.stop
  marks : List.Forall₂ (TwinMarks limit x y) e.marks f.marks

/-- Outcomes of two runs that are the same unless one of them goes beyond an offset. -/
def SameUpTo (limit : Nat) (x y : Text) (e f : Option (Ending γ)) : Prop :=
  (∀ a ∈ e, a.stop ≤ limit) → (∀ a ∈ f, a.stop ≤ limit) →
    Option.Rel (TwinEndings limit x y) e f

/-- Goals with the same outcomes in two texts that part. -/
structure TwinGoals (limit : Nat) (x y : Text) (next other : Goal γ) : Prop where
  left : Forward next
  right : Forward other
  same : ∀ r s, Twins limit x y r s → SameUpTo limit x y (next r) (other s)

namespace SameUpTo

variable {limit : Nat} {x y : Text} {e f e' f' : Option (Ending γ)}

theorem or (h : SameUpTo limit x y e f) (h' : SameUpTo limit x y e' f') :
    SameUpTo limit x y (e.or e') (f.or f') := by
  intro he hf
  cases e with
  | none =>
    cases f with
    | none => exact h' he hf
    | some b => cases h (by simp) (by simpa using hf)
  | some a =>
    cases f with
    | none => cases h (by simpa using he) (by simp)
    | some b => exact h he hf

/-- Where both runs are beyond the offset, there is nothing to compare. -/
theorem of_beyond {next other : Goal γ} {r s : Place} (hnext : Forward next)
    (hother : Forward other)
    (hr : limit < r.pos) (hs : limit < s.pos) : SameUpTo limit x y (next r) (other s) := by
  intro he hf
  have hnone : next r = none := Option.eq_none_iff_forall_ne_some.mpr fun a ha => by
    have := (hnext r a ha).1
    have := he a ha
    omega
  have hnone' : other s = none := Option.eq_none_iff_forall_ne_some.mpr fun a ha => by
    have := (hother s a ha).1
    have := hf a ha
    omega
  rw [hnone, hnone']
  exact .none

theorem map {m n : Ending γ → Ending γ} (h : SameUpTo limit x y e f)
    (hm : ∀ a, (m a).stop = a.stop) (hn : ∀ a, (n a).stop = a.stop)
    (hmn : ∀ a b, TwinEndings limit x y a b → TwinEndings limit x y (m a) (n b)) :
    SameUpTo limit x y (e.map m) (f.map n) := by
  intro he hf
  have hrel := h (fun a ha => by simpa [hm] using he (m a) (Option.mem_map_of_mem m ha))
    (fun a ha => by simpa [hn] using hf (n a) (Option.mem_map_of_mem n ha))
  cases hrel with
  | none => exact .none
  | some hab => exact .some (hmn _ _ hab)

end SameUpTo

theorem twinGoals_done (limit : Nat) (x y : Text) :
    TwinGoals limit x y (done : Goal γ) (done : Goal γ) := by
  refine ⟨forward_done, forward_done, ?_⟩
  rintro _ _ ⟨b, _⟩ _ _
  exact .some ⟨rfl, .nil⟩

section

variable {limit : Nat} {x y : Text} {next other : Goal γ}

/-- Of the rounds of a repetition, those that consume something go on from twin places. -/
theorem twinGoals_after {b : Option Char} {pos : Nat} {v : Text} (hnext : Forward next)
    (hother : Forward other)
    (h : ∀ b' pos' u, pos' + Text.byteLength u = limit → u.length < v.length →
      SameUpTo limit x y (next ⟨b', pos', u ++ x⟩) (other ⟨b', pos', u ++ y⟩)) :
    TwinGoals limit x y (after ⟨b, pos, v ++ x⟩ next) (after ⟨b, pos, v ++ y⟩ other) := by
  refine ⟨hnext.after _, hother.after _, ?_⟩
  rintro _ _ ⟨b', hlimit⟩
  rename_i pos' u
  simp only [after, List.length_append, Nat.add_lt_add_iff_right]
  split
  · rename_i hlt
    exact h b' pos' u hlimit hlt
  · exact fun _ _ => .none

/-- A condition on a place sees the first character after the parting at most. -/
theorem holds_append_of_head? (hxy : x.head? = y.head?) (b : Option Char) (pos : Nat) (v : Text)
    (a : Anchor) : a.holds ⟨b, pos, v ++ x⟩ = a.holds ⟨b, pos, v ++ y⟩ := by
  have hhead : (v ++ x).head? = (v ++ y).head? := by
    rw [List.head?_append, List.head?_append, hxy]
  cases a with
  | textStart => rfl
  | textEnd =>
    have hempty : ∀ s : Text, s.isEmpty = s.head?.isNone := by rintro (_ | _) <;> rfl
    simp only [Anchor.holds, hempty, hhead]
  | lineStart => rfl
  | wordBoundary => simp only [Anchor.holds, hhead]

/-- A character is taken in both texts or in neither, and one after the parting leads beyond it. -/
theorem TwinGoals.char (h : TwinGoals limit x y next other) (hxy : x.head? = y.head?)
    (accepts : Char → Bool) (b : Option Char) {pos : Nat} {v : Text}
    (hlimit : pos + Text.byteLength v = limit) :
    SameUpTo limit x y ((char accepts).run next ⟨b, pos, v ++ x⟩)
      ((char accepts).run other ⟨b, pos, v ++ y⟩) := by
  cases v with
  | cons c cs =>
    simp only [run, List.cons_append]
    split
    · refine h.same _ _ (.intro (some c) ?_)
      rw [Text.byteLength_cons, ← Nat.add_assoc] at hlimit
      exact hlimit
    · exact fun _ _ => .none
  | nil =>
    cases x with
    | nil =>
      obtain rfl : y = [] := List.head?_eq_none_iff.mp hxy.symm
      exact fun _ _ => .none
    | cons c xs =>
      obtain ⟨ys, rfl⟩ : ∃ ys, y = c :: ys := List.head?_eq_some_iff.mp hxy.symm
      have hsize := c.utf8Size_pos
      simp only [Text.byteLength_nil, Nat.add_zero] at hlimit
      simp only [run, List.nil_append]
      split
      · exact .of_beyond h.left h.right (by simp [Place.advance]; omega)
          (by simp [Place.advance]; omega)
      · exact fun _ _ => .none

/-- A run that keeps to the common part of two texts is the same in both. -/
theorem twinGoals_run (hxy : x.head? = y.head?) (p : Pattern γ)
    (h : TwinGoals limit x y next other) :
    TwinGoals limit x y (p.run next) (p.run other) := by
  refine ⟨h.left.run p, h.right.run p, ?_⟩
  rintro _ _ ⟨b, hlimit⟩
  rename_i pos v
  induction p generalizing next other b pos v with
  | char accepts => exact h.char hxy accepts b hlimit
  | anchor a =>
    simp only [run, holds_append_of_head? hxy b pos v a]
    split
    · exact h.same _ _ (.intro b hlimit)
    · exact fun _ _ => .none
  | empty => exact h.same _ _ (.intro b hlimit)
  | seq p q ihp ihq =>
    refine ihp ⟨h.left.run q, h.right.run q, ?_⟩ b hlimit
    rintro _ _ ⟨b', hlimit'⟩
    exact ihq h b' hlimit'
  | alt p q ihp ihq => exact (ihp h b hlimit).or (ihq h b hlimit)
  | star p ih =>
    show SameUpTo limit x y (repeatMost p.run next _) (repeatMost p.run other _)
    induction hn : v.length using Nat.strongRecOn generalizing b pos v with
    | ind n ihn =>
      rw [repeatMost_eq, repeatMost_eq]
      refine SameUpTo.or (ih (twinGoals_after (h.left.run (.star p)) (h.right.run (.star p)) ?_) b
        hlimit) (h.same _ _ (.intro b hlimit))
      intro b' pos' u hlimit' hlt
      exact ihn _ (hn ▸ hlt) b' hlimit' rfl
  | lazyStar p ih =>
    show SameUpTo limit x y (repeatLeast p.run next _) (repeatLeast p.run other _)
    induction hn : v.length using Nat.strongRecOn generalizing b pos v with
    | ind n ihn =>
      rw [repeatLeast_eq, repeatLeast_eq]
      refine SameUpTo.or (h.same _ _ (.intro b hlimit)) (ih (twinGoals_after
        (h.left.run (.lazyStar p)) (h.right.run (.lazyStar p)) ?_) b hlimit)
      intro b' pos' u hlimit' hlt
      exact ihn _ (hn ▸ hlt) b' hlimit' rfl
  | group g p ih =>
    refine SameUpTo.map (ih ⟨h.left.closed g, h.right.closed g, ?_⟩ b hlimit) (fun _ => rfl)
      (fun _ => rfl) ?_
    · rintro _ _ ⟨b', hlimit'⟩
      refine SameUpTo.map (h.same _ _ (.intro b' hlimit')) (fun _ => rfl) (fun _ => rfl) ?_
      intro e f hef
      exact ⟨hef.stop, .cons (.closed g (hlimit' ▸ Nat.le_add_right _ _)) hef.marks⟩
    · intro e f hef
      exact ⟨hef.stop, .cons (.opened g hlimit) hef.marks⟩

end

end Pattern

-- ---------------------------------------------------------------------------
-- Matches in texts that part
-- ---------------------------------------------------------------------------

/-- Where a group stands and what it matched. -/
def Capture.reading (c : Capture) : Span × Text := (c.span, c.text)

/-- Matches that say the same, what one group matched left aside. -/
structure Match.AgreesBut {γ : Type} [DecidableEq γ] (hidden : γ) (m n : Match γ) : Prop where
  start : m.whole.start = n.whole.start
  stop : m.whole.stop = n.whole.stop
  last : m.whole.text.getLast? = n.whole.text.getLast?
  parts : ∀ g, g ≠ hidden → (m.get? g).map Capture.reading = (n.get? g).map Capture.reading

namespace Match

variable {γ : Type} [DecidableEq γ] {hidden g : γ} {m n : Match γ}

theorem AgreesBut.refl (hidden : γ) (m : Match γ) : m.AgreesBut hidden m :=
  ⟨rfl, rfl, rfl, fun _ _ => rfl⟩

theorem AgreesBut.symm (h : m.AgreesBut hidden n) : n.AgreesBut hidden m :=
  ⟨h.start.symm, h.stop.symm, h.last.symm, fun g hg => (h.parts g hg).symm⟩

theorem AgreesBut.exists_get? (h : m.AgreesBut hidden n) (hg : g ≠ hidden) {c : Capture}
    (hc : m.get? g = some c) :
    ∃ c', n.get? g = some c' ∧ c'.start = c.start ∧ c'.stop = c.stop ∧ c'.text = c.text := by
  have hparts := h.parts g hg
  rw [hc, Option.map_some, eq_comm, Option.map_eq_some_iff] at hparts
  obtain ⟨c', hc', hread⟩ := hparts
  simp only [Capture.reading, Capture.span, Prod.mk.injEq, Span.mk.injEq] at hread
  exact ⟨c', hc', hread.1.1, hread.1.2, hread.2⟩

theorem AgreesBut.text_eq (h : m.AgreesBut hidden n) (hg : g ≠ hidden) : m.text g = n.text g := by
  have hparts := congrArg (Option.map Prod.snd) (h.parts g hg)
  simp only [Option.map_map] at hparts
  exact congrArg (Option.getD · []) hparts

/-- The ends of a group are ends of the match. -/
theorem exists_mem_marks_of_get? {c : Capture} (h : m.get? g = some c) :
    Mark.opened g c.start c.tail ∈ m.marks ∧ Mark.closed g c.stop ∈ m.marks := by
  unfold get? at h
  split at h
  · rename_i start tail stop hopen hclose
    obtain rfl := Option.some.inj h
    refine ⟨?_, ?_⟩
    · obtain ⟨mark, hmark, hfound⟩ := List.exists_of_findSome?_eq_some hopen
      cases mark with
      | opened k pos rest =>
        by_cases hk : k = g
        · simp only [hk, ↓reduceIte, Option.some.injEq, Prod.mk.injEq] at hfound
          obtain ⟨rfl, rfl⟩ := hfound
          rwa [hk] at hmark
        · simp [hk] at hfound
      | closed k pos => cases hfound
    · obtain ⟨mark, hmark, hfound⟩ := List.exists_of_findSome?_eq_some hclose
      cases mark with
      | opened k pos rest => cases hfound
      | closed k pos =>
        by_cases hk : k = g
        · simp only [hk, ↓reduceIte, Option.some.injEq] at hfound
          obtain rfl := hfound
          rwa [hk] at hmark
        · simp [hk] at hfound
  · cases h

section

variable {limit : Nat} {x y : Text} {ms ns : List (Mark γ)} {v w : Capture}

theorem opening?_of_twins (h : List.Forall₂ (Pattern.TwinMarks limit x y) ms ns) (g : γ) :
    Option.Rel (fun a b : Nat × Text => a.1 = b.1 ∧
        ∃ u, a.1 + Text.byteLength u = limit ∧ a.2 = u ++ x ∧ b.2 = u ++ y)
      (opening? ⟨v, ms⟩ g) (opening? ⟨w, ns⟩ g) := by
  induction h with
  | nil => exact .none
  | cons hmark _ ih =>
    cases hmark with
    | opened k hlimit =>
      by_cases hk : k = g
      · simp only [opening?, List.findSome?_cons, hk, ↓reduceIte]
        exact .some ⟨rfl, _, hlimit, rfl, rfl⟩
      · simpa only [opening?, List.findSome?_cons, hk, ↓reduceIte] using ih
    | closed k hle => exact ih

theorem closing?_of_twins (h : List.Forall₂ (Pattern.TwinMarks limit x y) ms ns) (g : γ) :
    closing? ⟨v, ms⟩ g = closing? ⟨w, ns⟩ g ∧ ∀ stop ∈ closing? ⟨v, ms⟩ g, stop ≤ limit := by
  induction h with
  | nil => exact ⟨rfl, by simp [closing?]⟩
  | cons hmark _ ih =>
    cases hmark with
    | opened k hlimit => exact ih
    | closed k hle =>
      by_cases hk : k = g
      · simp only [closing?, List.findSome?_cons, hk, ↓reduceIte]
        simpa using hle
      · simpa only [closing?, List.findSome?_cons, hk, ↓reduceIte] using ih

/-- A match that keeps to the common part of two texts says the same in both. -/
theorem agreesBut_of_twins {r s : Place} {e f : Ending γ} (hplaces : Pattern.Twins limit x y r s)
    (h : Pattern.TwinEndings limit x y e f) (hstop : e.stop ≤ limit) (hidden : γ) :
    (Pattern.matchOf r e).AgreesBut hidden (Pattern.matchOf s f) := by
  have hcut : ∀ {n : Nat} {u : Text}, n ≤ Text.byteLength u →
      Text.takeBytes n (u ++ x) = Text.takeBytes n (u ++ y) := fun hn => by
    rw [Text.takeBytes_append_of_le hn, Text.takeBytes_append_of_le hn]
  obtain ⟨b, hlimit⟩ := hplaces
  rename_i pos u
  refine ⟨rfl, h.stop, ?_, fun g _ => ?_⟩
  · have hle : e.stop - pos ≤ Text.byteLength u := by omega
    simp only [Pattern.matchOf, Capture.text, ← h.stop, hcut hle]
  · have hopen := @opening?_of_twins _ _ _ _ _ _ _ ⟨pos, e.stop, u ++ x⟩
      ⟨pos, f.stop, u ++ y⟩ h.marks g
    obtain ⟨hclose, hle⟩ :=
      @closing?_of_twins _ _ _ _ _ _ _ ⟨pos, e.stop, u ++ x⟩ ⟨pos, f.stop, u ++ y⟩ h.marks g
    simp only [Pattern.matchOf, get?, ← hclose]
    generalize opening? ⟨⟨pos, e.stop, u ++ x⟩, e.marks⟩ g = found at hopen ⊢
    generalize opening? ⟨⟨pos, f.stop, u ++ y⟩, f.marks⟩ g = other at hopen ⊢
    cases hopen with
    | none => rfl
    | @some found other hfound =>
      obtain ⟨start, tail⟩ := found
      obtain ⟨start', tail'⟩ := other
      obtain ⟨rfl, v, hv, rfl, rfl⟩ := hfound
      cases hstop : closing? ⟨⟨pos, e.stop, u ++ x⟩, e.marks⟩ g with
      | none => rfl
      | some stop =>
        have hend := hle stop (by rw [hstop]; rfl)
        have hlen : stop - start ≤ Text.byteLength v := by
          simp only at hv
          omega
        simp only [Option.map_some, Capture.reading, Capture.span, Capture.text, hcut hlen]

end

end Match

namespace Pattern

variable {γ : Type}

theorem eq_none_or_exists_of_rel {α β : Type} {R : α → β → Prop} {a : Option α} {b : Option β}
    (h : Option.Rel R a b) :
    (a = none ∧ b = none) ∨ ∃ x y, a = some x ∧ b = some y ∧ R x y := by
  cases h with
  | none => exact .inl ⟨rfl, rfl⟩
  | some hxy => exact .inr ⟨_, _, rfl, rfl, hxy⟩

/-- The successive matches in a text that starts at offset `pos` after the character `b`, none of
them before the offset `resume`. -/
def matchesAfter (p : Pattern γ) (resume : Nat) (b : Option Char) (pos : Nat) (s : Text) :
    List (Match γ) :=
  disjoint resume ((places b pos s).filterMap p.matchAt?)

section

variable {p : Pattern γ} {resume pos : Nat} {b : Option Char} {c : Char} {s : Text}

theorem matchesAfter_eq_matchesFrom (h : resume ≤ pos) :
    p.matchesAfter resume b pos s = p.matchesFrom b pos s := disjoint_eq_matchesFrom p b s h

theorem matchesAfter_of_none (h : p.run done ⟨b, pos, c :: s⟩ = none) :
    p.matchesAfter resume b pos (c :: s) =
      p.matchesAfter resume (some c) (pos + c.utf8Size) s := by
  rw [matchesAfter, places, List.filterMap_cons, matchAt?, h]
  rfl

theorem matchesAfter_of_lt (h : pos < resume) :
    p.matchesAfter resume b pos (c :: s) =
      p.matchesAfter resume (some c) (pos + c.utf8Size) s := by
  rw [matchesAfter, places, List.filterMap_cons]
  cases hm : p.matchAt? ⟨b, pos, c :: s⟩ with
  | none => rfl
  | some m =>
    have hstart : m.whole.start = pos := start_of_matchAt? hm
    rw [disjoint, if_pos (hstart ▸ h)]
    rfl

theorem matchesAfter_of_some (h : resume ≤ pos) {e : Ending γ}
    (he : p.run done ⟨b, pos, c :: s⟩ = some e) :
    p.matchesAfter resume b pos (c :: s) = matchOf ⟨b, pos, c :: s⟩ e ::
      p.matchesAfter e.stop (some c) (pos + c.utf8Size) s := by
  rw [matchesAfter, places, List.filterMap_cons, matchAt?, he, Option.map_some, disjoint]
  exact if_neg (Nat.not_lt_of_le h)

/-- Matches that start before a place are passed over when the search resumes behind it. -/
theorem matchesAfter_append {w t : Text} (h : pos + Text.byteLength w ≤ resume) :
    p.matchesAfter resume b pos (w ++ t) =
      p.matchesAfter resume (Text.lastOr b w) (pos + Text.byteLength w) t := by
  induction w generalizing b pos with
  | nil => rfl
  | cons c cs ih =>
    have hsize := c.utf8Size_pos
    rw [Text.byteLength_cons, ← Nat.add_assoc] at h ⊢
    rw [List.cons_append, matchesAfter_of_lt (by omega), ih h, Text.lastOr_cons]

end

section

variable [DecidableEq γ] {p : Pattern γ} {limit : Nat} {x y : Text}

/-- Matches in the common part of two texts that part are found alike, when none of those found
goes beyond it. The search resumes at an offset in the common part. -/
theorem exists_matchesAfter_of_parting (hxy : x.head? = y.head?) (hidden : γ) {b : Option Char}
    {pos resume : Nat} {v : Text} (hlimit : pos + Text.byteLength v = limit)
    (hresume : resume ≤ limit)
    (hx : ∀ m ∈ p.matchesAfter resume b pos (v ++ x), m.whole.start < limit → m.whole.stop ≤ limit)
    (hy : ∀ m ∈ p.matchesAfter resume b pos (v ++ y),
      m.whole.start < limit → m.whole.stop ≤ limit) :
    ∃ ms ns, List.Forall₂ (Match.AgreesBut hidden) ms ns ∧ (∀ m ∈ ms, m.whole.start < limit) ∧
      p.matchesAfter resume b pos (v ++ x) = ms ++ p.matchesFrom (Text.lastOr b v) limit x ∧
      p.matchesAfter resume b pos (v ++ y) = ns ++ p.matchesFrom (Text.lastOr b v) limit y := by
  induction v generalizing b pos resume with
  | nil =>
    obtain rfl : pos = limit := by simpa using hlimit
    exact ⟨[], [], .nil, by simp, matchesAfter_eq_matchesFrom hresume,
      matchesAfter_eq_matchesFrom hresume⟩
  | cons c cs ih =>
    have hsize := c.utf8Size_pos
    have hnext : pos + c.utf8Size + Text.byteLength cs = limit := by
      rw [← hlimit, Text.byteLength_cons, Nat.add_assoc]
    have hbefore : pos < limit := by omega
    simp only [List.cons_append] at hx hy ⊢
    by_cases hskip : pos < resume
    · rw [matchesAfter_of_lt hskip] at hx hy ⊢
      rw [matchesAfter_of_lt hskip]
      exact ih hnext hresume hx hy
    · have hkeep := Nat.le_of_not_lt hskip
      -- what is found at this place keeps to the common part, so it is found in both texts
      have hsame : SameUpTo limit x y (p.run done ⟨b, pos, c :: (cs ++ x)⟩)
          (p.run done ⟨b, pos, c :: (cs ++ y)⟩) :=
        (twinGoals_run hxy p (twinGoals_done limit x y)).same _ _ (.intro b hlimit)
      have hrel := hsame
        (fun e he => hx _ (by rw [matchesAfter_of_some hkeep he]; exact List.mem_cons_self) hbefore)
        (fun e he => hy _ (by rw [matchesAfter_of_some hkeep he]; exact List.mem_cons_self) hbefore)
      rcases eq_none_or_exists_of_rel hrel with ⟨he, hf⟩ | ⟨e, f, he, hf, hef⟩
      · rw [matchesAfter_of_none he] at hx ⊢
        rw [matchesAfter_of_none hf] at hy ⊢
        exact ih hnext hresume hx hy
      · rw [matchesAfter_of_some hkeep he] at hx ⊢
        rw [matchesAfter_of_some hkeep hf, ← hef.stop] at hy ⊢
        have hstop : e.stop ≤ limit := hx _ List.mem_cons_self hbefore
        obtain ⟨ms, ns, hms, hstart, hxs, hys⟩ := ih hnext hstop
          (fun m hm => hx m (List.mem_cons_of_mem _ hm))
          (fun m hm => hy m (List.mem_cons_of_mem _ hm))
        refine ⟨_ :: ms, _ :: ns, .cons ?_ hms, ?_, by rw [hxs]; rfl, by rw [hys]; rfl⟩
        · exact Match.agreesBut_of_twins (.intro b hlimit) hef hstop hidden
        · exact List.forall_mem_cons.mpr ⟨hbefore, hstart⟩

end

-- ---------------------------------------------------------------------------
-- Texts that differ in one block
-- ---------------------------------------------------------------------------

theorem mem_of_mem_disjoint {resume : Nat} {m : Match γ} {ms : List (Match γ)}
    (h : m ∈ disjoint resume ms) : m ∈ ms := by
  induction ms generalizing resume with
  | nil => cases h
  | cons n ms ih =>
    rw [disjoint] at h
    split at h
    · exact List.mem_cons_of_mem _ (ih h)
    · rcases List.mem_cons.mp h with rfl | h
      · exact List.mem_cons_self
      · exact List.mem_cons_of_mem _ (ih h)

theorem exists_run_of_mem_matchesAfter {p : Pattern γ} {resume pos : Nat} {b : Option Char}
    {s : Text}
    {m : Match γ} (h : m ∈ p.matchesAfter resume b pos s) :
    ∃ r e, pos ≤ r.pos ∧ p.run done r = some e ∧ m = matchOf r e := by
  obtain ⟨r, hr, hm⟩ := List.mem_filterMap.mp (mem_of_mem_disjoint h)
  obtain ⟨e, he, rfl⟩ := Option.map_eq_some_iff.mp hm
  exact ⟨r, e, le_pos_of_mem_places hr, he, rfl⟩

theorem le_start_of_mem_matchesAfter {p : Pattern γ} {resume pos : Nat} {b : Option Char} {s : Text}
    {m : Match γ} (h : m ∈ p.matchesAfter resume b pos s) : pos ≤ m.whole.start := by
  obtain ⟨r, e, hr, _, rfl⟩ := exists_run_of_mem_matchesAfter h
  exact hr

theorem start_le_stop_of_mem_matchesAfter {p : Pattern γ} {resume pos : Nat} {b : Option Char}
    {s : Text} {m : Match γ} (h : m ∈ p.matchesAfter resume b pos s) :
    m.whole.start ≤ m.whole.stop := by
  obtain ⟨r, e, _, he, rfl⟩ := exists_run_of_mem_matchesAfter h
  exact (forward_done.run p r e he).1

/-- A match at the start of a block that ends behind it is followed by matches behind the block. -/
theorem matchesFrom_of_some {p : Pattern γ} {b : Option Char} {c : Char} {start stop : Nat}
    {ds after : Text} {e : Ending γ}
    (hd : start + Text.byteLength (c :: ds) = stop)
    (he : p.run done ⟨b, start, c :: ds ++ after⟩ = some e) (hstop : stop ≤ e.stop) :
    p.matchesFrom b start (c :: ds ++ after) = matchOf ⟨b, start, c :: ds ++ after⟩ e ::
      p.matchesAfter e.stop (Text.lastOr b (c :: ds)) stop after := by
  have hfirst := @matchesAfter_of_some _ p start start b c (ds ++ after) (Nat.le_refl _) e he
  rw [matchesAfter_eq_matchesFrom (Nat.le_refl _)] at hfirst
  rw [Text.byteLength_cons, ← Nat.add_assoc] at hd
  rw [matchesAfter_append (by omega), hd] at hfirst
  exact hfirst

end Pattern

namespace Match

variable {γ : Type} [DecidableEq γ]

/-- Whether a match ends behind an offset and its groups but one lie behind it. -/
structure BehindBut (hidden : γ) (offset : Nat) (m : Match γ) : Prop where
  stop : offset ≤ m.whole.stop
  parts : ∀ g, g ≠ hidden → ∀ c, m.get? g = some c → offset ≤ c.start ∧ offset ≤ c.stop

theorem AgreesBut.behindBut {hidden : γ} {m n : Match γ} (h : m.AgreesBut hidden n) {offset : Nat}
    (hm : m.BehindBut hidden offset) : n.BehindBut hidden offset := by
  refine ⟨h.stop ▸ hm.stop, fun g hg c hc => ?_⟩
  obtain ⟨c', hc', hstart, hstop, _⟩ := h.symm.exists_get? hg hc
  rw [← hstart, ← hstop]
  exact hm.parts g hg c' hc'

/-- The groups of a match lie inside it. -/
theorem inside_of_get? {p : Pattern γ} {resume pos : Nat} {b : Option Char} {s : Text} {m : Match γ}
    (hm : m ∈ p.matchesAfter resume b pos s) {g : γ} {c : Capture} (hc : m.get? g = some c) :
    m.whole.start ≤ c.start ∧ c.start ≤ m.whole.stop ∧ m.whole.start ≤ c.stop ∧
      c.stop ≤ m.whole.stop := by
  obtain ⟨⟨b, at_, s⟩, e, _, he, rfl⟩ := Pattern.exists_run_of_mem_matchesAfter hm
  obtain ⟨hopen, hclose⟩ := exists_mem_marks_of_get? hc
  obtain ⟨w, t, f, marks, _, _, hf, rfl, hin, _⟩ := Pattern.goesOn_of_run he
  obtain rfl := Option.some.inj hf
  simp only [Pattern.matchOf, Ending.marked, List.append_nil] at hopen hclose ⊢
  have hstart := hin _ hopen
  have hstop := hin _ hclose
  simp only [Mark.pos] at hstart hstop
  exact ⟨hstart.1, hstart.2, hstop.1, hstop.2⟩

theorem behindBut_of_mem {p : Pattern γ} {resume pos : Nat} {b : Option Char} {s : Text}
    {m : Match γ}
    (hm : m ∈ p.matchesAfter resume b pos s) (hidden : γ) : m.BehindBut hidden pos := by
  have hle := Pattern.le_start_of_mem_matchesAfter hm
  refine ⟨Nat.le_trans hle (Pattern.start_le_stop_of_mem_matchesAfter hm), fun g _ c hc => ?_⟩
  have hin := inside_of_get? hm hc
  omega

/-- Matches in two texts that differ between two offsets: those before agree, some are inside, and
those that start with the block or after it agree. -/
inductive Around (hidden : γ) (block : Span) : List (Match γ) → List (Match γ) → Prop
  | intro {front front' inner inner' rest rest' : List (Match γ)}
      (front_agree : List.Forall₂ (AgreesBut hidden) front front')
      (front_before : ∀ m ∈ front, m.whole.start < block.start)
      (inner_inside : ∀ m ∈ inner, block.start < m.whole.start ∧ m.whole.start < block.stop)
      (inner_inside' : ∀ m ∈ inner', block.start < m.whole.start ∧ m.whole.start < block.stop)
      (rest_agree : List.Forall₂ (AgreesBut hidden) rest rest')
      (rest_behind : ∀ m ∈ rest, block.start ≤ m.whole.start ∧ m.BehindBut hidden block.stop) :
      Around hidden block (front ++ (inner ++ rest)) (front' ++ (inner' ++ rest'))

theorem flatMap_eq_of_forall₂ {α β δ : Type} {R : α → β → Prop} {as : List α} {bs : List β}
    {f : α → List δ} {g : β → List δ} (h : List.Forall₂ R as bs)
    (hfg : ∀ a ∈ as, ∀ b ∈ bs, R a b → f a = g b) : as.flatMap f = bs.flatMap g := by
  induction h with
  | nil => rfl
  | cons hab _ ih =>
    rw [List.flatMap_cons, List.flatMap_cons, hfg _ List.mem_cons_self _ List.mem_cons_self hab,
      ih fun a ha b hb => hfg a (List.mem_cons_of_mem _ ha) b (List.mem_cons_of_mem _ hb)]

/-- A match that starts with the block is behind it. -/
theorem Around.behindBut_of_start_eq {hidden : γ} {block : Span} {ms ns : List (Match γ)}
    {m : Match γ}
    (h : Around hidden block ms ns) (hm : m ∈ ms) (hstart : m.whole.start = block.start) :
    m.BehindBut hidden block.stop := by
  obtain ⟨_, hbefore, hin, _, _, hbehind⟩ := h
  rcases List.mem_append.mp hm with hm | hm
  · exact absurd hstart (Nat.ne_of_lt (hbefore m hm))
  · rcases List.mem_append.mp hm with hm | hm
    · exact absurd hstart (Nat.ne_of_gt (hin m hm).1)
    · exact (hbehind m hm).2

/-- What is read off matches around a block is the same, when nothing is read off matches inside. -/
theorem Around.flatMap_eq {β : Type} {hidden : γ} {block : Span} {ms ns : List (Match γ)}
    {f g : Match γ → List β} (h : Around hidden block ms ns)
    (hfront : ∀ m ∈ ms, ∀ n ∈ ns, m.AgreesBut hidden n → m.whole.start < block.start → f m = g n)
    (hinner : ∀ m ∈ ms, block.start < m.whole.start → m.whole.start < block.stop → f m = [])
    (hinner' : ∀ n ∈ ns, block.start < n.whole.start → n.whole.start < block.stop → g n = [])
    (hrest : ∀ m ∈ ms, ∀ n ∈ ns, m.AgreesBut hidden n → block.start ≤ m.whole.start →
      m.BehindBut hidden block.stop → f m = g n) : ms.flatMap f = ns.flatMap g := by
  obtain ⟨hagree, hbefore, hin, hin', hagree', hbehind⟩ := h
  rename_i front front' inner inner' rest rest'
  have hfronts : front.flatMap f = front'.flatMap g :=
    flatMap_eq_of_forall₂ hagree fun m hm n hn hmn =>
      hfront m (by simp [hm]) n (by simp [hn]) hmn (hbefore m hm)
  have hinners : inner.flatMap f = [] := List.flatMap_eq_nil_iff.mpr fun m hm =>
    hinner m (by simp [hm]) (hin m hm).1 (hin m hm).2
  have hinners' : inner'.flatMap g = [] := List.flatMap_eq_nil_iff.mpr fun n hn =>
    hinner' n (by simp [hn]) (hin' n hn).1 (hin' n hn).2
  have hrests : rest.flatMap f = rest'.flatMap g :=
    flatMap_eq_of_forall₂ hagree' fun m hm n hn hmn =>
      hrest m (by simp [hm]) n (by simp [hn]) hmn (hbehind m hm).1 (hbehind m hm).2
  simp only [List.flatMap_append, hfronts, hinners, hinners', hrests]

end Match

namespace Pattern

variable {γ : Type} [DecidableEq γ] {p : Pattern γ} {hidden : γ}

/-- Whether the matches of a pattern in a text leave a block to itself: none that starts before it
reaches into it, and none that starts inside leaves it. -/
def Clear (p : Pattern γ) (s : Text) (block : Span) : Prop :=
  ∀ m ∈ p.allMatches s, (m.whole.start < block.start → m.whole.stop ≤ block.start) ∧
    (block.start < m.whole.start → m.whole.start < block.stop → m.whole.stop ≤ block.stop)

instance (p : Pattern γ) (s : Text) (block : Span) : Decidable (p.Clear s block) :=
  inferInstanceAs (Decidable (∀ m ∈ p.allMatches s, _))

/-- How the runs from the start of two blocks compare: they agree and end behind the blocks. -/
def AgreeAt (p : Pattern γ) (hidden : γ) (stop : Nat) (r s : Place) : Prop :=
  Option.Rel (fun e f => (matchOf r e).AgreesBut hidden (matchOf s f) ∧
    (matchOf r e).BehindBut hidden stop) (p.run done r) (p.run done s)

/-- The matches that start inside a block, and those after it. -/
theorem exists_inner (hidden : γ) {b : Option Char} {pos stop : Nat} {w t : Text}
    (hstop : pos + Text.byteLength w = stop)
    (h : ∀ m ∈ p.matchesFrom b pos (w ++ t), m.whole.start < stop → m.whole.stop ≤ stop) :
    ∃ inner, p.matchesFrom b pos (w ++ t) = inner ++ p.matchesFrom (Text.lastOr b w) stop t ∧
      ∀ m ∈ inner, pos ≤ m.whole.start ∧ m.whole.start < stop := by
  have hle : pos ≤ stop := hstop ▸ Nat.le_add_right _ _
  obtain ⟨inner, _, _, hbefore, heq, _⟩ :=
    exists_matchesAfter_of_parting (rfl : t.head? = t.head?) hidden hstop hle h h
  refine ⟨inner, heq, fun m hm => ⟨?_, hbefore m hm⟩⟩
  exact le_start_of_mem_matchesAfter (heq ▸ List.mem_append_left _ hm)

section

variable {before d d' after : Text} {c : Char} {start stop : Nat}

/-- Where a pattern does not match at the start of a block, its matches there are inside. -/
theorem exists_inner_of_none (hidden : γ) {b : Option Char} {ds : Text}
    (hstop : start + Text.byteLength (c :: ds) = stop)
    (hnone : p.run done ⟨b, start, c :: ds ++ after⟩ = none)
    (h : ∀ m ∈ p.matchesFrom b start (c :: ds ++ after), start < m.whole.start →
      m.whole.start < stop → m.whole.stop ≤ stop) :
    ∃ inner, p.matchesFrom b start (c :: ds ++ after) =
        inner ++ p.matchesFrom (Text.lastOr b (c :: ds)) stop after ∧
      ∀ m ∈ inner, start < m.whole.start ∧ m.whole.start < stop := by
  have hsize := c.utf8Size_pos
  have heq : p.matchesFrom b start (c :: ds ++ after) =
      p.matchesFrom (some c) (start + c.utf8Size) (ds ++ after) := by
    have hskip := @matchesAfter_of_none _ p start start b c (ds ++ after) hnone
    rw [matchesAfter_eq_matchesFrom (Nat.le_refl _),
      matchesAfter_eq_matchesFrom (Nat.le_add_right _ _)] at hskip
    exact hskip
  rw [heq] at h ⊢
  rw [Text.byteLength_cons, ← Nat.add_assoc] at hstop
  obtain ⟨inner, hinner, hin⟩ := exists_inner hidden hstop fun m hm hlt => by
    have hle := le_start_of_mem_matchesAfter hm
    exact h m hm (by omega) hlt
  refine ⟨inner, hinner, fun m hm => ?_⟩
  have := hin m hm
  omega

/-- Two texts that differ in one block have the same matches around the block, when the matches
leave it to itself. -/
theorem around_allMatches (hidden : γ) (hstart : Text.byteLength before = start)
    (hd : start + Text.byteLength d = stop) (hd' : start + Text.byteLength d' = stop)
    (hhead : d.head? = some c) (hhead' : d'.head? = some c)
    (hlast : Text.lastOr (Text.lastOr none before) d = Text.lastOr (Text.lastOr none before) d')
    (hat : p.AgreeAt hidden stop ⟨Text.lastOr none before, start, d ++ after⟩
      ⟨Text.lastOr none before, start, d' ++ after⟩)
    (hclear : p.Clear (before ++ (d ++ after)) ⟨start, stop⟩)
    (hclear' : p.Clear (before ++ (d' ++ after)) ⟨start, stop⟩) :
    Match.Around hidden ⟨start, stop⟩ (p.allMatches (before ++ (d ++ after)))
      (p.allMatches (before ++ (d' ++ after))) := by
  obtain ⟨ds, rfl⟩ := List.head?_eq_some_iff.mp hhead
  obtain ⟨ds', rfl⟩ := List.head?_eq_some_iff.mp hhead'
  unfold Clear at hclear hclear'
  simp only [allMatches_eq_matchesFrom] at hclear hclear' ⊢
  have hxy : (c :: ds ++ after).head? = (c :: ds' ++ after).head? := rfl
  obtain ⟨front, front', hagree, hbefore, hx, hy⟩ :=
    exists_matchesAfter_of_parting hxy hidden (by rw [Nat.zero_add]; exact hstart) (Nat.zero_le _)
      (fun m hm => (hclear m hm).1) (fun m hm => (hclear' m hm).1)
  rw [matchesAfter_eq_matchesFrom (Nat.le_refl _)] at hx hy
  rw [hx] at hclear ⊢
  rw [hy] at hclear' ⊢
  rcases eq_none_or_exists_of_rel hat with ⟨he, hf⟩ | ⟨e, f, he, hf, hef, hbehind⟩
  · obtain ⟨inner, hinner, hin⟩ := exists_inner_of_none hidden hd he
      fun m hm => (hclear m (List.mem_append_right _ hm)).2
    obtain ⟨inner', hinner', hin'⟩ := exists_inner_of_none hidden hd' hf
      fun m hm => (hclear' m (List.mem_append_right _ hm)).2
    rw [hinner, hinner', hlast]
    refine .intro hagree hbefore hin hin' (List.forall₂_same.mpr fun m _ => .refl hidden m) ?_
    intro m hm
    have hle := le_start_of_mem_matchesAfter hm
    exact ⟨by simp only; omega, Match.behindBut_of_mem hm hidden⟩
  · -- a match at the start of the block takes the place of those inside
    have hfstop : e.stop = f.stop := hef.stop
    have hstop : stop ≤ e.stop := hbehind.stop
    have hrest := matchesFrom_of_some hd he hstop
    have hrest' := matchesFrom_of_some hd' hf (by omega)
    rw [hlast, hfstop] at hrest
    rw [hrest, hrest']
    refine @Match.Around.intro _ _ hidden ⟨start, stop⟩ front front' [] [] _ _ hagree hbefore
      (by simp) (by simp) (.cons hef (List.forall₂_same.mpr fun m _ => .refl hidden m)) ?_
    intro m hm
    rcases List.mem_cons.mp hm with rfl | hm
    · exact ⟨Nat.le_refl _, hbehind⟩
    · have hle := le_start_of_mem_matchesAfter hm
      exact ⟨by simp only; omega, Match.behindBut_of_mem hm hidden⟩

end

end Pattern

end Typings
