import Mathlib.Computability.Language
import Typings.Pattern.Lemmas
import Typings.Proofs.Text.Bytes

/-!
# What a pattern takes

Rules for following a pattern over a text. Backwards: where a match goes on, the pattern has
consumed a word of its language. Forwards: a pattern *takes* a text at a place when that text is
what it tries first, so that a match goes on from there whenever it can; longest runs and first
alternatives are taken. Main statements: `goesOn_of_run` and `Takes.matchAt?_eq`.
-/

namespace Typings

/-- The last character of a text, or `b` before it when it is empty. -/
def Text.lastOr : (b : Option Char) → Text → Option Char
  | b, [] => b
  | _, c :: cs => lastOr (some c) cs

@[simp] theorem Text.lastOr_nil (b : Option Char) : Text.lastOr b [] = b := rfl

@[simp] theorem Text.lastOr_cons (b : Option Char) (c : Char) (cs : Text) :
    Text.lastOr b (c :: cs) = Text.lastOr (some c) cs := rfl

@[simp] theorem Text.lastOr_append (b : Option Char) (u v : Text) :
    Text.lastOr b (u ++ v) = Text.lastOr (Text.lastOr b u) v := by
  induction u generalizing b with
  | nil => rfl
  | cons c cs ih => exact ih (some c)

/-- The ending with more ends of groups before it. -/
def Ending.marked {γ : Type} (marks : List (Mark γ)) (e : Ending γ) : Ending γ :=
  { e with marks := marks ++ e.marks }

@[simp] theorem Ending.marked_nil {γ : Type} (e : Ending γ) : e.marked [] = e := rfl

/-- The offset of one end of a group. -/
def Mark.pos {γ : Type} : Mark γ → Nat
  | .opened _ pos _ => pos
  | .closed _ pos => pos

@[simp] theorem Capture.text_append (pos : Nat) (w t : Text) :
    Capture.text ⟨pos, pos + Text.byteLength w, w ++ t⟩ = w := by
  simp [Capture.text, Text.takeBytes_append]

namespace Match

variable {γ : Type}

/-- The ends of a group that matched the text `w` at an offset, before the text `t`. -/
def captured (g : γ) (pos : Nat) (w t : Text) : List (Mark γ) :=
  [.opened g pos (w ++ t), .closed g (pos + Text.byteLength w)]

variable [DecidableEq γ] {g h : γ} {pos : Nat} {w t : Text} {whole : Capture}
  {marks : List (Mark γ)}

@[simp] theorem get?_captured :
    get? ⟨whole, captured g pos w t ++ marks⟩ g = some ⟨pos, pos + Text.byteLength w, w ++ t⟩ := by
  simp [get?, opening?, closing?, captured]

theorem get?_captured_of_ne (hne : h ≠ g) :
    get? ⟨whole, captured h pos w t ++ marks⟩ g = get? ⟨whole, marks⟩ g := by
  simp [get?, opening?, closing?, captured, hne]

@[simp] theorem text_captured : text ⟨whole, captured g pos w t ++ marks⟩ g = w := by
  simp [text]

theorem text_captured_of_ne (hne : h ≠ g) :
    text ⟨whole, captured h pos w t ++ marks⟩ g = text ⟨whole, marks⟩ g := by
  rw [text, get?_captured_of_ne hne]
  rfl

@[simp] theorem get?_captured_nil :
    get? ⟨whole, captured g pos w t⟩ g = some ⟨pos, pos + Text.byteLength w, w ++ t⟩ := by
  simp [get?, opening?, closing?, captured]

@[simp] theorem text_captured_nil : text ⟨whole, captured g pos w t⟩ g = w := by simp [text]

theorem get?_captured_nil_of_ne (hne : h ≠ g) : get? ⟨whole, captured h pos w t⟩ g = none := by
  simp [get?, opening?, closing?, captured, hne]

end Match

namespace Pattern

variable {γ : Type}

-- ---------------------------------------------------------------------------
-- Repetitions
-- ---------------------------------------------------------------------------

/-- A round that consumed something is followed by what comes after it. -/
theorem after_append (next : Goal γ) {u : Text} (hne : u ≠ []) (b b' : Option Char) (pos pos' : Nat)
    (t : Text) : after ⟨b, pos, u ++ t⟩ next ⟨b', pos', t⟩ = next ⟨b', pos', t⟩ := by
  refine after_of_lt next ?_
  have := List.length_pos_of_ne_nil hne
  simp only [List.length_append]
  omega

/-- Whether a goal repeats rounds before it goes on: it goes on at once, or after a round and itself
from a later place on. Which of the two it tries first is left open. -/
def Repeats (round : Goal γ → Goal γ) (next rep : Goal γ) : Prop :=
  ∀ r e, rep r = some e → next r = some e ∨ round (after r rep) r = some e

theorem repeats_repeatMost (round : Goal γ → Goal γ) (next : Goal γ) :
    Repeats round next (repeatMost round next) := by
  intro r e he
  rw [repeatMost_eq] at he
  exact (Option.or_eq_some_iff.mp he).symm.imp And.right id

theorem repeats_repeatLeast (round : Goal γ → Goal γ) (next : Goal γ) :
    Repeats round next (repeatLeast round next) := by
  intro r e he
  rw [repeatLeast_eq] at he
  exact (Option.or_eq_some_iff.mp he).imp id And.right

/-- What holds where a repetition goes on, and carries over a round, holds of the repetition. -/
theorem Repeats.induction {round : Goal γ → Goal γ} {next rep : Goal γ} (h : Repeats round next rep)
    {Q : Place → Ending γ → Prop} (stop : ∀ r e, next r = some e → Q r e)
    (rounds : ∀ r e, (∀ q f, q.rest.length < r.rest.length → rep q = some f → Q q f) →
      round (after r rep) r = some e → Q r e) :
    ∀ r e, rep r = some e → Q r e := by
  intro r e he
  induction hn : r.rest.length using Nat.strongRecOn generalizing r e with
  | ind n ih =>
    rcases h r e he with he | he
    · exact stop r e he
    · exact rounds r e (fun q f hlt hf => ih _ (hn ▸ hlt) q f hf rfl) he

-- ---------------------------------------------------------------------------
-- Words
-- ---------------------------------------------------------------------------

section Words

open Computability

/-- The texts that a pattern can consume, conditions on places left aside. -/
def language : Pattern γ → Language Char
  | .char accepts => {w | ∃ c, accepts c = true ∧ w = [c]}
  | .anchor _ => 1
  | .empty => 1
  | .seq p q => p.language * q.language
  | .alt p q => p.language + q.language
  | .star p => p.language∗
  | .lazyStar p => p.language∗
  | .group _ p => p.language

/-- Whether a pattern has no groups and no conditions on places. -/
def isPlain : Pattern γ → Bool
  | .char _ => true
  | .anchor _ => false
  | .empty => true
  | .seq p q => p.isPlain && q.isPlain
  | .alt p q => p.isPlain && q.isPlain
  | .star p => p.isPlain
  | .lazyStar p => p.isPlain
  | .group _ _ => false

variable {p q : Pattern γ} {w : Text}

theorem mem_language_seq :
    w ∈ (p ++ q).language ↔ ∃ u ∈ p.language, ∃ v ∈ q.language, u ++ v = w :=
  Language.mem_mul

theorem append_mem_language_star {u v : Text} (hu : u ∈ p.language) (hv : v ∈ (star p).language) :
    u ++ v ∈ (star p).language := by
  have hle : p.language * (star p).language ≤ (star p).language := mul_kstar_le_kstar
  exact hle (Language.append_mem_mul hu hv)

/-- A repetition that takes something takes a first round and further ones. -/
theorem exists_round_of_mem_language_star (hw : w ∈ (star p).language) (hne : w ≠ []) :
    ∃ first others, w = first ++ List.flatten others ∧ first ∈ p.language ∧
      ∀ v ∈ others, v ∈ p.language := by
  obtain ⟨rounds, rfl, hrounds⟩ := Language.mem_kstar.mp hw
  cases rounds with
  | nil => exact absurd rfl hne
  | cons first others =>
    exact ⟨first, others, List.flatten_cons, hrounds first (by simp), fun v hv =>
      hrounds v (by simp [hv])⟩

theorem mem_language_star_char {accepts : Char → Bool} :
    w ∈ (star (char accepts : Pattern γ)).language ↔ ∀ c ∈ w, accepts c = true := by
  constructor
  · intro h
    obtain ⟨words, rfl, hwords⟩ := Language.mem_kstar.mp h
    intro c hc
    obtain ⟨v, hv, hcv⟩ := List.mem_flatten.mp hc
    obtain ⟨d, hd, rfl⟩ := hwords v hv
    obtain rfl : c = d := by simpa using hcv
    exact hd
  · intro h
    refine Language.mem_kstar.mpr ⟨w.map ([·]),
      by rw [← List.flatMap_def, List.flatMap_singleton'], ?_⟩
    intro v hv
    obtain ⟨c, hc, rfl⟩ := List.mem_map.mp hv
    exact ⟨c, h c hc, rfl⟩

theorem mem_language_plus_char {accepts : Char → Bool} :
    w ∈ (plus (char accepts : Pattern γ)).language ↔ w ≠ [] ∧ ∀ c ∈ w, accepts c = true := by
  rw [plus, mem_language_seq]
  constructor
  · rintro ⟨_, ⟨c, hc, rfl⟩, v, hv, rfl⟩
    have hv := mem_language_star_char.mp hv
    simp_all
  · rintro ⟨hne, h⟩
    obtain ⟨c, cs, rfl⟩ := List.exists_cons_of_ne_nil hne
    exact ⟨[c], ⟨c, h c (by simp), rfl⟩, cs,
      mem_language_star_char.mpr fun d hd => h d (by simp [hd]), rfl⟩

theorem mem_language_lit {s : String} : w ∈ (lit s : Pattern γ).language ↔ w = s.toList := by
  suffices h : ∀ (cs : Text) (p : Pattern γ), w ∈ (cs.foldl (fun p c => .seq p (.char (· = c)))
      p).language ↔ ∃ u ∈ p.language, w = u ++ cs by
    rw [lit, h]
    constructor
    · rintro ⟨_, rfl, hw⟩
      exact hw
    · exact fun hw => ⟨[], rfl, hw⟩
  intro cs
  induction cs with
  | nil => simp
  | cons c cs ih =>
    intro p
    rw [List.foldl_cons, ih]
    constructor
    · rintro ⟨_, ⟨u, hu, _, ⟨d, hd, rfl⟩, rfl⟩, rfl⟩
      obtain rfl : d = c := by simpa using hd
      exact ⟨u, hu, by simp⟩
    · rintro ⟨u, hu, rfl⟩
      exact ⟨u ++ [c], Language.append_mem_mul hu ⟨c, by simp, rfl⟩, by simp⟩

theorem mem_language_oneOf {words : List String} :
    w ∈ (oneOf words : Pattern γ).language ↔ ∃ v ∈ words, w = v.toList := by
  induction words with
  | nil =>
    refine ⟨?_, by simp⟩
    rintro ⟨c, hc, _⟩
    simp at hc
  | cons v rest ih =>
    cases rest with
    | nil => simpa [oneOf] using mem_language_lit
    | cons u us =>
      rw [List.exists_mem_cons_iff, ← ih, ← mem_language_lit]
      rfl

/-- Whether every character that a pattern can consume has a property. -/
def Within (P : Char → Prop) : Pattern γ → Prop
  | .char accepts => ∀ c, accepts c = true → P c
  | .anchor _ => True
  | .empty => True
  | .seq p q => p.Within P ∧ q.Within P
  | .alt p q => p.Within P ∧ q.Within P
  | .star p => p.Within P
  | .lazyStar p => p.Within P
  | .group _ p => p.Within P

theorem forall_mem_kstar {P : Char → Prop} {l : Language Char}
    (h : ∀ w ∈ l, ∀ c ∈ w, P c) : ∀ w ∈ l∗, ∀ c ∈ w, P c := by
  rintro _ hw c hc
  obtain ⟨words, rfl, hwords⟩ := Language.mem_kstar.mp hw
  obtain ⟨v, hv, hcv⟩ := List.mem_flatten.mp hc
  exact h v (hwords v hv) c hcv

theorem Within.of_mem_language {P : Char → Prop} (hp : p.Within P) :
    ∀ w ∈ p.language, ∀ c ∈ w, P c := by
  induction p with
  | char accepts =>
    rintro _ ⟨d, hd, rfl⟩ c hc
    obtain rfl : c = d := by simpa using hc
    exact hp c hd
  | anchor a =>
    rintro _ rfl c hc
    simp at hc
  | empty =>
    rintro _ rfl c hc
    simp at hc
  | seq p q ihp ihq =>
    rintro _ ⟨u, hu, v, hv, rfl⟩ c hc
    rcases List.mem_append.mp hc with hc | hc
    · exact ihp hp.1 u hu c hc
    · exact ihq hp.2 v hv c hc
  | alt p q ihp ihq =>
    rintro w (hw | hw) c hc
    · exact ihp hp.1 w hw c hc
    · exact ihq hp.2 w hw c hc
  | star p ih => exact forall_mem_kstar (ih hp)
  | lazyStar p ih => exact forall_mem_kstar (ih hp)
  | group g p ih => exact ih hp

theorem within_lit {P : Char → Prop} {s : String} (h : ∀ c ∈ s.toList, P c) :
    (lit s : Pattern γ).Within P := by
  suffices hfold : ∀ (cs : Text) (p : Pattern γ), (∀ c ∈ cs, P c) → p.Within P →
      (cs.foldl (fun p c => .seq p (.char (· = c))) p).Within P from
    hfold s.toList .empty h trivial
  intro cs
  induction cs with
  | nil => exact fun p _ hp => hp
  | cons c cs ih =>
    intro p hcs hp
    refine ih _ (fun d hd => hcs d (by simp [hd])) ⟨hp, fun d hd => ?_⟩
    obtain rfl : d = c := by simpa using hd
    exact hcs d (by simp)

theorem within_oneOf {P : Char → Prop} {words : List String}
    (h : ∀ s ∈ words, ∀ c ∈ s.toList, P c) :
    (oneOf words : Pattern γ).Within P := by
  induction words with
  | nil =>
    intro c hc
    simp at hc
  | cons s rest ih =>
    cases rest with
    | nil => exact within_lit (h s (by simp))
    | cons t rest => exact ⟨within_lit (h s (by simp)), ih fun u hu => h u (by simp [hu])⟩

-- ---------------------------------------------------------------------------
-- Backwards
-- ---------------------------------------------------------------------------

/-- How a match comes about from a place: a word of a language is consumed there, the match goes on
after it, and the ends of groups on the way lie inside the word. A plain pattern leaves none. -/
inductive GoesOn (l : Language Char) (plain : Bool) (next : Goal γ) (b : Option Char) (pos : Nat)
    (s : Text) (e : Ending γ) : Prop
  | intro (w t : Text) (f : Ending γ) (marks : List (Mark γ)) (word : w ∈ l) (text : s = w ++ t)
      (goes : next ⟨Text.lastOr b w, pos + Text.byteLength w, t⟩ = some f)
      (ending : e = f.marked marks)
      (inside : ∀ m ∈ marks, pos ≤ m.pos ∧ m.pos ≤ pos + Text.byteLength w)
      (bare : plain = true → marks = []) : GoesOn l plain next b pos s e

namespace GoesOn

variable {l l' : Language Char} {plain plain' : Bool} {again next : Goal γ} {b : Option Char}
  {pos : Nat} {s : Text} {e : Ending γ}

/-- Nothing is consumed. -/
theorem refl (hl : [] ∈ l) (h : next ⟨b, pos, s⟩ = some e) : GoesOn l plain next b pos s e :=
  .intro [] s e [] hl rfl h rfl (by simp) fun _ => rfl

theorem mono (hl : ∀ w ∈ l, w ∈ l') (hplain : plain' = true → plain = true)
    (h : GoesOn l plain next b pos s e) : GoesOn l' plain' next b pos s e := by
  obtain ⟨w, t, f, marks, hw, hs, hf, he, hin, hbare⟩ := h
  exact ⟨w, t, f, marks, hl w hw, hs, hf, he, hin, fun hp => hbare (hplain hp)⟩

/-- What is consumed one after the other is consumed together. -/
theorem trans (h : GoesOn l plain again b pos s e)
    (hagain : ∀ b pos t f, t.length ≤ s.length → again ⟨b, pos, t⟩ = some f →
      GoesOn l' plain' next b pos t f) : GoesOn (l * l') (plain && plain') next b pos s e := by
  obtain ⟨u, t, f, marks, hu, rfl, hf, rfl, hin, hbare⟩ := h
  obtain ⟨v, t, g, more, hv, rfl, hg, rfl, hin', hbare'⟩ := hagain _ _ t f (by simp) hf
  refine ⟨u ++ v, t, g, marks ++ more, Language.append_mem_mul hu hv, by simp, ?_, ?_, ?_, ?_⟩
  · simpa [Nat.add_assoc] using hg
  · simp [Ending.marked]
  · intro m hm
    rw [Text.byteLength_append]
    rcases List.mem_append.mp hm with hm | hm
    · have := hin m hm
      omega
    · have := hin' m hm
      omega
  · intro hplain
    obtain ⟨hp, hp'⟩ := Bool.and_eq_true_iff.mp hplain
    rw [hbare hp, hbare' hp', List.append_nil]

/-- A round of a repetition and the rounds after it. -/
theorem round (h : GoesOn l plain (after ⟨b, pos, s⟩ again) b pos s e)
    (hagain : ∀ b pos t f, t.length < s.length → again ⟨b, pos, t⟩ = some f →
      GoesOn (l∗) plain next b pos t f) : GoesOn (l∗) plain next b pos s e := by
  have hboth : GoesOn (l * l∗) (plain && plain) next b pos s e := by
    refine h.trans fun b' pos' t f _ hf => ?_
    by_cases hlt : t.length < s.length
    · rw [after_of_lt _ hlt] at hf
      exact hagain _ _ t f hlt hf
    · rw [after, if_neg hlt] at hf
      cases hf
  have hround : l * l∗ ≤ l∗ := mul_kstar_le_kstar
  exact hboth.mono (fun _ hw => hround hw) (by simp)

/-- A repetition consumes the words of its rounds. -/
theorem repeats {round : Goal γ → Goal γ} {rep : Goal γ} (hrep : Repeats round next rep)
    (hround : ∀ {again b pos s e}, round again ⟨b, pos, s⟩ = some e →
      GoesOn l plain again b pos s e)
    (h : rep ⟨b, pos, s⟩ = some e) : GoesOn (l∗) plain next b pos s e :=
  hrep.induction (Q := fun r e => GoesOn (l∗) plain next r.before r.pos r.rest e)
    (fun _ _ hf => .refl (Language.nil_mem_kstar _) hf)
    (fun _ _ hlater hf => (hround hf).round fun b pos t f hlt => hlater ⟨b, pos, t⟩ f hlt) _ e h

end GoesOn

/-- Where a match goes on, the pattern has consumed one of its words. -/
theorem goesOn_of_run {next : Goal γ} {b : Option Char} {pos : Nat} {s : Text} {e : Ending γ}
    (h : p.run next ⟨b, pos, s⟩ = some e) : GoesOn p.language p.isPlain next b pos s e := by
  induction p generalizing next b pos s e with
  | char accepts =>
    cases s with
    | nil => simp [run] at h
    | cons c cs =>
      by_cases hc : accepts c = true
      · simp only [run, hc, if_true] at h
        exact ⟨[c], cs, e, [], ⟨c, hc, rfl⟩, rfl, h, rfl, by simp, fun _ => rfl⟩
      · simp [run, hc] at h
  | anchor a =>
    simp only [run] at h
    split at h
    · exact .refl rfl h
    · simp at h
  | empty => exact .refl rfl h
  | seq p q ihp ihq => exact (ihp h).trans fun _ _ _ _ _ hf => ihq hf
  | alt p q ihp ihq =>
    rcases Option.or_eq_some_iff.mp h with h | ⟨_, h⟩
    · exact (ihp h).mono (fun _ hw => .inl hw) fun hp => (Bool.and_eq_true_iff.mp hp).1
    · exact (ihq h).mono (fun _ hw => .inr hw) fun hp => (Bool.and_eq_true_iff.mp hp).2
  | star p ih => exact .repeats (repeats_repeatMost p.run next) ih h
  | lazyStar p ih => exact .repeats (repeats_repeatLeast p.run next) ih h
  | group g p ih =>
    obtain ⟨e, he, rfl⟩ := Option.map_eq_some_iff.mp h
    obtain ⟨w, t, closed, marks, hw, hs, hclosed, rfl, hin, _⟩ := ih he
    obtain ⟨f, hf, rfl⟩ := Option.map_eq_some_iff.mp hclosed
    refine ⟨w, t, f, .opened g pos s :: (marks ++ [.closed g (pos + Text.byteLength w)]),
      hw, hs, hf,
      by simp [Ending.marked, Ending.opened, Ending.closed], ?_, fun hp => by cases hp⟩
    intro m hm
    rcases List.mem_cons.mp hm with rfl | hm
    · simp [Mark.pos]
    · rcases List.mem_append.mp hm with hm | hm
      · exact hin m hm
      · obtain rfl := List.mem_singleton.mp hm
        simp [Mark.pos]

theorem exists_word_of_run {next : Goal γ} {b : Option Char} {pos : Nat} {s : Text} {e : Ending γ}
    (h : p.run next ⟨b, pos, s⟩ = some e) :
    ∃ w t f, w ∈ p.language ∧ s = w ++ t ∧
      next ⟨Text.lastOr b w, pos + Text.byteLength w, t⟩ = some f := by
  obtain ⟨w, t, f, _, hw, hs, hf, _⟩ := goesOn_of_run h
  exact ⟨w, t, f, hw, hs, hf⟩

end Words

/-- Whether a pattern matches nowhere before a text that follows the character `b`, whatever comes
after the pattern. -/
def Fails (p : Pattern γ) (b : Option Char) (s : Text) : Prop :=
  ∀ pos next, p.run next ⟨b, pos, s⟩ = none

section Failing

variable {p q : Pattern γ} {b : Option Char} {s : Text}

theorem fails_of_language (h : ∀ w ∈ p.language, ∀ t, s ≠ w ++ t) : p.Fails b s := by
  intro pos next
  cases hrun : p.run next ⟨b, pos, s⟩ with
  | none => rfl
  | some e =>
    obtain ⟨w, t, _, hw, hs, _⟩ := exists_word_of_run hrun
    exact absurd hs (h w hw t)

theorem Fails.seq (hp : p.Fails b s) : (p ++ q).Fails b s := fun pos next => hp pos (q.run next)

theorem Fails.assoc {r : Pattern γ} (h : (p ++ (q ++ r)).Fails b s) : (p ++ q ++ r).Fails b s := h

/-- A pattern fails when it fails after every word of what stands before it. -/
theorem fails_seq_of_language
    (h : ∀ w ∈ p.language, ∀ t, s = w ++ t → q.Fails (Text.lastOr b w) t) : (p ++ q).Fails b s := by
  intro pos next
  cases hrun : (p ++ q).run next ⟨b, pos, s⟩ with
  | none => rfl
  | some e =>
    obtain ⟨w, t, f, hw, hs, hf⟩ := @exists_word_of_run _ p (q.run next) _ _ _ _ hrun
    rw [h w hw t hs] at hf
    cases hf

theorem Fails.or (hp : p.Fails b s) (hq : q.Fails b s) : (p ||| q).Fails b s := by
  intro pos next
  show (p.run next _).or (q.run next _) = none
  rw [hp, hq, Option.or_none]

theorem Fails.group (hp : p.Fails b s) (g : γ) : (group g p).Fails b s := by
  intro pos next
  rw [run, hp, Option.map_none]

theorem fails_anchor {a : Anchor} (h : ∀ pos, a.holds ⟨b, pos, s⟩ = false) :
    (anchor a : Pattern γ).Fails b s := by
  intro pos next
  rw [run, h, if_neg Bool.false_ne_true]

theorem fails_char {accepts : Char → Bool} (h : ∀ c ∈ s.head?, accepts c = false) :
    (char accepts : Pattern γ).Fails b s := by
  refine fails_of_language ?_
  rintro _ ⟨c, hc, rfl⟩ t rfl
  have := h c (by simp)
  simp_all

theorem fails_lit {word : String} (h : ¬word.toList <+: s) :
    (lit word : Pattern γ).Fails b s := by
  refine fails_of_language fun w hw t hs => h ⟨t, ?_⟩
  rw [← mem_language_lit.mp hw, hs]

/-- Whether a pattern can consume nothing but the empty text before `s`. -/
def Stays (p : Pattern γ) (b : Option Char) (s : Text) : Prop :=
  ∀ pos next e, p.run next ⟨b, pos, s⟩ = some e → ∃ f, next ⟨b, pos, s⟩ = some f

theorem Stays.seq (hp : p.Stays b s) (hq : q.Stays b s) : (p ++ q).Stays b s := by
  intro pos next e h
  obtain ⟨f, hf⟩ := hp pos (q.run next) e h
  exact hq pos next f hf

theorem Stays.group (hp : p.Stays b s) (g : γ) : (group g p).Stays b s := by
  intro pos next e h
  obtain ⟨e, he, _⟩ := Option.map_eq_some_iff.mp h
  obtain ⟨f, hf⟩ := hp pos _ e he
  obtain ⟨f, hf, _⟩ := Option.map_eq_some_iff.mp hf
  exact ⟨f, hf⟩

theorem stays_anchor (a : Anchor) : (anchor a : Pattern γ).Stays b s := by
  intro pos next e h
  rw [run] at h
  split at h
  · exact ⟨e, h⟩
  · cases h

theorem Fails.stays_opt (hp : p.Fails b s) : (opt p).Stays b s := by
  intro pos next e h
  change (p.run next _).or (next _) = some e at h
  rw [hp, Option.none_or] at h
  exact ⟨e, h⟩

theorem Fails.stays_star (hp : p.Fails b s) : (star p).Stays b s := by
  intro pos next e h
  change repeatMost p.run next _ = some e at h
  rw [repeatMost_eq, hp, Option.none_or] at h
  exact ⟨e, h⟩

theorem Stays.fails_seq (hp : p.Stays b s) (hq : q.Fails b s) : (p ++ q).Fails b s := by
  intro pos next
  cases hrun : (p ++ q).run next ⟨b, pos, s⟩ with
  | none => rfl
  | some e =>
    obtain ⟨f, hf⟩ := hp pos (q.run next) e hrun
    rw [hq] at hf
    cases hf

theorem isSome_after_mono {next other : Goal γ} {b b' : Option Char} {pos pos' q q' : Nat}
    {s t : Text}
    (h : t.length < s.length → (next ⟨b', q, t⟩).isSome = true → (other ⟨b', q', t⟩).isSome = true)
    (ht : (after ⟨b, pos, s⟩ next ⟨b', q, t⟩).isSome = true) :
    (after ⟨b, pos', s⟩ other ⟨b', q', t⟩).isSome = true := by
  unfold after at ht ⊢
  split at ht
  · rename_i hlt
    rw [if_pos hlt]
    exact h hlt ht
  · cases ht

/-- Whether a match goes on depends on the texts around a place and not on its offset, and with more
ways to go on behind the pattern it goes on as well. -/
theorem isSome_run_mono (p : Pattern γ) {next other : Goal γ}
    (h : ∀ b pos pos' t, (next ⟨b, pos, t⟩).isSome = true → (other ⟨b, pos', t⟩).isSome = true) :
    ∀ b pos pos' s, (p.run next ⟨b, pos, s⟩).isSome = true →
    (p.run other ⟨b, pos', s⟩).isSome = true := by
  induction p generalizing next other with
  | char accepts =>
    intro b pos pos' s hs
    cases s with
    | nil => simp [run] at hs
    | cons c cs =>
      by_cases hc : accepts c = true
      · simp only [run, hc, if_true] at hs ⊢
        exact h _ _ _ _ hs
      · simp [run, hc] at hs
  | anchor a =>
    intro b pos pos' s hs
    have hplace : Anchor.holds ⟨b, pos, s⟩ a = Anchor.holds ⟨b, pos', s⟩ a := by cases a <;> rfl
    simp only [run] at hs ⊢
    rw [← hplace]
    split at hs
    · rename_i hholds
      rw [if_pos hholds]
      exact h _ _ _ _ hs
    · cases hs
  | empty => exact h
  | seq p q ihp ihq => exact ihp (ihq h)
  | alt p q ihp ihq =>
    intro b pos pos' s hs
    simp only [run, Option.isSome_or, Bool.or_eq_true] at hs ⊢
    exact hs.imp (ihp h b pos pos' s) (ihq h b pos pos' s)
  | star p ih =>
    intro b pos pos' s hs
    change (repeatMost p.run next _).isSome = true at hs
    show (repeatMost p.run other _).isSome = true
    induction hn : s.length using Nat.strongRecOn generalizing b pos pos' s with
    | ind n ihn =>
      rw [repeatMost_eq, Option.isSome_or, Bool.or_eq_true] at hs ⊢
      refine hs.imp (ih (fun b' q q' t => ?_) b pos pos' s) (h b pos pos' s)
      exact isSome_after_mono fun hlt ht => ihn t.length (hn ▸ hlt) b' q q' t ht rfl
  | lazyStar p ih =>
    intro b pos pos' s hs
    change (repeatLeast p.run next _).isSome = true at hs
    show (repeatLeast p.run other _).isSome = true
    induction hn : s.length using Nat.strongRecOn generalizing b pos pos' s with
    | ind n ihn =>
      rw [repeatLeast_eq, Option.isSome_or, Bool.or_eq_true] at hs ⊢
      refine hs.imp (h b pos pos' s) (ih (fun b' q q' t => ?_) b pos pos' s)
      exact isSome_after_mono fun hlt ht => ihn t.length (hn ▸ hlt) b' q q' t ht rfl
  | group g p ih =>
    intro b pos pos' s hs
    simp only [run, Option.isSome_map] at hs ⊢
    refine ih (fun b' q q' t ht => ?_) b pos pos' s hs
    rw [Option.isSome_map] at ht ⊢
    exact h b' q q' t ht

/-- A pattern that matches nowhere before a text fails there. -/
theorem fails_of_matchAt? {pos : Nat} (h : p.matchAt? ⟨b, pos, s⟩ = none) : p.Fails b s := by
  rw [matchAt?, Option.map_eq_none_iff] at h
  intro pos' next
  by_contra hsome
  have hdone : (p.run done ⟨b, pos, s⟩).isSome = true :=
    isSome_run_mono p (fun _ _ _ _ _ => rfl) b pos' pos s (Option.isSome_iff_ne_none.mpr hsome)
  rw [h] at hdone
  cases hdone

theorem Fails.matchAt?_eq (h : p.Fails b s) (pos : Nat) : p.matchAt? ⟨b, pos, s⟩ = none := by
  rw [matchAt?, h, Option.map_none]

end Failing

-- ---------------------------------------------------------------------------
-- Forwards
-- ---------------------------------------------------------------------------

/-- Whether a pattern takes the text `w` where `t` follows it and `b` stands before it: a match that
can go on after `w` does so, with the ends of groups on the way. -/
def Takes (p : Pattern γ) (b : Option Char) (pos : Nat) (w t : Text) (marks : List (Mark γ)) :
    Prop :=
  ∀ next f, next ⟨Text.lastOr b w, pos + Text.byteLength w, t⟩ = some f →
    p.run next ⟨b, pos, w ++ t⟩ = some (f.marked marks)

section Taking

variable {p q : Pattern γ} {b : Option Char} {pos : Nat} {u v w t : Text}
  {marks more : List (Mark γ)}

theorem Takes.seq (hp : p.Takes b pos u (v ++ t) marks)
    (hq : q.Takes (Text.lastOr b u) (pos + Text.byteLength u) v t more) :
    (p ++ q).Takes b pos (u ++ v) t (marks ++ more) := by
  intro next f hf
  have hq := hq next f (by
    simpa [Nat.add_assoc] using hf)
  have hp := hp (q.run next) _ hq
  rw [List.append_assoc]
  show p.run (q.run next) _ = _
  rw [hp]
  simp [Ending.marked]

/-- The form of `Takes.seq` in which the rest of the text is not split yet. -/
theorem Takes.andThen {s : Text} (hp : p.Takes b pos u s marks)
    (hq : q.Takes (Text.lastOr b u) (pos + Text.byteLength u) v t more) (hs : s = v ++ t) :
    (p ++ q).Takes b pos (u ++ v) t (marks ++ more) := Takes.seq (hs ▸ hp) hq

theorem Takes.congr {w' : Text} {marks' : List (Mark γ)} (h : p.Takes b pos w t marks) (hw : w = w')
    (hmarks : marks = marks') : p.Takes b pos w' t marks' := hmarks ▸ hw ▸ h

theorem Takes.group (hp : p.Takes b pos w t marks) (g : γ) :
    (Pattern.group g p).Takes b pos w t
      (.opened g pos (w ++ t) :: marks ++ [.closed g (pos + Text.byteLength w)]) := by
  intro next f hf
  rw [run, hp (fun s => (next s).map (·.closed g s)) _ (by rw [hf]; rfl)]
  simp [Ending.marked, Ending.opened, Ending.closed]

theorem Takes.captured (hp : p.Takes b pos w t []) (g : γ) :
    (Pattern.group g p).Takes b pos w t (Match.captured g pos w t) := hp.group g

theorem Takes.orLeft (hp : p.Takes b pos w t marks) : (p ||| q).Takes b pos w t marks := by
  intro next f hf
  show (p.run next _).or (q.run next _) = _
  rw [hp next f hf, Option.some_or]

theorem Takes.orRight (hp : p.Fails b (w ++ t)) (hq : q.Takes b pos w t marks) :
    (p ||| q).Takes b pos w t marks := by
  intro next f hf
  show (p.run next _).or (q.run next _) = _
  rw [hp, Option.none_or, hq next f hf]

theorem takes_empty : (empty : Pattern γ).Takes b pos [] t [] := fun _ _ hf => hf

theorem Takes.opt (hp : p.Takes b pos w t marks) : (Pattern.opt p).Takes b pos w t marks :=
  hp.orLeft

theorem takes_opt_of_fails (hp : p.Fails b t) : (opt p).Takes b pos [] t [] :=
  .orRight hp takes_empty

/-- What may stand in front is left out where the match does not go on after it. -/
theorem Takes.opt_skip (hp : (p ++ q).Fails b (w ++ t)) (hq : q.Takes b pos w t marks) :
    (Pattern.opt p ++ q).Takes b pos w t marks := by
  intro next f hf
  show ((p ++ q).run next _).or (q.run next _) = _
  rw [hp, Option.none_or, hq next f hf]

theorem takes_anchor {a : Anchor} (h : a.holds ⟨b, pos, t⟩ = true) :
    (anchor a : Pattern γ).Takes b pos [] t [] := by
  intro next f hf
  rw [run, List.nil_append, if_pos h]
  exact hf

theorem takes_char {accepts : Char → Bool} {c : Char} (h : accepts c = true) :
    (char accepts : Pattern γ).Takes b pos [c] t [] := by
  intro next f hf
  simp only [run, List.cons_append, h, if_true]
  exact hf

theorem takes_lit (s : String) : (lit s : Pattern γ).Takes b pos s.toList t [] := by
  suffices h : ∀ (cs : Text) (u : Text) (p : Pattern γ), (∀ t, p.Takes b pos u t []) →
      (cs.foldl (fun p c => .seq p (.char (· = c))) p).Takes b pos (u ++ cs) t [] from
    h s.toList [] .empty fun _ => takes_empty
  intro cs
  induction cs with
  | nil =>
    intro u p hp
    simpa using hp t
  | cons c cs ih =>
    intro u p hp
    have hc := ih (u ++ [c]) (.seq p (.char (· = c))) fun t =>
      Takes.seq (hp _) (takes_char (by simp))
    simpa using hc

theorem takes_oneOf {words : List String} {word : String} (hword : word ∈ words)
    (h : ∀ other ∈ words, other ≠ word → ¬other.toList <+: word.toList ++ t) :
    (oneOf words : Pattern γ).Takes b pos word.toList t [] := by
  induction words with
  | nil => simp at hword
  | cons first rest ih =>
    cases rest with
    | nil =>
      obtain rfl : word = first := by simpa using hword
      exact takes_lit word
    | cons second rest =>
      by_cases hfirst : first = word
      · subst hfirst
        exact (takes_lit first).orLeft
      · refine Takes.orRight (fails_lit (h first (by simp) hfirst)) (ih ?_ ?_)
        · simpa [Ne.symm hfirst] using hword
        · exact fun other hother => h other (by simp [hother])

/-- The word with the right first character. -/
theorem takes_oneOf_of_head {words : List String} {word : String} {c : Char} {cs : Text}
    (hword : word ∈ words) (hcs : word.toList = c :: cs)
    (h : ∀ other ∈ words, other.toList ≠ [] ∧ (other.toList.head? = some c → other = word)) :
    (oneOf words : Pattern γ).Takes b pos (c :: cs) t [] := by
  rw [← hcs]
  refine takes_oneOf hword fun other hother hne hprefix => hne ((h other hother).2 ?_)
  obtain ⟨v, hv⟩ := hprefix
  obtain ⟨d, ds, hds⟩ := List.exists_cons_of_ne_nil (h other hother).1
  rw [hds, hcs] at hv
  rw [hds, List.head?_cons, (List.cons.inj hv).1]

/-- The word before a character that no word has. -/
theorem takes_oneOf_cons {words : List String} {word : String} {c : Char} (hword : word ∈ words)
    (h : ∀ other ∈ words, c ∉ other.toList ∧ (other.toList <+: word.toList → other = word)) :
    (oneOf words : Pattern γ).Takes b pos word.toList (c :: t) [] := by
  refine takes_oneOf hword fun other hother hne hprefix => hne ((h other hother).2 ?_)
  obtain ⟨v, hv⟩ := hprefix
  rcases List.append_eq_append_iff.mp hv with ⟨m, hm, _⟩ | ⟨m, hm, hrest⟩
  · exact ⟨m, hm.symm⟩
  · cases m with
    | nil => exact ⟨[], by simpa using hm⟩
    | cons d m =>
      obtain ⟨rfl, _⟩ := List.cons.inj hrest
      exact absurd (by simp [hm]) (h other hother).1

theorem takes_star_of_fails (h : p.Fails b t) : (star p).Takes b pos [] t [] := by
  intro next f hf
  rw [List.nil_append]
  show repeatMost p.run next _ = _
  rw [repeatMost_eq, h, Option.none_or]
  exact hf

/-- A repetition stops at once where the match goes on after no rounds that consume anything. -/
theorem run_star_eq {next : Goal γ}
    (h : ∀ w ∈ (star p).language, w ≠ [] → ∀ v pos, t = w ++ v →
      next ⟨Text.lastOr b w, pos, v⟩ = none) :
    (star p).run next ⟨b, pos, t⟩ = next ⟨b, pos, t⟩ := by
  have hround : p.run (after ⟨b, pos, t⟩ ((star p).run next)) ⟨b, pos, t⟩ = none := by
    by_contra hsome
    obtain ⟨e, he⟩ := Option.ne_none_iff_exists'.mp hsome
    obtain ⟨u, v, f, hu, rfl, hf⟩ := exists_word_of_run he
    have hne : u ≠ [] := by
      rintro rfl
      simp [after] at hf
    rw [after_append _ hne] at hf
    obtain ⟨w, v, g, hw, rfl, hg⟩ := exists_word_of_run hf
    have hwords : u ++ w ∈ (star p).language := append_mem_language_star hu hw
    have hnone := h (u ++ w) hwords (by simp [hne]) v (pos + Text.byteLength u + Text.byteLength w)
      (by simp)
    rw [Text.lastOr_append, hg] at hnone
    cases hnone
  show repeatMost p.run next _ = _
  rw [repeatMost_eq]
  change (p.run (after _ ((star p).run next)) _).or _ = _
  rw [hround, Option.none_or]

/-- Where the match goes on after no rounds that consume anything, what stands behind a repetition
is taken in its place. -/
theorem Takes.star_nil (hq : q.Takes b pos w t marks)
    (hfails : ∀ u ∈ (star p).language, u ≠ [] → ∀ v, w ++ t = u ++ v →
      q.Fails (Text.lastOr b u) v) :
    (star p ++ q).Takes b pos w t marks := by
  intro next f hf
  show (star p).run (q.run next) _ = _
  rw [run_star_eq fun u hu hne v pos heq => hfails u hu hne v heq pos next]
  exact hq next f hf

/-- The form of `Takes.star_nil` for a repetition that is remembered. -/
theorem Takes.group_star_nil (hq : q.Takes b pos w t marks)
    (hfails : ∀ u ∈ (star p).language, u ≠ [] → ∀ v, w ++ t = u ++ v → q.Fails (Text.lastOr b u) v)
    (g : γ) : (Pattern.group g (star p) ++ q).Takes b pos w t
      (Match.captured g pos [] (w ++ t) ++ marks) := by
  intro next f hf
  have hrun := @run_star_eq _ p b pos (w ++ t) (fun s => (q.run next s).map (·.closed g s))
    fun u hu hne v pos heq => by rw [hfails u hu hne v heq pos next, Option.map_none]
  show ((star p).run (fun s => (q.run next s).map (·.closed g s)) _).map _ = _
  rw [hrun, hq next f hf]
  simp [Ending.marked, Ending.opened, Ending.closed, Match.captured]

theorem Takes.round (hp : p.Takes b pos u (v ++ t) marks) (hne : u ≠ [])
    (hrest : (star p).Takes (Text.lastOr b u) (pos + Text.byteLength u) v t more) :
    (star p).Takes b pos (u ++ v) t (marks ++ more) := by
  intro next f hf
  have hrest := hrest next f (by
    simpa [Nat.add_assoc] using hf)
  have hround := hp (after ⟨b, pos, u ++ (v ++ t)⟩ ((star p).run next)) _ (by
    rw [after_append _ hne, hrest])
  rw [List.append_assoc]
  show repeatMost p.run next _ = _
  rw [repeatMost_eq]
  change (p.run (after _ ((star p).run next)) _).or _ = _
  rw [hround, Option.some_or]
  simp [Ending.marked]

/-- A repeated character goes back from the longest run: it stops at the last place from which the
match goes on. -/
theorem run_star_char {accepts : Char → Bool} {next : Goal γ} {e : Ending γ}
    (hw : ∀ c ∈ w, accepts c = true)
    (hnext : next ⟨Text.lastOr b w, pos + Text.byteLength w, t⟩ = some e)
    (hlater : ∀ u v, t = u ++ v → u ≠ [] → (∀ c ∈ u, accepts c = true) →
      next ⟨Text.lastOr (Text.lastOr b w) u, pos + Text.byteLength w + Text.byteLength u, v⟩ =
        none) :
    (star (char accepts)).run next ⟨b, pos, w ++ t⟩ = some e := by
  show repeatMost (char accepts).run next _ = _
  rw [repeatMost_eq]
  induction w generalizing b pos with
  | nil =>
    have hround : (char accepts).run (after ⟨b, pos, t⟩ ((star (char accepts)).run next))
        ⟨b, pos, t⟩ = none := by
      by_contra hsome
      obtain ⟨f, hf⟩ := Option.ne_none_iff_exists'.mp hsome
      obtain ⟨_, cs, g, ⟨c, hc, rfl⟩, rfl, hg⟩ := exists_word_of_run hf
      rw [after_of_lt _ (by simp)] at hg
      obtain ⟨u, v, h, hu, rfl, hstop⟩ := exists_word_of_run hg
      have hu := mem_language_star_char.mp hu
      have hnone := hlater (c :: u) v rfl (by simp) (by simp_all)
      simp_all [Nat.add_assoc]
    change ((char accepts).run (after ⟨b, pos, t⟩ ((star (char accepts)).run next))
      ⟨b, pos, t⟩).or (next ⟨b, pos, t⟩) = _
    rw [hround, Option.none_or]
    exact hnext
  | cons c cs ih =>
    have hcs := @ih (some c) (pos + c.utf8Size) (fun d hd => hw d (by simp [hd]))
      (by simpa [Nat.add_assoc] using hnext)
      (by simpa [Nat.add_assoc] using hlater)
    rw [← repeatMost_eq] at hcs
    have hround : (char accepts).run (after ⟨b, pos, c :: (cs ++ t)⟩
        (repeatMost (char accepts).run next)) ⟨b, pos, c :: (cs ++ t)⟩ = some e := by
      simp only [run, hw c (by simp), if_true]
      rw [after_of_lt _ (by simp [Place.advance])]
      exact hcs
    rw [List.cons_append, hround, Option.some_or]

/-- A repeated character takes the longest run. -/
theorem takes_star_char {accepts : Char → Bool} (hw : ∀ c ∈ w, accepts c = true)
    (ht : ∀ c ∈ t.head?, accepts c = false) :
    (star (char accepts : Pattern γ)).Takes b pos w t [] := by
  intro next f hf
  refine run_star_char hw hf ?_
  rintro u v rfl hne hu
  obtain ⟨c, cs, rfl⟩ := List.exists_cons_of_ne_nil hne
  have := ht c (by simp)
  simp_all

theorem takes_plus_char {accepts : Char → Bool} (hne : w ≠ []) (hw : ∀ c ∈ w, accepts c = true)
    (ht : ∀ c ∈ t.head?, accepts c = false) :
    (plus (char accepts : Pattern γ)).Takes b pos w t [] := by
  obtain ⟨c, cs, rfl⟩ := List.exists_cons_of_ne_nil hne
  exact (takes_char (hw c (by simp))).seq (v := cs)
    (takes_star_char (fun d hd => hw d (by simp [hd])) ht)

/-- A lazily repeated character stops at the first place from which the match goes on. -/
theorem run_lazyStar_char {accepts : Char → Bool} {next : Goal γ} {e : Ending γ}
    (hw : ∀ c ∈ w, accepts c = true)
    (hnext : next ⟨Text.lastOr b w, pos + Text.byteLength w, t⟩ = some e)
    (hearlier : ∀ u v, w = u ++ v → v ≠ [] →
      next ⟨Text.lastOr b u, pos + Text.byteLength u, v ++ t⟩ = none) :
    (lazyStar (char accepts)).run next ⟨b, pos, w ++ t⟩ = some e := by
  show repeatLeast (char accepts).run next _ = _
  induction w generalizing b pos with
  | nil =>
    rw [repeatLeast_eq, List.nil_append, show next ⟨b, pos, t⟩ = some e from hnext, Option.some_or]
  | cons c cs ih =>
    have hcs := @ih (some c) (pos + c.utf8Size) (fun d hd => hw d (by simp [hd]))
      (by simpa [Nat.add_assoc] using hnext) fun u v hcs hv => by
        simpa [Nat.add_assoc] using hearlier (c :: u) v (by simp [hcs]) hv
    have hhere : next ⟨b, pos, c :: (cs ++ t)⟩ = none := hearlier [] (c :: cs) rfl (by simp)
    have hround : (char accepts).run (after ⟨b, pos, c :: (cs ++ t)⟩
        (repeatLeast (char accepts).run next)) ⟨b, pos, c :: (cs ++ t)⟩ = some e := by
      simp only [run, hw c (by simp), if_true]
      rw [after_of_lt _ (by simp [Place.advance])]
      exact hcs
    rw [repeatLeast_eq, List.cons_append, hhere, Option.none_or, hround]

/-- A text that is taken is what matches. -/
theorem Takes.matchAt?_eq (h : p.Takes b pos w t marks) :
    p.matchAt? ⟨b, pos, w ++ t⟩ =
      some ⟨⟨pos, pos + Text.byteLength w, w ++ t⟩, marks⟩ := by
  rw [matchAt?, h done _ rfl]
  simp [matchOf, Ending.marked]

end Taking

-- ---------------------------------------------------------------------------
-- Successive matches
-- ---------------------------------------------------------------------------

/-- The successive matches in a text that starts at offset `pos` after the character `b`. -/
def matchesFrom (p : Pattern γ) (b : Option Char) (pos : Nat) (s : Text) : List (Match γ) :=
  disjoint pos ((places b pos s).filterMap p.matchAt?)

theorem allMatches_eq_matchesFrom (p : Pattern γ) (s : Text) :
    p.allMatches s = p.matchesFrom none 0 s := allMatches_eq p s

theorem start_of_matchAt? {p : Pattern γ} {r : Place} {m : Match γ} (h : p.matchAt? r = some m) :
    m.whole.start = r.pos := by
  obtain ⟨e, _, rfl⟩ := Option.map_eq_some_iff.mp h
  rfl

theorem le_pos_of_mem_places {b : Option Char} {pos : Nat} {s : Text} {r : Place}
    (h : r ∈ places b pos s) : pos ≤ r.pos := by
  induction s generalizing b pos with
  | nil => simp [places] at h
  | cons c cs ih =>
    rcases List.mem_cons.mp h with rfl | h
    · exact Nat.le_refl _
    · exact Nat.le_trans (Nat.le_add_right _ _) (ih h)

theorem disjoint_eq_matchesFrom (p : Pattern γ) (b : Option Char) {resume pos : Nat} (s : Text)
    (h : resume ≤ pos) :
    disjoint resume ((places b pos s).filterMap p.matchAt?) = p.matchesFrom b pos s := by
  unfold matchesFrom
  cases hms : (places b pos s).filterMap p.matchAt? with
  | nil => rfl
  | cons m ms =>
    obtain ⟨r, hr, hm⟩ := List.mem_filterMap.mp (by rw [hms]; exact List.mem_cons_self)
    have hle := le_pos_of_mem_places hr
    rw [← start_of_matchAt? hm] at hle
    rw [disjoint, disjoint, if_neg (by omega), if_neg (by omega)]

/-- Matches that start inside an earlier one do not count. -/
theorem disjoint_append (p : Pattern γ) (b : Option Char) (pos : Nat) (w t : Text) :
    disjoint (pos + Text.byteLength w) ((places b pos (w ++ t)).filterMap p.matchAt?) =
      p.matchesFrom (Text.lastOr b w) (pos + Text.byteLength w) t := by
  induction w generalizing b pos with
  | nil => rfl
  | cons c cs ih =>
    have hcs := ih (some c) (pos + c.utf8Size)
    rw [Nat.add_assoc] at hcs
    rw [List.cons_append, places, List.filterMap_cons]
    cases hm : p.matchAt? ⟨b, pos, c :: (cs ++ t)⟩ with
    | none => exact hcs
    | some m =>
      have hpos := Char.utf8Size_pos c
      have hlt : m.whole.start < pos + Text.byteLength (c :: cs) := by
        rw [start_of_matchAt? hm, Text.byteLength_cons]
        show pos < _
        omega
      rw [disjoint, if_pos hlt]
      exact hcs

theorem mem_places (b : Option Char) (pos : Nat) (u : Text) {v : Text} (hv : v ≠ []) :
    ⟨Text.lastOr b u, pos + Text.byteLength u, v⟩ ∈ places b pos (u ++ v) := by
  induction u generalizing b pos with
  | nil =>
    obtain ⟨c, cs, rfl⟩ := List.exists_cons_of_ne_nil hv
    exact List.mem_cons_self
  | cons c cs ih =>
    rw [List.cons_append, places, Text.lastOr_cons, Text.byteLength_cons, ← Nat.add_assoc]
    exact List.mem_cons_of_mem _ (ih (some c) (pos + c.utf8Size))

/-- In a text without a match the pattern fails everywhere. -/
theorem fails_of_allMatches_eq_nil {p : Pattern γ} {u v : Text} (h : p.allMatches (u ++ v) = [])
    (hv : v ≠ []) : p.Fails (Text.lastOr none u) v := by
  have hnone : (places none 0 (u ++ v)).filterMap p.matchAt? = [] := by
    rw [allMatches_eq] at h
    cases hms : (places none 0 (u ++ v)).filterMap p.matchAt? with
    | nil => rfl
    | cons m ms => simp [hms, disjoint] at h
  exact fails_of_matchAt? (List.filterMap_eq_nil_iff.mp hnone _ (mem_places none 0 u hv))

/-- A text that is taken is the next match, and the search goes on after it. -/
theorem Takes.matchesFrom_eq {p : Pattern γ} {b : Option Char} {pos : Nat} {w t : Text}
    {marks : List (Mark γ)} (h : p.Takes b pos w t marks) (hne : w ≠ []) :
    p.matchesFrom b pos (w ++ t) = ⟨⟨pos, pos + Text.byteLength w, w ++ t⟩, marks⟩ ::
      p.matchesFrom (Text.lastOr b w) (pos + Text.byteLength w) t := by
  obtain ⟨c, cs, rfl⟩ := List.exists_cons_of_ne_nil hne
  have hm := h.matchAt?_eq
  have hskip := disjoint_append p (some c) (pos + c.utf8Size) cs t
  rw [Nat.add_assoc] at hskip
  rw [matchesFrom, List.cons_append, places, List.filterMap_cons, ← List.cons_append, hm]
  simp only [disjoint, Nat.lt_irrefl, if_false]
  exact congrArg _ hskip

/-- A text that is taken at the start is the first match. -/
theorem Takes.firstMatch?_eq {p : Pattern γ} {w t : Text} {marks : List (Mark γ)}
    (h : p.Takes none 0 w t marks) (hne : w ≠ []) :
    p.firstMatch? (w ++ t) = some ⟨⟨0, 0 + Text.byteLength w, w ++ t⟩, marks⟩ := by
  rw [firstMatch?, allMatches_eq_matchesFrom, h.matchesFrom_eq hne, List.head?_cons]

/-- The search passes over a character at which the pattern fails. -/
theorem Fails.matchesFrom_cons {p : Pattern γ} {b : Option Char} {c : Char} {t : Text}
    (h : p.Fails b (c :: t)) (pos : Nat) :
    p.matchesFrom b pos (c :: t) = p.matchesFrom (some c) (pos + c.utf8Size) t := by
  rw [matchesFrom, places, List.filterMap_cons, h.matchAt?_eq]
  exact disjoint_eq_matchesFrom p (some c) t (Nat.le_add_right _ _)

/-- The search passes over a text in which the pattern fails everywhere. -/
theorem matchesFrom_append {p : Pattern γ} {b : Option Char} {pos : Nat} {w t : Text}
    (h : ∀ u v, w = u ++ v → v ≠ [] → p.Fails (Text.lastOr b u) (v ++ t)) :
    p.matchesFrom b pos (w ++ t) =
      p.matchesFrom (Text.lastOr b w) (pos + Text.byteLength w) t := by
  induction w generalizing b pos with
  | nil => rfl
  | cons c cs ih =>
    have hcs := @ih (some c) (pos + c.utf8Size) fun u v hcs hv => by
      simpa using h (c :: u) v (by rw [hcs]; rfl) hv
    have hc : p.Fails b (c :: (cs ++ t)) := h [] (c :: cs) rfl (by simp)
    rw [List.cons_append, hc.matchesFrom_cons, hcs, Nat.add_assoc]
    rfl

/-- A text that is taken before a character at which the pattern fails. -/
theorem Takes.matchesFrom_cons_eq {p : Pattern γ} {b : Option Char} {pos : Nat} {w t : Text}
    {c : Char}
    {marks : List (Mark γ)} (h : p.Takes b pos w (c :: t) marks) (hne : w ≠ [])
    (hc : p.Fails (Text.lastOr b w) (c :: t)) :
    p.matchesFrom b pos (w ++ c :: t) = ⟨⟨pos, pos + Text.byteLength w, w ++ c :: t⟩, marks⟩ ::
      p.matchesFrom (some c) (pos + Text.byteLength w + c.utf8Size) t := by
  rw [h.matchesFrom_eq hne, hc.matchesFrom_cons]

end Pattern

end Typings
