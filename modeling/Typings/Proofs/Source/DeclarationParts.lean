import Typings.Proofs.Pattern.Taking
import Typings.Proofs.Source.TypeTexts

/-!
# Parts of declarations

What the parts of the declaration patterns take in printed text, and where they fail. A pattern that
looks for a word fails wherever no such word stands, so a text that avoids the opening words can be
passed over. Main statements: `run_angled`, `fails_typeText_of_name` and `not_opensAt_of_avoids`.
-/

namespace Typings.Declaration

open Pattern

-- ---------------------------------------------------------------------------
-- Spaces and names
-- ---------------------------------------------------------------------------

section Simple

variable {b : Option Char} {pos : Nat} {t : Text}

theorem isSpace_space : Text.isSpace ' ' = true := by decide

theorem takes_spaces_nil (ht : ∀ c ∈ t.head?, Text.isSpace c = false) :
    spaces.Takes b pos [] t [] := takes_star_char (by simp) ht

theorem takes_someSpaces (ht : ∀ c ∈ t.head?, Text.isSpace c = false) :
    someSpaces.Takes b pos [' '] t [] :=
  takes_plus_char (by simp) (by simp [isSpace_space]) ht

/-- Whether a character may stand in a name behind its first character. -/
def isNameChar (c : Char) : Bool := Text.isWordChar c || c = '$'

theorem mem_language_identifier {n : Text} : n ∈ identifier.language ↔
    ∃ c cs, n = c :: cs ∧ (c.isAlpha || c = '_' || c = '$') = true ∧
    ∀ d ∈ cs, isNameChar d = true := by
  constructor
  · intro h
    obtain ⟨_, ⟨c, hc, rfl⟩, cs, hcs, rfl⟩ := mem_language_seq.mp h
    exact ⟨c, cs, rfl, hc, mem_language_star_char.mp hcs⟩
  · rintro ⟨c, cs, rfl, hc, hcs⟩
    exact mem_language_seq.mpr ⟨[c], ⟨c, hc, rfl⟩, cs, mem_language_star_char.mpr hcs, rfl⟩

/-- A name is taken whole where nothing follows that could belong to it. -/
theorem takes_identifier_of_mem {n : Text} (hn : n ∈ identifier.language)
    (ht : ∀ c ∈ t.head?, isNameChar c = false) : identifier.Takes b pos n t [] := by
  obtain ⟨c, cs, rfl, hc, hcs⟩ := mem_language_identifier.mp hn
  exact (takes_char hc).seq (v := cs) (takes_star_char hcs ht)

theorem mem_language_of_isName {n : Text} (hn : isName n = true) : n ∈ identifier.language := by
  have hchars := isPlainChar_of_isName hn
  obtain ⟨c, cs, rfl⟩ := List.exists_cons_of_ne_nil (ne_nil_of_isName hn)
  have hdigit : c.isDigit = false := by
    simp only [isName, List.head?_cons, Option.any_some, Bool.and_eq_true, Bool.not_eq_true'] at hn
    exact hn.1.1
  have hfirst : (c.isAlpha || c = '_' || c = '$') = true := by
    have hname := hchars c (by simp)
    simp only [isPlainChar, Char.isAlphanum, hdigit, Bool.or_false] at hname
    simp [hname]
  refine mem_language_identifier.mpr ⟨c, cs, rfl, hfirst, fun d hd => ?_⟩
  simp [isNameChar, isWordChar_of_isPlainChar (hchars d (by simp [hd]))]

theorem takes_identifier {n : Text} (hn : isName n = true)
    (ht : ∀ c ∈ t.head?, (Text.isWordChar c || c = '$') = false) : identifier.Takes b pos n t [] :=
  takes_identifier_of_mem (mem_language_of_isName hn) ht

theorem takes_boundary {c : Char} (hb : ∀ d ∈ b, Text.isWordChar d = false)
    (hc : isPlainChar c = true) : boundary.Takes b pos [] (c :: t) [] := by
  refine takes_anchor ?_
  have hword := isWordChar_of_isPlainChar hc
  cases b with
  | none => simp [Anchor.holds, hword]
  | some d => simp [Anchor.holds, hword, hb d rfl]

/-- What may stand before the modifiers takes nothing where neither a comment nor an annotation
starts. -/
theorem fails_docComment (ht : ∀ c ∈ t.head?, c ≠ '/') : docComment.Fails b t := by
  have hlit : ¬"/**".toList <+: t := by
    rintro ⟨u, rfl⟩
    exact ht '/' (by simp) rfl
  exact ((((fails_lit hlit).seq).seq).seq).seq

theorem fails_annotationUse (ht : ∀ c ∈ t.head?, c ≠ '@') : annotationUse.Fails b t := by
  have hlit : ¬"@".toList <+: t := by
    rintro ⟨u, rfl⟩
    exact ht '@' (by simp) rfl
  exact (((fails_lit hlit).seq).seq).seq

theorem takes_opening (ht : ∀ c ∈ t.head?, c ≠ '/' ∧ c ≠ '@') : opening.Takes b pos [] t [] :=
  (takes_opt_of_fails ((fails_docComment fun c hc => (ht c hc).1).group _)).seq (v := [])
    (takes_star_of_fails (fails_annotationUse fun c hc => (ht c hc).2))

theorem stays_opening (ht : ∀ c ∈ t.head?, c ≠ '/' ∧ c ≠ '@') : opening.Stays b t :=
  ((fails_docComment fun c hc => (ht c hc).1).group _).stays_opt.seq
    (fails_annotationUse fun c hc => (ht c hc).2).stays_star

end Simple

-- ---------------------------------------------------------------------------
-- Words
-- ---------------------------------------------------------------------------

/-- Whether a word and a space stand at the front of a text. -/
def Opens (w s : Text) : Prop := ∃ c t, s = w ++ c :: t ∧ Text.isSpace c = true

/-- Whether a word and a space stand at a place, with no word character before them. -/
def OpensAt (b : Option Char) (w s : Text) : Prop :=
  Opens w s ∧ (Anchor.holds ⟨b, 0, s⟩ .wordBoundary) = true

section Words

variable {words : List String} {b : Option Char} {s : Text}

theorem exists_opens_of_mem_keyword {w t : Text} (hw : w ∈ (keyword words).language)
    (hs : s = w ++ t) : ∃ v ∈ words, Opens v.toList s := by
  obtain ⟨u, hu, sp, hsp, rfl⟩ := mem_language_seq.mp hw
  obtain ⟨v, hv, rfl⟩ := mem_language_oneOf.mp hu
  obtain ⟨hne, hspace⟩ := mem_language_plus_char.mp hsp
  obtain ⟨c, cs, rfl⟩ := List.exists_cons_of_ne_nil hne
  exact ⟨v, hv, c, cs ++ t, by simp [hs], hspace c (by simp)⟩

/-- A pattern that takes what a keyword takes fails where none of its words stands. -/
theorem fails_of_not_opens {p : Shape} (hp : p.language = (keyword words).language)
    (h : ∀ w ∈ words, ¬Opens w.toList s) : p.Fails b s := by
  refine fails_of_language fun w hw t hs => ?_
  obtain ⟨v, hv, hopens⟩ := exists_opens_of_mem_keyword (hp ▸ hw) hs
  exact h v hv hopens

theorem fails_keyword (h : ∀ w ∈ words, ¬Opens w.toList s) : (keyword words).Fails b s :=
  fails_of_not_opens rfl h

/-- Behind a word boundary, a pattern fails when it fails at the word boundaries. -/
theorem fails_boundary {p : Shape}
    (h : (Anchor.holds ⟨b, 0, s⟩ .wordBoundary) = true → p.Fails b s) :
    (boundary ++ p).Fails b s := by
  intro pos next
  show (if Anchor.holds ⟨b, 0, s⟩ .wordBoundary then p.run next ⟨b, pos, s⟩ else none) = none
  split
  · rename_i hb
    exact h hb pos next
  · rfl

theorem fails_group_keyword {g : Part} (h : ∀ w ∈ words, ¬Opens w.toList s) :
    (.group g (.oneOf words) ++ someSpaces : Shape).Fails b s :=
  fails_of_not_opens rfl h

theorem fails_boundary_keyword (h : ∀ w ∈ words, ¬OpensAt b w.toList s) :
    (boundary ++ keyword words).Fails b s :=
  fails_boundary fun hb => fails_keyword fun w hw hopens => h w hw ⟨hopens, hb⟩

end Words

theorem isBreak_of_isSpace {c : Char} (h : Text.isSpace c = true) : isBreak c = true := by
  have hdash : c ≠ '-' := by
    rintro rfl
    exact absurd h (by decide)
  simp [isBreak, Text.isWordChar_of_isSpace h, hdash]

/-- No keyword stands where a name stands. -/
theorem not_opens_of_startsWithName {w s : Text} (hs : StartsWithName s) (hw : isName w = false)
    (hbreak : ∀ c ∈ w, isBreak c = false) : ¬Opens w s := by
  rintro ⟨c, t, heq, hc⟩
  refine hs.ne_append hw hbreak ?_ heq
  simpa using isBreak_of_isSpace hc

/-- Only one word stands at the front of a text. -/
theorem Opens.eq {v w t : Text} {c : Char} (h : Opens w (v ++ c :: t)) (hc : isBreak c = true)
    (hv : ∀ d ∈ v, isBreak d = false) (hw : ∀ d ∈ w, isBreak d = false) : w = v := by
  obtain ⟨d, u, heq, hd⟩ := h
  have hbreak := isBreak_of_isSpace hd
  exact (append_inj_of_isBreak hv hw (by simpa using hc) (by simpa using hbreak) heq).1.symm

/-- A word that a pattern for words takes is the word at the front of the text, with the space after
it. -/
theorem rest_eq_of_round {words : List String} {v x first rest : Text}
    (hv : ∀ c ∈ v, isBreak c = false)
    (hwords : ∀ w ∈ words, ∀ c ∈ w.toList, isBreak c = false)
    (hfirst : first ∈ (boundary ++ keyword words : Shape).language)
    (hx : ∀ c ∈ x.head?, Text.isSpace c = false) (heq : v ++ ' ' :: x = first ++ rest) :
    v ∈ words.map String.toList ∧ x = rest := by
  obtain ⟨_, rfl, u, hu, rfl⟩ := mem_language_seq.mp hfirst
  obtain ⟨_, hword, sp, hsp, rfl⟩ := mem_language_seq.mp hu
  obtain ⟨w, hw, rfl⟩ := mem_language_oneOf.mp hword
  obtain ⟨hne, hspace⟩ := mem_language_plus_char.mp hsp
  obtain ⟨c, sp, rfl⟩ := List.exists_cons_of_ne_nil hne
  have hbreak : isBreak c = true := isBreak_of_isSpace (hspace c (by simp))
  have hsplit : v ++ ' ' :: x = w.toList ++ c :: (sp ++ rest) := by simpa using heq
  obtain ⟨rfl, hrest⟩ := append_inj_of_isBreak hv (hwords w hw)
    (Text.forall_head (by decide) _) (Text.forall_head hbreak _) hsplit
  obtain ⟨rfl, rfl⟩ := List.cons.inj hrest
  refine ⟨List.mem_map_of_mem hw, ?_⟩
  cases sp with
  | nil => rfl
  | cons d sp =>
    have := hx d (by simp)
    have := hspace d (by simp)
    simp_all

theorem head_of_mem_openingWords : ∀ w ∈ openingWords, ∃ c cs, w = c :: cs ∧
    isPlainChar c = true := by
  intro w hw
  have h : ∀ w ∈ openingWords, w ≠ [] ∧ ∀ c ∈ w.head?, isPlainChar c = true := by decide
  obtain ⟨hne, hhead⟩ := h w hw
  obtain ⟨c, cs, rfl⟩ := List.exists_cons_of_ne_nil hne
  exact ⟨c, cs, rfl, hhead c rfl⟩

/-- No opening word stands at a break. -/
theorem not_opens_of_isBreak {c : Char} {s w : Text} (hc : isBreak c = true)
    (hw : w ∈ openingWords) : ¬Opens w (c :: s) := by
  rintro ⟨d, t, heq, _⟩
  obtain ⟨e, es, rfl, he⟩ := head_of_mem_openingWords w hw
  obtain rfl : c = e := (List.cons.inj heq).1
  simp [isBreak_of_isPlainChar he] at hc

/-- A text that a search for declarations passes over: it holds no opening word, and neither
comments nor annotations start in it. -/
structure Quiet (x : Text) : Prop where
  avoids : Text.Avoids openingWords x
  last : ∀ c ∈ x.getLast?, isBreak c = true
  chars : ∀ c ∈ x, c ≠ '/' ∧ c ≠ '@'

namespace Quiet

theorem nil : Quiet [] := ⟨avoids_nil, by simp, by simp⟩

theorem append {x y : Text} (hx : Quiet x) (hy : Quiet y) : Quiet (x ++ y) := by
  rcases List.eq_nil_or_concat x with rfl | ⟨x, c, rfl⟩
  · exact hy
  · rw [List.concat_eq_append] at hx ⊢
    have hc := hx.last c (by simp)
    have havoids := (avoids_append_cons_iff hc).mp hx.avoids
    refine ⟨?_, ?_, ?_⟩
    · rw [List.append_assoc]
      exact avoids_append_cons hc havoids.1 hy.avoids
    · intro d hd
      rw [List.getLast?_append, Option.mem_def, Option.or_eq_some_iff] at hd
      rcases hd with hd | ⟨_, hd⟩
      · exact hy.last d hd
      · exact hx.last d hd
    · intro d hd
      rcases List.mem_append.mp hd with hd | hd
      · exact hx.chars d hd
      · exact hy.chars d hd

theorem flatMap {α : Type} {f : α → Text} {xs : List α} (h : ∀ x ∈ xs, Quiet (f x)) :
    Quiet (xs.flatMap f) := by
  induction xs with
  | nil => exact nil
  | cons x xs ih => exact (h x (by simp)).append (ih fun y hy => h y (by simp [hy]))

theorem of_isSpace {x : Text} (h : ∀ c ∈ x, Text.isSpace c = true) : Quiet x := by
  refine ⟨?_, fun c hc => isBreak_of_isSpace (h c (List.mem_of_getLast? hc)), fun c hc => ?_⟩
  · induction x with
    | nil => exact avoids_nil
    | cons c x ih =>
      exact avoids_cons (isBreak_of_isSpace (h c (by simp))) (ih fun d hd => h d (by simp [hd]))
  · constructor <;> rintro rfl <;> exact absurd (h _ hc) (by decide)

end Quiet

/-- Nowhere in a text that avoids the opening words does one of them stand. -/
theorem not_opensAt_of_avoids {x u v w : Text} (hx : Text.Avoids openingWords x)
    (hlast : ∀ c ∈ x.getLast?, isBreak c = true) (huv : x = u ++ v) (hv : v ≠ [])
    (hw : w ∈ openingWords) (b : Option Char) (t : Text) :
    ¬OpensAt (Text.lastOr b u) w (v ++ t) := by
  rintro ⟨⟨c, z, heq, hc⟩, hboundary⟩
  have hbreak := isBreak_of_mem_openingWords w hw
  obtain ⟨d, ds, hwhead, hd⟩ := head_of_mem_openingWords w hw
  -- The word ends inside `v`, whose last character is a break.
  obtain ⟨v', rfl⟩ : ∃ v', v = w ++ v' := by
    rcases List.append_eq_append_iff.mp heq with ⟨m, hwm, _⟩ | ⟨m, hvm, _⟩
    · obtain ⟨vs, e, rfl⟩ := (List.eq_nil_or_concat v).resolve_left hv
      have hlast := hlast e (by simp [huv, List.getLast?_append])
      have := hbreak e (by simp [hwm])
      simp_all
    · exact ⟨m, hvm⟩
  refine hx w hw ⟨u, v', by simp [huv], fun e he => ?_, fun e he => ?_⟩
  · rcases List.eq_nil_or_concat u with rfl | ⟨us, f, rfl⟩
    · simp at he
    · obtain rfl : f = e := by simpa using he
      have hword := isWordChar_of_isPlainChar hd
      simpa [Anchor.holds, hwhead, hword] using hboundary
  · cases v' with
    | nil => simp at he
    | cons f v' =>
      obtain rfl : f = e := by simpa using he
      simp only [List.append_assoc, List.cons_append, List.append_cancel_left_eq,
        List.cons.injEq] at heq
      rw [heq.1]
      exact Text.isWordChar_of_isSpace hc

/-- A search passes over a quiet text when its pattern fails wherever no opening word stands. -/
theorem Quiet.matchesFrom_append {p : Shape} {x : Text} (hx : Quiet x)
    (hp : ∀ b s, (∀ c ∈ s.head?, c ≠ '/' ∧ c ≠ '@') → (∀ w ∈ openingWords, ¬OpensAt b w s) →
      p.Fails b s) (b : Option Char) (pos : Nat) (t : Text) :
    p.matchesFrom b pos (x ++ t) =
      p.matchesFrom (Text.lastOr b x) (pos + Text.byteLength x) t := by
  refine Pattern.matchesFrom_append fun u v huv hv => hp _ _ ?_ fun w hw =>
    not_opensAt_of_avoids hx.avoids hx.last huv hv hw b t
  obtain ⟨c, cs, rfl⟩ := List.exists_cons_of_ne_nil hv
  exact Text.forall_head (hx.chars c (by simp [huv])) _

-- ---------------------------------------------------------------------------
-- Types
-- ---------------------------------------------------------------------------

/-- Characters that may stand in angle brackets. -/
def isAngledChar (c : Char) : Bool := !"()\x7b\x7d;=".toList.contains c

theorem isAngledChar_of_isTypeChar {c : Char} (h : isTypeChar c = true) :
    isAngledChar c = true := by
  simp only [isAngledChar, Bool.not_eq_true', List.contains_eq_mem, decide_eq_false_iff_not]
  intro hmem
  have hnone : ∀ d ∈ "()\x7b\x7d;=".toList, isTypeChar d = false := by decide
  simp [hnone c hmem] at h

/-- A type holds none of the characters that end a declaration. -/
theorem within_typeText {k : Char} (hname : (Text.isWordChar k || k = '$' || k = '.') = false)
    (hspace : Text.isSpace k = false) (hangled : isAngledChar k = false)
    (hbracket : k ∉ ['<', '>', '[', ']']) : typeText.Within (· ≠ k) := by
  have hchar : ∀ {accepts : Char → Bool}, accepts k = false →
      (Pattern.char accepts : Shape).Within (· ≠ k) := by
    rintro accepts h c hc rfl
    simp [h] at hc
  have hlit : ∀ c ∈ ['<', '>', '[', ']'], c ≠ k := fun c hc h => hbracket (h ▸ hc)
  have hspaces : spaces.Within (· ≠ k) := hchar hspace
  have hangle : angled.Within (· ≠ k) :=
    ⟨⟨within_lit fun c hc => hlit c (by simp_all), hchar hangled⟩, within_lit fun c hc =>
      hlit c (by simp_all)⟩
  have hsquare : squarePair.Within (· ≠ k) :=
    ⟨⟨within_lit fun c hc => hlit c (by simp_all), hspaces⟩, within_lit fun c hc =>
      hlit c (by simp_all)⟩
  have hdotted : dottedDollar.Within (· ≠ k) := hchar hname
  exact ⟨⟨⟨hdotted, hdotted⟩, ⟨hspaces, hangle⟩, trivial⟩, hspaces, hsquare⟩

/-- Angle brackets close at the last place from which the match goes on. -/
theorem run_angled {next : Goal Part} {e : Ending Part} {b : Option Char} {pos : Nat}
    {inner t : Text} (hinner : ∀ c ∈ inner, isAngledChar c = true)
    (hnext : next ⟨some '>', pos + Text.byteLength ('<' :: (inner ++ ['>'])), t⟩ = some e)
    (hlater : ∀ u v pos, t = u ++ '>' :: v → (∀ c ∈ u, isAngledChar c = true) →
      next ⟨some '>', pos, v⟩ = none) :
    angled.run next ⟨b, pos, '<' :: (inner ++ '>' :: t)⟩ = some e := by
  have hclose : ∀ {b pos v}, (Pattern.lit ">").run next ⟨b, pos, '>' :: v⟩ =
      next ⟨some '>', pos + '>'.utf8Size, v⟩ := fun {_ _ _} => rfl
  have hother : ∀ {b pos v}, (∀ c ∈ v.head?, c ≠ '>') →
      (Pattern.lit ">").run next ⟨b, pos, v⟩ = none := by
    intro b pos v hv
    refine fails_lit ?_ pos next
    rintro ⟨u, rfl⟩
    exact hv '>' (by simp) rfl
  have hopen : angled.run next ⟨b, pos, '<' :: (inner ++ '>' :: t)⟩ =
      (Pattern.star (except "()\x7b\x7d;=")).run ((Pattern.lit ">").run next)
        ⟨some '<', pos + '<'.utf8Size, inner ++ '>' :: t⟩ := rfl
  rw [hopen]
  refine run_star_char hinner ?_ ?_
  · rw [hclose]
    simpa [Nat.add_assoc] using hnext
  · intro u v huv hne hu
    by_cases hv : ∀ c ∈ v.head?, c ≠ '>'
    · exact hother hv
    · -- The run went on to a later closing bracket.
      push Not at hv
      obtain ⟨c, hc, rfl⟩ := hv
      obtain ⟨d, us, rfl⟩ := List.exists_cons_of_ne_nil hne
      obtain ⟨v', rfl⟩ : ∃ v', v = '>' :: v' := by
        cases v with
        | nil => simp at hc
        | cons e v' => exact ⟨v', by simpa using hc⟩
      rw [hclose]
      obtain ⟨rfl, ht⟩ := List.cons.inj huv
      exact hlater us v' _ ht fun e he => hu e (by simp [he])

theorem takes_angled {b : Option Char} {pos : Nat} {inner u v : Text} {c : Char}
    (hinner : ∀ d ∈ inner, isAngledChar d = true) (hu : ∀ d ∈ u, d ≠ '>')
    (hc : isAngledChar c = false) :
    angled.Takes b pos ('<' :: (inner ++ ['>'])) (u ++ c :: v) [] := by
  intro next f hf
  have hlast : Text.lastOr b ('<' :: (inner ++ ['>'])) = some '>' := by simp
  rw [hlast] at hf
  have hrun := run_angled (b := b) hinner hf ?_
  · simpa using hrun
  · intro x y pos heq hx
    exfalso
    rcases List.append_eq_append_iff.mp heq with ⟨m, rfl, hm⟩ | ⟨m, rfl, hm⟩
    · cases m with
      | nil =>
        obtain ⟨rfl, _⟩ := List.cons.inj hm
        exact absurd hc (by decide)
      | cons d m =>
        obtain ⟨rfl, _⟩ := List.cons.inj hm
        have := hx c (by simp)
        simp_all
    · cases m with
      | nil =>
        obtain ⟨rfl, _⟩ := List.cons.inj hm
        exact absurd hc (by decide)
      | cons d m =>
        obtain ⟨rfl, _⟩ := List.cons.inj hm
        exact hu '>' (by simp) rfl

/-- After spaces, a pattern fails when it fails before and after each of them. -/
theorem fails_spaces_seq {p : Shape} {b : Option Char} {sp t : Text}
    (hsp : ∀ c ∈ sp, Text.isSpace c = true) (ht : ∀ c ∈ t.head?, Text.isSpace c = false)
    (hp : ∀ b v, (∀ c ∈ v, Text.isSpace c = true) → p.Fails b (v ++ t)) :
    (spaces ++ p).Fails b (sp ++ t) := by
  refine fails_seq_of_language fun w hw z heq => ?_
  have hw := mem_language_star_char.mp hw
  rcases List.append_eq_append_iff.mp heq with ⟨m, rfl, rfl⟩ | ⟨m, rfl, rfl⟩
  · cases m with
    | nil => simpa using hp _ [] (by simp)
    | cons c m =>
      have := ht c (by simp)
      have := hw c (by simp)
      simp_all
  · exact hp _ m fun c hc => hsp c (by simp [hc])

theorem head_append_of_isSpace {v t : Text} {d : Char} (hd : Text.isSpace d = false)
    (hv : ∀ c ∈ v, Text.isSpace c = true) (ht : ∀ c ∈ t.head?, c ≠ d) :
    ∀ c ∈ (v ++ t).head?, c ≠ d := by
  cases v with
  | nil => simpa using ht
  | cons e v =>
    rintro c hc rfl
    obtain rfl : e = c := by simpa using hc
    have := hv e (by simp)
    simp_all

theorem fails_angled {b : Option Char} {t : Text} (ht : ∀ c ∈ t.head?, c ≠ '<') :
    angled.Fails b t := by
  have hlit : ¬"<".toList <+: t := by
    rintro ⟨u, rfl⟩
    exact ht '<' (by simp) rfl
  exact ((fails_lit hlit).seq).seq

theorem fails_squarePair {b : Option Char} {t : Text} (ht : ∀ c ∈ t.head?, c ≠ '[') :
    squarePair.Fails b t := by
  have hlit : ¬"[".toList <+: t := by
    rintro ⟨u, rfl⟩
    exact ht '[' (by simp) rfl
  exact ((fails_lit hlit).seq).seq

theorem takes_squarePair {b : Option Char} {pos : Nat} {t : Text} :
    squarePair.Takes b pos "[]".toList t [] := by
  have hclose : ∀ c ∈ ("]".toList ++ t).head?, Text.isSpace c = false := by
    intro c hc
    obtain rfl : ']' = c := by simpa using hc
    decide
  exact ((takes_lit "[").seq (v := []) (takes_spaces_nil hclose)).seq (takes_lit "]")

/-- Neither arguments nor square brackets follow the spaces before some other character. -/
theorem fails_bracket_of_isSpace {b : Option Char} {sp t : Text}
    (hsp : ∀ c ∈ sp, Text.isSpace c = true)
    (ht : ∀ c ∈ t.head?, Text.isSpace c = false ∧ c ≠ '<' ∧ c ≠ '[') :
    (spaces ++ angled).Fails b (sp ++ t) ∧ (spaces ++ squarePair).Fails b (sp ++ t) := by
  have hspace : ∀ c ∈ t.head?, Text.isSpace c = false := fun c hc => (ht c hc).1
  constructor
  · refine fails_spaces_seq hsp hspace fun _ v hv => ?_
    exact fails_angled (head_append_of_isSpace (by decide) hv fun c hc => (ht c hc).2.1)
  · refine fails_spaces_seq hsp hspace fun _ v hv => ?_
    exact fails_squarePair (head_append_of_isSpace (by decide) hv fun c hc => (ht c hc).2.2)

theorem stays_typeEnd {b : Option Char} {t : Text}
    (ht : ∀ c ∈ t.head?, Text.isSpace c = false ∧ c ≠ '<' ∧ c ≠ '[') :
    (.opt (spaces ++ angled) ++ .star (spaces ++ squarePair) : Shape).Stays b t := by
  obtain ⟨hangled, hsquare⟩ := @fails_bracket_of_isSpace b [] t (by simp) ht
  exact hangled.stays_opt.seq hsquare.stays_star

/-- A name before a parenthesis is no type that a space follows. -/
theorem fails_typeText_of_name {b : Option Char} {n t : Text} (hn : isName n = true) (g : Part) :
    (.group g typeText ++ someSpaces : Shape).Fails b (n ++ '(' :: t) := by
  have hsplit : ∀ next r, typeText.run next r = (Pattern.plus dottedDollar).run
      ((.opt (spaces ++ angled) ++ .star (spaces ++ squarePair) : Shape).run next) r :=
        fun _ _ => rfl
  intro pos next
  by_contra hsome
  obtain ⟨e, he⟩ := Option.ne_none_iff_exists'.mp hsome
  obtain ⟨e, he, _⟩ := Option.map_eq_some_iff.mp he
  rw [hsplit] at he
  obtain ⟨w, v, f, hw, heq, hf⟩ := exists_word_of_run he
  -- The name goes on after what was taken of it, or the parenthesis follows.
  have hhead : ∀ c ∈ v.head?, Text.isSpace c = false ∧ c ≠ '<' ∧ c ≠ '[' := by
    have hname : ∀ c ∈ n, Text.isSpace c = false ∧ c ≠ '<' ∧ c ≠ '[' := fun c hc =>
      forall_isPlainChar (P := fun c => Text.isSpace c = false ∧ c ≠ '<' ∧ c ≠ '[') (by decide)
        (isPlainChar_of_isName hn c hc)
    rcases List.append_eq_append_iff.mp heq with ⟨m, rfl, hm⟩ | ⟨m, rfl, rfl⟩
    · cases m with
      | nil =>
        rw [List.nil_append] at hm
        rw [← hm]
        exact Text.forall_head (by decide) _
      | cons c m =>
        obtain ⟨rfl, _⟩ := List.cons.inj hm
        exact absurd ((mem_language_plus_char.mp hw).2 '(' (by simp)) (by decide)
    · cases m with
      | nil => exact Text.forall_head (by decide) _
      | cons c m => exact Text.forall_head (hname c (by simp)) _
  obtain ⟨f, hf⟩ := stays_typeEnd hhead _ _ f hf
  obtain ⟨f, hf, _⟩ := Option.map_eq_some_iff.mp hf
  have hspaces : someSpaces.Fails (Text.lastOr b w) v :=
    (fails_char fun c hc => (hhead c hc).1).seq
  rw [hspaces] at hf
  cases hf

theorem fails_typeText {b : Option Char} {t : Text}
    (ht : ∀ c ∈ t.head?, (Text.isWordChar c || c = '$' || c = '.') = false) : typeText.Fails b t :=
  ((fails_char ht).seq).seq.seq

-- ---------------------------------------------------------------------------
-- Parentheses
-- ---------------------------------------------------------------------------

theorem takes_parenthesized {b : Option Char} {pos : Nat} {s t : Text}
    (hs : ∀ c ∈ s, c ≠ '(' ∧ c ≠ ')') : parenthesized.Takes b pos s (')' :: t) [] := by
  have hexcept : ∀ c, c ≠ '(' ∧ c ≠ ')' → (!"()".toList.contains c) = true := by
    intro c hc
    simp [hc]
  induction s generalizing b pos with
  | nil =>
    refine takes_star_of_fails (Fails.or (fails_char (Text.forall_head (by decide) _)) ?_)
    refine ((fails_lit ?_).seq).seq
    rintro ⟨u, hu⟩
    exact absurd (List.cons.inj hu).1 (by decide)
  | cons c s ih =>
    have hfirst : (except "()").Takes b pos [c] (s ++ ')' :: t) [] :=
      takes_char (hexcept c (hs c (by simp)))
    have hrest := @ih (some c) (pos + c.utf8Size) fun d hd => hs d (by simp [hd])
    exact hfirst.orLeft.round (by simp) hrest

end Typings.Declaration
