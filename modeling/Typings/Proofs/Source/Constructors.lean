import Typings.Proofs.Source.Bodies
import Typings.Proofs.Source.WrittenTypes

/-!
# Constructors

A match of the pattern for methods whose result is a keyword is no method. The result is compared as
a whole, so a keyword is found out when it stands alone: a constructor after its visibility is left
out, and one whose type parameters follow the visibility is taken for a method. Main statement:
`methods_exclude_keywords`.
-/

namespace Typings

-- ---------------------------------------------------------------------------
-- Type parameters
-- ---------------------------------------------------------------------------

/-- No name stands at the front of a text, nor behind spaces there. -/
def Shut (s : Text) : Prop := ∀ c ∈ (s.dropWhile Text.isSpace).head?, isBaseChar c = false

theorem shut_cons {c : Char} (hspace : Text.isSpace c = false) (hc : isBaseChar c = false)
    (s : Text) :
    Shut (c :: s) := by
  rw [Shut, List.dropWhile_cons_of_neg (by simp [hspace])]
  exact Text.forall_head hc s

theorem shut_space_cons {s : Text} (h : Shut s) : Shut (' ' :: s) := by
  rw [Shut, List.dropWhile_cons_of_pos (by decide)]
  exact h

theorem Shut.append {s t : Text} (hs : Shut s) (ht : Shut t) : Shut (s ++ t) := by
  induction s with
  | nil => exact ht
  | cons c s ih =>
    by_cases hc : Text.isSpace c = true
    · rw [Shut, List.dropWhile_cons_of_pos hc] at hs
      rw [List.cons_append, Shut, List.dropWhile_cons_of_pos hc]
      exact ih hs
    · rw [Shut, List.dropWhile_cons_of_neg hc] at hs
      rw [List.cons_append, Shut, List.dropWhile_cons_of_neg hc]
      exact Text.forall_head (hs c rfl) _

/-- No name stands behind a closing angle bracket, nor behind spaces after one. -/
def Sealed (s : Text) : Prop := ∀ u v, s = u ++ '>' :: v → Shut v

namespace Sealed

variable {s t : Text}

theorem of_forall (h : ∀ c ∈ s, c ≠ '>') : Sealed s := by
  rintro u v rfl
  exact absurd rfl (h '>' (by simp))

theorem append (hs : Sealed s) (ht : Sealed t) (hshut : Shut t) : Sealed (s ++ t) := by
  intro u v heq
  rcases List.append_eq_append_iff.mp heq with ⟨m, rfl, hm⟩ | ⟨m, rfl, hm⟩
  · exact ht m v hm
  · cases m with
    | nil =>
      rw [List.nil_append] at hm
      exact ht [] v hm.symm
    | cons d m =>
      obtain ⟨rfl, rfl⟩ := List.cons.inj hm
      exact (hs u m rfl).append hshut

/-- A text without closing brackets may stand before any sealed text. -/
theorem prepend (hs : ∀ c ∈ s, c ≠ '>') (ht : Sealed t) : Sealed (s ++ t) := by
  intro u v heq
  rcases List.append_eq_append_iff.mp heq with ⟨m, rfl, hm⟩ | ⟨m, rfl, hm⟩
  · exact ht m v hm
  · cases m with
    | nil =>
      rw [List.nil_append] at hm
      exact ht [] v hm.symm
    | cons d m =>
      obtain ⟨rfl, rfl⟩ := List.cons.inj hm
      exact absurd rfl (hs '>' (by simp))

theorem intercalate {sep : Text} (hsep : ∀ c ∈ sep, c ≠ '>') (hshut : ∀ t, Shut (sep ++ t))
    {pieces : List Text} (hpieces : ∀ p ∈ pieces, Sealed p) : Sealed (sep.intercalate pieces) := by
  induction pieces with
  | nil => exact of_forall (by simp)
  | cons p pieces ih =>
    cases pieces with
    | nil => simpa using hpieces p (by simp)
    | cons q pieces =>
      rw [List.intercalate_cons_cons, List.append_assoc]
      have hrest := ih fun r hr => hpieces r (by simp [hr])
      exact (hpieces p (by simp)).append (.prepend hsep hrest) (hshut _)

/-- In a type, a comma or another bracket stands behind a closing bracket. -/
theorem of_isTypeText (h : IsTypeText s) : Sealed s := by
  rintro u v rfl
  have hchain := h.entry.chain
  cases v with
  | nil => simp [Shut]
  | cons d v =>
    rw [List.isChain_append_cons_cons] at hchain
    have hd : d ∈ [',', '>', '['] := hchain.2.1.2 rfl
    have hall : ∀ c ∈ [',', '>', '['], Text.isSpace c = false ∧ isBaseChar c = false := by decide
    exact shut_cons (hall d hd).1 (hall d hd).2 v

end Sealed

theorem BoundedName.IsPlain.sealed_text {b : BoundedName} (h : b.IsPlain) : Sealed b.text := by
  have hname : ∀ c ∈ b.name, c ≠ '>' := fun c hc =>
    forall_isPlainChar (P := (· ≠ '>')) (by decide) (isPlainChar_of_isName h.name c hc)
  have hsep : ∀ t, Shut (' ' :: '&' :: ' ' :: t) := fun t =>
    shut_space_cons (shut_cons (by decide) (by decide) _)
  have hbounds : Sealed ([' ', '&', ' '].intercalate b.bounds) :=
    .intercalate (by decide) hsep fun t ht => .of_isTypeText (h.bounds t ht)
  have hlead : ∀ c ∈ b.name ++ " extends ".toList, c ≠ '>' := by
    have hword : ∀ c ∈ " extends ".toList, c ≠ '>' := by decide
    intro c hc
    exact (List.mem_append.mp hc).elim (hname c) (hword c)
  unfold BoundedName.text
  cases hb : b.bounds with
  | nil => exact .of_forall hname
  | cons t ts =>
    rw [hb] at hbounds
    exact .prepend hlead hbounds

/-- What stands between the brackets of type parameters. -/
theorem IsTypeParameters.exists_sealed {s : Text} (h : IsTypeParameters s) :
    ∃ inner, s = '<' :: (inner ++ ['>']) ∧ Sealed inner ∧
      ∀ c ∈ inner, Declaration.isAngledChar c = true := by
  obtain ⟨inner, hs, _, hshape⟩ := h.exists_inner
  refine ⟨inner, hs, ?_, fun c hc =>
    Declaration.isAngledChar_of_isTypeChar (hshape.chars c (by simp [hs, hc]))⟩
  obtain ⟨entries, hentries, heq⟩ := h
  obtain rfl : inner = [',', ' '].intercalate (entries.map BoundedName.text) := by
    rw [hs, List.cons.injEq] at heq
    exact List.append_cancel_right heq.2
  refine .intercalate (by decide) (fun t => shut_cons (by decide) (by decide) _) fun p hp => ?_
  obtain ⟨b, hb, rfl⟩ := List.mem_map.mp hp
  exact BoundedName.IsPlain.sealed_text (hentries b hb)

namespace Source

open Declaration Pattern

-- ---------------------------------------------------------------------------
-- Results
-- ---------------------------------------------------------------------------

/-- The words that are no result of a method. -/
def keywords : List Text := modifierWords ++ statementWords ++ declarationWords

/-- The name that a type starts with: its text before the first `<` or `[`. -/
def leadingName (s : Text) : Text := s.takeWhile fun c => c ≠ '<' && c ≠ '['

theorem leadingName_append {base rest : Text} (hbase : ∀ c ∈ base, isBaseChar c = true)
    (hrest : IsTypeEnd rest) : leadingName (base ++ rest) = base := by
  have hname : ∀ c ∈ base, (c ≠ '<' && c ≠ '[') = true := by
    intro c hc
    have hangle := ne_of_isBaseChar (d := '<') (hbase c hc) (by decide)
    have hsquare := ne_of_isBaseChar (d := '[') (hbase c hc) (by decide)
    simp [hangle, hsquare]
  rw [leadingName, List.takeWhile_append_of_pos hname]
  cases rest with
  | nil => simp
  | cons c rest =>
    have hc := hrest c rfl
    rw [List.takeWhile_cons_of_neg, List.append_nil]
    rcases hc with rfl | rfl <;> simp

theorem mem_keywords_iff {s : Text} : s ∈ keywords ↔
    (modifierWords.contains s || statementWords.contains s ||
      declarationWords.contains s) = true := by
  simp only [keywords, List.mem_append, List.contains_eq_mem, Bool.or_eq_true, decide_eq_true_eq]

/-- The result of a method is a name with a bracket after it, if anything, and no keyword. -/
theorem exists_result_of_mem_methods {docs : Bool} {members : Text} {method : Method}
    (h : method ∈ methods docs members) :
    ∃ base rest, method.returnType.toList = base ++ rest ∧ base ≠ [] ∧
      (∀ c ∈ base, isBaseChar c = true) ∧ IsTypeEnd rest ∧ method.returnType.toList ∉ keywords := by
  obtain ⟨m, hm, hmethod⟩ := List.mem_filterMap.mp h
  obtain ⟨part, hpart⟩ := exists_get?_of_captures (g := .result) rfl hm
  have hplain : ∀ q ∈ Declaration.method.bodies .result, q.isPlain = true := by
    intro q hq
    obtain rfl : q = typeText := by simpa using (show q ∈ [typeText] from hq)
    rfl
  obtain ⟨q, hq, hword⟩ := exists_mem_language_of_get? hplain hm hpart
  obtain rfl : q = typeText := by simpa using (show q ∈ [typeText] from hq)
  obtain ⟨base, rest, hcompact, hne, hbase, hrest⟩ := exists_compact_of_mem_typeText hword
  have htext : m.text .result = part.text := by rw [Match.text, hpart]; rfl
  unfold methodOf? at hmethod
  simp only [htext] at hmethod
  split at hmethod
  · cases hmethod
  · rename_i hkeyword
    split at hmethod
    · cases hmethod
    · obtain rfl := Option.some.inj hmethod
      refine ⟨base, rest, ?_, hne, hbase, hrest, ?_⟩
      · simpa using hcompact
      · rw [mem_keywords_iff]
        simpa using hkeyword

/-- A result that starts with a keyword goes on with a bracket. -/
theorem exists_bracket_of_leadingName {result base rest : Text} (heq : result = base ++ rest)
    (hbase : ∀ c ∈ base, isBaseChar c = true) (hrest : IsTypeEnd rest) (hresult : result ∉ keywords)
    (hkeyword : leadingName result ∈ keywords) :
    ∃ c after, result = leadingName result ++ c :: after ∧ (c = '<' ∨ c = '[') := by
  subst heq
  rw [leadingName_append hbase hrest] at hkeyword ⊢
  cases rest with
  | nil =>
    rw [List.append_nil] at hresult
    exact absurd hkeyword hresult
  | cons c after => exact ⟨c, after, rfl, hrest c rfl⟩

-- ---------------------------------------------------------------------------
-- After the visibility
-- ---------------------------------------------------------------------------

/-- Of two characters, one does not come first in a text and the other one too. -/
theorem append_cons_ne_append_cons {x y u v : Text} {c d : Char} (hne : c ≠ d) (hx : d ∉ x)
    (hu : c ∉ u) : x ++ c :: y ≠ u ++ d :: v := by
  intro heq
  rcases List.append_eq_append_iff.mp heq with ⟨m, rfl, hm⟩ | ⟨m, rfl, hm⟩
  · cases m with
    | nil => exact hne (List.cons.inj hm).1
    | cons e m =>
      obtain ⟨rfl, _⟩ := List.cons.inj hm
      exact hu (by simp)
  · cases m with
    | nil => exact hne (List.cons.inj hm).1.symm
    | cons e m =>
      obtain ⟨rfl, _⟩ := List.cons.inj hm
      exact hx (by simp)

/-- No signature starts at a text that no name stands at the front of. -/
theorem fails_spaces_methodSignature_of_shut {b : Option Char} {s : Text} (h : Shut s) :
    (spaces ++ methodSignature).Fails b s := by
  have hsp : ∀ c ∈ s.takeWhile Text.isSpace, Text.isSpace c = true :=
    List.all_eq_true.mp List.all_takeWhile
  have hspace : ∀ c ∈ (s.dropWhile Text.isSpace).head?, Text.isSpace c = false := fun c hc => by
    have := List.head?_dropWhile_not Text.isSpace s
    rw [hc] at this
    simpa using this
  rw [← List.takeWhile_append_dropWhile (p := Text.isSpace) (l := s)]
  exact fails_spaces_methodSignature hsp hspace fun _ => fails_methodSignature h

/-- Where type parameters can close in front of a name: at their own bracket, or at one inside. -/
theorem eq_or_exists_of_closing {inner i name t v : Text} (hi : ∀ c ∈ i, isAngledChar c = true)
    (hname : isName name = true)
    (heq : inner ++ '>' :: (' ' :: (name ++ '(' :: t)) = i ++ '>' :: v) :
    v = ' ' :: (name ++ '(' :: t) ∨
      ∃ m, inner = i ++ '>' :: m ∧ v = m ++ '>' :: (' ' :: (name ++ '(' :: t)) := by
  rcases List.append_eq_append_iff.mp heq with ⟨m, rfl, hm⟩ | ⟨m, rfl, hm⟩
  · cases m with
    | nil => exact .inl (List.cons.inj hm).2.symm
    | cons d m =>
      -- No bracket stands between the closing one and the parenthesis.
      exfalso
      obtain ⟨rfl, htail⟩ := List.cons.inj hm
      refine @append_cons_ne_append_cons (' ' :: name) t m v '(' '>' (by decide) ?_ ?_ htail
      · intro hmem
        rcases List.mem_cons.mp hmem with h | h
        · exact absurd h (by decide)
        · exact absurd (isPlainChar_of_isName hname _ h) (by decide)
      · exact fun hmem => absurd (hi '(' (by simp [hmem])) (by decide)
  · cases m with
    | nil => exact .inl (List.cons.inj hm).2
    | cons d m =>
      obtain ⟨rfl, rfl⟩ := List.cons.inj hm
      exact .inr ⟨m, rfl, rfl⟩

/-- Behind type parameters, the name of a constructor is no method. -/
theorem fails_typeParameters_methodSignature {b : Option Char} {inner name t : Text}
    (hinner : Sealed inner)
    (hname : isName name = true) :
    (.group .typeParameters angled ++ (spaces ++ methodSignature) : Shape).Fails b
      ('<' :: (inner ++ '>' :: (' ' :: (name ++ '(' :: t)))) := by
  refine fails_seq_of_language fun w hw v heq => ?_
  obtain ⟨front, hfront, close, hclose, rfl⟩ := mem_language_seq.mp hw
  obtain ⟨lead, hlead, i, hi, rfl⟩ := mem_language_seq.mp hfront
  obtain rfl : lead = ['<'] := mem_language_lit.mp hlead
  obtain rfl : close = ['>'] := mem_language_lit.mp hclose
  rcases eq_or_exists_of_closing (v := v) (mem_language_star_char.mp hi) hname
      (by simpa using heq) with
    rfl | ⟨m, rfl, rfl⟩
  · exact fails_spaces_methodSignature_of_name hname
  · exact fails_spaces_methodSignature_of_shut
      ((hinner i m rfl).append (shut_cons (by decide) (by decide) _))

/-- Behind a visibility, the type parameters and the name of a constructor are no method. -/
theorem fails_generics {b : Option Char} {typeParameters : Option Text} {name t : Text}
    (hgeneric : ∀ s ∈ typeParameters, IsTypeParameters s) (hname : isName name = true) :
    (methodTypeParameters ++ methodSignature).Fails b
      (generics typeParameters ++ (name ++ '(' :: t)) := by
  cases typeParameters with
  | none =>
    have hangle : ∀ c ∈ (name ++ '(' :: t).head?, c ≠ '<' := by
      obtain ⟨d, ds, hds, hd⟩ := (isPath_of_isName hname).head
      have hne : d ≠ '<' := forall_isPlainChar (P := (· ≠ '<')) (by decide) hd
      rw [hds]
      exact Text.forall_head (P := (· ≠ '<')) hne _
    exact (((fails_angled hangle).group _).seq).stays_opt.fails_seq
      (fails_methodSignature_of_name hname)
  | some s =>
    obtain ⟨inner, rfl, hsealed, _⟩ := (hgeneric s rfl).exists_sealed
    have htext : generics (some ('<' :: (inner ++ ['>']))) ++ (name ++ '(' :: t) =
        '<' :: (inner ++ '>' :: (' ' :: (name ++ '(' :: t))) := by simp [generics]
    have hopened := fails_typeParameters_methodSignature (b := b) (t := t) hsealed hname
    have hnone : methodSignature.Fails b ('<' :: (inner ++ '>' :: (' ' :: (name ++ '(' :: t)))) :=
      fails_methodSignature (Text.forall_head (by decide) _)
    intro pos next
    rw [htext]
    show ((.group .typeParameters angled ++ (spaces ++ methodSignature) : Shape).run next _).or
      (methodSignature.run next _) = none
    rw [hopened, hnone, Option.none_or]

end Source

-- ---------------------------------------------------------------------------
-- Constructors
-- ---------------------------------------------------------------------------

/-- A constructor with a visibility. -/
structure Constructor where
  visibility : String
  /-- With the angle brackets. -/
  typeParameters : Option String := none
  name : String
  parameters : List Parameter := []
  /-- The text between the braces. -/
  body : Text := []

namespace Constructor

/-- What stands before the brace. -/
def printHead (k : Constructor) : Text :=
  k.visibility.toList ++ ' ' :: (Source.generics (k.typeParameters.map String.toList) ++
    (k.name.toList ++ '(' :: ([',', ' '].intercalate (k.parameters.map Parameter.print) ++
      [')', ' '])))

def headed (k : Constructor) : Source.Headed := ⟨k.printHead, k.body⟩

/-- The text of a constructor. -/
def print (k : Constructor) : Text := k.headed.text

/-- The method that a constructor is taken for: none, unless it has type parameters. -/
def reported? (k : Constructor) : Option Method :=
  k.typeParameters.map fun s =>
    { name := k.name, returnType := k.visibility ++ s, parameters := k.parameters }

structure WellFormed (k : Constructor) : Prop where
  visibility : k.visibility ∈ ["public", "protected", "private"]
  typeParameters : ∀ s ∈ k.typeParameters, IsTypeParameters s.toList
  name : isName k.name.toList = true
  parameters : ∀ p ∈ k.parameters, p.Printable
  body : Source.IsBlock k.body

/-- The text that the pattern for methods takes for the result. -/
def result (k : Constructor) : Text :=
  match k.typeParameters with
  | some s => k.visibility.toList ++ ' ' :: s.toList
  | none => k.visibility.toList

end Constructor

namespace Source

open Declaration Pattern

/-- The modifiers of methods. -/
def methodModifiers : List String :=
  ["public", "protected", "private", "abstract", "static", "final", "synchronized", "native",
    "strictfp", "default"]

theorem printHead_eq (k : Constructor) : k.printHead ++ ['{'] = k.result ++ ' ' ::
    (k.name.toList ++ '(' :: ([',', ' '].intercalate (k.parameters.map Parameter.print) ++
      ')' :: ([' '] ++ ['{']))) := by
  unfold Constructor.printHead Constructor.result
  cases k.typeParameters with
  | none => simp [generics]
  | some s => simp [generics]

/-- A name with type parameters right behind it is compact. -/
theorem isCompact_append_typeParameters {v g : Text} (hne : v ≠ [])
    (hv : ∀ c ∈ v, isPlainChar c = true)
    (hg : IsTypeParameters g) : Text.IsCompact (v ++ g) := by
  have hgc := hg.isCompact
  obtain ⟨inner, rfl, _⟩ := hg.exists_sealed
  have hnotSpace : ∀ c ∈ v, c ≠ ' ' := fun c hc =>
    forall_isPlainChar (P := (· ≠ ' ')) (by decide) (hv c hc)
  refine ⟨fun c hc hs => ?_, ?_, fun c hc => ?_, fun c hc => ?_⟩
  · rcases List.mem_append.mp hc with hc | hc
    · rw [isSpace_of_isPlainChar (hv c hc)] at hs
      cases hs
    · exact hgc.spaces c hc hs
  · have hchain : v.IsChain Text.Tight := by
      refine List.Pairwise.isChain (List.pairwise_of_forall_mem_list fun a ha b hb => ?_)
      exact ⟨fun h => absurd h (hnotSpace a ha), fun h => absurd h (hnotSpace b hb)⟩
    refine List.isChain_append.mpr ⟨hchain, hgc.tight, fun a ha b hb => ?_⟩
    obtain rfl : '<' = b := by simpa using hb
    exact ⟨fun h => absurd h (hnotSpace a (List.mem_of_mem_getLast? ha)), fun h =>
      absurd h (by decide)⟩
  · obtain ⟨d, ds, rfl⟩ := List.exists_cons_of_ne_nil hne
    obtain rfl : d = c := by simpa using hc
    exact hnotSpace d (by simp)
  · exact hgc.last c (by simpa [List.getLast?_append] using hc)

/-- The compact form of a name and type parameters has no space between them. -/
theorem compact_append_typeParameters {v g : Text} (hne : v ≠ [])
    (hv : ∀ c ∈ v, isPlainChar c = true)
    (hg : IsTypeParameters g) : Text.compact (v ++ ' ' :: g) = v ++ g := by
  have hspace : ∀ c ∈ v, Text.isSpace c = false := fun c hc => isSpace_of_isPlainChar (hv c hc)
  have hnotSpace : ' ' ∉ v := fun hmem => absurd (hspace _ hmem) (by decide)
  have hcompact := isCompact_append_typeParameters hne hv hg
  have hgc := hg.isCompact
  obtain ⟨inner, rfl, _⟩ := hg.exists_sealed
  have hnormal : Text.normalizeSpaces (v ++ ' ' :: '<' :: (inner ++ ['>'])) =
      v ++ ' ' :: '<' :: (inner ++ ['>']) := by
    have hg := hgc.normalizeSpaces_eq
    unfold Text.normalizeSpaces at hg ⊢
    rw [Text.words_append_first_space hspace isSpace_space, Text.words_of_forall hne hspace]
    cases hwords : Text.words ('<' :: (inner ++ ['>'])) with
    | nil => simp [hwords] at hg
    | cons w ws =>
      rw [hwords] at hg
      simp [← hg]
  have hdrop : Text.dropSpaceBefore '<' (v ++ ' ' :: '<' :: (inner ++ ['>'])) =
      v ++ '<' :: (inner ++ ['>']) := by
    have hinner : Text.replacePair ' ' '<' '<' (inner ++ ['>']) = inner ++ ['>'] :=
      Text.replacePair_eq (hgc.tight.tail.imp fun a b hab ⟨ha, hb⟩ => by
        have := hab.1 ha
        simp [hb] at this)
    rw [Text.dropSpaceBefore, Text.replacePair_append hnotSpace, Text.replacePair,
      if_pos ⟨rfl, rfl⟩,
      hinner]
  -- After the first pass, the two texts are the same.
  have hwhole := hcompact.compact_eq
  unfold Text.compact at hwhole ⊢
  rw [hcompact.normalizeSpaces_eq, hcompact.dropSpaceBefore_eq (by simp)] at hwhole
  rw [hnormal, hdrop]
  exact hwhole

/-- A break parts the words for types on its sides. -/
theorem avoids_kindWords_iff {x y : Text} {c : Char} (hc : isBreak c = true) :
    Text.Avoids (kindWords.map String.toList) (x ++ c :: y) ↔
      Text.Avoids (kindWords.map String.toList) x ∧
      Text.Avoids (kindWords.map String.toList) y := by
  have hsub : ∀ w ∈ kindWords.map String.toList, w ∈ openingWords := by decide
  have hword : Text.isWordChar c = false := by
    simp only [isBreak, Bool.and_eq_true, Bool.not_eq_true'] at hc
    exact hc.1
  exact Text.Avoids.append_cons_iff hword fun w hw => notMem_openingWords hc w (hsub w hw)

section Constructor

variable {k : Constructor} (hk : k.WellFormed)

include hk

theorem isTypeParameters_of_mem_constructor :
    ∀ s ∈ k.typeParameters.map String.toList, IsTypeParameters s := by
  intro s hs
  obtain ⟨text, htext, rfl⟩ := Option.map_eq_some_iff.mp hs
  exact hk.typeParameters text htext

/-- What is known of a visibility. -/
theorem visibility_facts : (∀ c ∈ k.visibility.toList, isBreak c = false) ∧
    (∀ c ∈ k.visibility.toList, isPlainChar c = true) ∧ (∃ c cs, k.visibility.toList = c :: cs) ∧
    k.visibility.toList ∈ keywords := by
  have hfacts : ∀ v ∈ ["public", "protected", "private"], (∀ c ∈ v.toList, isBreak c = false) ∧
      (∀ c ∈ v.toList, isPlainChar c = true) ∧ v.toList ≠ [] ∧ v.toList ∈ keywords := by decide
  obtain ⟨hbreak, hplain, hne, hkeyword⟩ := hfacts k.visibility hk.visibility
  exact ⟨hbreak, hplain, List.exists_cons_of_ne_nil hne, hkeyword⟩

theorem result_mem_language : k.result ∈ typeText.language := by
  obtain ⟨_, hplain, ⟨c, cs, hcs⟩, _⟩ := visibility_facts hk
  have hargs : ∀ s ∈ k.typeParameters, IsAngled (' ' :: s.toList) := by
    intro s hs
    obtain ⟨inner, hinner, _, hchars⟩ := (hk.typeParameters s hs).exists_sealed
    exact ⟨[' '], inner, by decide, hchars, by simp [hinner]⟩
  have hparts : ∀ args, (args = [] ∨ IsAngled args) → TypeParts k.visibility.toList args [] :=
    fun _ h =>
    ⟨by simp [hcs], fun d hd => isBaseChar_of_isPlainChar (hplain d hd), h, nofun⟩
  unfold Constructor.result
  refine mem_typeText_iff.mpr ⟨k.visibility.toList, ?_⟩
  cases htype : k.typeParameters with
  | none => exact ⟨[], [], by simp, hparts _ (.inl rfl)⟩
  | some s => exact ⟨' ' :: s.toList, [], by simp, hparts _ (.inr (hargs s htype))⟩

/-- No word opens behind the visibility. -/
theorem not_opens_generics (t : Text) {w : Text} (hw : w ∈ openingWords) :
    ¬Opens w (generics (k.typeParameters.map String.toList) ++ (k.name.toList ++ '(' :: t)) := by
  have hgeneric := isTypeParameters_of_mem_constructor hk
  cases htype : k.typeParameters.map String.toList with
  | none =>
    have hstarts : StartsWithName (k.name.toList ++ '(' :: t) :=
      (isPath_of_isName hk.name).startsWithName.append (Text.forall_head (by decide) _)
    exact not_opens_of_startsWithName hstarts (isName_of_mem_openingWords w hw)
      (isBreak_of_mem_openingWords w hw)
  | some s =>
    rw [htype] at hgeneric
    obtain ⟨inner, rfl, _⟩ := (hgeneric s rfl).exists_sealed
    exact not_opens_of_isBreak (c := '<') (by decide) hw

/-- Once the visibility is taken for a modifier, no method is found. -/
theorem fails_after_visibility {b : Option Char} {t u v : Text}
    (hu : u ∈ (Pattern.star (boundary ++ keyword methodModifiers) : Shape).language) (hne : u ≠ [])
    (heq : k.visibility.toList ++ ' ' :: (generics (k.typeParameters.map String.toList) ++
      (k.name.toList ++ '(' :: t)) = u ++ v) :
        (methodTypeParameters ++ methodSignature).Fails b v := by
  have hgeneric := isTypeParameters_of_mem_constructor hk
  have hwords : ∀ w ∈ methodModifiers, w.toList ∈ openingWords := by decide
  obtain ⟨first, others, rfl, hfirst, hothers⟩ := exists_round_of_mem_language_star hu hne
  have hspace : ∀ c ∈ (generics (k.typeParameters.map String.toList) ++
      (k.name.toList ++ '(' :: t)).head?, Text.isSpace c = false := by
    cases htype : k.typeParameters.map String.toList with
    | none =>
      exact (isPath_of_isName hk.name).startsWithName.append (Text.forall_head (by decide) _)
        |>.isSpace_head
    | some s =>
      rw [htype] at hgeneric
      obtain ⟨inner, rfl, _⟩ := (hgeneric s rfl).exists_sealed
      exact Text.forall_head (by decide) _
  have hsplit : k.visibility.toList ++ ' ' :: (generics (k.typeParameters.map String.toList) ++
      (k.name.toList ++ '(' :: t)) = first ++ (others.flatten ++ v) := by simpa using heq
  obtain ⟨_, hrest⟩ := rest_eq_of_round (visibility_facts hk).1
    (fun w hw => isBreak_of_mem_openingWords _ (hwords w hw)) hfirst hspace hsplit
  cases others with
  | nil =>
    obtain rfl : _ = v := by simpa using hrest
    exact fails_generics hgeneric hk.name
  | cons second others =>
    exfalso
    obtain ⟨_, rfl, w, hw, rfl⟩ := mem_language_seq.mp (hothers second (by simp))
    obtain ⟨word, hword, hopens⟩ := exists_opens_of_mem_keyword (t := others.flatten ++ v) hw
      (by simpa using hrest)
    exact not_opens_generics hk t (hwords word hword) hopens

/-- A constructor is taken by the pattern for methods, its visibility for the result. -/
theorem takes_constructor {b : Option Char} {pos : Nat} {t : Text}
    (hb : ∀ d ∈ b, Text.isWordChar d = false) :
    ∃ marks, method.Takes b pos (k.printHead ++ ['{']) t marks ∧ MethodMarks marks none k.result
      k.name.toList ([',', ' '].intercalate (k.parameters.map Parameter.print)) := by
  obtain ⟨_, hplain, ⟨c, cs, hcs⟩, _⟩ := visibility_facts hk
  have hc := hplain c (by simp [hcs])
  obtain ⟨d, ds, hds, hd⟩ := (isPath_of_isName hk.name).head
  have hfirst : ∃ ds, k.result = c :: ds := by
    unfold Constructor.result
    cases k.typeParameters with
    | none => exact ⟨cs, hcs⟩
    | some s => exact ⟨cs ++ ' ' :: s.toList, by simp [hcs]⟩
  obtain ⟨result, hresult⟩ := hfirst
  have hafter : ∀ z, ∀ e ∈ (k.name.toList ++ '(' :: z).head?,
      Text.isSpace e = false ∧ e ≠ '<' ∧ e ≠ '[' := fun z => by
    rw [hds]
    exact Text.forall_head (forall_isPlainChar
      (P := fun e => Text.isSpace e = false ∧ e ≠ '<' ∧ e ≠ '[') (by decide) hd) _
  have hclosing : ∀ e ∈ k.name.toList, e ≠ '>' := fun e he =>
    forall_isPlainChar (P := (· ≠ '>')) (by decide) (isPlainChar_of_isName hk.name e he)
  have hspace : ∀ e ∈ [' '], Text.isSpace e = true := by decide
  have htype : ∀ b pos z, typeText.Takes b pos k.result (' ' :: (k.name.toList ++ '(' :: z)) [] :=
    fun _ _ z => takes_typeText_of_mem (result_mem_language hk)
      (List.cons_ne_nil _ _) hspace (hafter z)
      hclosing (by decide)
  obtain ⟨p, q, hsignature⟩ := @takes_methodSignature_of b pos k.result k.name.toList
    ([',', ' '].intercalate (k.parameters.map Parameter.print)) [' '] t '{' hb
      ⟨c, result, hresult, hc⟩
    (fun _ _ => htype _ _ _) hk.name (isTypeChar_of_mem_parameters hk.parameters)
      (by decide) (.inl rfl)
  have hangle : c ≠ '<' := forall_isPlainChar (P := (· ≠ '<')) (by decide) hc
  have hnone : ∀ z, methodTypeParameters.Takes b pos [] (k.result ++ z) [] := fun z => by
    rw [hresult]
    exact takes_opt_of_fails
      (((fails_angled (Text.forall_head (P := (· ≠ '<')) hangle _)).group _).seq)
  have hopening : ∀ z, opening.Takes b pos [] (k.result ++ z) [] := fun z => by
    rw [hresult]
    exact takes_opening (Text.forall_head (forall_isPlainChar
      (P := fun e => e ≠ '/' ∧ e ≠ '@') (by decide) hc) _)
  have hbody := (hnone _).andThen hsignature (List.append_assoc _ _ _).symm
  have hstar := hbody.group_star_nil (p := boundary ++ keyword methodModifiers)
    (fun u hu hne v heq =>
    fails_after_visibility hk (t := [',', ' '].intercalate (k.parameters.map Parameter.print) ++
      ')' :: ' ' :: '{' :: t) hu hne (by
        rw [← heq, List.nil_append, ← printHead_eq]
        simp [Constructor.printHead])) .modifiers
  have h : method.Takes b pos _ t _ := takes_method_of fun next f hf =>
    ((hopening _).andThen hstar (List.append_assoc _ _ _).symm) next f hf
  rw [printHead_eq]
  refine ⟨_, h, ?_⟩
  constructor
  all_goals
    intro whole
    simp [Match.text_captured_of_ne, Match.get?_captured_of_ne, Match.get?_captured_nil_of_ne]

/-- A match of a constructor gives what the constructor is taken for. -/
theorem methodOf?_constructor (docs : Bool) {members : Text} (hmembers : '=' ∉ members)
    (whole : Capture)
    {marks : List (Mark Part)} (hmarks : MethodMarks marks none k.result k.name.toList
      ([',', ' '].intercalate (k.parameters.map Parameter.print))) :
    methodOf? docs members ⟨whole, marks⟩ = k.reported? := by
  obtain ⟨_, hplain, ⟨c, cs, hcs⟩, hkeyword⟩ := visibility_facts hk
  have hgeneric : Match.get? ⟨whole, marks⟩ .typeParameters = none :=
    Option.map_eq_none_iff.mp (hmarks.typeParameters whole)
  cases htype : k.typeParameters with
  | none =>
    have hresult : Text.compact k.result = k.visibility.toList := by
      rw [Constructor.result, htype]
      exact compact_of_isBaseChar fun d hd => isBaseChar_of_isPlainChar (hplain d hd)
    rw [mem_keywords_iff] at hkeyword
    rw [methodOf?, hmarks.result, hresult, if_pos hkeyword, Constructor.reported?, htype]
    rfl
  | some s =>
    have hs := hk.typeParameters s htype
    obtain ⟨inner, hinner, _⟩ := hs.exists_sealed
    have hresult : Text.compact k.result = k.visibility.toList ++ s.toList := by
      rw [Constructor.result, htype]
      exact compact_append_typeParameters (by simp [hcs]) hplain hs
    have hno : ¬(modifierWords.contains (k.visibility.toList ++ s.toList) ||
        statementWords.contains (k.visibility.toList ++ s.toList) ||
        declarationWords.contains (k.visibility.toList ++ s.toList)) = true := by
      rw [← mem_keywords_iff]
      intro hmem
      have hangle : ∀ w ∈ keywords, '<' ∉ w := by decide
      exact hangle _ hmem (by simp [hinner])
    rw [methodOf?, hmarks.result, hresult, if_neg hno, inInitializer_eq_false hmembers, hmarks.name,
      hmarks.parameters, hgeneric, docOf_eq_none (hmarks.doc whole), parameters_print hk.parameters,
      Constructor.reported?, htype]
    simp [String.ofList_append]

/-- What stands before the brace is written like a line. -/
theorem isLineChar_of_mem_printHead : ∀ c ∈ k.printHead, isLineChar c = true := by
  have hbreaks : ∀ c ∈ [' ', '(', ')'], isLineChar c = true := by decide
  intro c hc
  simp only [Constructor.printHead, List.mem_append, List.mem_cons, List.not_mem_nil,
    or_false] at hc
  rcases hc with hc | rfl | hc | hc | rfl | hc | rfl | rfl
  · exact isLineChar_of_isTypeChar (isTypeChar_of_isPlainChar ((visibility_facts hk).2.1 c hc))
  · exact hbreaks _ (by simp)
  · exact isLineChar_of_isTypeChar
      (isTypeChar_of_mem_generics (isTypeParameters_of_mem_constructor hk) c hc)
  · exact isLineChar_of_isTypeChar (isTypeChar_of_isPlainChar (isPlainChar_of_isName hk.name c hc))
  · exact hbreaks _ (by simp)
  · exact isLineChar_of_isTypeChar (isTypeChar_of_mem_parameters hk.parameters c hc)
  · exact hbreaks _ (by simp)
  · exact hbreaks _ (by simp)

theorem isHeaded_constructor : k.headed.IsHeaded := ⟨isLineChar_of_mem_printHead hk, hk.body⟩

theorem equals_notMem_constructor : '=' ∉ k.headed.view := by
  intro hmem
  simp only [Headed.view, Constructor.headed, List.mem_append, List.mem_cons, List.not_mem_nil,
    or_false] at hmem
  rcases hmem with hmem | hmem | hmem | hmem | hmem
  · exact absurd (isLineChar_of_mem_printHead hk _ hmem) (by decide)
  · exact absurd hmem (by decide)
  · rcases Text.eq_of_mem_blankAll hmem with h | h <;> exact absurd h (by decide)
  · exact absurd hmem (by decide)
  · exact absurd hmem (by decide)

/-- No type is declared in the masked view of a constructor. -/
theorem avoids_constructor : Text.Avoids (kindWords.map String.toList) k.headed.view := by
  have hvisibility : Text.Avoids (kindWords.map String.toList) k.visibility.toList := by
    have hfacts : ∀ v ∈ ["public", "protected", "private"],
        (∀ c ∈ v.toList, Text.isWordChar c = true) ∧ v.toList ∉ kindWords.map String.toList := by
      decide
    exact .of_forall (hfacts _ hk.visibility).1 (hfacts _ hk.visibility).2
  have hblank : Text.Avoids openingWords (Text.blankAll k.body ++ ['}', '\n']) := by
    have hspace : ∀ c ∈ Text.blankAll k.body, Text.isSpace c = true := fun c hc => by
      rcases Text.eq_of_mem_blankAll hc with rfl | rfl <;> decide
    have hend : Quiet ['}', '\n'] :=
      ⟨avoids_cons (by decide) (avoids_cons (by decide) avoids_nil), by decide, by decide⟩
    exact ((Quiet.of_isSpace hspace).append hend).avoids
  have hname := avoids_append_cons (c := '(') (by decide) (avoids_of_isName hk.name)
    (avoids_append_cons (c := ')') (by decide) (avoids_parameters hk.parameters)
      (avoids_cons (c := ' ') (by decide) (avoids_cons (c := '{') (by decide) hblank)))
  have hrest := avoids_generics (isTypeParameters_of_mem_constructor hk) hname
  have hview : k.headed.view = k.visibility.toList ++ ' ' ::
      (generics (k.typeParameters.map String.toList) ++ (k.name.toList ++ '(' ::
        ([',', ' '].intercalate (k.parameters.map Parameter.print) ++
          ')' :: ' ' :: '{' :: (Text.blankAll k.body ++ ['}', '\n'])))) := by
    simp [Headed.view, Constructor.headed, Constructor.printHead]
  have hsub : kindWords.map String.toList ⊆ openingWords := by decide
  rw [hview]
  exact (avoids_kindWords_iff (by decide)).mpr ⟨hvisibility, hrest.mono hsub⟩

end Constructor

section Constructors

variable {ks : List Constructor} (hks : ∀ k ∈ ks, k.WellFormed)

include hks

theorem avoids_constructors :
    Text.Avoids (kindWords.map String.toList) (ks.flatMap (·.headed.view)) := by
  induction ks with
  | nil => exact .nil (by decide)
  | cons k ks ih =>
    have hview : k.headed.view =
        (k.printHead ++ '{' :: (Text.blankAll k.body ++ ['}'])) ++ ['\n'] := by
      simp [Headed.view, Constructor.headed]
    have hfirst := avoids_constructor (hks k (by simp))
    rw [hview, avoids_kindWords_iff (by decide)] at hfirst
    rw [List.flatMap_cons, hview, List.append_assoc, List.singleton_append]
    exact (avoids_kindWords_iff (by decide)).mpr ⟨hfirst.1, ih fun j hj => hks j (by simp [hj])⟩

/-- What constructors are taken for, in their masked view. -/
theorem filterMap_methodOf?_constructors (docs : Bool) {members : Text} (hmembers : '=' ∉ members)
    {b : Option Char} (hb : ∀ d ∈ b, Text.isWordChar d = false) (pos : Nat) :
    (method.matchesFrom b pos (ks.flatMap (·.headed.view))).filterMap (methodOf? docs members) =
      ks.filterMap Constructor.reported? := by
  induction ks generalizing b pos with
  | nil => rfl
  | cons k ks ih =>
    have hk := hks k (by simp)
    have hblank : ∀ c ∈ Text.blankAll k.body ++ ['}', '\n'], ∀ b s, method.Fails b (c :: s) := by
      intro c hc b s
      rcases List.mem_append.mp hc with hc | hc
      · refine fails_method_of_isSpace ?_
        rcases Text.eq_of_mem_blankAll hc with rfl | rfl <;> decide
      · have hends : ∀ c ∈ ['}', '\n'], isBreak c = true ∧ c ∉ ['/', '@', '<', '$', '.'] := by
          decide
        exact fails_method_of_isBreak (hends c hc).1 (hends c hc).2
    obtain ⟨marks, htakes, hmarks⟩ := @takes_constructor k hk b pos
      ((Text.blankAll k.body ++ ['}', '\n']) ++ ks.flatMap (·.headed.view)) hb
    have hsplit : (k :: ks).flatMap (·.headed.view) = (k.printHead ++ ['{']) ++
        ((Text.blankAll k.body ++ ['}', '\n']) ++ ks.flatMap (·.headed.view)) := by
      simp [Headed.view, Constructor.headed]
    have hpassed := fun b pos => @matchesFrom_append _ method b pos
      (Text.blankAll k.body ++ ['}', '\n'])
      (ks.flatMap (·.headed.view)) fun u v huv hv => by
        obtain ⟨c, cs, rfl⟩ := List.exists_cons_of_ne_nil hv
        exact hblank c (by rw [huv]; simp) _ _
    have hrest := @ih (fun j hj => hks j (by simp [hj])) (some '\n') (by decide)
    rw [hsplit, htakes.matchesFrom_eq (by simp), List.filterMap_cons,
      methodOf?_constructor hk docs hmembers _ hmarks, hpassed, List.filterMap_cons]
    simp only [Text.lastOr_append, Text.lastOr_cons, Text.lastOr_nil, hrest]

/-- A body of constructors is a block without types, and what is read in it are the methods that the
constructors are taken for. -/
theorem methods_constructors (docs : Bool) :
    IsBlock ('\n' :: ks.flatMap Constructor.print) ∧
      (∀ fuel, typesIn docs fuel false ('\n' :: ks.flatMap Constructor.print) = []) ∧
      methods docs (mask ('\n' :: ks.flatMap Constructor.print)).text =
        ks.filterMap Constructor.reported? := by
  have hnewline : ∀ c ∈ ['\n'], isLineChar c = true := by decide
  have hheaded : ∀ b ∈ ks.map Constructor.headed, b.IsHeaded := by
    intro b hb
    obtain ⟨k, hk, rfl⟩ := List.mem_map.mp hb
    exact isHeaded_constructor (hks k hk)
  have htext : '\n' :: ks.flatMap Constructor.print =
      ['\n'] ++ (ks.map Constructor.headed).flatMap Headed.text := by
    rw [List.flatMap_map]
    rfl
  have hmask : (mask ('\n' :: ks.flatMap Constructor.print)).text =
      '\n' :: ks.flatMap (·.headed.view) := by
    rw [mask_text_eq_shown, htext, shown_headed hnewline hheaded, List.flatMap_map]
    rfl
  refine ⟨htext ▸ isBlock_headed hnewline hheaded, typesIn_eq_nil_of_avoids ?_ docs false, ?_⟩
  · rw [hmask]
    exact (avoids_kindWords_iff (x := []) (by decide)).mpr
      ⟨.nil (by decide), avoids_constructors hks⟩
  · have hequals : '=' ∉ '\n' :: ks.flatMap (·.headed.view) := by
      rw [List.mem_cons, List.mem_flatMap]
      rintro (h | ⟨k, hk, hmem⟩)
      · exact absurd h (by decide)
      · exact equals_notMem_constructor (hks k hk) hmem
    have hfails : ∀ s, method.Fails none ('\n' :: s) := fun s => fails_method_of_isSpace (by decide)
    rw [methods, hmask, allMatches_eq_matchesFrom, (hfails _).matchesFrom_cons]
    exact filterMap_methodOf?_constructors hks docs hequals (by decide) _

end Constructors

-- ---------------------------------------------------------------------------
-- Every file
-- ---------------------------------------------------------------------------

/-- The result of a method, at any depth of a file, is never a keyword, and starts with one only
when type arguments or square brackets follow it. So a constructor after its visibility is no
method; one with type parameters is taken for one, the visibility and the type parameters for
its result. -/
theorem methods_exclude_keywords (docs : Bool) :
    (∀ source, ∀ p ∈ (extract docs source).placed, ∀ m ∈ p.decl.methods,
      m.returnType.toList ∉ keywords ∧
        leadingName m.returnType.toList ≠ [] ∧
        (∀ c ∈ leadingName m.returnType.toList, isBaseChar c = true) ∧
        (leadingName m.returnType.toList ∈ keywords → ∃ c after,
          m.returnType.toList = leadingName m.returnType.toList ++ c :: after ∧
          (c = '<' ∨ c = '['))) ∧
    ∀ (o : TypeOutline) (ks : List Constructor), o.Printable → (∀ k ∈ ks, k.WellFormed) →
      (extract docs (String.ofList
        (aroundBody o ('\n' :: ks.flatMap Constructor.print)))).placed.map
        (·.decl.methods) = [ks.filterMap Constructor.reported?] := by
  constructor
  · intro source p hp m hm
    obtain ⟨members, hmembers⟩ := exists_of_mem_methods hp hm
    obtain ⟨base, rest, heq, hne, hbase, hrest, hkeyword⟩ := exists_result_of_mem_methods hmembers
    have hleading : leadingName m.returnType.toList = base := by
      rw [heq, leadingName_append hbase hrest]
    exact ⟨hkeyword, hleading ▸ hne, hleading ▸ hbase,
      exists_bracket_of_leadingName heq hbase hrest hkeyword⟩
  · intro o ks ho hks
    obtain ⟨hblock, hnone, hmethods⟩ := methods_constructors hks docs
    rw [placed_aroundBody ho hblock hnone, List.map_singleton, methods_withBody_nil, hmethods]

/-- A class with type parameters before one constructor and none before the other. -/
def boxClass : TypeOutline := { name := "Box", kind := .class_ }

def boxConstructors : List Constructor :=
  [{ visibility := "public", typeParameters := some "<T>", name := "Box",
     parameters := [{ name := "value", typeName := "T" }] },
    { visibility := "protected", name := "Box", body := " full = no; ".toList }]

def boxFile : String :=
  String.ofList (aroundBody boxClass ('\n' :: boxConstructors.flatMap Constructor.print))

theorem printable_boxClass : boxClass.Printable :=
  ⟨by decide, nofun, nofun, nofun, nofun, nofun, nofun, rfl⟩

theorem wellFormed_boxConstructors : ∀ k ∈ boxConstructors, k.WellFormed := by
  have hvalue : Parameter.Printable { name := "value", typeName := "T" } :=
    ⟨by decide, isTypeText_of_isName (by decide), nofun⟩
  have hempty : IsCodeBlock [] := ⟨by decide, by decide⟩
  have hfull : IsCodeBlock " full = no; ".toList := ⟨by decide, by decide⟩
  intro k hk
  rcases List.mem_pair.mp hk with rfl | rfl
  · refine ⟨by decide, ?_, by decide, by simpa using hvalue, hempty.isBlock⟩
    rintro _ ⟨⟩
    exact ⟨[⟨"T".toList, []⟩], by simpa using ⟨by decide, nofun⟩, by decide⟩
  · exact ⟨by decide, nofun, by decide, nofun, hfull.isBlock⟩

/-- The constructor with type parameters is taken for a method of type `public<T>`. -/
theorem methods_exclude_keywords_genericConstructor :
    (boxClass.Printable ∧ (∀ k ∈ boxConstructors, k.WellFormed) ∧
      (extract true boxFile).placed.map (·.decl.methods) =
        [[{ name := "Box", returnType := "public<T>"
            parameters := [{ name := "value", typeName := "T" }] }]]) ∧
      ∃ p ∈ (extract true boxFile).placed, ∃ m ∈ p.decl.methods,
        m.returnType.toList ∉ keywords ∧ leadingName m.returnType.toList ∈ keywords ∧
          ∃ c after, m.returnType.toList = leadingName m.returnType.toList ++ c :: after ∧
            (c = '<' ∨ c = '[') := by
  have hmethods : (extract true boxFile).placed.map (·.decl.methods) =
      [[{ name := "Box", returnType := "public<T>"
          parameters := [{ name := "value", typeName := "T" }] }]] :=
    (methods_exclude_keywords true).2 boxClass boxConstructors printable_boxClass
      wellFormed_boxConstructors
  refine ⟨⟨printable_boxClass, wellFormed_boxConstructors, hmethods⟩, ?_⟩
  obtain ⟨p, hp⟩ := List.map_eq_singleton_iff.mp hmethods
  have hmem : p ∈ (extract true boxFile).placed := by simp [hp.1]
  have hm : { name := "Box", returnType := "public<T>"
              parameters := [{ name := "value", typeName := "T" }] } ∈ p.decl.methods := by
    simp [hp.2]
  obtain ⟨hresult, _, _, hbracket⟩ := (methods_exclude_keywords true).1 boxFile p hmem _ hm
  have hleading : leadingName "public<T>".toList ∈ keywords := by decide
  exact ⟨p, hmem, _, hm, hresult, hleading, hbracket hleading⟩

end Source

end Typings
