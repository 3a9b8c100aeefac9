import Typings.Proofs.Source.Printing
import Typings.Proofs.Text.Words
import Typings.Source.Parameters

/-!
# The texts of types

What the readers of declarations need to know of a written type: which characters it has, that it
holds none of the words that open a declaration, which characters stand next to each other, and that
its angle brackets are balanced. Lists of types and type parameters share most of this. Main
statements: `IsTypeText.entry`, `IsTypeList.entry` and `IsTypeParameters.exists_inner`.
-/

namespace Typings

-- ---------------------------------------------------------------------------
-- Characters
-- ---------------------------------------------------------------------------

theorem toNat_lt_of_isPlainChar {c : Char} (h : isPlainChar c = true) : c.toNat < 128 := by
  have hchar : isPlainChar c = (decide (c.val ≥ 'A'.val ∧ c.val ≤ 'Z'.val) ||
      (decide (c.val ≥ 'a'.val) && decide (c.val ≤ 'z'.val)) ||
      (decide (c.val ≥ '0'.val) && decide (c.val ≤ '9'.val)) || decide (c = '_')) := rfl
  simp only [hchar, Bool.or_eq_true, Bool.and_eq_true, decide_eq_true_eq] at h
  have hbound : ∀ {n : UInt32}, n.toNat < 128 → c.val ≤ n → c.toNat < 128 := by
    intro n hn hle
    exact Nat.lt_of_le_of_lt (UInt32.le_iff_toNat_le.mp hle) hn
  rcases h with ((h | h) | h) | rfl
  · exact hbound (by decide) h.2
  · exact hbound (by decide) h.2
  · exact hbound (by decide) h.2
  · decide

/-- Name characters are few enough to be checked one by one. -/
theorem forall_isPlainChar {P : Char → Prop}
    (h : ∀ n < 128, isPlainChar (Char.ofNat n) = true → P (Char.ofNat n)) {c : Char}
    (hc : isPlainChar c = true) : P c := by
  have hcode := h c.toNat (toNat_lt_of_isPlainChar hc)
  rw [Char.ofNat_toNat] at hcode
  exact hcode hc

theorem isWordChar_of_isPlainChar {c : Char} (h : isPlainChar c = true) :
    Text.isWordChar c = true :=
  forall_isPlainChar (P := fun c => Text.isWordChar c = true) (by decide) h

theorem isSpace_of_isPlainChar {c : Char} (h : isPlainChar c = true) : Text.isSpace c = false :=
  forall_isPlainChar (P := fun c => Text.isSpace c = false) (by decide) h

/-- Characters of types, lists of types and type parameters. -/
def isTypeChar (c : Char) : Bool := isPlainChar c || ".,<>[]?& ".toList.contains c

theorem isTypeChar_of_isPlainChar {c : Char} (h : isPlainChar c = true) : isTypeChar c = true := by
  simp [isTypeChar, h]

theorem ne_of_isTypeChar {c d : Char} (hc : isTypeChar c = true) (hd : isTypeChar d = false) :
    c ≠ d := by
  rintro rfl
  simp_all

theorem isSpace_of_isTypeChar {c : Char} (hc : isTypeChar c = true) (h : Text.isSpace c = true) :
    c = ' ' := by
  rcases Bool.or_eq_true_iff.mp hc with hc | hc
  · simp [isSpace_of_isPlainChar hc] at h
  · have : ∀ d ∈ ".,<>[]?& ".toList, Text.isSpace d = true → d = ' ' := by decide
    exact this c (by simpa using hc) h

/-- Characters that can be in no word of a declaration. -/
def isBreak (c : Char) : Bool := !Text.isWordChar c && c ≠ '-'

theorem isBreak_of_isPlainChar {c : Char} (h : isPlainChar c = true) : isBreak c = false := by
  simp [isBreak, isWordChar_of_isPlainChar h]

/-- The longest start of a text whose characters have a property is determined by the text. -/
theorem append_inj_of_forall {p : Char → Bool} {m n s t : Text} (hm : ∀ c ∈ m, p c = true)
    (hn : ∀ c ∈ n, p c = true) (hs : ∀ c ∈ s.head?, p c = false) (ht : ∀ c ∈ t.head?, p c = false)
    (h : m ++ s = n ++ t) : m = n ∧ s = t := by
  induction m generalizing n with
  | nil =>
    cases n with
    | nil => exact ⟨rfl, by simpa using h⟩
    | cons c n =>
      have := hs c (by simp_all)
      have := hn c (by simp)
      simp_all
  | cons c m ih =>
    cases n with
    | nil =>
      rw [List.nil_append] at h
      subst h
      have := ht c (by simp)
      have := hm c (by simp)
      simp_all
    | cons d n =>
      rw [List.cons_append, List.cons_append, List.cons.injEq] at h
      obtain ⟨rfl, h⟩ := h
      obtain ⟨rfl, rfl⟩ := @ih n (fun e he => hm e (by simp [he]))
        (fun e he => hn e (by simp [he])) h
      exact ⟨rfl, rfl⟩

/-- Texts without breaks are determined by the text that they start. -/
theorem append_inj_of_isBreak {m n s t : Text} (hm : ∀ c ∈ m, isBreak c = false)
    (hn : ∀ c ∈ n, isBreak c = false) (hs : ∀ c ∈ s.head?, isBreak c = true)
    (ht : ∀ c ∈ t.head?, isBreak c = true) (h : m ++ s = n ++ t) : m = n ∧ s = t :=
  append_inj_of_forall (p := fun c => !isBreak c) (fun c hc => by simp [hm c hc])
    (fun c hc => by simp [hn c hc]) (fun c hc => by simp [hs c hc])
      (fun c hc => by simp [ht c hc]) h

-- ---------------------------------------------------------------------------
-- Names
-- ---------------------------------------------------------------------------

theorem isPlainChar_of_isName {s : Text} (h : isName s = true) : ∀ c ∈ s, isPlainChar c = true := by
  simp only [isName, Bool.and_eq_true, List.all_eq_true] at h
  exact h.1.2

theorem ne_nil_of_isName {s : Text} (h : isName s = true) : s ≠ [] := by
  rintro rfl
  simp [isName] at h

theorem isBreak_of_isName {s : Text} (h : isName s = true) : ∀ c ∈ s, isBreak c = false :=
  fun c hc => isBreak_of_isPlainChar (isPlainChar_of_isName h c hc)

/-- Words that patterns look for at the start of a declaration. -/
def openingWords : List Text :=
  ["public", "protected", "private", "abstract", "static", "final", "sealed", "non-sealed",
    "strictfp", "synchronized", "native", "default", "transient", "volatile", "interface", "class",
    "package", "import"].map String.toList

theorem isName_of_mem_openingWords : ∀ w ∈ openingWords, isName w = false := by decide

theorem nil_notMem_openingWords : [] ∉ openingWords := by decide

theorem isBreak_of_mem_openingWords : ∀ w ∈ openingWords, ∀ c ∈ w, isBreak c = false := by decide

theorem notMem_openingWords {c : Char} (hc : isBreak c = true) : ∀ w ∈ openingWords, c ∉ w := by
  intro w hw hcw
  have := isBreak_of_mem_openingWords w hw c hcw
  simp_all

theorem avoids_nil : Text.Avoids openingWords [] := .nil nil_notMem_openingWords

theorem avoids_of_isName {s : Text} (h : isName s = true) : Text.Avoids openingWords s := by
  refine .of_forall (fun c hc => isWordChar_of_isPlainChar (isPlainChar_of_isName h c hc)) ?_
  intro hmem
  have := isName_of_mem_openingWords s hmem
  simp_all

/-- A text avoids what its parts between breaks avoid. -/
theorem avoids_append_cons_iff {x y : Text} {c : Char} (hc : isBreak c = true) :
    Text.Avoids openingWords (x ++ c :: y) ↔
      Text.Avoids openingWords x ∧ Text.Avoids openingWords y := by
  refine Text.Avoids.append_cons_iff ?_ (notMem_openingWords hc)
  simp only [isBreak, Bool.and_eq_true, Bool.not_eq_true'] at hc
  exact hc.1

theorem avoids_append_cons {x y : Text} {c : Char} (hc : isBreak c = true)
    (hx : Text.Avoids openingWords x) (hy : Text.Avoids openingWords y) :
    Text.Avoids openingWords (x ++ c :: y) := (avoids_append_cons_iff hc).mpr ⟨hx, hy⟩

theorem avoids_cons {y : Text} {c : Char} (hc : isBreak c = true)
    (hy : Text.Avoids openingWords y) : Text.Avoids openingWords (c :: y) :=
  avoids_append_cons hc avoids_nil hy

/-- Texts with breaks between them. -/
theorem avoids_intercalate {sep : Text} {pieces : List Text} (hne : sep ≠ [])
    (hsep : ∀ c ∈ sep, isBreak c = true) (h : ∀ p ∈ pieces, Text.Avoids openingWords p) :
    Text.Avoids openingWords (sep.intercalate pieces) := by
  have hbreaks : ∀ {sep y : Text}, (∀ c ∈ sep, isBreak c = true) → Text.Avoids openingWords y →
      Text.Avoids openingWords (sep ++ y) := by
    intro sep y hsep hy
    induction sep with
    | nil => exact hy
    | cons c sep ih => exact avoids_cons (hsep c (by simp)) (ih fun d hd => hsep d (by simp [hd]))
  obtain ⟨c, sep, rfl⟩ := List.exists_cons_of_ne_nil hne
  induction pieces with
  | nil => exact avoids_nil
  | cons p pieces ih =>
    cases pieces with
    | nil => simpa using h p (by simp)
    | cons q pieces =>
      rw [List.intercalate_cons_cons, List.append_assoc, List.cons_append]
      refine avoids_append_cons (hsep c (by simp)) (h p (by simp)) ?_
      exact hbreaks (fun d hd => hsep d (by simp [hd])) (ih fun t ht => h t (by simp [ht]))

/-- Whether a text starts with a name that a break follows. -/
def StartsWithName (s : Text) : Prop :=
  ∃ n t, s = n ++ t ∧ isName n = true ∧ ∀ c ∈ t.head?, isBreak c = true

theorem StartsWithName.append {s t : Text} (h : StartsWithName s)
    (ht : ∀ c ∈ t.head?, isBreak c = true) : StartsWithName (s ++ t) := by
  obtain ⟨n, u, rfl, hn, hu⟩ := h
  refine ⟨n, u ++ t, by simp, hn, ?_⟩
  cases u with
  | nil => simpa using ht
  | cons c u => simpa using hu

theorem StartsWithName.exists_cons {s : Text} (h : StartsWithName s) :
    ∃ c cs, s = c :: cs ∧ isPlainChar c = true := by
  obtain ⟨n, t, rfl, hn, _⟩ := h
  obtain ⟨c, cs, rfl⟩ := List.exists_cons_of_ne_nil (ne_nil_of_isName hn)
  exact ⟨c, cs ++ t, rfl, isPlainChar_of_isName hn c (by simp)⟩

theorem StartsWithName.isSpace_head {s : Text} (h : StartsWithName s) :
    ∀ c ∈ s.head?, Text.isSpace c = false := by
  obtain ⟨c, cs, rfl, hc⟩ := h.exists_cons
  exact Text.forall_head (isSpace_of_isPlainChar hc) _

/-- A word that is no name does not stand where a name stands. -/
theorem StartsWithName.ne_append {s w t : Text} (h : StartsWithName s) (hw : isName w = false)
    (hbreak : ∀ c ∈ w, isBreak c = false) (ht : ∀ c ∈ t.head?, isBreak c = true) : s ≠ w ++ t := by
  intro heq
  obtain ⟨n, u, rfl, hn, hu⟩ := h
  obtain ⟨rfl, _⟩ := append_inj_of_isBreak (isBreak_of_isName hn) hbreak hu ht heq
  simp_all

-- ---------------------------------------------------------------------------
-- Balanced texts
-- ---------------------------------------------------------------------------

/-- A text whose angle brackets are balanced. -/
inductive Balanced : Text → Prop where
  | nil : Balanced []
  | cons {c : Char} {s : Text} (hopen : c ≠ '<') (hclose : c ≠ '>') (hs : Balanced s) :
      Balanced (c :: s)
  | angled {s t : Text} (hs : Balanced s) (ht : Balanced t) : Balanced ('<' :: (s ++ '>' :: t))

theorem Balanced.append {s t : Text} (hs : Balanced s) (ht : Balanced t) : Balanced (s ++ t) := by
  induction hs with
  | nil => exact ht
  | cons hopen hclose _ ih => exact .cons hopen hclose ih
  | angled hs _ _ ih =>
    rw [List.cons_append, List.append_assoc, List.cons_append]
    exact .angled hs ih

theorem Balanced.of_forall {s : Text} (h : ∀ c ∈ s, c ≠ '<' ∧ c ≠ '>') : Balanced s := by
  induction s with
  | nil => exact .nil
  | cons c s ih =>
    have hc := h c (by simp)
    exact .cons hc.1 hc.2 (ih fun d hd => h d (by simp [hd]))

-- ---------------------------------------------------------------------------
-- Shapes
-- ---------------------------------------------------------------------------

/-- Whether two characters may stand next to each other in a type: a closing bracket is never
followed by a name. -/
def Follows (a b : Char) : Prop := Text.Tight a b ∧ (a = '>' → b ∈ [',', '>', '['])

instance : DecidableRel Follows := fun _ _ => inferInstanceAs (Decidable (_ ∧ _))

/-- What types, lists of types and type parameters have in common. Neighbouring characters are
related by `R`. -/
structure TypeShape (R : Char → Char → Prop) (s : Text) : Prop where
  chars : ∀ c ∈ s, isTypeChar c = true
  avoids : Text.Avoids openingWords s
  chain : s.IsChain R
  balanced : Balanced s

namespace TypeShape

variable {R S : Char → Char → Prop} {s x y : Text}

theorem imp (h : TypeShape R s) (hRS : ∀ a b, R a b → S a b) : TypeShape S s :=
  { h with chain := h.chain.imp hRS }

theorem append (hx : TypeShape R x) (hy : TypeShape R y)
    (havoids : Text.Avoids openingWords (x ++ y))
    (hborder : ∀ a ∈ x.getLast?, ∀ b ∈ y.head?, R a b) : TypeShape R (x ++ y) := by
  refine ⟨?_, havoids, List.isChain_append.mpr ⟨hx.chain, hy.chain, hborder⟩,
    hx.balanced.append hy.balanced⟩
  intro c hc
  rcases List.mem_append.mp hc with hc | hc
  · exact hx.chars c hc
  · exact hy.chars c hc

/-- A text in angle brackets. -/
theorem angled (hs : TypeShape R s) (hhead : ∀ b ∈ (s ++ ['>']).head?, R '<' b)
    (hlast : ∀ a ∈ s.getLast?, R a '>') : TypeShape R ('<' :: (s ++ ['>'])) := by
  have hclose : ∀ c ∈ ['>'], isTypeChar c = true := by decide
  refine ⟨?_, ?_, ?_, .angled hs.balanced .nil⟩
  · intro c hc
    rcases List.mem_cons.mp hc with rfl | hc
    · decide
    · rcases List.mem_append.mp hc with hc | hc
      · exact hs.chars c hc
      · exact hclose c hc
  · exact avoids_cons (by decide) (avoids_append_cons (by decide) hs.avoids avoids_nil)
  · refine List.isChain_cons.mpr ⟨hhead, List.isChain_append.mpr ⟨hs.chain, by simp, ?_⟩⟩
    intro a ha b hb
    obtain rfl : '>' = b := by simpa using hb
    exact hlast a ha

theorem of_breaks (hchars : ∀ c ∈ s, isTypeChar c = true) (hbreak : ∀ c ∈ s, isBreak c = true)
    (hchain : s.IsChain R) (hangle : ∀ c ∈ s, c ≠ '<' ∧ c ≠ '>') : TypeShape R s := by
  refine ⟨hchars, ?_, hchain, .of_forall hangle⟩
  clear hchars hchain hangle
  induction s with
  | nil => exact avoids_nil
  | cons c s ih => exact avoids_cons (hbreak c (by simp)) (ih fun d hd => hbreak d (by simp [hd]))

end TypeShape

/-- Characters that a type, a wildcard or a type parameter starts with. -/
def isFirstChar (c : Char) : Bool := isPlainChar c || c = '?'

/-- Characters that a type, a wildcard or a type parameter ends with. -/
def isLastChar (c : Char) : Bool := isPlainChar c || ['?', '>', ']'].contains c

/-- What can be listed: it starts and ends with a character that needs no space around it. -/
structure TypeEntry (R : Char → Char → Prop) (s : Text) : Prop extends TypeShape R s where
  head : ∃ c cs, s = c :: cs ∧ isFirstChar c = true
  last : ∃ cs c, s = cs ++ [c] ∧ isLastChar c = true

namespace TypeEntry

variable {R S : Char → Char → Prop} {s x y sep : Text}

theorem imp (h : TypeEntry R s) (hRS : ∀ a b, R a b → S a b) : TypeEntry S s :=
  { h with toTypeShape := h.toTypeShape.imp hRS }

theorem isFirstChar_of_mem (h : TypeEntry R s) : ∀ c ∈ s.head?, isFirstChar c = true := by
  obtain ⟨c, cs, rfl, hc⟩ := h.head
  simpa using hc

theorem isLastChar_of_mem (h : TypeEntry R s) : ∀ c ∈ s.getLast?, isLastChar c = true := by
  obtain ⟨cs, c, rfl, hc⟩ := h.last
  simpa using hc

/-- Two entries with something between them that starts with a break and ends with a space. -/
theorem join {c : Char} {mid : Text} (hx : TypeEntry R x) (hy : TypeEntry R y)
    (hsep : TypeShape R (c :: (mid ++ [' ']))) (hc : isBreak c = true)
    (hleft : ∀ a ∈ x.getLast?, R a c) (hright : ∀ b, isFirstChar b = true → R ' ' b) :
    TypeEntry R (x ++ (c :: (mid ++ ' ' :: y))) := by
  have hspace : isBreak ' ' = true := by decide
  have hmid : Text.Avoids openingWords mid := by
    have h := (avoids_append_cons_iff (x := []) hc).mp hsep.avoids
    exact ((avoids_append_cons_iff hspace).mp h.2).1
  have htail : TypeShape R (c :: (mid ++ ' ' :: y)) := by
    have h := hsep.append hy.toTypeShape ?_ ?_
    · simpa using h
    · have := avoids_cons hc (avoids_append_cons hspace hmid hy.avoids)
      simpa using this
    · intro a ha b hb
      rw [← List.cons_append, List.getLast?_concat] at ha
      obtain rfl : ' ' = a := by simpa using ha
      exact hright b (hy.isFirstChar_of_mem b hb)
  refine { toTypeShape := hx.toTypeShape.append htail ?_ ?_, head := ?_, last := ?_ }
  · exact avoids_append_cons hc hx.avoids (avoids_append_cons hspace hmid hy.avoids)
  · intro a ha b hb
    obtain rfl : c = b := by simpa using hb
    exact hleft a ha
  · obtain ⟨d, ds, rfl, hd⟩ := hx.head
    exact ⟨d, _, rfl, hd⟩
  · obtain ⟨ds, d, rfl, hd⟩ := hy.last
    exact ⟨x ++ (c :: (mid ++ ' ' :: ds)), d, by simp, hd⟩

theorem intercalate {c : Char} {mid : Text} {pieces : List Text} (hne : pieces ≠ [])
    (h : ∀ p ∈ pieces, TypeEntry R p) (hsep : TypeShape R (c :: (mid ++ [' '])))
    (hc : isBreak c = true)
    (hleft : ∀ a, isLastChar a = true → R a c) (hright : ∀ b, isFirstChar b = true → R ' ' b) :
    TypeEntry R ((c :: (mid ++ [' '])).intercalate pieces) := by
  induction pieces with
  | nil => exact absurd rfl hne
  | cons p ps ih =>
    cases ps with
    | nil => simpa using h p (by simp)
    | cons q qs =>
      have hrest := ih (by simp) fun r hr => h r (by simp [hr])
      have hp := h p (by simp)
      have hjoin := hp.join hrest hsep hc (fun a ha => hleft a (hp.isLastChar_of_mem a ha)) hright
      simpa [List.intercalate_cons_of_ne_nil] using hjoin

end TypeEntry

-- ---------------------------------------------------------------------------
-- Paths
-- ---------------------------------------------------------------------------

namespace IsPath

variable {s : Text}

theorem chars (h : IsPath s) : ∀ c ∈ s, isPlainChar c = true ∨ c = '.' := by
  obtain ⟨n, hn, rfl⟩ := h
  have hn := List.all_eq_true.mp hn
  intro c hc
  rcases Text.mem_intercalate hc with ⟨seg, hseg, hc⟩ | hc
  · exact .inl (isPlainChar_of_isName (hn seg hseg) c hc)
  · exact .inr (by simpa using hc)

theorem startsWithName (h : IsPath s) : StartsWithName s := by
  obtain ⟨n, hn, rfl⟩ := h
  have hn := List.all_eq_true.mp hn
  obtain ⟨seg, segs, hsegs⟩ := List.exists_cons_of_ne_nil n.segments_ne_nil
  rw [JavaName.text, hsegs]
  have hseg := hn seg (by simp [hsegs])
  cases segs with
  | nil => exact ⟨seg, [], by simp, hseg, by simp⟩
  | cons seg' segs =>
    refine ⟨seg, '.' :: ['.'].intercalate (seg' :: segs), by simp, hseg, ?_⟩
    have hdot : isBreak '.' = true := by decide
    simpa using hdot

theorem avoids (h : IsPath s) : Text.Avoids openingWords s := by
  obtain ⟨n, hn, rfl⟩ := h
  have hn := List.all_eq_true.mp hn
  exact avoids_intercalate (by simp) (by decide) fun seg hseg => avoids_of_isName (hn seg hseg)

theorem head (h : IsPath s) : ∃ c cs, s = c :: cs ∧ isPlainChar c = true :=
  h.startsWithName.exists_cons

theorem last (h : IsPath s) : ∃ cs c, s = cs ++ [c] ∧ isPlainChar c = true := by
  obtain ⟨n, hn, rfl⟩ := h
  have hn := List.all_eq_true.mp hn
  obtain ⟨before, seg, hseg, hjoin⟩ := Text.exists_intercalate_eq_append ['.'] n.segments_ne_nil
  have hne := ne_nil_of_isName (hn seg hseg)
  refine ⟨before ++ seg.dropLast, seg.getLast hne, ?_,
    isPlainChar_of_isName (hn seg hseg) _ (List.getLast_mem hne)⟩
  rw [JavaName.text, hjoin, List.append_assoc, List.dropLast_concat_getLast hne]

theorem entry (h : IsPath s) : TypeEntry Follows s := by
  have hname : ∀ {c d}, isPlainChar d = false → d ≠ '.' → c ∈ s → c ≠ d := by
    rintro c d hd hdot hc rfl
    rcases h.chars c hc with hc | hc
    · simp_all
    · exact hdot hc
  refine { chars := ?_, avoids := h.avoids, chain := ?_, balanced := ?_, head := ?_, last := ?_ }
  · intro c hc
    rcases h.chars c hc with hc | rfl
    · exact isTypeChar_of_isPlainChar hc
    · decide
  · refine List.Pairwise.isChain (List.pairwise_of_forall_mem_list fun a ha b hb => ?_)
    have hspace : ∀ {c}, c ∈ s → c ≠ ' ' := fun hc => hname (by decide) (by decide) hc
    have hangle : a ≠ '>' := hname (by decide) (by decide) ha
    exact ⟨⟨fun h => absurd h (hspace ha), fun h => absurd h (hspace hb)⟩, fun h => absurd h hangle⟩
  · exact .of_forall fun c hc =>
      ⟨hname (by decide) (by decide) hc, hname (by decide) (by decide) hc⟩
  · obtain ⟨c, cs, rfl, hc⟩ := h.head
    exact ⟨c, cs, rfl, by simp [isFirstChar, hc]⟩
  · obtain ⟨cs, c, rfl, hc⟩ := h.last
    exact ⟨cs, c, rfl, by simp [isLastChar, hc]⟩

end IsPath

-- ---------------------------------------------------------------------------
-- Types
-- ---------------------------------------------------------------------------

/-- An argument of a generic type whose types have a property. -/
def IsArgument (P : Text → Prop) (a : Text) : Prop :=
  a = ['?'] ∨ P a ∨ ∃ (side : Bound) (s : Text), P s ∧ a = side.opening ++ s

/-- A property that holds of every type when it holds of its parts, one field for each way to write
a type. -/
structure TypeClosed (P : Text → Prop) : Prop where
  path : ∀ s, IsPath s → P s
  array : ∀ s, P s → P (s ++ "[]".toList)
  generic : ∀ base args, IsPath base → (∀ a ∈ args, IsArgument P a) →
    P (base ++ '<' :: ([',', ' '].intercalate args ++ ['>']))

namespace TypeClosed

variable {P : Text → Prop}

mutual

theorem type (h : TypeClosed P) (t : JavaType) (ht : t.isPlain = true) : P t.text := by
  cases t with
  | name n => exact h.path _ ⟨n, ht, rfl⟩
  | array element => exact h.array _ (h.type element ht)
  | generic base arguments =>
    rw [JavaType.isPlain, Bool.and_eq_true] at ht
    exact h.generic _ _ ⟨base, ht.1, rfl⟩ (h.arguments arguments ht.2)

theorem argument (h : TypeClosed P) (a : TypeArgument) (ha : a.isPlain = true) :
    IsArgument P a.text := by
  cases a with
  | type t => exact .inr (.inl (h.type t ha))
  | wildcard => exact .inl rfl
  | bounded side bound => exact .inr (.inr ⟨side, _, h.type bound ha, rfl⟩)

theorem arguments (h : TypeClosed P) (as : List TypeArgument)
    (has : TypeArgument.arePlain as = true) : ∀ a ∈ TypeArgument.texts as, IsArgument P a := by
  cases as with
  | nil => simp [TypeArgument.texts]
  | cons a as =>
    rw [TypeArgument.arePlain, Bool.and_eq_true] at has
    have ha := h.argument a has.1
    have hrest := h.arguments as has.2
    intro b hb
    rcases List.mem_cons.mp hb with rfl | hb
    · exact ha
    · exact hrest b hb

end

theorem of_isTypeText (h : TypeClosed P) {s : Text} (hs : IsTypeText s) : P s := by
  obtain ⟨t, ht, rfl⟩ := hs
  exact h.type t ht

end TypeClosed

theorem follows_comma (a : Char) : Follows a ',' := by
  simp [Follows, Text.Tight]

theorem ne_of_isFirstChar {b c : Char} (hb : isFirstChar b = true) (hc : isFirstChar c = false) :
    b ≠ c := by
  rintro rfl
  simp_all

theorem ne_of_isLastChar {a c : Char} (ha : isLastChar a = true) (hc : isLastChar c = false) :
    a ≠ c := by
  rintro rfl
  simp_all

theorem follows_space {b : Char} (hb : isFirstChar b = true) : Follows ' ' b := by
  have hne : ∀ {c}, isFirstChar c = false → b ≠ c := ne_of_isFirstChar hb
  refine ⟨⟨fun _ hmem => ?_, fun hspace => absurd hspace (hne (by decide))⟩, by simp⟩
  have hnone : ∀ d ∈ [' ', '<', '>', '[', ']'], isFirstChar d = false := by decide
  exact hne (hnone b hmem) rfl

theorem shape_comma : TypeShape Follows [',', ' '] :=
  .of_breaks (by decide) (by decide) (by decide) (by decide)

theorem entry_intercalate {R : Char → Char → Prop} (hR : ∀ a b, Follows a b → R a b)
    {pieces : List Text} (hne : pieces ≠ []) (h : ∀ p ∈ pieces, TypeEntry R p) :
    TypeEntry R ([',', ' '].intercalate pieces) := by
  have hentry : TypeEntry R ((',' :: ([] ++ [' '])).intercalate pieces) :=
    TypeEntry.intercalate hne h (shape_comma.imp hR) (by decide)
      (fun a _ => hR a _ (follows_comma a))
      fun b hb => hR _ b (follows_space hb)
  exact hentry

/-- Entries with commas between them, perhaps none. -/
theorem shape_intercalate {R : Char → Char → Prop} (hR : ∀ a b, Follows a b → R a b)
    {pieces : List Text} (h : ∀ p ∈ pieces, TypeEntry R p) :
    TypeShape R ([',', ' '].intercalate pieces) := by
  by_cases hne : pieces = []
  · subst hne
    exact ⟨by simp, avoids_nil, by simp, .nil⟩
  · exact (entry_intercalate hR hne h).toTypeShape

/-- Entries in angle brackets. -/
theorem shape_angled {R : Char → Char → Prop} (hR : ∀ a b, Follows a b → R a b)
    {pieces : List Text} (h : ∀ p ∈ pieces, TypeEntry R p) :
    TypeShape R ('<' :: ([',', ' '].intercalate pieces ++ ['>'])) := by
  refine (shape_intercalate hR h).angled ?_ ?_
  · intro b hb
    have hne : b ≠ ' ' := by
      by_cases hnil : pieces = []
      · subst hnil
        obtain rfl : '>' = b := by simpa using hb
        decide
      · have hentry := entry_intercalate hR hnil h
        obtain ⟨c, cs, hcs, hc⟩ := hentry.head
        rw [hcs] at hb
        obtain rfl : c = b := by simpa using hb
        exact ne_of_isFirstChar hc (by decide)
    exact hR _ _ (by simp [Follows, Text.Tight, hne])
  · intro a ha
    have hnil : pieces ≠ [] := by
      rintro rfl
      simp at ha
    have hne : a ≠ ' ' :=
      ne_of_isLastChar ((entry_intercalate hR hnil h).isLastChar_of_mem a ha) (by decide)
    exact hR _ _ (by simp [Follows, Text.Tight, hne])

/-- A word between spaces, as it stands before a bound. -/
theorem shape_lead {R : Char → Char → Prop} {word : Text}
    (hchars : ∀ c ∈ word, isPlainChar c = true)
    (hword : word ∉ openingWords) (hchain : (' ' :: (word ++ [' '])).IsChain R) :
    TypeShape R (' ' :: (word ++ [' '])) := by
  have hangle : ∀ c ∈ word, c ≠ '<' ∧ c ≠ '>' := fun c hc =>
    forall_isPlainChar (P := fun c => c ≠ '<' ∧ c ≠ '>') (by decide) (hchars c hc)
  have havoids : Text.Avoids openingWords word :=
    .of_forall (fun c hc => isWordChar_of_isPlainChar (hchars c hc)) hword
  refine ⟨?_, avoids_cons (by decide) (avoids_append_cons (by decide) havoids avoids_nil),
    hchain, ?_⟩
  · have hspace : isTypeChar ' ' = true := by decide
    have hname : ∀ c ∈ word, isTypeChar c = true := fun c hc =>
      isTypeChar_of_isPlainChar (hchars c hc)
    simpa [hspace, or_imp, forall_and] using hname
  · exact .cons (by decide) (by decide)
      ((Balanced.of_forall hangle).append (.of_forall (by decide)))

theorem entry_question : TypeEntry Follows ['?'] where
  toTypeShape := .of_breaks (by decide) (by decide) (by decide) (by decide)
  head := ⟨'?', [], rfl, by decide⟩
  last := ⟨[], '?', rfl, by decide⟩

theorem entry_argument {a : Text} (h : IsArgument (TypeEntry Follows) a) : TypeEntry Follows a := by
  rcases h with rfl | h | ⟨side, s, hs, rfl⟩
  · exact entry_question
  · exact h
  · cases side with
    | upper =>
      have hopening : Bound.upper.opening = '?' :: ' ' :: ("extends".toList ++ [' ']) := by decide
      have hlead : TypeShape Follows (' ' :: ("extends".toList ++ [' '])) :=
        shape_lead (by decide) (by decide) (by decide)
      have h := entry_question.join hs hlead (by decide) (by decide) fun b hb => follows_space hb
      rw [hopening]
      simpa using h
    | lower =>
      have hopening : Bound.lower.opening = '?' :: ' ' :: ("super".toList ++ [' ']) := by decide
      have hlead : TypeShape Follows (' ' :: ("super".toList ++ [' '])) :=
        shape_lead (by decide) (by decide) (by decide)
      have h := entry_question.join hs hlead (by decide) (by decide) fun b hb => follows_space hb
      rw [hopening]
      simpa using h

theorem typeClosed_entry : TypeClosed (TypeEntry Follows) where
  path _ hs := hs.entry
  array s hs := by
    have hlast : ∀ a ∈ s.getLast?, Follows a '[' := by
      intro a ha
      have hne : a ≠ ' ' := ne_of_isLastChar (hs.isLastChar_of_mem a ha) (by decide)
      simp [Follows, Text.Tight, hne]
    have havoids : Text.Avoids openingWords (s ++ "[]".toList) :=
      avoids_append_cons (by decide) hs.avoids (avoids_cons (by decide) avoids_nil)
    refine { toTypeShape := hs.toTypeShape.append ?_ havoids ?_, head := ?_, last := ?_ }
    · exact .of_breaks (by decide) (by decide) (by decide) (by decide)
    · intro a ha b hb
      obtain rfl : '[' = b := by simpa using hb
      exact hlast a ha
    · obtain ⟨c, cs, rfl, hc⟩ := hs.head
      exact ⟨c, _, rfl, hc⟩
    · exact ⟨s ++ ['['], ']', by simp, by decide⟩
  generic base args hbase hargs := by
    have hentry := hbase.entry
    have hpieces : ∀ a ∈ args, TypeEntry Follows a := fun a ha => entry_argument (hargs a ha)
    have hinner := shape_intercalate (fun _ _ h => h) hpieces
    have hangled := shape_angled (fun _ _ h => h) hpieces
    generalize [',', ' '].intercalate args = inner at *
    have havoids : Text.Avoids openingWords (base ++ '<' :: (inner ++ ['>'])) :=
      avoids_append_cons (by decide) hbase.avoids
        (avoids_append_cons (by decide) hinner.avoids avoids_nil)
    refine { toTypeShape := hentry.toTypeShape.append hangled havoids ?_, head := ?_, last := ?_ }
    · intro a ha b hb
      obtain rfl : '<' = b := by simpa using hb
      obtain ⟨cs, c, rfl, hc⟩ := hbase.last
      obtain rfl : c = a := by simpa using ha
      have hspace : c ≠ ' ' := by
        rintro rfl
        exact absurd hc (by decide)
      have hangle : c ≠ '>' := by
        rintro rfl
        exact absurd hc (by decide)
      simp [Follows, Text.Tight, hspace, hangle]
    · obtain ⟨c, cs, rfl, hc⟩ := hentry.head
      exact ⟨c, _, rfl, hc⟩
    · exact ⟨base ++ '<' :: inner, '>', by simp, by decide⟩

theorem IsTypeText.entry {s : Text} (h : IsTypeText s) : TypeEntry Follows s :=
  typeClosed_entry.of_isTypeText h

/-- What stands between a path and pairs of square brackets in a type: nothing, or arguments. -/
def IsArguments (args : Text) : Prop :=
  args = [] ∨ ∃ inner, args = '<' :: (inner ++ ['>']) ∧ Balanced inner

/-- A type is a path, then its arguments, then pairs of square brackets. -/
theorem IsTypeText.exists_parts {s : Text} (h : IsTypeText s) :
    ∃ base args n, s = base ++ (args ++ Source.pairs n) ∧ IsPath base ∧ IsArguments args := by
  have hclosed : TypeClosed fun s => TypeEntry Follows s ∧
      ∃ base args n, s = base ++ (args ++ Source.pairs n) ∧ IsPath base ∧ IsArguments args := by
    refine ⟨fun s hs => ⟨hs.entry, s, [], 0, by simp [Source.pairs], hs, .inl rfl⟩, ?_, ?_⟩
    · rintro s ⟨hs, base, args, n, rfl, hbase, hargs⟩
      refine ⟨typeClosed_entry.array _ hs, base, args, n + 1, ?_, hbase, hargs⟩
      simp [Source.pairs, List.replicate_succ']
    · intro base args hbase hargs
      have hargs : ∀ a ∈ args, IsArgument (TypeEntry Follows) a := fun a ha =>
        (hargs a ha).imp id (Or.imp And.left fun ⟨side, s, hs, heq⟩ => ⟨side, s, hs.1, heq⟩)
      have hpieces : ∀ a ∈ args, TypeEntry Follows a := fun a ha => entry_argument (hargs a ha)
      refine ⟨typeClosed_entry.generic _ _ hbase hargs, base,
        '<' :: ([',', ' '].intercalate args ++ ['>']), 0, by simp [Source.pairs], hbase,
        .inr ⟨_, rfl, ?_⟩⟩
      exact (shape_intercalate (fun _ _ h => h) hpieces).balanced
  exact (hclosed.of_isTypeText h).2

theorem IsTypeText.startsWithName {s : Text} (h : IsTypeText s) : StartsWithName s := by
  obtain ⟨base, args, n, rfl, hbase, hargs⟩ := h.exists_parts
  refine hbase.startsWithName.append ?_
  rcases hargs with rfl | ⟨inner, rfl, _⟩
  · cases n with
    | zero => simp [Source.pairs]
    | succ n =>
      have hopen : isBreak '[' = true := by decide
      simpa [Source.pairs, List.replicate_succ] using hopen
  · have hopen : isBreak '<' = true := by decide
    simpa using hopen

-- ---------------------------------------------------------------------------
-- Lists of types and type parameters
-- ---------------------------------------------------------------------------

theorem IsTypeList.entry {s : Text} (h : IsTypeList s) : TypeEntry Follows s := by
  obtain ⟨types, hne, htypes, rfl⟩ := h
  exact entry_intercalate (fun _ _ h => h) hne fun t ht => (htypes t ht).entry

theorem isPath_of_isName {s : Text} (h : isName s = true) : IsPath s := by
  have hchars : ∀ c ∈ s, isSegmentChar c = true := fun c hc =>
    forall_isPlainChar (P := fun c => isSegmentChar c = true) (by decide)
      (isPlainChar_of_isName h c hc)
  refine ⟨.simple s (ne_nil_of_isName h) hchars, ?_, ?_⟩
  · simpa [JavaName.isPlain, JavaName.simple] using h
  · simp [JavaName.text, JavaName.simple]

theorem isTypeText_of_isName {s : Text} (h : isName s = true) : IsTypeText s := by
  obtain ⟨n, hn, hs⟩ := isPath_of_isName h
  exact ⟨.name n, hn, hs⟩

theorem tight_space {a : Char} (ha : isLastChar a = true) : Text.Tight a ' ' := by
  have hne : ∀ {c}, isLastChar c = false → a ≠ c := ne_of_isLastChar ha
  refine ⟨fun hspace => absurd hspace (hne (by decide)), fun _ hmem => ?_⟩
  have hnone : ∀ d ∈ ['<', '['], isLastChar d = false := by decide
  exact hne (hnone a hmem) rfl

theorem BoundedName.IsPlain.entry {b : BoundedName} (h : b.IsPlain) :
    TypeEntry Text.Tight b.text := by
  have hname := (isPath_of_isName h.name).entry.imp fun _ _ h => h.1
  unfold BoundedName.text
  split
  · exact hname
  · rename_i hne
    have hbounds : TypeEntry Text.Tight ((' ' :: (['&'] ++ [' '])).intercalate b.bounds) := by
      refine TypeEntry.intercalate hne (fun t ht => (h.bounds t ht).entry.imp fun _ _ h => h.1)
        (.of_breaks ?_ ?_ ?_ ?_) ?_ (fun a ha => tight_space ha) fun c hc => (follows_space hc).1
      all_goals decide
    have hlead : TypeShape Text.Tight (' ' :: ("extends".toList ++ [' '])) :=
      shape_lead (by decide) (by decide) (by decide)
    have hjoin := hname.join hbounds hlead (by decide)
      (fun a ha => tight_space (hname.isLastChar_of_mem a ha)) fun c hc => (follows_space hc).1
    simpa using hjoin

/-- Type parameters are a text in angle brackets. -/
theorem IsTypeParameters.exists_inner {s : Text} (h : IsTypeParameters s) :
    ∃ inner, s = '<' :: (inner ++ ['>']) ∧ Balanced inner ∧ TypeShape Text.Tight s := by
  obtain ⟨entries, hentries, rfl⟩ := h
  have hpieces : ∀ p ∈ entries.map BoundedName.text, TypeEntry Text.Tight p := by
    intro p hp
    obtain ⟨b, hb, rfl⟩ := List.mem_map.mp hp
    exact (hentries b hb).entry
  have hR : ∀ a b, Follows a b → Text.Tight a b := fun _ _ h => h.1
  exact ⟨_, rfl, (shape_intercalate hR hpieces).balanced, shape_angled hR hpieces⟩

-- ---------------------------------------------------------------------------
-- Compactness
-- ---------------------------------------------------------------------------

theorem TypeShape.isCompact {s : Text} (h : TypeShape Text.Tight s) (hhead : ∀ c ∈ s.head?, c ≠ ' ')
    (hlast : ∀ c ∈ s.getLast?, c ≠ ' ') : Text.IsCompact s :=
  ⟨fun c hc => isSpace_of_isTypeChar (h.chars c hc), h.chain, hhead, hlast⟩

theorem TypeEntry.isCompact {s : Text} (h : TypeEntry Follows s) : Text.IsCompact s :=
  (h.toTypeShape.imp fun _ _ h => h.1).isCompact
    (fun c hc => ne_of_isFirstChar (h.isFirstChar_of_mem c hc) (by decide))
    fun c hc => ne_of_isLastChar (h.isLastChar_of_mem c hc) (by decide)

theorem IsTypeParameters.isCompact {s : Text} (h : IsTypeParameters s) : Text.IsCompact s := by
  obtain ⟨inner, rfl, _, hshape⟩ := h.exists_inner
  refine hshape.isCompact (by simp) fun c hc => ?_
  rw [← List.cons_append, List.getLast?_concat] at hc
  obtain rfl : '>' = c := by simpa using hc
  decide

end Typings
