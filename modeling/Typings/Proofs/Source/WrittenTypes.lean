import Typings.Proofs.Source.DeclarationParts

/-!
# Types as they may be written

The pattern for types allows white space between the parts of a type. A text that it can take is a
dotted name, then type arguments, then pairs of square brackets. It is taken whole where white space
and a name follow it, and its compact form starts with the same dotted name. Main statements:
`takes_typeText_of_mem`, `takes_typeText` and `exists_compact_of_mem_typeText`.
-/

namespace Typings

-- ---------------------------------------------------------------------------
-- Compact forms
-- ---------------------------------------------------------------------------

namespace Text

/-- A text starts with a word of its own when no space follows its first character. -/
theorem exists_words_cons {c : Char} (hc : isSpace c = false) (s : Text) :
    ∃ w ws, words (c :: s) = (c :: w) :: ws := by
  cases s with
  | nil => exact ⟨[], [], words_singleton hc⟩
  | cons d ds =>
    rw [words_cons_cons hc]
    cases words (d :: ds) with
    | nil => exact ⟨[], [], rfl⟩
    | cons w ws =>
      by_cases hd : isSpace d = true
      · exact ⟨[], w :: ws, by simp [hd]⟩
      · exact ⟨w, ws, by simp [hd]⟩

/-- Characters that no space parts from a word belong to it. -/
theorem words_append_of_words {s t w : Text} {ws : List Text} (hs : ∀ c ∈ s, isSpace c = false)
    (ht : ∀ c ∈ t.head?, isSpace c = false) (hwords : words t = w :: ws) :
    words (s ++ t) = (s ++ w) :: ws := by
  induction s with
  | nil => exact hwords
  | cons c s ih =>
    have hrest := ih fun d hd => hs d (by simp [hd])
    have hhead : ∀ d ∈ (s ++ t).head?, isSpace d = false := by
      cases s with
      | nil => exact ht
      | cons d s => exact forall_head (hs d (by simp)) _
    cases hst : s ++ t with
    | nil =>
      rw [hst] at hrest
      cases hrest
    | cons d ds =>
      rw [hst] at hrest hhead
      rw [List.cons_append, hst, words_cons_cons (hs c (by simp)), hrest]
      simp [hhead d rfl]

/-- What a text with a word first and then, perhaps after spaces, a character `c` becomes when its
spaces are normalized. -/
theorem exists_normalizeSpaces_append {base sp : Text} {c : Char} (hne : base ≠ [])
    (hbase : ∀ d ∈ base, isSpace d = false) (hsp : ∀ d ∈ sp, isSpace d = true)
    (hc : isSpace c = false) (t : Text) :
    ∃ u, normalizeSpaces (base ++ (sp ++ c :: t)) = base ++ c :: u ∨
      normalizeSpaces (base ++ (sp ++ c :: t)) = base ++ ' ' :: c :: u := by
  obtain ⟨w, ws, hwords⟩ := exists_words_cons hc t
  have hjoin : ∀ v : Text, ∃ u, [' '].intercalate ((v ++ c :: w) :: ws) = v ++ c :: u := fun v => by
    cases ws with
    | nil => exact ⟨w, by simp⟩
    | cons x xs => exact ⟨w ++ ' ' :: [' '].intercalate (x :: xs), by simp⟩
  unfold normalizeSpaces
  cases sp with
  | nil =>
    rw [List.nil_append, words_append_of_words hbase (forall_head hc t) hwords]
    obtain ⟨u, hu⟩ := hjoin base
    exact ⟨u, .inl hu⟩
  | cons d sp =>
    have hrest : words (sp ++ c :: t) = words (c :: t) :=
      words_append_of_isSpace (fun e he => hsp e (List.mem_cons_of_mem _ he)) _
    rw [List.cons_append, words_append_first_space hbase (hsp d (by simp)), hrest, hwords,
      words_of_forall hne hbase]
    obtain ⟨u, hu⟩ := hjoin []
    rw [List.nil_append, List.nil_append] at hu
    exact ⟨u, .inr (by simp [hu])⟩

theorem replacePair_append {a b r : Char} {s : Text} (h : a ∉ s) (t : Text) :
    replacePair a b r (s ++ t) = s ++ replacePair a b r t := by
  induction s with
  | nil => rfl
  | cons c s ih =>
    have hc : c ≠ a := fun hca => h (by simp [hca])
    have hrest := ih fun hmem => h (by simp [hmem])
    cases hst : s ++ t with
    | nil =>
      obtain ⟨rfl, rfl⟩ := List.append_eq_nil_iff.mp hst
      rfl
    | cons d ds =>
      rw [List.cons_append, hst, replacePair, if_neg fun h => hc h.1, ← hst, hrest]; rfl

/-- Whether a text starts with a character, or with a space and then the character. -/
def StartsAfterSpace (c : Char) (s : Text) : Prop := s.head? = some c ∨ ∃ u, s = ' ' :: c :: u

theorem head_replacePair {a b r c : Char} {s : Text} (h : s.head? = some c) (hca : c = a → r = c) :
    (replacePair a b r s).head? = some c := by
  obtain ⟨t, rfl⟩ := List.head?_eq_some_iff.mp h
  cases t with
  | nil => rfl
  | cons d ds =>
    rw [replacePair]
    split
    · rename_i hpair
      rw [List.head?_cons, hca hpair.1]
    · rfl

namespace StartsAfterSpace

variable {c : Char} {s : Text}

/-- A pass that drops other spaces than the one before `c`. -/
theorem replacePair {a b r : Char} (h : StartsAfterSpace c s) (hca : c = a → r = c)
    (hspace : ' ' = a → c ≠ b) : StartsAfterSpace c (Text.replacePair a b r s) := by
  rcases h with h | ⟨u, rfl⟩
  · exact .inl (head_replacePair h hca)
  · obtain ⟨v, hv⟩ := List.head?_eq_some_iff.mp
      (head_replacePair (b := b) (List.head?_cons (l := u)) hca)
    refine .inr ⟨v, ?_⟩
    rw [Text.replacePair, if_neg fun hpair => hspace hpair.1 hpair.2, hv]

/-- The pass that drops the space before `c`. -/
theorem head_dropSpaceBefore (h : StartsAfterSpace c s) (hc : c ≠ ' ') :
    (Text.replacePair ' ' c c s).head? = some c := by
  rcases h with h | ⟨u, rfl⟩
  · exact head_replacePair h fun h => absurd h hc
  · simp [Text.replacePair]

end StartsAfterSpace

end Text

open Text (StartsAfterSpace)

-- ---------------------------------------------------------------------------
-- Parts
-- ---------------------------------------------------------------------------

/-- Characters of the dotted name that a type starts with. -/
def isBaseChar (c : Char) : Bool := Text.isWordChar c || c = '$' || c = '.'

theorem isBaseChar_of_isSpace {c : Char} (h : Text.isSpace c = true) : isBaseChar c = false := by
  have hne : c ≠ '$' ∧ c ≠ '.' := by
    constructor <;> rintro rfl <;> exact absurd h (by decide)
  simp [isBaseChar, Text.isWordChar_of_isSpace h, hne]

theorem isSpace_of_isBaseChar {c : Char} (h : isBaseChar c = true) : Text.isSpace c = false := by
  rw [Bool.eq_false_iff]
  intro hspace
  rw [isBaseChar_of_isSpace hspace] at h
  cases h

theorem ne_of_isBaseChar {c d : Char} (hc : isBaseChar c = true) (hd : isBaseChar d = false) :
    c ≠ d := by
  rintro rfl
  rw [hd] at hc
  cases hc

namespace Declaration

open Pattern

/-- A pair of square brackets, perhaps with spaces before it and in it. -/
def IsDimension (s : Text) : Prop :=
  ∃ sp inner, (∀ c ∈ sp, Text.isSpace c = true) ∧ (∀ c ∈ inner, Text.isSpace c = true) ∧
    s = sp ++ '[' :: (inner ++ [']'])

/-- Type arguments, perhaps with spaces before them. -/
def IsAngled (s : Text) : Prop :=
  ∃ sp inner, (∀ c ∈ sp, Text.isSpace c = true) ∧ (∀ c ∈ inner, isAngledChar c = true) ∧
    s = sp ++ '<' :: (inner ++ ['>'])

/-- The parts of a written type: its name, its arguments and its pairs of square brackets. -/
structure TypeParts (base args : Text) (rounds : List Text) : Prop where
  base_ne : base ≠ []
  base_chars : ∀ c ∈ base, isBaseChar c = true
  args : args = [] ∨ IsAngled args
  rounds : ∀ d ∈ rounds, IsDimension d

/-- A type is its name alone, or a bracket follows the name, perhaps after spaces. -/
theorem TypeParts.eq_nil_or_bracket {base args : Text} {rounds : List Text}
    (h : TypeParts base args rounds) : args ++ rounds.flatten = [] ∨
      ∃ sp c more, (∀ d ∈ sp, Text.isSpace d = true) ∧ (c = '<' ∨ c = '[') ∧
        args ++ rounds.flatten = sp ++ c :: more := by
  rcases h.args with rfl | ⟨sp, inner, hsp, _, rfl⟩
  · cases rounds with
    | nil => exact .inl rfl
    | cons d rounds =>
      obtain ⟨sp, inner, hsp, _, rfl⟩ := h.rounds d (by simp)
      exact .inr ⟨sp, '[', inner ++ ']' :: rounds.flatten, hsp, .inr rfl, by simp⟩
  · exact .inr ⟨sp, '<', inner ++ '>' :: rounds.flatten, hsp, .inl rfl, by simp⟩

theorem mem_language_opt {p : Shape} {w : Text} : w ∈ (Pattern.opt p).language ↔
    w ∈ p.language ∨ w = [] :=
  Iff.rfl

theorem mem_language_bracketed {accepts : Char → Bool} {opening closing : String} {w : Text} :
    w ∈ (spaces ++ (.lit opening ++ .star (.char accepts) ++ .lit closing)).language ↔
      ∃ sp inner, (∀ c ∈ sp, Text.isSpace c = true) ∧ (∀ c ∈ inner, accepts c = true) ∧
        w = sp ++ (opening.toList ++ (inner ++ closing.toList)) := by
  constructor
  · intro h
    obtain ⟨sp, hsp, v, hv, rfl⟩ := mem_language_seq.mp h
    obtain ⟨x, hx, close, hclose, rfl⟩ := mem_language_seq.mp hv
    obtain ⟨lead, hlead, inner, hinner, rfl⟩ := mem_language_seq.mp hx
    obtain rfl := mem_language_lit.mp hlead
    obtain rfl := mem_language_lit.mp hclose
    exact ⟨sp, inner, mem_language_star_char.mp hsp, mem_language_star_char.mp hinner, by simp⟩
  · rintro ⟨sp, inner, hsp, hinner, rfl⟩
    rw [← List.append_assoc opening.toList]
    refine mem_language_seq.mpr ⟨sp, mem_language_star_char.mpr hsp, _, ?_, rfl⟩
    refine mem_language_seq.mpr ⟨opening.toList ++ inner, ?_, _, mem_language_lit.mpr rfl, rfl⟩
    exact mem_language_seq.mpr
      ⟨_, mem_language_lit.mpr rfl, inner, mem_language_star_char.mpr hinner, rfl⟩

theorem mem_language_angled {w : Text} : w ∈ (spaces ++ angled).language ↔ IsAngled w :=
  mem_language_bracketed

theorem mem_language_dimension {w : Text} : w ∈ (spaces ++ squarePair).language ↔ IsDimension w :=
  mem_language_bracketed

/-- The texts that the pattern for types can take are those with the parts of a type. -/
theorem mem_typeText_iff {s : Text} : s ∈ typeText.language ↔
    ∃ base args rounds, s = base ++ (args ++ rounds.flatten) ∧ TypeParts base args rounds := by
  constructor
  · intro h
    obtain ⟨x, hx, dims, hdims, rfl⟩ := mem_language_seq.mp h
    obtain ⟨base, hbase, args, hargs, rfl⟩ := mem_language_seq.mp hx
    obtain ⟨hne, hchars⟩ := mem_language_plus_char.mp hbase
    obtain ⟨rounds, rfl, hrounds⟩ := Language.mem_kstar.mp hdims
    refine ⟨base, args, rounds, by simp, hne, hchars, ?_, fun d hd =>
      mem_language_dimension.mp (hrounds d hd)⟩
    rcases mem_language_opt.mp hargs with hargs | rfl
    · exact .inr (mem_language_angled.mp hargs)
    · exact .inl rfl
  · rintro ⟨base, args, rounds, rfl, hparts⟩
    have hbase : base ∈ (Pattern.plus dottedDollar).language :=
      mem_language_plus_char.mpr ⟨hparts.base_ne, hparts.base_chars⟩
    have hargs : args ∈ (Pattern.opt (spaces ++ angled)).language :=
      mem_language_opt.mpr (hparts.args.symm.imp_left mem_language_angled.mpr)
    have hrounds : rounds.flatten ∈ (Pattern.star (spaces ++ squarePair)).language :=
      Language.mem_kstar.mpr ⟨rounds, rfl, fun d hd =>
        mem_language_dimension.mpr (hparts.rounds d hd)⟩
    refine mem_language_seq.mpr ⟨base ++ args, ?_, rounds.flatten, hrounds, List.append_assoc _ _ _⟩
    exact mem_language_seq.mpr ⟨base, hbase, args, hargs, rfl⟩

theorem isBaseChar_of_isPlainChar {c : Char} (h : isPlainChar c = true) : isBaseChar c = true := by
  simp [isBaseChar, isWordChar_of_isPlainChar h]

/-- A plain type is written as the pattern expects it. -/
theorem mem_typeText_of_isTypeText {s : Text} (hs : IsTypeText s) : s ∈ typeText.language := by
  have hchars := hs.entry.chars
  obtain ⟨base, args, n, rfl, hbase, hargs⟩ := hs.exists_parts
  obtain ⟨c, cs, hcs, _⟩ := hbase.head
  refine mem_typeText_iff.mpr ⟨base, args, List.replicate n ['[', ']'], rfl, by simp [hcs],
    ?_, ?_, ?_⟩
  · intro d hd
    rcases hbase.chars d hd with hd | rfl
    · exact isBaseChar_of_isPlainChar hd
    · decide
  · rcases hargs with rfl | ⟨inner, rfl, _⟩
    · exact .inl rfl
    · exact .inr ⟨[], inner, nofun, fun d hd => isAngledChar_of_isTypeChar
        (hchars d (by simp [hd])), rfl⟩
  · intro d hd
    obtain rfl := List.eq_of_mem_replicate hd
    exact ⟨[], [], nofun, nofun, rfl⟩

-- ---------------------------------------------------------------------------
-- Taking
-- ---------------------------------------------------------------------------

section Taking

variable {b : Option Char} {pos : Nat}

theorem takes_dimension {d t : Text} (hd : IsDimension d) :
    (spaces ++ squarePair).Takes b pos d t [] := by
  obtain ⟨sp, inner, hsp, hinner, rfl⟩ := hd
  have hspaces : ∀ b pos, spaces.Takes b pos sp ('[' :: (inner ++ ']' :: t)) [] := fun _ _ =>
    takes_star_char hsp (Text.forall_head (by decide) _)
  have hinside : ∀ b pos, spaces.Takes b pos inner (']' :: t) [] := fun _ _ =>
    takes_star_char hinner (Text.forall_head (by decide) _)
  have hopen : ∀ b pos, (Pattern.lit "[").Takes b pos ['['] (inner ++ ']' :: t)
      ([] : List (Mark Part)) :=
    fun _ _ => takes_lit "["
  have hclose : ∀ b pos, (Pattern.lit "]").Takes b pos [']'] t ([] : List (Mark Part)) := fun _ _ =>
    takes_lit "]"
  have hpair := ((hopen (Text.lastOr b sp) (pos + Text.byteLength sp)).andThen
    (hinside _ _) rfl).andThen
    (hclose _ _) rfl
  exact ((hspaces b pos).andThen hpair (by simp)).congr (by simp) rfl

theorem takes_dimensions {rounds : List Text} (hrounds : ∀ d ∈ rounds, IsDimension d) {t : Text}
    (ht : ∀ b, (spaces ++ squarePair).Fails b t) :
    (Pattern.star (spaces ++ squarePair)).Takes b pos rounds.flatten t [] := by
  induction rounds generalizing b pos with
  | nil => exact takes_star_of_fails (ht b)
  | cons d rounds ih =>
    have hd := hrounds d (by simp)
    have hne : d ≠ [] := by
      obtain ⟨sp, inner, _, _, rfl⟩ := hd
      simp
    exact (takes_dimension hd).round hne (ih fun e he => hrounds e (by simp [he]))

/-- What follows the name of a type does not continue it. -/
theorem TypeParts.head_afterBase {base args : Text} {rounds : List Text}
    (h : TypeParts base args rounds)
    {sp t : Text} (hne : sp ≠ []) (hsp : ∀ c ∈ sp, Text.isSpace c = true) :
    ∀ c ∈ (args ++ (rounds.flatten ++ (sp ++ t))).head?, isBaseChar c = false := by
  rw [← List.append_assoc]
  rcases h.eq_nil_or_bracket with hnil | ⟨before, c, more, hbefore, hc, hbracket⟩
  · rw [hnil, List.nil_append]
    obtain ⟨c, cs, rfl⟩ := List.exists_cons_of_ne_nil hne
    exact Text.forall_head (isBaseChar_of_isSpace (hsp c (by simp))) _
  · rw [hbracket, List.append_assoc]
    cases before with
    | nil =>
      have hbase : isBaseChar c = false := by rcases hc with rfl | rfl <;> decide
      exact Text.forall_head hbase _
    | cons d before => exact Text.forall_head (isBaseChar_of_isSpace (hbefore d (by simp))) _

/-- No angle bracket closes in the square brackets of a type. -/
theorem TypeParts.not_mem_flatten {base args : Text} {rounds : List Text}
    (h : TypeParts base args rounds) :
    '>' ∉ rounds.flatten := by
  intro hmem
  obtain ⟨d, hd, hmem⟩ := List.mem_flatten.mp hmem
  obtain ⟨sp, inner, hsp, hinner, rfl⟩ := h.rounds d hd
  simp only [List.mem_append, List.mem_cons, List.not_mem_nil, or_false] at hmem
  rcases hmem with hmem | hmem | hmem | hmem
  · exact absurd (hsp _ hmem) (by decide)
  · exact absurd hmem (by decide)
  · exact absurd (hinner _ hmem) (by decide)
  · exact absurd hmem (by decide)

/-- Where no arguments are written, none are found. -/
theorem TypeParts.fails_args {base : Text} {rounds : List Text} (h : TypeParts base [] rounds)
    {sp t : Text}
    (hsp : ∀ c ∈ sp, Text.isSpace c = true)
    (ht : ∀ c ∈ t.head?, Text.isSpace c = false ∧ c ≠ '<' ∧ c ≠ '[') :
    (spaces ++ angled).Fails b (rounds.flatten ++ (sp ++ t)) := by
  cases hrounds : rounds with
  | nil => exact (fails_bracket_of_isSpace hsp ht).1
  | cons d others =>
    obtain ⟨before, inner, hbefore, _, rfl⟩ := h.rounds d (by simp [hrounds])
    have hsquare : Text.isSpace '[' = false := by decide
    have hfails : ∀ t, (spaces ++ angled).Fails b (before ++ '[' :: t) := fun t =>
      fails_spaces_seq hbefore (Text.forall_head hsquare _) fun _ v hv =>
        fails_angled (head_append_of_isSpace (by decide) hv
          (Text.forall_head (P := (· ≠ '<')) (by decide) _))
    simpa using hfails _

/-- A written type is taken whole where spaces and then, without a closing bracket in between, a
character that ends a declaration follow it. -/
theorem takes_typeText_of_mem {s sp u t : Text} {c : Char} (hs : s ∈ typeText.language)
    (hne : sp ≠ [])
    (hsp : ∀ d ∈ sp, Text.isSpace d = true)
    (hhead : ∀ d ∈ (u ++ c :: t).head?, Text.isSpace d = false ∧ d ≠ '<' ∧ d ≠ '[')
    (hu : ∀ d ∈ u, d ≠ '>') (hc : isAngledChar c = false) :
    typeText.Takes b pos s (sp ++ (u ++ c :: t)) [] := by
  obtain ⟨base, args, rounds, rfl, hparts⟩ := mem_typeText_iff.mp hs
  have hbase : (Pattern.plus dottedDollar).Takes b pos base
      (args ++ (rounds.flatten ++ (sp ++ (u ++ c :: t)))) [] :=
    takes_plus_char hparts.base_ne hparts.base_chars (hparts.head_afterBase hne hsp)
  have hargs : ∀ b pos, (Pattern.opt (spaces ++ angled)).Takes b pos args
      (rounds.flatten ++ (sp ++ (u ++ c :: t))) [] := by
    intro b pos
    rcases hparts.args with rfl | ⟨before, inner, hbefore, hinner, rfl⟩
    · exact takes_opt_of_fails (hparts.fails_args hsp hhead)
    · have hclosing : ∀ e ∈ rounds.flatten ++ (sp ++ u), e ≠ '>' := by
        rintro e he rfl
        rcases List.mem_append.mp he with he | he
        · exact hparts.not_mem_flatten he
        · rcases List.mem_append.mp he with he | he
          · exact absurd (hsp _ he) (by decide)
          · exact hu _ he rfl
      have hangle : Text.isSpace '<' = false := by decide
      have hspaces : spaces.Takes b pos before ('<' :: (inner ++ ['>']) ++
          (rounds.flatten ++ (sp ++ u) ++ c :: t)) [] :=
        takes_star_char hbefore (Text.forall_head hangle _)
      have h := (hspaces.seq (takes_angled hinner hclosing hc)).opt
      simpa using h
  have hrounds : ∀ b pos, (Pattern.star (spaces ++ squarePair)).Takes b pos rounds.flatten
      (sp ++ (u ++ c :: t)) [] := fun _ _ =>
    takes_dimensions hparts.rounds fun _ => (fails_bracket_of_isSpace hsp hhead).2
  have h := (hbase.andThen (hargs _ _) rfl).andThen (hrounds _ _) rfl
  exact h.congr (by simp) rfl

/-- A plain type is taken where a space and a name follow it, up to a character that ends a
declaration. -/
theorem takes_typeText {s n t : Text} {c : Char} (hs : IsTypeText s) (hn : isName n = true)
    (hc : isAngledChar c = false) : typeText.Takes b pos s (' ' :: (n ++ c :: t)) [] := by
  have hname : ∀ d ∈ n, (Text.isSpace d = false ∧ d ≠ '<' ∧ d ≠ '[') ∧ d ≠ '>' := fun d hd =>
    forall_isPlainChar (P := fun c => (Text.isSpace c = false ∧ c ≠ '<' ∧ c ≠ '[') ∧ c ≠ '>')
      (by decide) (isPlainChar_of_isName hn d hd)
  have hhead : ∀ d ∈ (n ++ c :: t).head?, Text.isSpace d = false ∧ d ≠ '<' ∧ d ≠ '[' := by
    obtain ⟨d, ds, rfl, _⟩ := (isPath_of_isName hn).head
    exact Text.forall_head (hname d (by simp)).1 _
  have hblank : ∀ d ∈ [' '], Text.isSpace d = true := by decide
  exact takes_typeText_of_mem (mem_typeText_of_isTypeText hs) (by simp) hblank hhead
    (fun d hd => (hname d hd).2) hc

end Taking

-- ---------------------------------------------------------------------------
-- The compact form
-- ---------------------------------------------------------------------------

/-- What follows the name of a type in its compact form. -/
def IsTypeEnd (s : Text) : Prop := ∀ c ∈ s.head?, c = '<' ∨ c = '['

/-- A name before a bracket keeps its place when the spaces around brackets are dropped. -/
theorem exists_compact_append {base sp : Text} {c : Char} (hne : base ≠ [])
    (hbase : ∀ d ∈ base, isBaseChar d = true) (hsp : ∀ d ∈ sp, Text.isSpace d = true)
    (hc : c = '<' ∨ c = '[') (t : Text) :
    ∃ rest, Text.compact (base ++ (sp ++ c :: t)) = base ++ rest ∧ IsTypeEnd rest := by
  have hspace : Text.isSpace c = false := by rcases hc with rfl | rfl <;> decide
  obtain ⟨first, hfirst, hstarts⟩ : ∃ first,
      Text.normalizeSpaces (base ++ (sp ++ c :: t)) = base ++ first ∧ StartsAfterSpace c first := by
    obtain ⟨u, hu | hu⟩ := Text.exists_normalizeSpaces_append hne
      (fun d hd => isSpace_of_isBaseChar (hbase d hd)) hsp hspace t
    · exact ⟨_, hu, .inl rfl⟩
    · exact ⟨_, hu, .inr ⟨u, rfl⟩⟩
  have hpass : ∀ {a b r : Char} (s : Text), isBaseChar a = false →
      Text.replacePair a b r (base ++ s) = base ++ Text.replacePair a b r s := fun s ha =>
    Text.replacePair_append (fun hmem => ne_of_isBaseChar (hbase _ hmem) ha rfl) s
  simp only [Text.compact, Text.dropSpaceBefore, Text.dropSpaceAfter, hfirst]
  rw [hpass _ (by decide), hpass _ (by decide), hpass _ (by decide), hpass _ (by decide),
    hpass _ (by decide), hpass _ (by decide)]
  have hend : ∀ {rest : Text}, rest.head? = some c → IsTypeEnd rest := fun hrest d hd => by
    rw [hrest] at hd
    exact Option.some.inj hd ▸ hc
  refine ⟨_, rfl, hend ?_⟩
  rcases hc with rfl | rfl
  · -- The first pass drops the space before the bracket, if there is one.
    have hfirst := hstarts.head_dropSpaceBefore (by decide)
    have hthird := Text.head_replacePair (a := ' ') (b := '>') (r := '>')
      (Text.head_replacePair (a := '<') (b := ' ') (r := '<') hfirst (by decide)) (by decide)
    exact Text.head_replacePair (Text.head_replacePair (Text.head_replacePair hthird (by decide))
      (by decide)) (by decide)
  · have hthird := ((hstarts.replacePair (a := ' ') (b := '<') (r := '<') (by decide)
      (by decide)).replacePair (a := '<') (b := ' ') (r := '<') (by decide) (by decide)).replacePair
      (a := ' ') (b := '>') (r := '>') (by decide) (by decide)
    have hfourth := hthird.head_dropSpaceBefore (by decide)
    exact Text.head_replacePair (Text.head_replacePair hfourth (by decide)) (by decide)

/-- The compact form of a name is the name. -/
theorem compact_of_isBaseChar {s : Text} (h : ∀ c ∈ s, isBaseChar c = true) :
    Text.compact s = s := by
  have hne : ∀ {c d}, c ∈ s → isBaseChar d = false → c ≠ d :=
    fun hc hd => ne_of_isBaseChar (h _ hc) hd
  refine Text.IsCompact.compact_eq ⟨fun c hc hspace => ?_, ?_, fun c hc => ?_, fun c hc => ?_⟩
  · rw [isSpace_of_isBaseChar (h c hc)] at hspace
    cases hspace
  · refine List.Pairwise.isChain (List.pairwise_of_forall_mem_list fun a ha b hb => ?_)
    exact ⟨fun hspace => absurd hspace (hne ha (by decide)), fun hspace =>
      absurd hspace (hne hb (by decide))⟩
  · exact hne (List.mem_of_mem_head? hc) (by decide)
  · exact hne (List.mem_of_getLast? hc) (by decide)

/-- The compact form of a written type is a name, and then a bracket if anything. -/
theorem exists_compact_of_mem_typeText {s : Text} (hs : s ∈ typeText.language) :
    ∃ base rest, Text.compact s = base ++ rest ∧ base ≠ [] ∧ (∀ c ∈ base, isBaseChar c = true) ∧
      IsTypeEnd rest := by
  obtain ⟨base, args, rounds, rfl, hparts⟩ := mem_typeText_iff.mp hs
  have hne := hparts.base_ne
  have hbase := hparts.base_chars
  rcases hparts.eq_nil_or_bracket with hnil | ⟨sp, c, more, hsp, hc, hbracket⟩
  · refine ⟨base, [], ?_, hne, hbase, by simp [IsTypeEnd]⟩
    rw [hnil, List.append_nil, compact_of_isBaseChar hbase]
  · obtain ⟨rest, hrest, hend⟩ := exists_compact_append hne hbase hsp hc more
    exact ⟨base, rest, by rw [hbracket, hrest], hne, hbase, hend⟩

end Declaration

end Typings
