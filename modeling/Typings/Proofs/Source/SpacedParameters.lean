import Typings.Proofs.Source.ParameterParts

/-!
# Parameters with white space between their parts

White space may stand between any two tokens of a formal parameter, and where two tokens need no
separator there may be none. The parameter is read under its name exactly when the name stands apart
and its brackets do not: white space has to come before the name, or before dots that are attached
to it, and must not come before or inside the pairs of brackets after it. Main statement:
`parameters_spaced_iff`.
-/

namespace Typings.Source

-- ---------------------------------------------------------------------------
-- Runs of name characters
-- ---------------------------------------------------------------------------

/-- The longest texts of name characters that stand in a text, empty ones included. -/
def runs (s : Text) : List Text := s.splitOnP (!isSegmentChar ·)

/-- Another character parts them. -/
theorem runs_append_cons {c : Char} (hc : isSegmentChar c = false) (s t : Text) :
    runs (s ++ c :: t) = runs s ++ runs t :=
  List.splitOnP_append_cons s t (by simpa using hc)

theorem runs_of_forall {s : Text} (h : ∀ c ∈ s, isSegmentChar c = true) : runs s = [s] :=
  List.splitOnP_eq_singleton fun c hc => by simpa using h c hc

/-- A word of name characters is one of them. -/
theorem mem_runs_of_mem_words {w s : Text} (hw : ∀ c ∈ w, isSegmentChar c = true)
    (h : w ∈ Text.words s) :
    w ∈ runs s := by
  have hsolid : ∀ s : Text, (∀ c ∈ s, Text.isSpace c = false) → w ∈ Text.words s → w ∈ runs s := by
    intro s hs h
    cases s with
    | nil => cases h
    | cons c cs =>
      rw [Text.words_of_forall (by simp) hs, List.mem_singleton] at h
      rw [← h, runs_of_forall hw]
      simp
  induction s using Text.first_space_induction with
  | solid s hs => exact hsolid s hs h
  | cut x c y hx hc ih =>
    rw [Text.words_append_first_space hx hc] at h
    rw [runs_append_cons (isSegmentChar_of_isSpace hc), List.mem_append]
    exact (List.mem_append.mp h).imp (hsolid x hx) ih

-- ---------------------------------------------------------------------------
-- Types
-- ---------------------------------------------------------------------------

/-- Types, and type arguments, with blanks between their tokens. -/
inductive IsSpelling : (isArgument : Bool) → Text → Prop where
  | name {n : Text} (hn : IsSimpleName n) : IsSpelling false n
  | member {t g g' n : Text} (ht : IsSpelling false t) (hg : IsGap g) (hg' : IsGap g')
      (hn : IsSimpleName n) : IsSpelling false (t ++ (g ++ '.' :: (g' ++ n)))
  | generic {t g : Text} {arguments : List Text} (ht : IsSpelling false t) (hg : IsGap g)
      (harguments : ∀ a ∈ arguments, IsSpelling true a) :
      IsSpelling false (t ++ (g ++ '<' :: ([','].intercalate arguments ++ ['>'])))
  | array {t g g' : Text} (ht : IsSpelling false t) (hg : IsGap g) (hg' : IsGap g') :
      IsSpelling false (t ++ (g ++ '[' :: (g' ++ [']'])))
  | argument {g t g' : Text} (hg : IsGap g) (ht : IsSpelling false t) (hg' : IsGap g') :
      IsSpelling true (g ++ (t ++ g'))
  | wildcard {g g' : Text} (hg : IsGap g) (hg' : IsGap g') : IsSpelling true (g ++ '?' :: g')
  | bounded {g g' side h t h' : Text} (hg : IsGap g) (hg' : IsGap g')
      (hside : side = "extends".toList ∨ side = "super".toList) (hh : IsGap h) (hne : h ≠ [])
      (ht : IsSpelling false t) (hh' : IsGap h') :
      IsSpelling true (g ++ '?' :: (g' ++ (side ++ (h ++ (t ++ h')))))

/-- Text that leaves its surroundings in a parameter list as they are: its brackets are closed, no
comma stands outside them, and nothing in it is an annotation or the word `final`. -/
structure IsInert (s : Text) : Prop where
  balanced : Balanced s
  closed : Text.Closed ',' s
  plain : ∀ c ∈ s, c ≠ '@'
  final : "final".toList ∉ runs s

namespace IsInert

variable {s t : Text}

/-- Where one text ends or the other starts with no name character, no word comes about. -/
theorem append (hs : IsInert s) (ht : IsInert t)
    (hbreak : (∀ c ∈ s.getLast?, isSegmentChar c = false) ∨
      ∀ c ∈ t.head?, isSegmentChar c = false) :
    IsInert (s ++ t) where
  balanced := hs.balanced.append ht.balanced
  closed := hs.closed.append ht.closed
  plain c hc := (List.mem_append.mp hc).elim (hs.plain c) (ht.plain c)
  final := by
    have hsfinal := hs.final
    have htfinal := ht.final
    rcases hbreak with hlast | hhead
    · rcases List.eq_nil_or_concat s with rfl | ⟨u, c, rfl⟩
      · exact htfinal
      · have hc := hlast c (by simp)
        have hnil : runs [] = [[]] := rfl
        rw [List.concat_eq_append, runs_append_cons hc, hnil] at hsfinal
        rw [List.concat_eq_append, List.append_assoc, List.singleton_append, runs_append_cons hc]
        simp_all
    · cases t with
      | nil => simpa using hsfinal
      | cons c u =>
        have hc := hhead c rfl
        have hcut := runs_append_cons hc [] u
        rw [List.nil_append] at hcut
        rw [hcut] at htfinal
        rw [runs_append_cons hc]
        simp_all

theorem of_name (hn : IsSimpleName s) : IsInert s where
  balanced := .of_forall fun c hc => by
    have hangles : ∀ d ∈ ['<', '>'], isSegmentChar d = false := by decide
    have h := (hn.chars c hc).1
    constructor <;> rintro rfl <;> simp [hangles] at h
  closed := hn.closed
  plain c hc := (hn.chars c hc).2
  final := by
    rw [runs_of_forall fun c hc => (hn.chars c hc).1, List.mem_singleton]
    exact fun h => hn.ne_final h.symm

/-- Text without name characters is told by its visible characters. -/
theorem of_breaks (hchars : ∀ c ∈ s, isSegmentChar c = false ∧ c ≠ '@')
    (hbalanced : Balanced (Text.visible s)) (hclosed : Text.Closed ',' (Text.visible s)) :
    IsInert s where
  balanced := hbalanced.of_visible_eq (Text.visible_visible s)
  closed := hclosed.of_visible_eq (by decide) (Text.visible_visible s)
  plain c hc := (hchars c hc).2
  final := by
    have hnil : ∀ w ∈ runs s, w = [] := by
      clear hbalanced hclosed
      induction s with
      | nil => simp [runs]
      | cons c s ih =>
        intro w hw
        have hcut := runs_append_cons (hchars c (by simp)).1 [] s
        rw [List.nil_append] at hcut
        rw [hcut] at hw
        rcases List.mem_append.mp hw with hw | hw
        · simpa [runs] using hw
        · exact ih (fun d hd => hchars d (by simp [hd])) w hw
    intro hmem
    simpa using hnil _ hmem

/-- Text without name characters between two texts parts their words. -/
theorem between {m : Text} (hs : IsInert s) (hm : IsInert m) (hne : m ≠ [])
    (hbreaks : ∀ c ∈ m, isSegmentChar c = false) (ht : IsInert t) : IsInert (s ++ (m ++ t)) := by
  have hhead : ∀ c ∈ (m ++ t).head?, isSegmentChar c = false := by
    obtain ⟨c, m, rfl⟩ := List.exists_cons_of_ne_nil hne
    simpa using hbreaks c (by simp)
  exact hs.append (hm.append ht (.inl fun c hc => hbreaks c (List.mem_of_getLast? hc))) (.inr hhead)

end IsInert

theorem isSegmentChar_of_mem_gap {g : Text} (hg : IsGap g) : ∀ c ∈ g, isSegmentChar c = false :=
  fun c hc =>
  isSegmentChar_of_isSpace (hg.isSpace c hc)

/-- Symbols with gaps between them are inert when the symbols are. -/
theorem isInert_of_visible {s symbols : Text}
    (hchars : ∀ c ∈ s, Text.isBlank c = true ∨ c ∈ symbols)
    (hvisible : Text.visible s = symbols)
    (hsymbols : (∀ c ∈ symbols, isSegmentChar c = false ∧ c ≠ '@') ∧ Balanced symbols ∧
      Text.Closed ',' symbols) : IsInert s := by
  obtain ⟨hbreaks, hbalanced, hclosed⟩ := hsymbols
  refine .of_breaks (fun c hc => ?_) (hvisible ▸ hbalanced) (hvisible ▸ hclosed)
  rcases hchars c hc with hblank | hsymbol
  · refine ⟨isSegmentChar_of_isSpace (isSpace_of_isBlank hblank), ?_⟩
    rintro rfl
    exact absurd hblank (by decide)
  · exact hbreaks c hsymbol

theorem isInert_gap {g : Text} (hg : IsGap g) : IsInert g :=
  isInert_of_visible (fun c hc => .inl (hg c hc)) (Text.visible_of_isSpace hg.isSpace)
    ⟨by simp, .nil, by decide⟩

/-- A dot or a question mark with gaps around it. -/
theorem isInert_mark {g g' : Text} (hg : IsGap g) (hg' : IsGap g') {c : Char}
    (hc : c ∈ ['.', '?']) :
    IsInert (g ++ c :: g') ∧ ∀ d ∈ g ++ c :: g', isSegmentChar d = false := by
  have hspace : Text.isSpace c = false ∧ (∀ d ∈ [c], isSegmentChar d = false ∧ d ≠ '@') ∧
      Balanced [c] ∧
      Text.Closed ',' [c] := by
    simp only [List.mem_cons, List.not_mem_nil, or_false] at hc
    rcases hc with rfl | rfl <;> decide
  have hchars : ∀ d ∈ g ++ c :: g', Text.isBlank d = true ∨ d ∈ [c] := by
    intro d hd
    simp only [List.mem_append, List.mem_cons] at hd
    rcases hd with hd | rfl | hd
    · exact .inl (hg d hd)
    · exact .inr (by simp)
    · exact .inl (hg' d hd)
  refine ⟨isInert_of_visible hchars ?_ hspace.2, fun d hd => ?_⟩
  · simp [Text.visible_of_isSpace hg.isSpace, Text.visible_cons, hspace.1,
      Text.visible_of_isSpace hg'.isSpace]
  · rcases hchars d hd with hblank | hsymbol
    · exact isSegmentChar_of_isSpace (isSpace_of_isBlank hblank)
    · exact (hspace.2.1 d hsymbol).1

/-- A pair of square brackets with gaps before and inside it. -/
theorem isInert_dimension {g g' : Text} (hg : IsGap g) (hg' : IsGap g') :
    IsInert (g ++ '[' :: (g' ++ [']'])) := by
  refine isInert_of_visible (s := g ++ '[' :: (g' ++ [']'])) (fun d hd => ?_)
    (?_ : _ = "[]".toList) (by decide)
  · simp only [List.mem_append, List.mem_cons, List.not_mem_nil, or_false] at hd
    rcases hd with hd | rfl | hd | rfl
    · exact .inl (hg d hd)
    · exact .inr (by decide)
    · exact .inl (hg' d hd)
    · exact .inr (by decide)
  · have hspace : Text.isSpace '[' = false ∧ Text.isSpace ']' = false := by decide
    simp [Text.visible_of_isSpace hg.isSpace, Text.visible_cons, hspace,
      Text.visible_of_isSpace hg'.isSpace]

/-- Joined texts between angle brackets. -/
theorem isInert_angled {pieces : List Text} (h : ∀ p ∈ pieces, IsInert p) :
    IsInert ('<' :: ([','].intercalate pieces ++ ['>'])) := by
  have hjoined : Balanced ([','].intercalate pieces) ∧ (∀ c ∈ [','].intercalate pieces, c ≠ '@') ∧
      "final".toList ∉ runs ([','].intercalate pieces) := by
    induction pieces with
    | nil => exact ⟨.nil, by simp, by decide⟩
    | cons p ps ih =>
      have hp := h p (by simp)
      cases ps with
      | nil => simpa using ⟨hp.balanced, hp.plain, hp.final⟩
      | cons q qs =>
        obtain ⟨hbalanced, hplain, hfinal⟩ := ih fun r hr => h r (by simp [hr])
        have hcut : runs (p ++ ',' :: [','].intercalate (q :: qs)) =
            runs p ++ runs ([','].intercalate (q :: qs)) := runs_append_cons (by decide) _ _
        have heq : [','].intercalate (p :: q :: qs) =
            p ++ ',' :: [','].intercalate (q :: qs) := by simp
        rw [heq, hcut]
        refine ⟨hp.balanced.append (.cons (by decide) (by decide) hbalanced), ?_, ?_⟩
        · intro c hc
          rcases List.mem_append.mp hc with hc | hc
          · exact hp.plain c hc
          · rcases List.mem_cons.mp hc with rfl | hc
            · decide
            · exact hplain c hc
        · exact fun hmem => (List.mem_append.mp hmem).elim hp.final hfinal
  obtain ⟨hbalanced, hplain, hfinal⟩ := hjoined
  refine ⟨.angled hbalanced .nil, Text.closed_angled (by decide) fun p hp =>
    (h p hp).closed, ?_, ?_⟩
  · intro c hc
    simp only [List.mem_cons, List.mem_append, List.not_mem_nil, or_false] at hc
    rcases hc with rfl | hc | rfl
    · decide
    · exact hplain c hc
    · decide
  · have hnil : runs [] = [[]] := rfl
    have hopen := runs_append_cons (c := '<') (by decide) [] ([','].intercalate pieces ++ ['>'])
    rw [List.nil_append, runs_append_cons (by decide), hnil] at hopen
    rw [hopen]
    simpa using hfinal

/-- A gap and a symbol start with no name character. -/
theorem head_gap_append {g t : Text} (hg : IsGap g) {c : Char} (hc : isSegmentChar c = false) :
    ∀ d ∈ (g ++ c :: t).head?, isSegmentChar d = false := by
  cases g with
  | nil => simpa using hc
  | cons b g => simpa using isSegmentChar_of_mem_gap hg b (by simp)

theorem IsInert.padded {g s g' : Text} (hg : IsGap g) (hs : IsInert s) (hg' : IsGap g') :
    IsInert (g ++ (s ++ g')) := by
  have hhead : ∀ c ∈ g'.head?, isSegmentChar c = false := fun c hc =>
    isSegmentChar_of_mem_gap hg' c (List.mem_of_mem_head? hc)
  have hlast : ∀ c ∈ g.getLast?, isSegmentChar c = false := fun c hc =>
    isSegmentChar_of_mem_gap hg c (List.mem_of_getLast? hc)
  exact (isInert_gap hg).append (hs.append (isInert_gap hg') (.inr hhead)) (.inl hlast)

/-- What is spelled is inert. -/
theorem IsSpelling.isInert {isArgument : Bool} {s : Text} (h : IsSpelling isArgument s) :
    IsInert s := by
  induction h with
  | name hn => exact .of_name hn
  | @member t g g' n _ hg hg' hn iht =>
    obtain ⟨hdot, hbreaks⟩ := isInert_mark hg hg' (c := '.') (by simp)
    have hmember := iht.between hdot (by simp) hbreaks (.of_name hn)
    simpa using hmember
  | @generic t g arguments _ hg _ iht iharguments =>
    have hopen : isSegmentChar '<' = false := by decide
    have hangled := (isInert_gap hg).append (isInert_angled iharguments)
      (.inr (by simpa using hopen))
    exact iht.append hangled (.inr (head_gap_append hg hopen))
  | @array t g g' _ hg hg' iht =>
    exact iht.append (isInert_dimension hg hg') (.inr (head_gap_append hg (by decide)))
  | @argument g t g' hg _ hg' iht => exact .padded hg iht hg'
  | @wildcard g g' hg hg' => exact (isInert_mark hg hg' (by simp)).1
  | @bounded g g' side h t h' hg hg' hside hh hne _ hh' iht =>
    obtain ⟨hmark, hbreaks⟩ := isInert_mark hg hg' (c := '?') (by simp)
    have hname : IsSimpleName side := by
      rcases hside with rfl | rfl <;> exact ⟨by decide, by decide, by decide, by decide⟩
    have hnone : IsGap [] := by decide
    have hbound := IsInert.between (.of_name hname) (isInert_gap hh) hne
      (isSegmentChar_of_mem_gap hh)
      (.padded hnone iht hh')
    have hall := hmark.append hbound (.inl fun c hc => hbreaks c (List.mem_of_getLast? hc))
    simpa using hall

/-- A type starts and ends with a visible character. -/
theorem IsSpelling.trimmed {s : Text} (h : IsSpelling false s) : Text.Trimmed s := by
  have hname : ∀ {n : Text}, IsSimpleName n → Text.Trimmed n :=
    fun hn => .of_forall hn.ne_nil hn.isSpace
  generalize hb : false = b at h
  induction h with
  | name hn => exact hname hn
  | @member t g g' n _ hg hg' hn iht =>
    simpa using (iht hb).append (hname hn) (g ++ '.' :: g')
  | @generic t g arguments _ hg _ iht _ =>
    have hclose : Text.Trimmed ['>'] := .of_forall (by simp) (by decide)
    simpa using (iht hb).append hclose (g ++ '<' :: [','].intercalate arguments)
  | @array t g g' _ hg hg' iht =>
    have hclose : Text.Trimmed [']'] := .of_forall (by simp) (by decide)
    simpa using (iht hb).append hclose (g ++ '[' :: g')
  | argument => cases hb
  | wildcard => cases hb
  | bounded => cases hb

-- ---------------------------------------------------------------------------
-- Formal parameters
-- ---------------------------------------------------------------------------

/-- A formal parameter as it is written: blanks stand before and after it, before its dots, before
its name, and before and inside the pairs of square brackets after its name. -/
structure SpacedParameter where
  before : Text := []
  type : Text
  dots : Option Text := none
  gap : Text
  name : Text
  dims : List (Text × Text) := []
  after : Text := []

namespace SpacedParameter

def printDots (p : SpacedParameter) : Text := p.dots.elim [] (· ++ "...".toList)

def printDims (p : SpacedParameter) : Text := p.dims.flatMap fun d => d.1 ++ '[' :: (d.2 ++ [']'])

def core (p : SpacedParameter) : Text :=
  p.type ++ (p.printDots ++ (p.gap ++ (p.name ++ p.printDims)))

def print (p : SpacedParameter) : Text := p.before ++ (p.core ++ p.after)

/-- Blanks are where Java allows them: between any two tokens, and between the type and the name
when the type ends with a name itself. -/
structure WellFormed (p : SpacedParameter) : Prop where
  before : IsGap p.before
  type : IsSpelling false p.type
  dots : ∀ g ∈ p.dots, IsGap g
  gap : IsGap p.gap
  apart : p.dots = none → p.gap = [] → ∀ c ∈ p.type.getLast?, c = '>' ∨ c = ']'
  name : IsSimpleName p.name
  dims : ∀ d ∈ p.dims, IsGap d.1 ∧ IsGap d.2
  after : IsGap p.after

/-- Whether blanks stand before the name, or before dots attached to it, and none before or inside
the brackets after it. -/
def IsLegible (p : SpacedParameter) : Prop :=
  (p.gap = [] → ∃ g, p.dots = some g ∧ g ≠ []) ∧ ∀ d ∈ p.dims, d.1 = [] ∧ d.2 = []

variable {p : SpacedParameter}

theorem WellFormed.isInert_printDims (hp : p.WellFormed) :
    IsInert p.printDims ∧ ∀ c ∈ p.printDims, isSegmentChar c = false := by
  have hall : ∀ dims : List (Text × Text), (∀ d ∈ dims, IsGap d.1 ∧ IsGap d.2) →
      IsInert (dims.flatMap fun d => d.1 ++ '[' :: (d.2 ++ [']'])) ∧
        ∀ c ∈ dims.flatMap fun d => d.1 ++ '[' :: (d.2 ++ [']']), isSegmentChar c = false := by
    intro dims hdims
    induction dims with
    | nil => exact ⟨isInert_gap (by decide), by simp⟩
    | cons d dims ih =>
      obtain ⟨hbefore, hinside⟩ := hdims d (by simp)
      obtain ⟨hrest, hbreaks⟩ := ih fun e he => hdims e (by simp [he])
      refine ⟨(isInert_dimension hbefore hinside).append hrest (.inr fun c hc =>
        hbreaks c (List.mem_of_mem_head? hc)), fun c hc => ?_⟩
      have hbrackets : ∀ b ∈ ['[', ']'], isSegmentChar b = false := by decide
      simp only [List.flatMap_cons, List.mem_append, List.mem_cons, List.not_mem_nil,
        or_false] at hc
      rcases hc with (hc | rfl | hc | rfl) | hc
      · exact isSegmentChar_of_mem_gap hbefore c hc
      · exact hbrackets _ (by simp)
      · exact isSegmentChar_of_mem_gap hinside c hc
      · exact hbrackets _ (by simp)
      · exact hbreaks c hc
  exact hall p.dims hp.dims

theorem WellFormed.isInert_printDots (hp : p.WellFormed) :
    IsInert p.printDots ∧ ∀ c ∈ p.printDots, isSegmentChar c = false := by
  have hsymbols : (∀ c ∈ "...".toList, isSegmentChar c = false ∧ c ≠ '@') ∧ Balanced "...".toList ∧
      Text.Closed ',' "...".toList := by decide
  unfold printDots
  cases hdots : p.dots with
  | none => exact ⟨isInert_gap (by decide), by simp⟩
  | some g =>
    have hg := hp.dots g hdots
    have hchars : ∀ c ∈ g ++ "...".toList, Text.isBlank c = true ∨ c ∈ "...".toList := fun c hc =>
      (List.mem_append.mp hc).imp (hg c) id
    refine ⟨isInert_of_visible hchars ?_ hsymbols, fun c hc => ?_⟩
    · have hvisible : Text.visible "...".toList = "...".toList := rfl
      rw [Option.elim_some, Text.visible_append, Text.visible_of_isSpace hg.isSpace, hvisible,
        List.nil_append]
    · rcases hchars c hc with hblank | hsymbol
      · exact isSegmentChar_of_isSpace (isSpace_of_isBlank hblank)
      · exact (hsymbols.1 c hsymbol).1

theorem printDots_eq_nil_iff : p.printDots = [] ↔ p.dots = none := by
  unfold printDots
  cases p.dots <;> simp

/-- What stands before the name ends with no name character. -/
theorem WellFormed.last_front (hp : p.WellFormed) :
    ∀ c ∈ (p.type ++ (p.printDots ++ p.gap)).getLast?, isSegmentChar c = false := by
  have hbreaks : ∀ c ∈ p.printDots ++ p.gap, isSegmentChar c = false := fun c hc =>
    (List.mem_append.mp hc).elim (hp.isInert_printDots.2 c) (isSegmentChar_of_mem_gap hp.gap c)
  intro c hc
  by_cases hnil : p.printDots ++ p.gap = []
  · obtain ⟨hdots, hgap⟩ := List.append_eq_nil_iff.mp hnil
    rw [hnil, List.append_nil] at hc
    rcases hp.apart (printDots_eq_nil_iff.mp hdots) hgap c hc with rfl | rfl <;> decide
  · rw [List.getLast?_append_of_ne_nil _ hnil] at hc
    exact hbreaks c (List.mem_of_getLast? hc)

theorem WellFormed.isInert_core (hp : p.WellFormed) : IsInert p.core := by
  obtain ⟨hdots, hdotBreaks⟩ := hp.isInert_printDots
  obtain ⟨hdims, hdimBreaks⟩ := hp.isInert_printDims
  have hgapBreaks := isSegmentChar_of_mem_gap hp.gap
  have hmiddle : IsInert (p.printDots ++ p.gap) :=
    hdots.append (isInert_gap hp.gap) (.inr fun c hc => hgapBreaks c (List.mem_of_mem_head? hc))
  have hfront : IsInert (p.type ++ (p.printDots ++ p.gap)) := by
    refine hp.type.isInert.append hmiddle (.inr fun c hc => ?_)
    exact (List.mem_append.mp (List.mem_of_mem_head? hc)).elim (hdotBreaks c) (hgapBreaks c)
  have hnamed : IsInert (p.name ++ p.printDims) :=
    (IsInert.of_name hp.name).append hdims (.inr fun c hc =>
      hdimBreaks c (List.mem_of_mem_head? hc))
  have hall := hfront.append hnamed (.inl hp.last_front)
  simpa [core] using hall

theorem WellFormed.trimmed_core (hp : p.WellFormed) : Text.Trimmed p.core := by
  have hname : Text.Trimmed p.name := .of_forall hp.name.ne_nil hp.name.isSpace
  have hclose : Text.Trimmed [']'] := .of_forall (by simp) (by decide)
  have hnamed : Text.Trimmed (p.name ++ p.printDims) := by
    unfold printDims
    rcases List.eq_nil_or_concat p.dims with hdims | ⟨dims, d, hdims⟩
    · simpa [hdims] using hname
    · have h := hname.append hclose ((dims.flatMap fun d => d.1 ++ '[' :: (d.2 ++ [']'])) ++
        (d.1 ++ '[' :: d.2))
      simpa [hdims] using h
  have h := hp.type.trimmed.append hnamed (p.printDots ++ p.gap)
  simpa [core] using h

theorem WellFormed.trim_print (hp : p.WellFormed) : Text.trim p.print = p.core := by
  rw [print, Text.trim_append_of_isSpace hp.before.isSpace,
    hp.trimmed_core.trim_append hp.after.isSpace]

/-- The words of a well-formed parameter are what it says, with single spaces. -/
theorem WellFormed.parameterWords_core (hp : p.WellFormed) :
    parameterWords p.core = Text.normalizeSpaces p.core := by
  have hinert := hp.isInert_core
  refine parameterWords_eq_normalizeSpaces hinert.plain fun hmem => hinert.final ?_
  exact mem_runs_of_mem_words (by decide) hmem

theorem printDims_eq (h : ∀ d ∈ p.dims, d.1 = [] ∧ d.2 = []) :
    p.printDims = pairs p.dims.length := by
  have hall : ∀ dims : List (Text × Text), (∀ d ∈ dims, d.1 = [] ∧ d.2 = []) →
      (dims.flatMap fun d => d.1 ++ '[' :: (d.2 ++ [']'])) = pairs dims.length := by
    intro dims hdims
    induction dims with
    | nil => rfl
    | cons d dims ih =>
      obtain ⟨hbefore, hinside⟩ := hdims d (by simp)
      rw [List.flatMap_cons, ih fun e he => hdims e (by simp [he]), hbefore, hinside]
      rfl
  exact hall p.dims h

/-- A parameter is read under the name that stands last in its words. -/
theorem WellFormed.name_of_front (hp : p.WellFormed) {front : Text} (attached : Bool) (dims : Nat)
    (hfront : Balanced front) (hvisible : Text.visible front ≠ [])
    (hcore : Text.normalizeSpaces p.core =
      Text.normalizeSpaces front ++ ' ' :: (attachedDots attached ++ (p.name ++ pairs dims))) :
    (parameter? p.core).map (·.name.toList) = some p.name := by
  have hbalanced := hfront.of_visible_eq (Text.visible_normalizeSpaces front).symm
  have hne : Text.compact (Text.normalizeSpaces front) ≠ [] := by
    intro hnil
    have h := Text.visible_compact (Text.normalizeSpaces front)
    rw [hnil, Text.visible_normalizeSpaces] at h
    exact hvisible h.symm
  rw [parameter?_of_words (hp.parameterWords_core.trans hcore) hbalanced hne hp.name]
  split <;> simp

/-- A legible parameter is read under its name. -/
theorem WellFormed.name_of_isLegible (hp : p.WellFormed) (h : p.IsLegible) :
    (parameter? p.core).map (·.name.toList) = some p.name := by
  have hdims := printDims_eq h.2
  have hvisibleType : Text.visible p.type ≠ [] := by
    obtain ⟨c, cs, hc, hspace⟩ := hp.type.trimmed.head
    simp [hc, Text.visible_cons, hspace]
  have hnamed : ∀ c ∈ p.name ++ pairs p.dims.length, Text.isSpace c = false := fun c hc =>
    (List.mem_append.mp hc).elim (hp.name.isSpace c) (isSpace_of_mem_pairs c)
  by_cases hgap : p.gap = []
  · obtain ⟨g, hdots, hg⟩ := h.1 hgap
    have hcore : p.core = p.type ++ (g ++ ("...".toList ++ (p.name ++ pairs p.dims.length))) := by
      simp [core, printDots, hdots, hgap, hdims]
    refine hp.name_of_front true p.dims.length hp.type.isInert.balanced hvisibleType ?_
    rw [hcore, normalizeSpaces_append_word hvisibleType (hp.dots g hdots).isSpace hg ?_ (by simp)]
    · rfl
    · intro c hc
      rcases List.mem_append.mp hc with hc | hc
      · have hdot : ∀ d ∈ "...".toList, Text.isSpace d = false := by decide
        exact hdot c hc
      · exact hnamed c hc
  · have hcore : p.core = (p.type ++ p.printDots) ++
        (p.gap ++ (p.name ++ pairs p.dims.length)) := by
      simp [core, hdims]
    have hvisible : Text.visible (p.type ++ p.printDots) ≠ [] := by simp [hvisibleType]
    refine hp.name_of_front false p.dims.length
      (hp.type.isInert.balanced.append hp.isInert_printDots.1.balanced) hvisible ?_
    rw [hcore, normalizeSpaces_append_word hvisible hp.gap.isSpace hgap hnamed
      (by simp [hp.name.ne_nil])]
    rfl

/-- What stands before attached brackets is told by the text as a whole. -/
theorem append_pairs_inj {s t name : Text} (hname : IsSimpleName name) {m n : Nat}
    (h : s ++ (name ++ pairs m) = t ++ (name ++ pairs n)) : s = t := by
  have hlast : ∀ {u v : Text}, u ++ name ≠ v ++ ['[', ']'] := by
    intro u v heq
    have hmem := congrArg List.getLast? heq
    rw [List.getLast?_append_of_ne_nil _ hname.ne_nil,
      List.getLast?_append_of_ne_nil _ (by simp)] at hmem
    have hbracket := (hname.chars ']' (List.mem_of_getLast? hmem)).1
    exact absurd hbracket (by decide)
  have hs := splitPairs_append (s := s ++ name) (fun _ => hlast) m
  rw [List.append_assoc, h, ← List.append_assoc, splitPairs_append (fun _ => hlast) n] at hs
  have hnamed := List.reverse_injective (Prod.mk.inj hs).2
  exact (List.append_cancel_right hnamed).symm

theorem WellFormed.isSpace_nameEnd (hp : p.WellFormed) (attached : Bool) (dims : Nat) :
    ∀ c ∈ attachedDots attached ++ (p.name ++ pairs dims), Text.isSpace c = false := by
  intro c hc
  rcases List.mem_append.mp hc with hc | hc
  · exact (Text.mem_visible.mp (visible_attachedDots attached ▸ hc)).2
  · exact (List.mem_append.mp hc).elim (hp.name.isSpace c) (isSpace_of_mem_pairs c)

/-- The name under which a parameter is read, and what is attached to it, are its last word. -/
theorem WellFormed.exists_core_eq (hp : p.WellFormed) {q : Parameter}
    (h : parameter? p.core = some q)
    (hname : q.name.toList = p.name) : ∃ rest attached dims,
      p.core = rest ++ (attachedDots attached ++ (p.name ++ pairs dims)) ∧
        ∀ c ∈ rest.getLast?, Text.isSpace c = true := by
  obtain ⟨front, attached, dims, hwords, _⟩ := exists_of_parameter? h
  rw [hp.parameterWords_core, hname] at hwords
  have hlast : ∀ c ∈ p.core.getLast?, Text.isSpace c = false := by
    obtain ⟨cs, c, hcs, hc⟩ := hp.trimmed_core.last
    simpa [hcs] using hc
  have hconcat : Text.words p.core =
      Text.words front ++ [attachedDots attached ++ (p.name ++ pairs dims)] := by
    rw [← Text.words_normalizeSpaces, hwords, Text.words_append_space (by decide),
      Text.words_of_forall (by simp [hp.name.ne_nil]) (hp.isSpace_nameEnd attached dims)]
  obtain ⟨rest, hrest, hspace⟩ := Text.exists_append_of_words_concat hconcat hlast
  exact ⟨rest, attached, dims, hrest, hspace⟩

/-- Where the name and attached brackets stand last, the brackets of a parameter hold no gaps. -/
theorem WellFormed.dims_of_core_eq (hp : p.WellFormed) {rest : Text} {attached : Bool} {dims : Nat}
    (h : p.core = rest ++ (attachedDots attached ++ (p.name ++ pairs dims))) :
    ∀ d ∈ p.dims, d.1 = [] ∧ d.2 = [] := by
  have hcore : (p.type ++ (p.printDots ++ p.gap) ++ p.name) ++ p.printDims =
      rest ++ (attachedDots attached ++ (p.name ++ pairs dims)) := by
    rw [← h]
    simp [core]
  have hsolid : ∀ c ∈ p.printDims, Text.isSpace c = false := by
    rcases List.append_eq_append_iff.mp hcore with ⟨m, _, hm⟩ | ⟨m, _, hm⟩
    · obtain ⟨c, cs, hc⟩ := List.exists_cons_of_ne_nil hp.name.ne_nil
      have hbreak := hp.isInert_printDims.2 c (by simp [hm, hc])
      rw [(hp.name.chars c (by simp [hc])).1] at hbreak
      cases hbreak
    · exact fun c hc => hp.isSpace_nameEnd attached dims c (by simp [hm, hc])
  intro d hd
  have hnil : ∀ g : Text, IsGap g → (∀ c ∈ g, c ∈ p.printDims) → g = [] := by
    intro g hg hsub
    refine List.eq_nil_iff_forall_not_mem.mpr fun c hc => ?_
    have hsolid := hsolid c (hsub c hc)
    rw [hg.isSpace c hc] at hsolid
    cases hsolid
  obtain ⟨hbefore, hinside⟩ := hp.dims d hd
  exact ⟨hnil _ hbefore fun c hc => List.mem_flatMap.mpr ⟨d, hd, by simp [hc]⟩,
    hnil _ hinside fun c hc => List.mem_flatMap.mpr ⟨d, hd, by simp [hc]⟩⟩

/-- A parameter that is read under its name is legible. -/
theorem WellFormed.isLegible_of_name (hp : p.WellFormed) {q : Parameter}
    (h : parameter? p.core = some q)
    (hname : q.name.toList = p.name) : p.IsLegible := by
  obtain ⟨rest, attached, dims, hrest, hspace⟩ := hp.exists_core_eq h hname
  have hdims := hp.dims_of_core_eq hrest
  refine ⟨fun hgap => ?_, hdims⟩
  have hfront : p.type ++ p.printDots = rest ++ attachedDots attached := by
    refine append_pairs_inj hp.name (m := p.dims.length) (n := dims) ?_
    rw [List.append_assoc, List.append_assoc, ← hrest, core, hgap, printDims_eq hdims,
      List.nil_append]
  -- no space stands last in what comes before the name, so dots are attached to it
  have hrestSpace : ∀ s : Text, Text.Trimmed s → rest ≠ s := by
    rintro _ htrimmed rfl
    obtain ⟨cs, c, hcs, hc⟩ := htrimmed.last
    rw [hspace c (by simp [hcs])] at hc
    cases hc
  have hdotTrimmed : Text.Trimmed "...".toList := .of_forall (by simp) (by decide)
  cases hdots : p.dots with
  | none =>
    rw [printDots, hdots, Option.elim_none, List.append_nil] at hfront
    cases attached with
    | true =>
      rcases hp.apart hdots hgap '.' (by simp [hfront, attachedDots]) with h | h <;> simp at h
    | false =>
      exact absurd (by simpa [attachedDots] using hfront.symm) (hrestSpace _ hp.type.trimmed)
  | some g =>
    refine ⟨g, rfl, ?_⟩
    rintro rfl
    rw [printDots, hdots, Option.elim_some, List.nil_append] at hfront
    cases attached with
    | true => exact hrestSpace _ hp.type.trimmed (List.append_cancel_right hfront).symm
    | false =>
      have htrimmed := hp.type.trimmed.append hdotTrimmed []
      rw [List.append_nil, hfront] at htrimmed
      exact hrestSpace _ htrimmed (by simp [attachedDots])

theorem WellFormed.name_iff (hp : p.WellFormed) :
    (parameter? p.core).map (·.name.toList) = some p.name ↔ p.IsLegible := by
  refine ⟨fun h => ?_, hp.name_of_isLegible⟩
  obtain ⟨q, hq, hname⟩ := Option.map_eq_some_iff.mp h
  exact hp.isLegible_of_name hq hname

end SpacedParameter

/-- A list of formal parameters gives one parameter for each, in order, under its name, exactly when
they are all legible. -/
theorem parameters_spaced_iff (ps : List SpacedParameter) (hps : ∀ p ∈ ps, p.WellFormed) :
    (parameters ([','].intercalate (ps.map SpacedParameter.print))).map (·.name.toList) =
        ps.map SpacedParameter.name ↔ ∀ p ∈ ps, p.IsLegible := by
  have hclosed : ∀ s ∈ ps.map SpacedParameter.print, Text.Closed ',' s := by
    intro s hs
    obtain ⟨p, hp, rfl⟩ := List.mem_map.mp hs
    exact (IsInert.padded (hps p hp).before (hps p hp).isInert_core (hps p hp).after).closed
  rw [parameters_intercalate hclosed, List.map_filterMap, List.filterMap_map,
    List.filterMap_eq_map_iff_forall_eq_some]
  refine forall_congr' fun p => forall_congr' fun hp => ?_
  rw [Function.comp_apply, (hps p hp).trim_print]
  exact (hps p hp).name_iff

/-- A list of names, and words after dots that stand between type and name without white space. -/
def looseParameters : List SpacedParameter :=
  [{ type := "List<String>".toList, gap := " ".toList, name := "names".toList },
    { type := "int".toList, dots := some [], gap := [], name := "words".toList }]

/-- The words are lost. -/
theorem parameters_spaced_iff_looseParameters :
    (parameters ([','].intercalate (looseParameters.map SpacedParameter.print))).map
      (·.name.toList) ≠
      ["names".toList, "words".toList] := by
  have hname : ∀ n ∈ ["List", "String", "int", "names", "words"], IsSimpleName n.toList := by
    intro n hn
    simp only [List.mem_cons, List.not_mem_nil, or_false] at hn
    rcases hn with rfl | rfl | rfl | rfl | rfl
        <;> exact ⟨by decide, by decide, by decide, by decide⟩
  have hgap : IsGap [] := by decide
  have harguments : ∀ a ∈ ["String".toList], IsSpelling true a := fun a ha => by
    obtain rfl := List.mem_singleton.mp ha
    exact .argument hgap (.name (hname "String" (by simp))) hgap
  have hlist := IsSpelling.generic (.name (hname "List" (by simp))) hgap harguments
  have hall : ∀ p ∈ looseParameters, p.WellFormed := by
    intro p hp
    simp only [looseParameters, List.mem_cons, List.not_mem_nil, or_false] at hp
    rcases hp with rfl | rfl
    · exact ⟨hgap, hlist, nofun, by decide, by decide, hname _ (by simp), nofun, hgap⟩
    · exact ⟨hgap, .name (hname "int" (by simp)), by rintro _ ⟨⟩; exact hgap, hgap, nofun,
        hname _ (by simp), nofun, hgap⟩
  intro heq
  have hlegible := (parameters_spaced_iff looseParameters hall).mp heq
  obtain ⟨g, hg, hne⟩ := (hlegible _ (List.mem_cons_of_mem _ List.mem_cons_self)).1 rfl
  exact hne (Option.some.inj hg).symm

end Typings.Source
