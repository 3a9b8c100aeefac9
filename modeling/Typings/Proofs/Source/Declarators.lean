import Typings.Proofs.Source.MaskedParts
import Typings.Proofs.Source.Noninterference
import Typings.Proofs.Source.PrintedMembers
import Typings.Proofs.Source.WrittenTypes

/-!
# Variables in patterns

A field starts with a type and a name, and white space between them. Where a declaration goes on
after its first variable, no two names have white space alone between them, so a search for fields
finds the declaration once. Main statements: `takes_field_of_mem` and `Unpaired.fails_field`.
-/

namespace Typings.Source

open Declaration Pattern Computability

-- ---------------------------------------------------------------------------
-- Texts without a type and a name
-- ---------------------------------------------------------------------------

/-- Characters that a type may end with. -/
def isTypeLast (c : Char) : Bool := isBaseChar c || c = '>' || c = ']'

/-- Whether nowhere in a text a type may end, white space follow it and then a name. -/
def Unpaired (s : Text) : Prop :=
  ∀ u c sp d t, s = u ++ c :: (sp ++ d :: t) → isTypeLast c = true → sp ≠ [] →
    (∀ e ∈ sp, Text.isSpace e = true) → isBaseChar d = false

theorem exists_last_of_mem_typeText {s : Text} (hs : s ∈ typeText.language) :
    ∃ u c, s = u ++ [c] ∧ isTypeLast c = true := by
  obtain ⟨base, args, rounds, rfl, hparts⟩ := mem_typeText_iff.mp hs
  rcases List.eq_nil_or_concat rounds with rfl | ⟨rounds, round, rfl⟩
  · rcases hparts.args with rfl | ⟨sp, inner, _, _, rfl⟩
    · obtain ⟨u, c, rfl⟩ := (List.eq_nil_or_concat base).resolve_left hparts.base_ne
      exact ⟨u, c, by simp, by simp [isTypeLast, hparts.base_chars c (by simp)]⟩
    · exact ⟨base ++ (sp ++ '<' :: inner), '>', by simp, by decide⟩
  · obtain ⟨sp, inner, _, _, rfl⟩ := hparts.rounds round (by simp)
    exact ⟨base ++ (args ++ (rounds.flatten ++ (sp ++ '[' :: inner))), ']', by simp, by decide⟩

theorem isSpace_of_isTypeLast {c : Char} (h : isTypeLast c = true) : Text.isSpace c = false := by
  simp only [isTypeLast, Bool.or_eq_true, decide_eq_true_eq] at h
  rcases h with (h | rfl) | rfl
  · exact isSpace_of_isBaseChar h
  · decide
  · decide

theorem isBaseChar_of_isNameChar {c : Char} (h : isNameChar c = true) : isBaseChar c = true := by
  simp_all [isNameChar, isBaseChar]

theorem isNameChar_of_isSpace {c : Char} (h : Text.isSpace c = true) : isNameChar c = false := by
  have hbase := isBaseChar_of_isSpace h
  exact Bool.eq_false_iff.mpr fun hname => by simp [isBaseChar_of_isNameChar hname] at hbase

/-- The first character of a name may stand anywhere in one. -/
theorem isNameChar_of_mem_identifier {n : Text} (hn : n ∈ identifier.language) :
    ∀ c ∈ n, isNameChar c = true := by
  obtain ⟨c, cs, rfl, hc, hcs⟩ := mem_language_identifier.mp hn
  intro d hd
  rcases List.mem_cons.mp hd with rfl | hd
  · simp only [Bool.or_eq_true, decide_eq_true_eq] at hc
    rcases hc with (hc | rfl) | rfl
    · have hplain : isPlainChar d = true := by simp [isPlainChar, Char.isAlphanum, hc]
      simp [isNameChar, isWordChar_of_isPlainChar hplain]
    · decide
    · decide
  · exact hcs d hd

theorem ne_nil_of_mem_identifier {n : Text} (hn : n ∈ identifier.language) : n ≠ [] := by
  obtain ⟨c, cs, rfl, _⟩ := mem_language_identifier.mp hn
  simp

namespace Unpaired

variable {s t : Text}

theorem of_append (h : Unpaired (s ++ t)) : Unpaired t := by
  intro u c sp d v heq
  exact h (s ++ u) c sp d v (by rw [heq, List.append_assoc])

/-- A text without white space. -/
theorem of_not_isSpace (h : ∀ c ∈ s, Text.isSpace c = false) : Unpaired s := by
  rintro u c sp d t rfl _ hne hsp
  obtain ⟨e, es, rfl⟩ := List.exists_cons_of_ne_nil hne
  have := h e (by simp)
  have := hsp e (by simp)
  simp_all

theorem append_spaces (hs : Unpaired s) {sp : Text} (hsp : ∀ c ∈ sp, Text.isSpace c = true) :
    Unpaired (s ++ sp) := by
  intro u c gap d t heq hc hne hgap
  have hsplit : s ++ sp = (u ++ c :: gap ++ [d]) ++ t := by simp [heq]
  rcases List.append_eq_append_iff.mp hsplit with ⟨m, hm, rfl⟩ | ⟨m, rfl, _⟩
  · -- The text may end behind the second character; else that character is white space itself.
    rcases List.eq_nil_or_concat m with rfl | ⟨m, e, rfl⟩
    · exact hs u c gap d [] (by simpa using hm.symm) hc hne hgap
    · rw [List.concat_eq_append, ← List.append_assoc] at hm
      obtain rfl : d = e := List.singleton_inj.mp (List.append_inj' hm rfl).2
      exact isBaseChar_of_isSpace (hsp d (by simp))
  · exact hs u c gap d m (by simp) hc hne hgap

theorem of_isSpace (h : ∀ c ∈ s, Text.isSpace c = true) : Unpaired s := by
  have hnil : Unpaired [] := of_not_isSpace nofun
  simpa using hnil.append_spaces h

theorem spaces_append (hs : Unpaired s) {sp : Text} (hsp : ∀ c ∈ sp, Text.isSpace c = true) :
    Unpaired (sp ++ s) := by
  intro u c gap d t heq hc
  have hnot : c ∉ sp := fun hmem => by
    have := hsp c hmem
    have := isSpace_of_isTypeLast hc
    simp_all
  obtain ⟨m, rfl, rfl⟩ := exists_append_of_not_mem hnot heq
  exact hs m c gap d t rfl hc

/-- A character that neither ends a type nor starts a name keeps two texts apart. -/
theorem append_cons (hs : Unpaired s) (ht : Unpaired t) {k : Char} (hspace : Text.isSpace k = false)
    (hk : isTypeLast k = false) : Unpaired (s ++ k :: t) := by
  intro u c sp d v heq hc hne hsp
  by_cases hd : d = k
  · have hbase : isBaseChar k = false := by
      simp only [isTypeLast, Bool.or_eq_false_iff] at hk
      exact hk.1.1
    exact hd ▸ hbase
  · have hnot : k ∉ c :: (sp ++ [d]) := by
      simp only [List.mem_cons, List.mem_append, List.not_mem_nil, or_false]
      rintro (rfl | hmem | rfl)
      · simp_all
      · simp_all
      · exact hd rfl
    have hsplit : s ++ k :: t = u ++ (c :: (sp ++ [d]) ++ v) := by simp [heq]
    rcases List.append_eq_append_iff.mp hsplit with ⟨m, rfl, hm⟩ | ⟨m, rfl, hm⟩
    · cases m with
      | nil =>
        obtain ⟨rfl, _⟩ := List.cons.inj hm
        exact absurd (by simp) hnot
      | cons e m =>
        obtain ⟨_, rfl⟩ := List.cons.inj hm
        exact ht m c sp d v (by simp) hc hne hsp
    · obtain ⟨m, rfl, _⟩ := exists_append_of_not_mem hnot hm
      exact hs u c sp d m (by simp) hc hne hsp

end Unpaired

-- ---------------------------------------------------------------------------
-- No further field
-- ---------------------------------------------------------------------------

/-- The pattern of a field from its type on. -/
def fieldRest : Shape :=
  .group .fieldType typeText ++ someSpaces ++
    .group .name identifier ++ spaces ++ dimensions ++ .oneOf ["=", ";", ","]

theorem field_run (next : Goal Part) (r : Place) :
    field.run next r = (fieldFront ++ (.star (keyword storage) ++ fieldRest)).run next r := rfl

namespace Unpaired

variable {s : Text}

theorem fails_fieldRest (h : Unpaired s) (b : Option Char) : fieldRest.Fails b s := by
  have hname : (.group .fieldType typeText ++ someSpaces ++ .group .name identifier :
      Shape).Fails b s := by
    refine fails_of_language fun w hw t hs => ?_
    obtain ⟨v, hv, name, hname, rfl⟩ := mem_language_seq.mp hw
    obtain ⟨type, htype, sp, hsp, rfl⟩ := mem_language_seq.mp hv
    obtain ⟨u, c, rfl, hc⟩ := exists_last_of_mem_typeText htype
    obtain ⟨hne, hspace⟩ := mem_language_plus_char.mp hsp
    obtain ⟨d, ds, rfl⟩ := List.exists_cons_of_ne_nil (ne_nil_of_mem_identifier hname)
    have hd := isBaseChar_of_isNameChar (isNameChar_of_mem_identifier hname d (by simp))
    rw [h u c sp d (ds ++ t) (by simp [hs]) hc hne hspace] at hd
    cases hd
  exact hname.seq.seq.seq

/-- No field starts in a text without a type and a name. -/
theorem fails_field (h : Unpaired s) (b : Option Char) : field.Fails b s := by
  intro pos next
  rw [field_run]
  refine fails_seq_of_language (fun u _ t hut => ?_) pos next
  refine fails_seq_of_language fun v _ t' hvt => ?_
  refine Unpaired.fails_fieldRest (of_append (s := u ++ v) ?_) _
  rw [List.append_assoc, ← hvt, ← hut]
  exact h

theorem field_matchesFrom (h : Unpaired s) (b : Option Char) (pos : Nat) :
    field.matchesFrom b pos s = [] := by
  have hnone := @matchesFrom_append _ field b pos s [] fun u v huv _ => by
    rw [List.append_nil]
    exact (of_append (huv ▸ h)).fails_field _
  rwa [List.append_nil] at hnone

end Unpaired

-- ---------------------------------------------------------------------------
-- Variables
-- ---------------------------------------------------------------------------

/-- What a variable is set to. -/
inductive Initializer where
  /-- A number or another word. -/
  | plain (text : Text)
  /-- A string or character literal. -/
  | quoted (text : Text)
deriving Repr, DecidableEq, Inhabited

namespace Initializer

def text : Initializer → Text
  | .plain s => s
  | .quoted s => s

/-- What masking shows. -/
def view : Initializer → Text
  | .plain s => s
  | .quoted s => Text.blankAll s

def isQuoted : Initializer → Bool
  | .plain _ => false
  | .quoted _ => true

def WellFormed : Initializer → Prop
  | .plain s => s ≠ [] ∧ ∀ c ∈ s, isPlainChar c = true
  | .quoted s => IsQuoted s

end Initializer

/-- A variable of a field declaration. -/
structure Variable where
  name : Text
  /-- White space before the square brackets. -/
  gap : Text := []
  /-- How many pairs of square brackets stand after the name. -/
  dimensions : Nat := 0
  initializer : Option Initializer := none
deriving Repr, DecidableEq, Inhabited

namespace Variable

def brackets (v : Variable) : Text :=
  match v.dimensions with
  | 0 => []
  | n + 1 => v.gap ++ pairs (n + 1)

structure WellFormed (v : Variable) : Prop where
  name : v.name ∈ identifier.language
  gap : ∀ c ∈ v.gap, Text.isSpace c = true
  initializer : ∀ e ∈ v.initializer, e.WellFormed

end Variable

/-- The pattern of a variable. -/
def variableShape : Shape := .group .name identifier ++ (spaces ++ dimensions)

/-- What a match remembers of a variable. -/
structure VariableMarks (marks : List (Mark Part)) (v : Variable) : Prop where
  name : ∀ whole, Match.text ⟨whole, marks⟩ .name = v.name
  dimensions : ∀ whole, (Match.text ⟨whole, marks⟩ .dimensions).count '[' = v.dimensions

theorem count_pairs (n : Nat) : (pairs n).count '[' = n := by
  induction n with
  | zero => rfl
  | succ n ih => simpa [pairs, List.replicate_succ] using ih

section Taking

variable {b : Option Char} {pos : Nat} {sp t : Text}

/-- Pairs of square brackets and the white space after them. -/
theorem takes_squarePairs (n : Nat) (hsp : ∀ c ∈ sp, Text.isSpace c = true)
    (ht : ∀ c ∈ t.head?, Text.isSpace c = false ∧ c ≠ '[') :
    (Pattern.star (squarePair ++ spaces)).Takes b pos (pairs (n + 1) ++ sp) t [] := by
  induction n generalizing b pos with
  | zero =>
    have hspaces : ∀ b pos, spaces.Takes b pos sp t [] := fun _ _ =>
      takes_star_char hsp fun c hc => (ht c hc).1
    have hround := (@takes_squarePair b pos (sp ++ t)).seq (hspaces _ _)
    have hend : ∀ b pos, (Pattern.star (squarePair ++ spaces)).Takes b pos [] t [] := fun _ _ =>
      takes_star_of_fails (fails_squarePair fun c hc => (ht c hc).2).seq
    have h := Takes.round (v := []) hround (by simp) (hend _ _)
    simpa [pairs] using h
  | succ n ih =>
    have hopen : ∀ c ∈ (pairs (n + 1) ++ sp ++ t).head?, Text.isSpace c = false := by
      have hspace : Text.isSpace '[' = false := by decide
      simpa [pairs, List.replicate_succ] using hspace
    have hround := (@takes_squarePair b pos (pairs (n + 1) ++ sp ++ t)).andThen
      (takes_spaces_nil hopen) rfl
    have h := hround.round (by simp) ih
    exact h.congr (by simp [pairs, List.replicate_succ]) rfl

/-- The brackets of a variable are taken with the white space after them. -/
theorem takes_brackets {v : Variable} (hv : v.WellFormed) (hsp : ∀ c ∈ sp, Text.isSpace c = true)
    (ht : ∀ c ∈ t.head?, Text.isSpace c = false ∧ c ≠ '[') :
    ∃ p s, (spaces ++ dimensions).Takes b pos (v.brackets ++ sp) t
      (Match.captured .dimensions p s t) ∧
      s.count '[' = v.dimensions := by
  unfold Variable.brackets
  cases v.dimensions with
  | zero =>
    have hspaces : spaces.Takes b pos sp t [] := takes_star_char hsp fun c hc => (ht c hc).1
    have hnone : ∀ b pos, (Pattern.star (squarePair ++ spaces)).Takes b pos [] t [] := fun _ _ =>
      takes_star_of_fails (fails_squarePair fun c hc => (ht c hc).2).seq
    have h := hspaces.andThen ((hnone _ _).captured .dimensions) rfl
    exact ⟨_, [], h.congr (by simp) rfl, rfl⟩
  | succ n =>
    have hopen : ∀ c ∈ (pairs (n + 1) ++ sp ++ t).head?, Text.isSpace c = false := by
      have hspace : Text.isSpace '[' = false := by decide
      simpa [pairs, List.replicate_succ] using hspace
    have hspaces : spaces.Takes b pos v.gap (pairs (n + 1) ++ sp ++ t) [] :=
      takes_star_char hv.gap hopen
    have h := hspaces.andThen ((takes_squarePairs n hsp ht).captured .dimensions) rfl
    refine ⟨_, pairs (n + 1) ++ sp, h.congr (by simp) rfl, ?_⟩
    have hnone : sp.count '[' = 0 := List.count_eq_zero.mpr fun hmem =>
      absurd (hsp _ hmem) (by decide)
    rw [List.count_append, count_pairs, hnone]

/-- A variable is taken with the white space after it. -/
theorem takes_variable {v : Variable} (hv : v.WellFormed) (hsp : ∀ c ∈ sp, Text.isSpace c = true)
    (ht : ∀ c ∈ t.head?, Text.isSpace c = false ∧ c ≠ '[' ∧ isNameChar c = false) :
    ∃ marks, variableShape.Takes b pos (v.name ++ (v.brackets ++ sp)) t marks ∧
      VariableMarks marks v ∧ ∀ whole, Match.get? ⟨whole, marks⟩ .doc = none := by
  have hafter : ∀ c ∈ (v.brackets ++ sp ++ t).head?, isNameChar c = false := by
    have hsquare : isNameChar '[' = false := by decide
    have hspaces : ∀ {sp u : Text}, (∀ c ∈ sp, Text.isSpace c = true) →
        (∀ c ∈ u.head?, isNameChar c = false) → ∀ c ∈ (sp ++ u).head?, isNameChar c = false := by
      intro sp u hsp hu
      cases sp with
      | nil => exact hu
      | cons d sp => exact Text.forall_head (isNameChar_of_isSpace (hsp d (by simp))) _
    unfold Variable.brackets
    cases v.dimensions with
    | zero => exact hspaces hsp fun c hc => (ht c hc).2.2
    | succ n =>
      rw [List.append_assoc, List.append_assoc]
      exact hspaces hv.gap (Text.forall_head hsquare _)
  have hname : identifier.Takes b pos v.name (v.brackets ++ sp ++ t) [] :=
    takes_identifier_of_mem hv.name hafter
  obtain ⟨p, s, hbrackets, hcount⟩ := @takes_brackets (Text.lastOr b v.name)
    (pos + Text.byteLength v.name) sp t v hv hsp fun c hc => ⟨(ht c hc).1, (ht c hc).2.1⟩
  refine ⟨_, (hname.captured .name).seq hbrackets, ⟨?_, ?_⟩, ?_⟩
  · simp
  · simp [Match.text_captured_of_ne, hcount]
  · simp [Match.get?_captured_of_ne, Match.get?_captured_nil_of_ne]

end Taking

-- ---------------------------------------------------------------------------
-- Declarations
-- ---------------------------------------------------------------------------

/-- A text that the pattern for fields takes for a type: masking shows it as it is written, and it
is no word of a statement. -/
structure IsFieldType (s : Text) : Prop where
  written : s ∈ typeText.language
  whole : Whole s
  shown : (mask s).text = s
  notStatement : Text.compact s ∉ statementWords

/-- A field declaration with a visibility, on a line of its own after its documentation. -/
structure VariableDeclaration where
  doc : Option Text := none
  type : Text
  first : Variable
  more : List Variable := []
deriving Repr, DecidableEq, Inhabited

namespace VariableDeclaration

/-- The variables in the order in which they are declared. -/
def all (d : VariableDeclaration) : List Variable := d.first :: d.more

def docLine (d : VariableDeclaration) : Text :=
  match d.doc with
  | some doc => doc ++ ['\n']
  | none => []

structure WellFormed (d : VariableDeclaration) : Prop where
  doc : ∀ doc ∈ d.doc, IsDoc doc
  type : IsFieldType d.type
  all : ∀ v ∈ d.all, v.WellFormed

theorem WellFormed.first {d : VariableDeclaration} (hd : d.WellFormed) : d.first.WellFormed :=
  hd.all d.first (by simp [VariableDeclaration.all])

theorem WellFormed.more {d : VariableDeclaration} (hd : d.WellFormed) :
    ∀ v ∈ d.more, v.WellFormed :=
  fun v hv => hd.all v (by simp [VariableDeclaration.all, hv])

/-- What the pattern for documentation remembers of a declaration before the text `t`. -/
def docMarks (d : VariableDeclaration) (pos : Nat) (t : Text) : List (Mark Part) :=
  match d.doc with
  | some doc => Match.captured .doc pos (doc ++ ['\n']) t
  | none => []

variable {d : VariableDeclaration} {pos : Nat} {t : Text} {whole : Capture}
  {marks : List (Mark Part)}

theorem text_docMarks {g : Part} (hg : g ≠ .doc) :
    Match.text ⟨whole, d.docMarks pos t ++ marks⟩ g = Match.text ⟨whole, marks⟩ g := by
  unfold docMarks
  cases d.doc with
  | none => rfl
  | some doc => exact Match.text_captured_of_ne hg.symm

theorem get?_docMarks (h : Match.get? ⟨whole, marks⟩ .doc = none) :
    (Match.get? ⟨whole, d.docMarks pos t ++ marks⟩ .doc).map Capture.text =
      d.doc.map (· ++ ['\n']) := by
  unfold docMarks
  cases d.doc with
  | none => simp [h]
  | some doc => rw [Match.get?_captured, Option.map_some, Capture.text_append, Option.map_some]

end VariableDeclaration

/-- What the pattern for fields remembers of a declaration. -/
structure DeclarationMarks (marks : List (Mark Part)) (d : VariableDeclaration) : Prop
    extends VariableMarks marks d.first where
  fieldType : ∀ whole, Match.text ⟨whole, marks⟩ .fieldType = d.type
  doc : ∀ whole, (Match.get? ⟨whole, marks⟩ .doc).map Capture.text = d.doc.map (· ++ ['\n'])

/-- A keyword before the type, and the white space after it. -/
theorem exists_storage_of_mem {s : Text} (hs : s ∈ (keyword storage).language) :
    ∃ w sp, s = w ++ sp ∧ w ≠ [] ∧ (∀ c ∈ w, isBaseChar c = true) ∧ sp ≠ [] ∧
      ∀ c ∈ sp, Text.isSpace c = true := by
  have hstorage : ∀ w ∈ storage, w.toList ≠ [] ∧ ∀ c ∈ w.toList, isBaseChar c = true := by decide
  obtain ⟨_, hword, sp, hsp, rfl⟩ := mem_language_seq.mp hs
  obtain ⟨w, hw, rfl⟩ := mem_language_oneOf.mp hword
  obtain ⟨hne, hspace⟩ := mem_language_plus_char.mp hsp
  exact ⟨w.toList, sp, rfl, (hstorage w hw).1, (hstorage w hw).2, hne, hspace⟩

/-- Once a type is taken for a keyword before it, no field is found. -/
theorem fails_after_storage {b : Option Char} {s u v t : Text} (hs : s ∈ typeText.language)
    (ht : Unpaired t)
    (hu : u ∈ (Pattern.star (keyword storage) : Shape).language) (hne : u ≠ [])
    (heq : s ++ ' ' :: t = u ++ v) : fieldRest.Fails b v := by
  obtain ⟨first, others, rfl, hfirst, hothers⟩ := exists_round_of_mem_language_star hu hne
  obtain ⟨base, args, rounds, rfl, hparts⟩ := mem_typeText_iff.mp hs
  obtain ⟨w, sp, rfl, _, hw, hspne, hsp⟩ := exists_storage_of_mem hfirst
  have hblank : ∀ e ∈ [' '], Text.isSpace e = true := by decide
  have hafter : ∀ e ∈ (sp ++ (others.flatten ++ v)).head?, isBaseChar e = false := by
    obtain ⟨e, sp, rfl⟩ := List.exists_cons_of_ne_nil hspne
    exact Text.forall_head (isBaseChar_of_isSpace (hsp e (by simp))) _
  -- The keyword is the name of the type, and white space follows.
  obtain ⟨_, hrest⟩ := append_inj_of_forall (p := isBaseChar) hparts.base_chars hw
    (hparts.head_afterBase (t := t) (by simp) hblank) hafter (by simpa using heq)
  rcases hparts.eq_nil_or_bracket with hnil | ⟨before, k, more, hbefore, hk, hbracket⟩
  · obtain ⟨e, sp, rfl⟩ := List.exists_cons_of_ne_nil hspne
    rw [← List.append_assoc, hnil] at hrest
    obtain ⟨_, rfl⟩ := List.cons.inj hrest
    have hv : Unpaired ((sp ++ others.flatten) ++ v) := by
      rw [List.append_assoc]
      exact ht
    exact hv.of_append.fails_fieldRest b
  · rw [← List.append_assoc, hbracket, List.append_assoc] at hrest
    have hnot : k ∉ sp := fun hmem => by
      have := hsp k hmem
      rcases hk with rfl | rfl <;> exact absurd this (by decide)
    obtain ⟨m, rfl, hm⟩ := exists_append_of_not_mem hnot hrest.symm
    have hhead : ∀ e ∈ (others.flatten ++ v).head?, isBaseChar e = false := by
      rw [hm]
      cases m with
      | nil =>
        have hbase : isBaseChar k = false := by rcases hk with rfl | rfl <;> decide
        exact Text.forall_head hbase _
      | cons e m => exact Text.forall_head (isBaseChar_of_isSpace (hbefore e (by simp))) _
    cases others with
    | nil => exact (((fails_typeText hhead).group _).seq).seq.seq.seq.seq
    | cons second others =>
      exfalso
      obtain ⟨w', sp', rfl, hne', hw', _⟩ := exists_storage_of_mem (hothers second (by simp))
      obtain ⟨e, w', rfl⟩ := List.exists_cons_of_ne_nil hne'
      have hbase := hw' e (by simp)
      rw [hhead e (by simp)] at hbase
      cases hbase

section Declaration

variable {d : VariableDeclaration} (hd : d.WellFormed) {b : Option Char} {pos : Nat}

include hd

/-- The documentation of a declaration is taken with the end of its line. -/
theorem takes_docLine {t : Text} (ht : ∀ c ∈ t.head?, Text.isSpace c = false ∧ c ≠ '/' ∧ c ≠ '@') :
    opening.Takes b pos d.docLine t (d.docMarks pos t) := by
  unfold VariableDeclaration.docLine VariableDeclaration.docMarks
  cases hdoc : d.doc with
  | none => exact takes_opening fun c hc => (ht c hc).2
  | some doc =>
    have hspaces : ∀ b pos, spaces.Takes b pos ['\n'] t [] := fun _ _ =>
      takes_star_char (by decide) fun c hc => (ht c hc).1
    have hcomment : docComment.Takes b pos (doc ++ ['\n']) t [] := by
      intro next f hf
      have hrun := (hd.doc doc hdoc).docComment_run next b pos (['\n'] ++ t)
      rw [List.append_assoc, hrun]
      refine hspaces _ _ next f ?_
      simpa [Nat.add_assoc] using hf
    have hnone : ∀ b pos, (Pattern.star annotationUse).Takes b pos [] t [] := fun _ _ =>
      takes_star_of_fails (fails_annotationUse fun c hc => (ht c hc).2.2)
    exact (((hcomment.captured .doc).opt).andThen (hnone _ _) rfl).congr (by simp) (by simp)

/-- A field goes on from its type to the character after its first variable. -/
theorem takes_fieldRest {sp t u rest : Text} {c : Char} (hsp : ∀ e ∈ sp, Text.isSpace e = true)
    (hc : c ∈ ['=', ';', ',']) (hu : '>' ∉ u)
    (hsplit : d.first.name ++ (d.first.brackets ++ (sp ++ c :: t)) = u ++ ';' :: rest) :
    ∃ q more, fieldRest.Takes b pos
        (d.type ++ ' ' :: (d.first.name ++ (d.first.brackets ++ (sp ++ [c])))) t
        (Match.captured .fieldType pos d.type q ++ more) ∧
      VariableMarks more d.first ∧ ∀ whole, Match.get? ⟨whole, more⟩ .doc = none := by
  have hblank : ∀ e ∈ [' '], Text.isSpace e = true := by decide
  have hends : Text.isSpace c = false ∧ c ≠ '[' ∧ isNameChar c = false := by
    have hall : ∀ c ∈ ['=', ';', ','], Text.isSpace c = false ∧ c ≠ '[' ∧ isNameChar c = false := by
      decide
    exact hall c hc
  obtain ⟨e, es, hname, he, _⟩ := mem_language_identifier.mp hd.first.name
  have hhead : ∀ f ∈ (u ++ ';' :: rest).head?, isNameChar f = true := by
    rw [← hsplit, hname]
    exact Text.forall_head (isNameChar_of_mem_identifier hd.first.name e (by simp [hname])) _
  have hspace : ∀ f ∈ (u ++ ';' :: rest).head?, Text.isSpace f = false := fun f hf =>
    isSpace_of_isBaseChar (isBaseChar_of_isNameChar (hhead f hf))
  have htype : typeText.Takes b pos d.type ([' '] ++ (u ++ ';' :: rest)) [] := by
    refine takes_typeText_of_mem hd.type.written (by simp) hblank (fun f hf => ⟨hspace f hf, ?_⟩)
      (fun f hf => fun h => hu (h ▸ hf)) (by decide)
    have hne := fun {k} => @ne_of_isBaseChar f k (isBaseChar_of_isNameChar (hhead f hf))
    exact ⟨hne (by decide), hne (by decide)⟩
  rw [← hsplit] at htype hspace
  obtain ⟨more, hvariable, hmore⟩ := @takes_variable (Text.lastOr b (d.type ++ [' ']))
    (pos + Text.byteLength (d.type ++ [' '])) sp (c :: t) d.first hd.first hsp
      (Text.forall_head hends t)
  have hend : ∀ b pos, (Pattern.oneOf ["=", ";", ","]).Takes b pos [c] t
      ([] : List (Mark Part)) := by
    intro b pos
    simp only [List.mem_cons, List.not_mem_nil, or_false] at hc
    rcases hc with rfl | rfl | rfl
    · exact takes_oneOf_of_head (by simp : "=" ∈ _) rfl (by decide)
    · exact takes_oneOf_of_head (by simp : ";" ∈ _) rfl (by decide)
    · exact takes_oneOf_of_head (by simp : "," ∈ _) rfl (by decide)
  have h := ((htype.captured .fieldType).andThen (takes_someSpaces hspace) rfl).andThen
    (hvariable.andThen (hend _ _) rfl) (by simp)
  simp only [List.append_nil, List.append_assoc, List.singleton_append] at h
  exact ⟨_, more, fun next f hf => h next f hf, hmore⟩

/-- A declaration is taken up to the character after its first variable. -/
theorem takes_field_of_mem (hb : ∀ e ∈ b, Text.isWordChar e = false) {sp t u rest : Text} {c : Char}
    (hsp : ∀ e ∈ sp, Text.isSpace e = true) (hc : c ∈ ['=', ';', ',']) (hu : '>' ∉ u)
    (hsplit : d.first.name ++ (d.first.brackets ++ (sp ++ c :: t)) = u ++ ';' :: rest)
    (hunpaired : Unpaired (u ++ ';' :: rest)) :
    ∃ marks, field.Takes b pos (d.docLine ++ ("public ".toList ++
        (d.type ++ ' ' :: (d.first.name ++ (d.first.brackets ++ (sp ++ [c])))))) t marks ∧
      DeclarationMarks marks d := by
  obtain ⟨q, more, hrest, hmore, hnone⟩ := @takes_fieldRest d hd
    (Text.lastOr b (d.docLine ++ "public ".toList))
      (pos + Text.byteLength (d.docLine ++ "public ".toList)) sp t u rest c hsp hc hu hsplit
  have hlast : ∀ e ∈ Text.lastOr b d.docLine, Text.isWordChar e = false := by
    unfold VariableDeclaration.docLine
    cases d.doc with
    | none => exact hb
    | some doc =>
      have hnewline : Text.isWordChar '\n' = false := by decide
      simpa using hnewline
  have hspace :
      ∀ e ∈ (d.type ++ ' ' :: (d.first.name ++ (d.first.brackets ++ (sp ++ c :: t)))).head?,
      Text.isSpace e = false := by
    obtain ⟨base, args, rounds, htype, hparts⟩ := mem_typeText_iff.mp hd.type.written
    obtain ⟨e, es, rfl⟩ := List.exists_cons_of_ne_nil hparts.base_ne
    rw [htype]
    exact Text.forall_head (isSpace_of_isBaseChar (hparts.base_chars e (by simp))) _
  have hopening : opening.Takes b pos d.docLine ("public".toList ++ ' ' ::
      (d.type ++ ' ' :: (d.first.name ++ (d.first.brackets ++ (sp ++ c :: t)))))
        (d.docMarks pos _) :=
    takes_docLine hd (Text.forall_head (by decide) _)
  have hfront := takes_fieldFront hopening hlast hspace
  have hstar := hrest.star_nil (p := keyword storage) fun w hw hne v heq =>
    fails_after_storage hd.type.written (hsplit ▸ hunpaired) hw hne (by simpa using heq)
  have h := (hfront.andThen hstar (by simp)).congr (List.append_assoc _ _ _) rfl
  simp only [List.append_assoc] at h
  refine ⟨_, fun next f hf => h next f hf, ⟨fun whole => ?_, fun whole => ?_⟩, fun whole => ?_,
    fun whole => ?_⟩
  · rw [VariableDeclaration.text_docMarks (by decide), Match.text_captured_of_ne (by decide),
      Match.text_captured_of_ne (by decide), hmore.name]
  · rw [VariableDeclaration.text_docMarks (by decide), Match.text_captured_of_ne (by decide),
      Match.text_captured_of_ne (by decide), hmore.dimensions]
  · rw [VariableDeclaration.text_docMarks (by decide), Match.text_captured_of_ne (by decide),
      Match.text_captured]
  · rw [VariableDeclaration.get?_docMarks]
    rw [Match.get?_captured_of_ne (by decide), Match.get?_captured_of_ne (by decide), hnone]

end Declaration

end Typings.Source
