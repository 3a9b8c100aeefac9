import Typings.Proofs.Source.Bodies
import Typings.Proofs.Source.ParameterParts

/-!
# What every extracted declaration satisfies

Whatever the text of a file is, its declarations are such that declaration files can be written for
them: type parameters are in angle brackets, clauses are compact, parameters have names and types,
and no statement is taken for a field. Each part is proved of the function that reads it, and of
every declaration because each of them is read in some level of the file.
-/

namespace Typings

-- ---------------------------------------------------------------------------
-- Well-formed declarations
-- ---------------------------------------------------------------------------

/-- Whether a text opens with an angle bracket and closes with one. -/
def IsBracketed (s : Text) : Prop := ∃ inner, s = '<' :: (inner ++ ['>'])

/-- Whether a text can stand after the word of a clause. -/
structure IsClauseText (s : Text) : Prop where
  ne_nil : s ≠ []
  trim_eq : Text.trim s = s
  compact_eq : Text.compact s = s

/-- Whether a parameter has a name and a type, with all pairs of square brackets in the type. -/
structure Parameter.WellFormed (p : Parameter) : Prop where
  name_ne : p.name ≠ ""
  name_ne_this : p.name ≠ "this"
  name_dimensions : ¬ "[]".toList <:+ p.name.toList
  type_ne : p.typeName ≠ ""
  varargs : p.isVarargs = true → "[]".toList <:+ p.typeName.toList

structure Method.WellFormed (docs : Bool) (m : Method) : Prop where
  typeParameters : ∀ text ∈ m.typeParameters, IsBracketed text.toList
  parameters : ∀ p ∈ m.parameters, p.WellFormed
  doc : docs = false → m.doc = none

structure Field.WellFormed (docs : Bool) (f : Field) : Prop where
  type : f.typeName.toList ∉ Source.statementWords
  doc : docs = false → f.doc = none

/-- Whether a declaration, apart from the types nested in it, is one that can be written. -/
structure TypeDecl.WellFormed (docs : Bool) (d : TypeDecl) : Prop where
  interface_fields : d.kind = .interface → d.fields = []
  typeParameters : ∀ text ∈ d.typeParameters, IsBracketed text.toList
  superTypes : ∀ text ∈ d.superTypes, IsClauseText text.toList
  interfaces : ∀ text ∈ d.interfaces, IsClauseText text.toList
  doc : docs = false → d.doc = none
  methods : ∀ m ∈ d.methods, m.WellFormed docs
  fields : ∀ f ∈ d.fields, f.WellFormed docs

namespace Source

open Declaration Pattern

-- ---------------------------------------------------------------------------
-- Headers
-- ---------------------------------------------------------------------------

/-- Visible characters at the ends stay there. -/
theorem isBracketed_compact {s : Text} (h : IsBracketed s) : IsBracketed (Text.compact s) := by
  obtain ⟨inner, rfl⟩ := h
  have hvisible := Text.visible_compact ('<' :: (inner ++ ['>']))
  have hends : Text.visible ('<' :: (inner ++ ['>'])) = '<' :: (Text.visible inner ++ ['>']) := by
    rw [Text.visible_cons, if_neg (by decide), Text.visible_append]
    rfl
  rw [hends] at hvisible
  have hne : Text.compact ('<' :: (inner ++ ['>'])) ≠ [] := by
    intro hnil
    rw [hnil] at hvisible
    cases hvisible
  have htrimmed := (Text.isCompact_compact ('<' :: (inner ++ ['>']))).trimmed hne
  generalize Text.compact ('<' :: (inner ++ ['>'])) = s at hvisible htrimmed
  obtain ⟨c, cs, hcs, hc⟩ := htrimmed.head
  obtain ⟨ds, d, hds, hd⟩ := htrimmed.last
  obtain rfl : c = '<' := by
    rw [hcs, Text.visible_cons, hc] at hvisible
    exact (List.cons.inj hvisible).1
  obtain rfl : d = '>' := by
    have hlast : Text.visible [d] = [d] := Text.visible_of_forall (by simpa using hd)
    rw [hds, Text.visible_append, hlast, ← List.cons_append] at hvisible
    exact (List.cons.inj (List.append_inj' hvisible rfl).2).1
  -- the two ends are different characters
  cases ds with
  | nil =>
    rw [hcs] at hds
    exact absurd (List.cons.inj hds).1 (by decide)
  | cons e ds =>
    rw [hcs, List.cons_append] at hds
    exact ⟨ds, by rw [hcs, (List.cons.inj hds).2]⟩

/-- What closes angle brackets is taken with them. -/
theorem exists_of_closeAngle? {depth : Nat} {s inside after : Text}
    (h : closeAngle? depth s = some (inside, after)) : ∃ front, inside = front ++ ['>'] := by
  fun_induction closeAngle? depth s generalizing inside with
  | case1 => simp at h
  | case2 depth cs ih =>
    obtain ⟨⟨text, rest⟩, htext, heq⟩ := Option.map_eq_some_iff.mp h
    obtain ⟨rfl, rfl⟩ := Prod.mk.inj heq
    obtain ⟨front, rfl⟩ := ih htext
    exact ⟨_ :: front, rfl⟩
  | case3 cs hne =>
    obtain ⟨rfl, rfl⟩ := Prod.mk.inj (Option.some.inj h)
    exact ⟨[], rfl⟩
  | case4 cs hne outer ih =>
    obtain ⟨⟨text, rest⟩, htext, heq⟩ := Option.map_eq_some_iff.mp h
    obtain ⟨rfl, rfl⟩ := Prod.mk.inj heq
    obtain ⟨front, rfl⟩ := ih htext
    exact ⟨_ :: front, rfl⟩
  | case5 depth c cs hopen hclose hstop => simp at h
  | case6 depth c cs hopen hclose hstop ih =>
    obtain ⟨⟨text, rest⟩, htext, heq⟩ := Option.map_eq_some_iff.mp h
    obtain ⟨rfl, rfl⟩ := Prod.mk.inj heq
    obtain ⟨front, rfl⟩ := ih htext
    exact ⟨c :: front, rfl⟩

theorem isClauseText_of_lastText? {k : Clause} {clauses : List (Clause × Text)} {s : Text}
    (h : k.lastText? clauses = some s) : IsClauseText s := by
  have hne : s ≠ [] := by simpa using List.find?_some h
  obtain ⟨entry, -, rfl⟩ := List.mem_map.1 (List.mem_reverse.1 (List.mem_of_find?_eq_some h))
  have hcompact := Text.isCompact_compact entry.2
  exact ⟨hne, (hcompact.trimmed hne).trim_eq, hcompact.compact_eq⟩

structure HeaderTail.WellFormed (tail : HeaderTail) : Prop where
  typeParameters : ∀ s ∈ tail.typeParameters, IsBracketed s
  superTypes : ∀ s ∈ tail.superTypes, IsClauseText s
  interfaces : ∀ s ∈ tail.interfaces, IsClauseText s

theorem wellFormed_of_clausesTail? {params : Option Text} {pos : Nat} {s : Text} {tail : HeaderTail}
    (hparams : ∀ s ∈ params, IsBracketed s) (h : clausesTail? params pos s = some tail) :
    tail.WellFormed := by
  obtain ⟨text, -, rfl⟩ := Option.map_eq_some_iff.mp h
  exact ⟨hparams, fun _ => isClauseText_of_lastText?, fun _ => isClauseText_of_lastText?⟩

theorem wellFormed_of_tailAfterName? {start : Nat} {s : Text} {tail : HeaderTail}
    (h : tailAfterName? start s = some tail) : tail.WellFormed := by
  simp only [tailAfterName?] at h
  split at h
  · split at h
    · rename_i inside after hangle
      refine wellFormed_of_clausesTail? (fun t ht => ?_) h
      obtain ⟨front, rfl⟩ := exists_of_closeAngle? hangle
      obtain rfl := Option.some.inj ht
      exact isBracketed_compact ⟨front, rfl⟩
    · cases h
  · exact wellFormed_of_clausesTail? (by simp) h

theorem wellFormed_of_headerTail {s : Text} {start : Nat} {tail : HeaderTail}
    (h : headerTail s start = .ok (some tail)) : tail.WellFormed := by
  unfold headerTail at h
  split at h
  · exact wellFormed_of_tailAfterName? (Except.ok.inj h)
  · split at h <;> simp at h

-- ---------------------------------------------------------------------------
-- Members
-- ---------------------------------------------------------------------------

/-- All pairs at the end are taken away. -/
theorem ne_of_splitPairs {s rest : Text} {n : Nat} (h : splitPairs s = (n, rest)) (t : Text) :
    rest ≠ ']' :: '[' :: t := by
  induction s using splitPairs.induct generalizing n with
  | case1 s m found hfound ih =>
    rw [splitPairs, hfound] at h
    obtain ⟨-, rfl⟩ := Prod.mk.inj h
    exact ih hfound
  | case2 s hs =>
    rw [splitPairs] at h
    · obtain ⟨-, rfl⟩ := Prod.mk.inj h
      exact hs t
    · exact hs

theorem suffix_append_pairs {s : Text} (h : "[]".toList <:+ s) (n : Nat) :
    "[]".toList <:+ s ++ pairs n := by
  cases n with
  | zero => simpa [pairs] using h
  | succ n =>
    rw [pairs_succ, ← List.append_assoc]
    exact List.suffix_append _ _

theorem wellFormed_of_typedParameter? {typeText named : Text} {p : Parameter}
    (h : typedParameter? typeText named = some p) : p.WellFormed := by
  obtain ⟨dims, reversed, hpairs⟩ : ∃ dims reversed, splitPairs named.reverse = (dims, reversed) :=
    ⟨_, _, rfl⟩
  obtain ⟨text, varargs, hread, hvarargs⟩ : ∃ text varargs,
      typedParameter? typeText named =
        (if reversed.reverse.isEmpty || reversed.reverse = "this".toList ||
            (text ++ pairs dims).isEmpty then none
          else some
            { name := String.ofList reversed.reverse, typeName := String.ofList (text ++ pairs dims)
              isVarargs := varargs }) ∧ (varargs = true → "[]".toList <:+ text) := by
    rw [typedParameter?, hpairs]
    cases Text.beforeSuffix? "...".toList typeText with
    | some element => exact ⟨_, true, rfl, fun _ => List.suffix_append _ _⟩
    | none => exact ⟨_, false, rfl, fun hv => absurd hv Bool.false_ne_true⟩
  rw [hread] at h
  obtain ⟨hgood, hp⟩ := Option.ite_none_left_eq_some.1 h
  obtain rfl := Option.some.inj hp
  simp only [Bool.or_eq_true, List.isEmpty_iff, decide_eq_true_eq, not_or] at hgood
  obtain ⟨⟨hname, hthis⟩, htype⟩ := hgood
  refine ⟨fun hempty => hname ?_, fun heq => hthis ?_, fun hsuffix => ?_, fun hempty => htype ?_,
    fun hv => ?_⟩
  · simpa using congrArg String.toList hempty
  · simpa using congrArg String.toList heq
  · obtain ⟨t, ht⟩ := hsuffix
    have hend : t ++ ['[', ']'] = reversed.reverse := ht.trans String.toList_ofList
    refine ne_of_splitPairs hpairs t.reverse ?_
    rw [← List.reverse_reverse reversed, ← hend]
    simp
  · simpa using congrArg String.toList hempty
  · have htext : (String.ofList (text ++ pairs dims)).toList = text ++ pairs dims :=
      String.toList_ofList
    show "[]".toList <:+ (String.ofList (text ++ pairs dims)).toList
    rw [htext]
    exact suffix_append_pairs (hvarargs hv) dims

theorem wellFormed_of_mem_parameters {s : Text} {p : Parameter} (hp : p ∈ parameters s) :
    p.WellFormed := by
  obtain ⟨piece, -, hpiece⟩ := List.mem_filterMap.1 hp
  cases hsplit : splitLastSpace? 0 (parameterWords piece) with
  | none =>
    simp only [parameter?, hsplit] at hpiece
    cases hpiece
  | some found =>
    obtain ⟨front, last⟩ := found
    rw [parameter?_eq_of_split hsplit] at hpiece
    split at hpiece <;> exact wellFormed_of_typedParameter? hpiece

theorem isBracketed_of_mem_language {w : Text} (h : w ∈ angled.language) : IsBracketed w := by
  obtain ⟨u, hu, close, hclose, rfl⟩ := mem_language_seq.mp h
  obtain ⟨opened, hopen, inner, -, rfl⟩ := mem_language_seq.mp hu
  rw [mem_language_lit.mp hopen, mem_language_lit.mp hclose]
  exact ⟨inner, rfl⟩

theorem docOf_false (m : Match Part) : docOf false m = none := rfl

theorem wellFormed_of_mem_methods {docs : Bool} {members : Text} {method : Method}
    (h : method ∈ methods docs members) : method.WellFormed docs := by
  obtain ⟨m, hm, hmethod⟩ := List.mem_filterMap.1 h
  simp only [methodOf?] at hmethod
  split at hmethod
  · cases hmethod
  split at hmethod
  · cases hmethod
  obtain rfl := Option.some.inj hmethod
  refine ⟨fun text htext => ?_, fun p hp => wellFormed_of_mem_parameters hp, ?_⟩
  · obtain ⟨c, hc, rfl⟩ := Option.map_eq_some_iff.1 htext
    obtain ⟨q, hq, hword⟩ := exists_mem_language_of_get? (g := .typeParameters) (by decide) hm hc
    have hbodies : Declaration.method.bodies .typeParameters = [angled] := rfl
    rw [hbodies, List.mem_singleton] at hq
    subst hq
    rw [String.toList_ofList]
    exact isBracketed_compact (isBracketed_of_mem_language hword)
  · rintro rfl
    exact docOf_false m

/-- No statement keyword ends with square brackets. -/
theorem variableType_notMem_statementWords {base dimensions : Text} (h : base ∉ statementWords) :
    variableType base dimensions ∉ statementWords := by
  have hbracket : ∀ w ∈ statementWords, ']' ∉ w := by decide
  rw [variableType]
  cases dimensions.count '[' with
  | zero => simpa [pairs] using h
  | succ n =>
    intro hmem
    refine hbracket _ hmem ?_
    rw [pairs_succ]
    simp

theorem wellFormed_of_mem_fields {docs : Bool} {members : Text} {f : Field}
    (h : f ∈ fields docs members) : f.WellFormed docs := by
  obtain ⟨m, hm, hfield⟩ := List.mem_flatMap.1 h
  simp only [fieldsOf] at hfield
  split at hfield
  · cases hfield
  rename_i hbase
  obtain ⟨v, -, rfl⟩ := List.mem_map.1 hfield
  refine ⟨?_, ?_⟩
  · rw [String.toList_ofList]
    exact variableType_notMem_statementWords (by simpa using hbase)
  · rintro rfl
    exact docOf_false m

-- ---------------------------------------------------------------------------
-- Every file
-- ---------------------------------------------------------------------------

theorem wellFormed_of_headerOf? {docs publicOnly : Bool} {masked : Masked} {m : Match Part}
    {outline : TypeOutline} {tail : HeaderTail}
    (h : headerOf? docs publicOnly masked m = some (outline, tail)) :
    TypeDecl.WellFormed docs { outline with } := by
  obtain ⟨kind, name, hheader, rfl⟩ := headerOf?_eq_some_iff.mp h
  have htail := wellFormed_of_headerTail hheader.hasBody
  have hmap {P : Text → Prop} {text : Option Text} (htext : ∀ s ∈ text, P s) :
      ∀ t ∈ text.map String.ofList, P t.toList := by
    intro t ht
    obtain ⟨s, hs, rfl⟩ := Option.map_eq_some_iff.1 ht
    rw [String.toList_ofList]
    exact htext s hs
  refine ⟨fun _ => rfl, hmap htail.typeParameters, hmap htail.superTypes, hmap htail.interfaces, ?_,
    nofun, nofun⟩
  rintro rfl
  exact docOf_false m

theorem wellFormed_withBody {docs : Bool} {outline : TypeOutline}
    (h : TypeDecl.WellFormed docs { outline with }) (body : Text)
    (nested : List (TypeDecl × Span)) :
    (withBody docs outline body nested).WellFormed docs where
  interface_fields hkind := by
    have hkind : outline.kind = .interface := hkind
    simp only [withBody, hkind]
  typeParameters := h.typeParameters
  superTypes := h.superTypes
  interfaces := h.interfaces
  doc := h.doc
  methods _ hm := wellFormed_of_mem_methods hm
  fields f hf := by
    simp only [withBody] at hf
    split at hf
    · cases hf
    · exact wellFormed_of_mem_fields hf

/-- Whatever the text of a file is, every declaration in it, at any depth, is well-formed. -/
theorem extract_wellFormed (docs : Bool) (source : String) :
    ∀ p ∈ (extract docs source).placed, p.decl.WellFormed docs := by
  intro p hp
  obtain ⟨_, _, _, _, _, _, _, _, ⟨_, hheader⟩, hfound⟩ := foundAt_of_mem_placed hp
  have houtline := wellFormed_of_headerOf? hheader
  generalize p.decl = decl at hfound
  cases hfound with
  | unclosed => exact houtline
  | body => exact wellFormed_withBody houtline _ _

/-- An interface with documentation, a clause and a method with dots and brackets. -/
def sparseSample : String :=
  "/** S */public interface S<T> extends A , B \x7b<R> R f(T... x[]);\x7d"

theorem extract_wellFormed_sparseSample :
    ∃ p ∈ (extract false sparseSample).placed,
      p.decl = ⟨{ name := "S", kind := .interface, typeParameters := some "<T>"
                  superTypes := some "A , B"
                  methods := [{ name := "f", returnType := "R", typeParameters := some "<R>"
                                parameters := [⟨"x", "T[][]", true⟩] }] }, []⟩ ∧
        p.decl.WellFormed false := by
  have hfound : (extract false sparseSample).placed.map Placed.decl =
      [⟨{ name := "S", kind := .interface, typeParameters := some "<T>"
          superTypes := some "A , B"
          methods := [{ name := "f", returnType := "R", typeParameters := some "<R>"
                        parameters := [⟨"x", "T[][]", true⟩] }] }, []⟩] := by decide +kernel
  obtain ⟨p, hplaced, hp⟩ := List.map_eq_singleton_iff.1 hfound
  have hmem : p ∈ (extract false sparseSample).placed := by
    rw [hplaced]
    exact List.mem_singleton_self p
  exact ⟨p, hmem, hp, extract_wellFormed false sparseSample p hmem⟩

end Source

end Typings
