import Mathlib.Data.List.Basic
import Typings.Output.DeclarationFile
import Typings.Proofs.Output.CrossReferences
import Typings.Proofs.Text.BracketCounts

/-!
# Type parameters in scope

The names in a list of type parameters are read back, whatever their bounds are, and they stay
visible in everything that is written inside the declaration: the types in the signature of a method
are converted in a scope that holds those of the method and of all types around it, and there they
shadow every other meaning of the name.
-/

namespace Typings

-- ---------------------------------------------------------------------------
-- Lists of type parameters
-- ---------------------------------------------------------------------------

/-- A type parameter, as in `K extends Comparable<K>`. -/
structure TypeParameter where
  name : String
  bound : Option String := none

namespace TypeParameter

def text (p : TypeParameter) : String :=
  match p.bound with
  | some bound => p.name ++ " extends " ++ bound
  | none => p.name

/-- Whether a type parameter has a name, and a bound that closes its brackets and hides its
commas in them. -/
structure WellFormed (p : TypeParameter) : Prop where
  name : IsIdentifier p.name
  balanced : ∀ bound ∈ p.bound, Text.BracketBalanced bound.toList
  hidden : ∀ bound ∈ p.bound, Text.HidesSeparators ',' bound.toList

end TypeParameter

/-- Type parameters in angle brackets. -/
def typeParameterText (ps : List TypeParameter) : String :=
  "<" ++ String.intercalate ", " (ps.map TypeParameter.text) ++ ">"

namespace IsIdentifier

variable {name : String}

theorem plain (h : IsIdentifier name) {c : Char} (hc : c ∈ name.toList) :
    Text.isSpace c = false ∧ Text.isOpening c = false ∧ Text.isClosing c = false ∧ c ≠ ',' :=
  plain_of_isSegmentChar (isSegmentChar_of_isIdentifierChar (h.chars c hc))

theorem trimmed (h : IsIdentifier name) : Text.Trimmed name.toList :=
  .of_forall h.ne_nil fun _ hc => (h.plain hc).1

theorem closed (h : IsIdentifier name) : Text.Closed ',' name.toList :=
  Text.closed_of_forall fun _ hc => (h.plain hc).2

end IsIdentifier

/-- The name of a type parameter is the first word of its text. -/
theorem Text.entryName?_append {name : String} (h : IsIdentifier name) {rest : Text}
    (hrest : rest = [] ∨ ∃ more, rest = ' ' :: more) :
    Text.entryName? (name.toList ++ rest) = some name.toList := by
  have hword : name.toList.splitOnP (fun c => isSpace c || c = '<') = [name.toList] := by
    refine List.splitOnP_eq_singleton fun c hc => ?_
    have hangle : c ≠ '<' := by
      rintro rfl
      exact h.notMem (by decide) hc
    simp [hangle, (h.plain hc).1]
  have hfirst (words : List Text) :
      (name.toList :: words).find? (fun word => !word.isEmpty && word.head? != some '@') =
        some name.toList := by
    have hat : name.toList.head? ≠ some '@' := fun hhead =>
      h.notMem (by decide) (List.mem_of_head? hhead)
    exact List.find?_cons_of_pos (by simp [h.ne_empty, hat])
  rcases hrest with rfl | ⟨more, rfl⟩
  · rw [List.append_nil, entryName?, hword, hfirst]
  · rw [entryName?, List.splitOnP_append_cons _ _ (by decide), hword, List.singleton_append, hfirst]

namespace TypeParameter.WellFormed

variable {p : TypeParameter}

theorem exists_text_eq (h : p.WellFormed) :
    ∃ rest, p.text.toList = p.name.toList ++ rest ∧ Text.Closed ',' rest ∧
      (rest = [] ∨ ∃ more, rest = ' ' :: more) := by
  cases hbound : p.bound with
  | none => exact ⟨[], by simp [text, hbound], rfl, .inl rfl⟩
  | some bound =>
    have hclosed : Text.Closed ',' bound.toList :=
      (Text.closed_iff (by decide) (by decide)).2 ⟨h.balanced bound hbound, h.hidden bound hbound⟩
    have hword : Text.Closed ',' " extends ".toList := by decide
    refine ⟨" extends ".toList ++ bound.toList, ?_, hword.append hclosed, .inr ⟨_, rfl⟩⟩
    simp only [text, hbound, String.toList_append, List.append_assoc]

theorem closed (h : p.WellFormed) : Text.Closed ',' p.text.toList := by
  obtain ⟨rest, htext, hrest, -⟩ := h.exists_text_eq
  rw [htext]
  exact h.name.closed.append hrest

theorem entryName?_trim (h : p.WellFormed) :
    Text.entryName? (Text.trim p.text.toList) = some p.name.toList := by
  obtain ⟨rest, htext, -, hrest⟩ := h.exists_text_eq
  rw [htext, h.name.trimmed.trim_append_eq]
  refine Text.entryName?_append h.name ?_
  rcases hrest with rfl | ⟨more, rfl⟩
  · exact .inl rfl
  · exact (List.prefix_cons_iff.1 (Text.trimEnd_prefix (' ' :: more))).imp id
      fun ⟨more', heq, _⟩ => ⟨more', heq⟩

end TypeParameter.WellFormed

theorem toList_typeParameterText (ps : List TypeParameter) :
    (typeParameterText ps).toList =
      '<' :: ([',', ' '].intercalate (ps.map (·.text.toList)) ++ ['>']) := by
  have hopen : "<".toList = ['<'] := by decide
  have hclose : ">".toList = ['>'] := by decide
  have hcomma : ", ".toList = [',', ' '] := by decide
  rw [typeParameterText, String.toList_append, String.toList_append, String.toList_intercalate,
    hopen, hclose, hcomma, List.map_map]
  rfl

/-- The names of type parameters are read back. -/
theorem typeParameterNames_typeParameterText {ps : List TypeParameter}
    (h : ∀ p ∈ ps, p.WellFormed) :
    Text.typeParameterNames (typeParameterText ps).toList = ps.map (·.name.toList) := by
  set joined := [',', ' '].intercalate (ps.map (·.text.toList)) with hjoined
  have htrimmed : Text.Trimmed ('<' :: (joined ++ ['>'])) :=
    ⟨⟨'<', joined ++ ['>'], rfl, by decide⟩, ⟨'<' :: joined, '>', rfl, by decide⟩⟩
  have hopen : Text.afterPrefix? ['<'] ('<' :: (joined ++ ['>'])) = some (joined ++ ['>']) :=
    Text.afterPrefix?_eq_some_iff.2 rfl
  have hclose : Text.beforeSuffix? ['>'] (joined ++ ['>']) = some joined :=
    Text.beforeSuffix?_eq_some_iff.2 rfl
  have hclosed : ∀ s ∈ ps.map (·.text.toList), Text.Closed ',' s :=
    List.forall_mem_map.2 fun p hp => (h p hp).closed
  have hnames : ∀ p ∈ ps, Text.entryName? (Text.trim p.text.toList) = some p.name.toList :=
    fun p hp => (h p hp).entryName?_trim
  have hkept : ((ps.map (·.text.toList)).map Text.trim).filter (!·.isEmpty) =
      (ps.map (·.text.toList)).map Text.trim := by
    rw [List.map_map, List.filter_eq_self]
    refine List.forall_mem_map.2 fun p hp => ?_
    -- a text without a name has no first word
    cases hempty : Text.trim p.text.toList with
    | nil =>
      have hname := hnames p hp
      rw [hempty] at hname
      cases hname
    | cons c cs => simp [hempty]
  simp only [Text.typeParameterNames]
  rw [toList_typeParameterText, ← hjoined, htrimmed.trim_eq, hopen, Option.getD_some, hclose,
    Option.getD_some, hjoined, Text.splitTopLevel_of_closed Text.isSeparator_comma
      (by decide) hclosed,
    hkept, List.map_map, List.filterMap_map, ← List.filterMap_eq_map]
  exact List.filterMap_congr hnames

/-- Whether a type-parameter text declares a name. -/
def DeclaresParameter (typeParameters : Option String) (name : String) : Prop :=
  ∃ ps : List TypeParameter, (∀ p ∈ ps, p.WellFormed) ∧
    typeParameters = some (typeParameterText ps) ∧ ∃ p ∈ ps, p.name = name

namespace DeclaresParameter

variable {typeParameters : Option String} {name : String}

theorem isIdentifier (h : DeclaresParameter typeParameters name) : IsIdentifier name := by
  obtain ⟨ps, hps, -, p, hp, rfl⟩ := h
  exact (hps p hp).name

theorem mem_declaredNames (h : DeclaresParameter typeParameters name) :
    name ∈ declaredNames typeParameters := by
  obtain ⟨ps, hps, rfl, p, hp, rfl⟩ := h
  rw [declaredNames, typeParameterNames_typeParameterText hps, List.map_map]
  exact List.mem_map.2 ⟨p, hp, String.ofList_toList⟩

end DeclaresParameter

-- ---------------------------------------------------------------------------
-- Scopes inside declarations
-- ---------------------------------------------------------------------------

namespace Scope

variable {s : Scope} {name : String}

/-- The scope inside declarations, each of them nested in the one before. -/
def within (s : Scope) (chain : List TypeDecl) : Scope :=
  chain.foldl (fun s d => s.withGenerics d.typeParameterNames) s

/-- Type parameters of every declaration are visible inside. -/
theorem generics_within (s : Scope) (chain : List TypeDecl) :
    (s.within chain).generics = s.generics ++ chain.flatMap TypeDecl.typeParameterNames := by
  induction chain generalizing s with
  | nil => simp [within]
  | cons d rest ih =>
    have hstep : s.within (d :: rest) = (s.withGenerics d.typeParameterNames).within rest := rfl
    rw [hstep, ih, withGenerics, List.flatMap_cons, List.append_assoc]

/-- Whether a name stands for itself, alone or inside a type. -/
structure Keeps (s : Scope) (name : String) : Prop where
  convert : s.convert name = name
  typeOf : s.typeOf (.name name) = name
  resolve : s.resolve name = name

/-- Nothing shadows a type parameter. -/
theorem keeps_of_mem_generics (hname : IsIdentifier name) (hprimitive : primitive? name = none)
    (hmem : name ∈ s.generics) : s.Keeps name := by
  have hresolve : s.resolve name = name := by
    rw [Scope.resolve, if_pos (List.contains_iff_mem.2 hmem)]
  have htype : s.nameType name = name := by
    rw [nameType, hprimitive, Option.getD_none, hresolve]
  have hdotted : dottedText [name] = name := String.intercalate_singleton
  have hconvert := convert_dottedText (by simpa using hname) s (List.cons_ne_nil name [])
  rw [hdotted] at hconvert
  exact ⟨hconvert.trans htype, htype, hresolve⟩

end Scope

-- ---------------------------------------------------------------------------
-- Signatures
-- ---------------------------------------------------------------------------

/-- The signature of a method, the types of its parameters and of its result being converted in a
scope. -/
def Method.signature (s : Scope) (m : Method) : String :=
  m.name ++ m.typeParameters.getD "" ++ "(" ++
    String.intercalate ", " (m.parameters.map (Parameter.render s)) ++ "): " ++
    s.convert m.returnType

/-- A method is written with its comment and its signature, in which its own type parameters are
visible. -/
theorem Method.render_eq (s : Scope) (indent : String) (m : Method) :
    m.render s indent = docLinesOf indent m.doc ++
      [indent ++ m.signature (s.withGenerics m.typeParameterNames) ++ ";"] := by
  simp only [Method.render, signature, String.append_assoc]

/-- The scope of the signature of a method, whose declaration is the last of a chain of
declarations, each nested in the one before. -/
def Method.scopeIn (s : Scope) (chain : List TypeDecl) (m : Method) : Scope :=
  (s.within chain).withGenerics m.typeParameterNames

theorem Method.mem_generics_scopeIn {s : Scope} {chain : List TypeDecl} {m : Method} {name : String}
    (h : DeclaresParameter m.typeParameters name ∨
      ∃ d ∈ chain, DeclaresParameter d.typeParameters name) :
    name ∈ (m.scopeIn s chain).generics := by
  rw [scopeIn, Scope.withGenerics, List.mem_append, Scope.generics_within, List.mem_append,
    List.mem_flatMap]
  rcases h with h | ⟨d, hd, h⟩
  · exact .inr h.mem_declaredNames
  · exact .inl (.inr ⟨d, hd, h.mem_declaredNames⟩)

-- ---------------------------------------------------------------------------
-- Where methods are written
-- ---------------------------------------------------------------------------

/-- The indentation inside declarations, each of them nested in the one before. -/
def indentWithin (indent : String) (chain : List TypeDecl) : String :=
  chain.foldl (fun indent _ => deeper indent) indent

namespace TypeDecl

variable {s : Scope} {indent : String} {enclosing : Option String} {d e : TypeDecl} {m : Method}

theorem render_infix_memberLines (hm : m ∈ d.methods) :
    m.render s indent <:+: d.memberLines s indent := by
  have hmethods : m.render s indent <:+: d.methods.flatMap (Method.render s indent) :=
    List.infix_of_mem_flatten (List.mem_map_of_mem hm)
  exact hmethods.trans (List.suffix_append _ _).isInfix

/-- A method is written in the scope of its declaration. -/
theorem render_infix_of_mem_methods (hm : m ∈ d.methods) :
    m.render (s.withGenerics d.typeParameterNames) (deeper indent) <:+:
      d.render s indent enclosing := by
  have halias : d.isAlias enclosing = false := by
    have hmethods : d.methods.isEmpty = false := by
      simpa using List.ne_nil_of_mem hm
    simp [isAlias, isMarker, hmethods]
  have hlines : m.render (s.withGenerics d.typeParameterNames) (deeper indent) <:+:
      d.ownLines (s.withGenerics d.typeParameterNames) indent enclosing := by
    rw [ownLines, if_neg (by simp [halias])]
    refine (render_infix_memberLines hm).trans
      (List.IsInfix.trans ?_ (List.suffix_append _ _).isInfix)
    exact ⟨[d.openingLine _ indent enclosing], [indent ++ "\x7d"], rfl⟩
  obtain ⟨o, nested⟩ := d
  rw [render]
  exact hlines.trans (List.prefix_append _ _).isInfix

theorem render_infix_renderNested {outer : String} {ds : List TypeDecl} (he : e ∈ ds) :
    e.render s indent (some outer) <:+: renderNested s indent outer ds := by
  induction ds with
  | nil => cases he
  | cons d rest ih =>
    rw [renderNested]
    rcases List.mem_cons.1 he with rfl | he
    · exact (List.prefix_append _ _).isInfix
    · have hrest : rest ≠ [] := List.ne_nil_of_mem he
      rw [if_neg (by simpa using hrest)]
      exact ((ih he).trans (List.suffix_cons "" _).isInfix).trans (List.suffix_append _ _).isInfix

theorem render_infix_of_mem_nested (he : e ∈ d.nested) :
    e.render (s.withGenerics d.typeParameterNames) (deeper indent) (some d.name) <:+:
      d.render s indent enclosing := by
  obtain ⟨o, nested⟩ := d
  have hne : nested ≠ [] := List.ne_nil_of_mem he
  rw [render, if_neg (by simpa using hne)]
  refine (render_infix_renderNested he).trans
    (List.IsInfix.trans ?_ (List.suffix_append _ _).isInfix)
  exact ⟨["", indent ++ "export namespace " ++ o.name ++ " \x7b"], [indent ++ "\x7d"], rfl⟩

/-- A method of a nested declaration is written in the scope of all declarations around it. -/
theorem render_infix_of_chain {rest : List TypeDecl}
    (hchain : (d :: rest).IsChain fun outer inner => inner ∈ outer.nested)
    (hm : m ∈ ((d :: rest).getLast (List.cons_ne_nil d rest)).methods) :
    m.render (s.within (d :: rest)) (indentWithin indent (d :: rest)) <:+:
      d.render s indent enclosing := by
  induction rest generalizing d s indent enclosing with
  | nil => exact render_infix_of_mem_methods hm
  | cons e rest ih =>
    obtain ⟨he, hchain⟩ := List.isChain_cons_cons.1 hchain
    exact (ih hchain hm).trans (render_infix_of_mem_nested he)

end TypeDecl

/-- The names of a list of type parameters are read back. A method of a nested declaration is
written with a signature whose types are converted in a scope where the type parameters of the
method and of all declarations around it stand for themselves, whatever else the file knows by these
names. -/
theorem typeParameters_in_scope :
    (∀ ps : List TypeParameter, (∀ p ∈ ps, p.WellFormed) →
      Text.typeParameterNames (typeParameterText ps).toList = ps.map (·.name.toList)) ∧
    ∀ (s : Scope) (indent : String) (enclosing : Option String) (d : TypeDecl)
      (rest : List TypeDecl) (m : Method),
      (d :: rest).IsChain (fun outer inner => inner ∈ outer.nested) →
      m ∈ ((d :: rest).getLast (List.cons_ne_nil d rest)).methods →
      docLinesOf (indentWithin indent (d :: rest)) m.doc ++
          [indentWithin indent (d :: rest) ++ m.signature (m.scopeIn s (d :: rest)) ++ ";"] <:+:
        d.render s indent enclosing ∧
      ∀ name, (DeclaresParameter m.typeParameters name ∨
          ∃ e ∈ d :: rest, DeclaresParameter e.typeParameters name) →
        primitive? name = none → (m.scopeIn s (d :: rest)).Keeps name := by
  refine ⟨fun _ => typeParameterNames_typeParameterText,
    fun s indent enclosing d rest m hchain hm => ⟨?_, fun name hname hprimitive => ?_⟩⟩
  · have hlines := @TypeDecl.render_infix_of_chain s indent enclosing d m rest hchain hm
    rwa [Method.render_eq] at hlines
  · have hidentifier : IsIdentifier name := by
      rcases hname with hname | ⟨e, -, hname⟩ <;> exact hname.isIdentifier
    exact Scope.keeps_of_mem_generics hidentifier hprimitive (Method.mem_generics_scopeIn hname)

def shadowingMethod : Method where
  name := "zip"
  typeParameters := some "<Void extends Comparable<Void>>"
  returnType := "Map<K, T>"
  parameters := [⟨"first", "Void", false⟩, ⟨"others", "List<K>[]", true⟩]

def shadowingInner : TypeDecl where
  name := "Inner"
  kind := .interface
  typeParameters := some "<K extends Map<T, K>>"
  methods := [shadowingMethod]

/-- A type with a method in a type nested in it, all with type parameters. -/
def shadowingOuter : TypeDecl where
  name := "K"
  kind := .class_
  typeParameters := some "<T, U>"
  nested := [shadowingInner]

/-- The scope of a file that imports `T` from an API package. -/
def shadowedScope : Scope :=
  .ofFile { package := "app", imports := [⟨"api.T", false, false⟩], types := [shadowingOuter] }
    "app/K.d.ts" ["api"]

/-- Outside, the names of the type parameters stand for an imported type and one of `java.lang`. -/
theorem typeParameters_in_scope_shadowing :
    Text.typeParameterNames "<K extends Map<T, K>>".toList = [['K']] ∧
      shadowedScope.convert "T" = "import(\"../api/T\").T" ∧
      shadowedScope.convert "Void" = "Java.java.lang.Void" ∧
      ["        zip<Void extends Comparable<Void>>(first: Void, ...others: K[][]): Record<K, T>;"] <:+:
        shadowingOuter.render shadowedScope "" none ∧
      (shadowingMethod.scopeIn shadowedScope [shadowingOuter, shadowingInner]).Keeps "T" ∧
      (shadowingMethod.scopeIn shadowedScope [shadowingOuter, shadowingInner]).Keeps "Void" := by
  obtain ⟨hnames, hscope⟩ := typeParameters_in_scope
  have hbounded (name bound : String) (hname : IsIdentifier name)
      (hclosed : Text.Closed ',' bound.toList) : (TypeParameter.mk name bound).WellFormed := by
    obtain ⟨hbalanced, hhidden⟩ := (Text.closed_iff (by decide) (by decide)).1 hclosed
    exact ⟨hname, by simpa using hbalanced, by simpa using hhidden⟩
  have hplain (name : String) (hname : IsIdentifier name) :
      (TypeParameter.mk name none).WellFormed :=
    ⟨hname, nofun, nofun⟩
  have houter : DeclaresParameter shadowingOuter.typeParameters "T" :=
    ⟨[⟨"T", none⟩, ⟨"U", none⟩],
      by simpa using ⟨hplain "T" (by decide), hplain "U" (by decide)⟩, by decide, by simp⟩
  have hmethod : DeclaresParameter shadowingMethod.typeParameters "Void" :=
    ⟨[⟨"Void", "Comparable<Void>"⟩],
      by simpa using hbounded "Void" "Comparable<Void>" (by decide) (by decide), by decide, by simp⟩
  have hinner : ∀ p ∈ [TypeParameter.mk "K" "Map<T, K>"], p.WellFormed := by
    simpa using hbounded "K" "Map<T, K>" (by decide) (by decide)
  have hread : Text.typeParameterNames "<K extends Map<T, K>>".toList = ["K".toList] := by
    have htext : typeParameterText [⟨"K", "Map<T, K>"⟩] = "<K extends Map<T, K>>" := by decide
    rw [← htext, hnames _ hinner]
    rfl
  have hapi : shadowedScope.convert "T" = "import(\"../api/T\").T" := by decide +kernel
  have hlang : shadowedScope.convert "Void" = "Java.java.lang.Void" := by decide +kernel
  have hchain : [shadowingOuter, shadowingInner].IsChain fun outer inner =>
      inner ∈ outer.nested := by
    simp [shadowingOuter]
  have hsignature :
      shadowingMethod.signature (shadowingMethod.scopeIn shadowedScope
          [shadowingOuter, shadowingInner]) =
        "zip<Void extends Comparable<Void>>(first: Void, ...others: K[][]): Record<K, T>" := by
    decide +kernel
  obtain ⟨hlines, hkeeps⟩ := hscope shadowedScope "" none shadowingOuter [shadowingInner]
    shadowingMethod hchain List.mem_cons_self
  rw [hsignature] at hlines
  exact ⟨hread, hapi, hlang, hlines,
    hkeeps "T" (.inr ⟨_, List.mem_cons_self, houter⟩) (by decide),
    hkeeps "Void" (.inl hmethod) (by decide)⟩

end Typings
