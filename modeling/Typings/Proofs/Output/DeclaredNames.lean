import Mathlib.Tactic.MkIffOfInductiveProp
import Typings.Proofs.Output.DeclarationReader
import Typings.Proofs.Output.KnownNames

/-!
# The names that a declaration file declares

Three walks over a file have to agree on its types: the one that writes the declaration file, the
one that records the types, and the one that collects the names to be resolved inside the file.
Main statement: what is read in the written text, top to bottom, are the names of the recorded
types, and the names known in the file are theirs.
-/

namespace Typings

-- ---------------------------------------------------------------------------
-- Files that can be read line by line
-- ---------------------------------------------------------------------------

@[mk_iff]
structure Parameter.Writable (p : Parameter) : Prop where
  name : IsIdentifier p.name
  type : OneLine p.typeName

@[mk_iff]
structure Field.Writable (f : Field) : Prop where
  name : IsIdentifier f.name
  type : OneLine f.typeName
  doc : f.doc = none

/-- Type parameters on one line, in angle brackets. -/
def IsAngled (typeParameters : String) : Prop :=
  OneLine typeParameters ∧ typeParameters.toList.head? = some '<'

@[mk_iff]
structure Method.Writable (m : Method) : Prop where
  name : IsIdentifier m.name
  returnType : OneLine m.returnType
  typeParameters : ∀ t ∈ m.typeParameters, IsAngled t
  parameters : ∀ p ∈ m.parameters, p.Writable
  doc : m.doc = none

@[mk_iff]
structure TypeOutline.Writable (o : TypeOutline) : Prop where
  name : IsIdentifier o.name
  typeParameters : ∀ t ∈ o.typeParameters, IsAngled t
  superTypes : ∀ t ∈ o.superTypes, OneLine t
  methods : ∀ m ∈ o.methods, m.Writable
  fields : ∀ f ∈ o.fields, f.Writable
  doc : o.doc = none

/-- A file without documentation whose names are identifiers and whose other texts hold no line
break. -/
@[mk_iff]
structure SourceFile.Writable (f : SourceFile) : Prop where
  package : OneLine f.package
  imports : ∀ i ∈ f.imports, OneLine i.path
  types : ∀ p ∈ f.placed, p.decl.Writable

instance (t : String) : Decidable (IsAngled t) := inferInstanceAs (Decidable (_ ∧ _))

instance (p : Parameter) : Decidable p.Writable := decidable_of_iff' _ (Parameter.writable_iff p)

instance (f : Field) : Decidable f.Writable := decidable_of_iff' _ (Field.writable_iff f)

instance (m : Method) : Decidable m.Writable := decidable_of_iff' _ (Method.writable_iff m)

instance (o : TypeOutline) : Decidable o.Writable :=
  decidable_of_iff' _ (TypeOutline.writable_iff o)

instance (f : SourceFile) : Decidable f.Writable := decidable_of_iff' _ (SourceFile.writable_iff f)

theorem oneLine_getD {typeParameters : Option String} (h : ∀ t ∈ typeParameters, IsAngled t) :
    OneLine (typeParameters.getD "") := by
  cases typeParameters with
  | none => decide
  | some t => exact (h t rfl).1

/-- After a name, type parameters or what follows them end the name. -/
theorem head_getD_append {typeParameters : Option String} (h : ∀ t ∈ typeParameters, IsAngled t)
    {c : Char} (hc : isIdentifierChar c = false) (rest : Text) :
    ∃ d ds, (typeParameters.getD "").toList ++ c :: rest = d :: ds ∧
      isIdentifierChar d = false ∧ (d = '<' ∨ d = c) := by
  cases typeParameters with
  | none => exact ⟨c, rest, rfl, hc, .inr rfl⟩
  | some t =>
    obtain ⟨ds, hds⟩ : ∃ ds, t.toList = '<' :: ds := by
      have hhead := (h t rfl).2
      cases ht : t.toList with
      | nil => simp [ht] at hhead
      | cons d ds => exact ⟨ds, by simp_all⟩
    exact ⟨'<', ds ++ c :: rest, by simp [hds], by decide, .inl rfl⟩

-- ---------------------------------------------------------------------------
-- Members
-- ---------------------------------------------------------------------------

section Lines

variable {s : Scope} {indent : String} {around : List String}

theorem Field.Writable.declare_render {f : Field} (hf : f.Writable) (hs : s.IsOneLine)
    (hindent : IsIndent indent) : Declare around (f.render s indent) [] := by
  unfold Field.render
  rw [hf.doc]
  refine .other ?_ ?_
  · exact (((hindent.oneLine.append hf.name.oneLine).append (by decide)).append
      (Scope.oneLine_convert hs hf.type)).append (by decide)
  · have htext : (indent ++ f.name ++ ": " ++ s.convert f.typeName ++ ";").toList =
        indent.toList ++ (f.name.toList ++ ':' ::
          (' ' :: ((s.convert f.typeName) ++ ";").toList)) := by
      have hcolon : ": ".toList = [':', ' '] := by decide
      simp only [String.toList_append, hcolon, List.append_assoc, List.cons_append, List.nil_append]
    rw [htext]
    exact LineKind.ofLine_member hindent hf.name _ (by decide) (by decide)

theorem Parameter.Writable.oneLine_render {p : Parameter} (hp : p.Writable) (hs : s.IsOneLine) :
    OneLine (p.render s) := by
  have hname : OneLine (parameterName p.name) := by
    unfold parameterName
    split
    · exact hp.name.oneLine.append (by decide)
    · exact hp.name.oneLine
  unfold Parameter.render
  refine ((OneLine.append ?_ hname).append (by decide)).append (Scope.oneLine_convert hs hp.type)
  split <;> decide

theorem Method.Writable.declare_render {m : Method} (hm : m.Writable) (hs : s.IsOneLine)
    (hindent : IsIndent indent) : Declare around (m.render s indent) [] := by
  unfold Method.render
  simp only [hm.doc]
  have hscope := hs.withGenerics m.typeParameterNames
  generalize s.withGenerics m.typeParameterNames = scope at hscope
  have hparameters : OneLine
      (String.intercalate ", " (m.parameters.map (Parameter.render scope))) :=
    oneLine_intercalate (by decide) fun t ht => by
      obtain ⟨p, hp, rfl⟩ := List.mem_map.1 ht
      exact (hm.parameters p hp).oneLine_render hscope
  refine .other ?_ ?_
  · exact ((((((hindent.oneLine.append hm.name.oneLine).append
      (oneLine_getD hm.typeParameters)).append (by decide)).append hparameters).append
      (by decide)).append (Scope.oneLine_convert hscope hm.returnType)).append (by decide)
  · obtain ⟨d, ds, hds, hd, hne⟩ := head_getD_append hm.typeParameters (c := '(') (by decide)
      (String.intercalate ", " (m.parameters.map (Parameter.render scope)) ++ "): " ++
        scope.convert m.returnType ++ ";").toList
    have htext : (indent ++ m.name ++ m.typeParameters.getD "" ++ "(" ++
        String.intercalate ", " (m.parameters.map (Parameter.render scope)) ++ "): " ++
        scope.convert m.returnType ++ ";").toList =
          indent.toList ++ (m.name.toList ++ d :: ds) := by
      have hparen : "(".toList = ['('] := by decide
      rw [← hds]
      simp only [String.toList_append, hparen, List.append_assoc, List.cons_append,
        List.nil_append]
    show LineKind.ofLine (indent ++ m.name ++ m.typeParameters.getD "" ++ "(" ++
        String.intercalate ", " (m.parameters.map (Parameter.render scope)) ++ "): " ++
        scope.convert m.returnType ++ ";").toList = .other
    rw [htext]
    exact LineKind.ofLine_member hindent hm.name _ hd (by rcases hne with rfl | rfl <;> decide)

theorem TypeDecl.declare_memberLines {d : TypeDecl} (hd : d.Writable) (hs : s.IsOneLine)
    (hindent : IsIndent indent) : Declare around (d.memberLines s indent) [] := by
  have hfields : Declare around (d.fields.flatMap (Field.render s indent)) [] := by
    have h : Declare around (d.fields.flatMap (Field.render s indent))
        (d.fields.flatMap fun _ => []) :=
      Declare.flatMap d.fields fun f hf => (hd.fields f hf).declare_render hs hindent
    rwa [List.flatMap_eq_nil_iff.2 fun _ _ => rfl] at h
  have hmethods : Declare around (d.methods.flatMap (Method.render s indent)) [] := by
    have h : Declare around (d.methods.flatMap (Method.render s indent))
        (d.methods.flatMap fun _ => []) :=
      Declare.flatMap d.methods fun m hm => (hd.methods m hm).declare_render hs hindent
    rwa [List.flatMap_eq_nil_iff.2 fun _ _ => rfl] at h
  unfold TypeDecl.memberLines
  cases d.kind with
  | interface => exact Declare.nil.append hmethods
  | class_ => exact hfields.append hmethods

-- ---------------------------------------------------------------------------
-- Types
-- ---------------------------------------------------------------------------

theorem oneLine_enclosingReference? (hs : s.IsOneLine) {enclosing reference text : String}
    (henclosing : OneLine enclosing) (hreference : OneLine reference)
    (h : enclosingReference? s enclosing reference = some text) : OneLine text := by
  unfold enclosingReference? at h
  split at h
  · split at h
    · exact Option.some.inj h ▸ henclosing
    · simp at h
  · rename_i base opened hsplit
    have hopened : '\n' ∉ opened := fun hc => by
      refine hreference ?_
      rw [Text.eq_append_of_splitFirst? hsplit]
      exact List.mem_append_right _ (List.mem_cons_of_mem _ hc)
    split at h
    · simp at h
    · split at h
      · exact Option.some.inj h ▸ henclosing
      · rename_i arguments harguments
        obtain rfl := Option.some.inj h
        refine ((henclosing.append (by decide)).append
          (oneLine_intercalate (by decide) fun t ht => ?_)).append (by decide)
        obtain ⟨a, ha, rfl⟩ := List.mem_map.1 ht
        refine Scope.oneLine_convert hs (oneLine_ofList fun hc => hopened ?_)
        rw [Text.beforeSuffix?_eq_some_iff.1 harguments]
        exact List.mem_append_left _ ((Text.sublist_of_mem_splitTopLevel ha).subset hc)

theorem oneLine_superType (hs : s.IsOneLine) {enclosing : Option String}
    (henclosing : ∀ e ∈ enclosing, OneLine e) {reference : String}
    (hreference : OneLine reference) :
    OneLine (superType s enclosing reference) := by
  cases enclosing with
  | none => exact Scope.oneLine_convert hs hreference
  | some outer =>
    show OneLine ((enclosingReference? s outer reference).getD (s.convert reference))
    cases h : enclosingReference? s outer reference with
    | none => exact Scope.oneLine_convert hs hreference
    | some text => exact oneLine_enclosingReference? hs (henclosing outer rfl) hreference h

theorem TypeDecl.oneLine_superTypeList {d : TypeDecl} (hd : d.Writable) :
    ∀ t ∈ d.superTypeList, OneLine t := by
  intro t ht
  unfold TypeDecl.superTypeList at ht
  split at ht
  · rename_i text htext
    obtain ⟨p, hp, rfl⟩ := List.mem_map.1 ht
    exact oneLine_ofList fun hc =>
      hd.superTypes text htext ((Text.sublist_of_mem_splitTopLevel hp).subset hc)
  · simp at ht

theorem oneLine_keyword (kind : TypeKind) : OneLine kind.keyword := by
  cases kind <;> decide

/-- The name of a declaration ends before its type parameters or the space after it. -/
theorem TypeOutline.Writable.ofLine_export {o : TypeOutline} (ho : o.Writable)
    (hindent : IsIndent indent) {word : Text} (hword : ' ' ∉ word) (rest : Text) :
    LineKind.ofLine (indent.toList ++ ("export ".toList ++ (word ++ ' ' :: (o.name.toList ++
      ((o.typeParameters.getD "").toList ++ ' ' :: rest))))) = .ofWord word o.name := by
  refine LineKind.ofLine_export hindent hword ho.name ?_
  obtain ⟨d, ds, hds, hd, -⟩ := head_getD_append ho.typeParameters (c := ' ') (by decide) rest
  rw [hds]
  simpa using hd

theorem TypeDecl.declare_aliasLine {d : TypeDecl} (hd : d.Writable) (hs : s.IsOneLine)
    (hindent : IsIndent indent) {enclosing : Option String}
    (henclosing : ∀ e ∈ enclosing, OneLine e) :
    Declare around [d.aliasLine s indent enclosing] [around ++ [d.name]] := by
  have hsupers : OneLine (String.intercalate " & " (d.superTypeList.map (superType s enclosing))) :=
    oneLine_intercalate (by decide) fun t ht => by
      obtain ⟨u, hu, rfl⟩ := List.mem_map.1 ht
      exact oneLine_superType hs henclosing (TypeDecl.oneLine_superTypeList hd u hu)
  unfold TypeDecl.aliasLine
  generalize String.intercalate " & " (d.superTypeList.map (superType s enclosing)) = supers
    at hsupers
  refine .aliases ?_ ?_
  · exact (((((hindent.oneLine.append (by decide)).append hd.name.oneLine).append
      (oneLine_getD hd.typeParameters)).append (by decide)).append hsupers).append (by decide)
  · have htext : (indent ++ "export type " ++ d.name ++ d.typeParameters.getD "" ++ " = " ++
        supers ++ ";").toList = indent.toList ++ ("export ".toList ++ ("type".toList ++ ' ' ::
          (d.name.toList ++ ((d.typeParameters.getD "").toList ++ ' ' ::
            ('=' :: ' ' :: (supers ++ ";").toList))))) := by
      have hexport : "export type ".toList = "export ".toList ++ ("type".toList ++ [' ']) := by
        decide
      have hequals : " = ".toList = [' ', '=', ' '] := by decide
      simp only [String.toList_append, hexport, hequals, List.append_assoc, List.cons_append,
        List.nil_append]
    rw [htext, hd.ofLine_export hindent (by decide)]
    rfl

/-- The supertypes of a declaration up to the brace. -/
def extendsClause (supers : List String) : String :=
  (if supers.isEmpty then "" else " extends " ++ String.intercalate ", " supers) ++ " \x7b"

theorem oneLine_extendsClause {supers : List String} (h : ∀ t ∈ supers, OneLine t) :
    OneLine (extendsClause supers) := by
  unfold extendsClause
  refine OneLine.append ?_ (by decide)
  split
  · decide
  · exact OneLine.append (by decide) (oneLine_intercalate (by decide) h)

theorem exists_extendsClause_eq (supers : List String) :
    ∃ rest, (extendsClause supers).toList = ' ' :: rest := by
  unfold extendsClause
  split
  · exact ⟨['{'], by decide⟩
  · have hlead : " extends ".toList = ' ' :: "extends ".toList := by decide
    rw [String.toList_append, String.toList_append, hlead]
    exact ⟨_, rfl⟩

theorem TypeDecl.openingLine_eq (d : TypeDecl) (enclosing : Option String) :
    d.openingLine s indent enclosing = indent ++ "export " ++ d.kind.keyword ++ " " ++ d.name ++
      d.typeParameters.getD "" ++ extendsClause (d.renderedSuperTypes s enclosing) := by
  unfold TypeDecl.openingLine extendsClause
  rw [← String.append_assoc]

theorem TypeDecl.oneLine_renderedSuperTypes {d : TypeDecl} (hd : d.Writable) (hs : s.IsOneLine)
    {enclosing : Option String} (henclosing : ∀ e ∈ enclosing, OneLine e) :
    ∀ t ∈ d.renderedSuperTypes s enclosing, OneLine t := by
  intro t ht
  obtain ⟨u, hu, rfl⟩ : ∃ u ∈ d.superTypeList, superType s enclosing u = t := by
    unfold TypeDecl.renderedSuperTypes at ht
    split at ht
    · exact List.mem_map.1 ht
    · obtain ⟨u, hu, h⟩ := List.mem_map.1 ht
      exact ⟨u, List.mem_of_mem_take hu, h⟩
  exact oneLine_superType hs henclosing (TypeDecl.oneLine_superTypeList hd u hu)

theorem TypeDecl.ofLine_openingLine {d : TypeDecl} (hd : d.Writable) (hindent : IsIndent indent)
    (enclosing : Option String) :
    LineKind.ofLine (d.openingLine s indent enclosing).toList = .declares d.name := by
  obtain ⟨rest, hrest⟩ := exists_extendsClause_eq (d.renderedSuperTypes s enclosing)
  have hspace : " ".toList = [' '] := by decide
  have hword : ' ' ∉ d.kind.keyword.toList ∧
      LineKind.ofWord d.kind.keyword.toList d.name = .declares d.name := by
    cases d.kind with
    | interface => exact ⟨by decide, rfl⟩
    | class_ => exact ⟨by decide, rfl⟩
  rw [TypeDecl.openingLine_eq]
  simp only [String.toList_append, hrest, hspace, List.append_assoc, List.cons_append,
    List.nil_append]
  rw [hd.ofLine_export hindent hword.1, hword.2]

theorem TypeDecl.declare_ownLines {d : TypeDecl} (hd : d.Writable) (hs : s.IsOneLine)
    (hindent : IsIndent indent) {enclosing : Option String}
    (henclosing : ∀ e ∈ enclosing, OneLine e) :
    Declare around (d.ownLines s indent enclosing) [around ++ [d.name]] := by
  unfold TypeDecl.ownLines
  rw [hd.doc]
  refine Declare.nil.append ?_
  split
  · exact TypeDecl.declare_aliasLine hd hs hindent henclosing
  · refine .members ?_ (hindent.oneLine.append (by decide))
      (TypeDecl.ofLine_openingLine hd hindent enclosing) (LineKind.ofLine_brace hindent)
      (TypeDecl.declare_memberLines hd hs hindent.deeper)
    rw [TypeDecl.openingLine_eq]
    exact (((((hindent.oneLine.append (by decide)).append (oneLine_keyword d.kind)).append
      (by decide)).append hd.name.oneLine).append (oneLine_getD hd.typeParameters)).append
      (oneLine_extendsClause (TypeDecl.oneLine_renderedSuperTypes hd hs henclosing))

/-- A namespace around the lines of nested types. -/
theorem declare_namespace {name : String} (hname : IsIdentifier name) (hindent : IsIndent indent)
    {lines : List String} {paths : List (List String)}
    (h : Declare (around ++ [name]) lines paths) :
    Declare around ((indent ++ "export namespace " ++ name ++ " \x7b") :: lines ++
      [indent ++ "\x7d"]) paths := by
  refine .space ?_ (hindent.oneLine.append (by decide)) ?_ (LineKind.ofLine_brace hindent) h
  · exact ((hindent.oneLine.append (by decide)).append hname.oneLine).append (by decide)
  · have htext : (indent ++ "export namespace " ++ name ++ " \x7b").toList =
        indent.toList ++ ("export ".toList ++ ("namespace".toList ++ ' ' ::
          (name.toList ++ [' ', '{']))) := by
      have hexport : "export namespace ".toList =
          "export ".toList ++ ("namespace".toList ++ [' ']) := by decide
      have hbrace : " \x7b".toList = [' ', '{'] := by decide
      simp only [String.toList_append, hexport, hbrace, List.append_assoc, List.cons_append,
        List.nil_append]
    rw [htext, LineKind.ofLine_export hindent (by decide) hname (by decide)]
    rfl

end Lines

mutual

/-- What is written for a declaration declares it and the types nested in it, outer before
inner. -/
theorem TypeDecl.declare_render {s : Scope} (hs : s.IsOneLine) {indent : String}
    (hindent : IsIndent indent) {enclosing : Option String}
    (henclosing : ∀ e ∈ enclosing, OneLine e)
    (around : List String) :
    ∀ d : TypeDecl, (∀ p ∈ d.placed around, p.decl.Writable) →
      Declare around (d.render s indent enclosing) ((d.placed around).map Placed.path)
  | ⟨o, nested⟩, hd => by
    let d : TypeDecl := ⟨o, nested⟩
    simp only [TypeDecl.placed, List.mem_cons, forall_eq_or_imp] at hd
    obtain ⟨hown, hnested⟩ := hd
    have hscope := hs.withGenerics d.typeParameterNames
    have hlines : Declare around
        (d.ownLines (s.withGenerics d.typeParameterNames) indent enclosing) [around ++ [d.name]] :=
      TypeDecl.declare_ownLines hown hscope hindent henclosing
    simp only [TypeDecl.render, TypeDecl.placed, List.map_cons]
    refine hlines.append ?_
    cases nested with
    | nil => exact .nil
    | cons sub subs =>
      exact Declare.empty.append (declare_namespace hown.name hindent
        (TypeDecl.declare_renderNested hscope hindent.deeper hown.name.oneLine _ (sub :: subs)
          hnested))

theorem TypeDecl.declare_renderNested {s : Scope} (hs : s.IsOneLine) {indent outer : String}
    (hindent : IsIndent indent) (houter : OneLine outer) (around : List String) :
    ∀ ds : List TypeDecl, (∀ p ∈ TypeDecl.placedAll around ds, p.decl.Writable) →
      Declare around (TypeDecl.renderNested s indent outer ds)
        ((TypeDecl.placedAll around ds).map Placed.path)
  | [], _ => by
    simp only [TypeDecl.renderNested, TypeDecl.placedAll]
    exact .nil
  | d :: ds, hds => by
    simp only [TypeDecl.placedAll, List.mem_append, or_imp, forall_and] at hds
    simp only [TypeDecl.renderNested, TypeDecl.placedAll, List.map_append]
    have henclosing : ∀ e ∈ some outer, OneLine e := by simpa using houter
    refine (TypeDecl.declare_render hs hindent henclosing around d hds.1).append ?_
    have hrest := TypeDecl.declare_renderNested hs hindent houter around ds hds.2
    cases ds with
    | nil => exact hrest
    | cons d' ds => exact Declare.empty.append hrest

end

-- ---------------------------------------------------------------------------
-- Names known in a file
-- ---------------------------------------------------------------------------

namespace SourceFile

variable {f : SourceFile}

theorem Writable.isIdentifier_of_mem_path (hf : f.Writable) {p : Placed} (hp : p ∈ f.placed) :
    ∀ n ∈ p.path, IsIdentifier n :=
  TypeDecl.forall_mem_path_placedAll (by simp) f.types (fun p hp => (hf.types p hp).name) p hp

theorem Writable.localPathsAll_eq (hf : f.Writable) :
    TypeDecl.localPathsAll "" f.types = f.placed.map Placed.entry := by
  rw [TypeDecl.localPathsAll_eq_map]
  refine List.map_congr_left fun p hp => congrArg (p.decl.name, ·)
    (p.localPath_eq_dotted fun n hn => ?_)
  exact (hf.isIdentifier_of_mem_path hp n hn).ne_empty

/-- A name of the outermost level is listed twice, so the entries are those of the declarations. -/
theorem Writable.mem_localTypeNames (hf : f.Writable) {entry : String × String}
    (h : entry ∈ localTypeNames f.types) : ∃ p ∈ f.placed, p.entry = entry := by
  rcases List.mem_append.1 (mem_of_mem_firstEntries h) with h | h
  · obtain ⟨d, hd, rfl⟩ := List.mem_map.1 h
    refine ⟨⟨[], d⟩, ?_, by simp [Placed.entry, Placed.dotted, Placed.path]⟩
    rw [placed, TypeDecl.placedAll_eq_flatMap, List.mem_flatMap]
    exact ⟨d, hd, TypeDecl.mem_placed_self [] d⟩
  · exact List.mem_map.1 (hf.localPathsAll_eq ▸ h)

theorem Writable.mem_keys_localTypeNames (hf : f.Writable) {key : String} :
    key ∈ (localTypeNames f.types).map Prod.fst ↔ ∃ p ∈ f.placed, p.decl.name = key := by
  refine ⟨fun h => ?_, fun ⟨p, hp, hkey⟩ => ?_⟩
  · obtain ⟨entry, hentry, rfl⟩ := List.mem_map.1 h
    obtain ⟨p, hp, rfl⟩ := hf.mem_localTypeNames hentry
    exact ⟨p, hp, rfl⟩
  · refine mem_keys_firstEntries.2 (List.mem_map.2 ⟨p.entry, List.mem_append_right _ ?_, hkey⟩)
    exact hf.localPathsAll_eq ▸ List.mem_map_of_mem hp

theorem Writable.isOneLine_scope (hf : f.Writable) (path : String) (apiPackages : List String) :
    (Scope.ofFile f path apiPackages).IsOneLine where
  package := hf.package
  imports := hf.imports
  locals entry hentry := by
    obtain ⟨p, hp, rfl⟩ := hf.mem_localTypeNames hentry
    exact oneLine_intercalate (by decide) fun n hn => (hf.isIdentifier_of_mem_path hp n hn).oneLine

/-- The declaration file of a file declares the types of the file, outer before inner. -/
theorem Writable.declaredPaths_render (hf : f.Writable) {s : Scope} (hs : s.IsOneLine) :
    declaredPaths (f.render s) = f.placed.map Placed.path := by
  refine Declare.declaredPaths_unlines ?_
  have htitle : Declare [] ["// Type definitions for " ++ f.package] [] := by
    refine .other (OneLine.append (by decide) hf.package) ?_
    rw [String.toList_append]
    rfl
  have hnotice : Declare [] [notice] [] := .other (by decide) (by decide)
  have htypes : Declare [] (f.types.flatMap fun d => "" :: d.render s "" none)
      (f.types.flatMap fun d => (d.placed []).map Placed.path) := by
    refine Declare.flatMap f.types fun d hd => ?_
    refine Declare.empty.append (TypeDecl.declare_render hs (by simp [IsIndent]) (by simp) [] d
      fun p hp => hf.types p ?_)
    rw [placed, TypeDecl.placedAll_eq_flatMap]
    exact List.mem_flatMap.2 ⟨d, hd, hp⟩
  rw [placed, TypeDecl.placedAll_eq_flatMap, List.map_flatMap]
  exact htitle.append (hnotice.append htypes)

end SourceFile

-- ---------------------------------------------------------------------------
-- Agreement
-- ---------------------------------------------------------------------------

/-- The last segment of the dotted name of a record. -/
def TypeRecord.simpleName (r : TypeRecord) : String :=
  String.ofList ((r.name.toList.splitOn '.').getLastD [])

theorem Placed.simpleName_record {p : Placed} (h : ∀ n ∈ p.path, IsIdentifier n)
    (package filePath : String) : (p.record package filePath).simpleName = p.decl.name := by
  have hsplit : (p.record package filePath).name.toList.splitOn '.' = p.path.map String.toList := by
    show (String.intercalate "." p.path).toList.splitOn '.' = _
    have hdot : ".".toList = ['.'] := by decide
    rw [String.toList_intercalate, hdot]
    refine List.splitOn_intercalate _ (fun l hl => ?_) (by simp [Placed.path])
    obtain ⟨n, hn, rfl⟩ := List.mem_map.1 hl
    exact (h n hn).notMem (by decide)
  rw [TypeRecord.simpleName, hsplit]
  simp [Placed.path]

/-- For every catalog, a file with types is written and recorded alike: the new records are as many
as its declarations, their names are the paths that the written text declares, read top to bottom,
and those below the outermost level are marked. The names known in the file are the last segments
of the records, and whatever they stand for has been recorded. -/
theorem Catalog.emit_agrees (c : Catalog) (file : SourceFile) (path : String)
    (htypes : file.isEmpty = false) (hfile : file.Writable) :
    ∃ contents new,
      (c.emit file path).2 = some { path, contents } ∧
      (c.emit file path).1.types = c.types ++ new ∧
      new.length = file.typeCount ∧
      (∀ r ∈ new, r.filePath = path ∧ r.package = file.package) ∧
      new.map (·.name) = (declaredPaths contents).map (String.intercalate ".") ∧
      new.map (·.isNested) = (declaredPaths contents).map (fun p => decide (1 < p.length)) ∧
      (∀ key, key ∈ (localTypeNames file.types).map Prod.fst ↔ ∃ r ∈ new, r.simpleName = key) ∧
      (∀ entry ∈ localTypeNames file.types, ∃ r ∈ new, r.name = entry.2) ∧
      ∀ name target, (Scope.ofFile file path c.config.apiPackages).localType? name = some target →
        ∃ r ∈ new, r.name = target := by
  let scope := Scope.ofFile file path c.config.apiPackages
  have hscope : scope.IsOneLine := hfile.isOneLine_scope path _
  have hpaths : declaredPaths (file.render scope) = file.placed.map Placed.path :=
    hfile.declaredPaths_render hscope
  have hvalues : ∀ entry ∈ localTypeNames file.types,
      ∃ r ∈ file.placed.map (Placed.record file.package path), r.name = entry.2 := by
    intro entry hentry
    obtain ⟨p, hp, rfl⟩ := hfile.mem_localTypeNames hentry
    exact ⟨_, List.mem_map_of_mem hp, rfl⟩
  refine ⟨file.render scope, file.placed.map (Placed.record file.package path), ?_,
    c.types_emit file path, ?_, ?_, ?_, ?_, fun key => ?_, hvalues, fun name target h => ?_⟩
  · simp [Catalog.emit, Catalog.outputFor?, htypes, scope]
  · rw [List.length_map]
    exact TypeDecl.length_placedAll [] file.types
  · intro r hr
    obtain ⟨p, -, rfl⟩ := List.mem_map.1 hr
    exact ⟨rfl, rfl⟩
  · rw [hpaths, List.map_map, List.map_map]
    rfl
  · rw [hpaths, List.map_map, List.map_map]
    refine List.map_congr_left fun p _ => ?_
    cases hp : p.around <;> simp [Placed.record, Placed.isNested, Placed.path, hp]
  · rw [hfile.mem_keys_localTypeNames]
    have hname : ∀ p ∈ file.placed, (p.record file.package path).simpleName = p.decl.name :=
      fun p hp => Placed.simpleName_record (hfile.isIdentifier_of_mem_path hp) _ _
    constructor
    · rintro ⟨p, hp, rfl⟩
      exact ⟨_, List.mem_map_of_mem hp, hname p hp⟩
    · rintro ⟨r, hr, rfl⟩
      obtain ⟨p, hp, rfl⟩ := List.mem_map.1 hr
      exact ⟨p, hp, (hname p hp).symm⟩
  · obtain ⟨entry, hentry, rfl⟩ := Option.map_eq_some_iff.1 h
    exact hvalues entry (List.mem_of_find?_eq_some hentry)

/-- An interface with a marker, a class and, inside that, a class of the name of the interface. -/
def eventsFile : SourceFile :=
  { package := "com.example", imports := [{ path := "java.util.List" }]
    types := [⟨{ name := "Events", kind := .interface, typeParameters := some "<T extends Node>"
                 methods := [{ name := "export", returnType := "void", typeParameters := some "<E>"
                               parameters := [{ name := "in", typeName := "List<E>" }] }] },
      [⟨{ name := "Start", kind := .interface, superTypes := some "Events<T>" }, []⟩,
       ⟨{ name := "Node", kind := .class_, fields := [{ name := "next", typeName := "Node" }] },
        [⟨{ name := "Events", kind := .class_ }, []⟩]⟩]⟩] }

theorem emit_agrees_eventsFile :
    eventsFile.isEmpty = false ∧ eventsFile.Writable ∧
    ∃ contents, (({ config := {} } : Catalog).emit eventsFile "com/example/Events.d.ts").2 =
        some { path := "com/example/Events.d.ts", contents } ∧
      (declaredPaths contents).map (String.intercalate ".") =
        ["Events", "Events.Start", "Events.Node", "Events.Node.Events"] := by
  have htypes : eventsFile.isEmpty = false := rfl
  have hfile : eventsFile.Writable := by decide
  obtain ⟨contents, new, houtput, hnew, -, -, hnames, -⟩ :=
    Catalog.emit_agrees { config := {} } eventsFile "com/example/Events.d.ts" htypes hfile
  refine ⟨htypes, hfile, contents, houtput, ?_⟩
  rw [← hnames]
  rw [List.nil_append] at hnew
  rw [← hnew]
  decide

end Typings
