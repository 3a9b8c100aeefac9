import Typings.Output.Doc
import Typings.Output.Reserved
import Typings.TypeExpr.Convert

/-!
# Declaration files

The lines of the declaration file for a Java file. Nested types go into a namespace of the name of
the type around them. A nested type that only extends something becomes an alias.
-/

namespace Typings

/-- The second line of every declaration file. -/
def notice : String := "// Generated by javadecl from Java sources. Do not edit."

/-- One more level of indentation. -/
def deeper (indent : String) : String := indent ++ "    "

/-- The lines of a documentation comment; none without one. -/
def docLinesOf (indent : String) : Option String → List String
  | some doc => (docLines indent.toList doc.toList).map String.ofList
  | none => []

-- ---------------------------------------------------------------------------
-- Members
-- ---------------------------------------------------------------------------

def Field.render (s : Scope) (indent : String) (f : Field) : List String :=
  docLinesOf indent f.doc ++ [indent ++ f.name ++ ": " ++ s.convert f.typeName ++ ";"]

/-- The name of a parameter; a reserved word gets an underscore. -/
def parameterName (name : String) : String := if isReserved name then name ++ "_" else name

def Parameter.render (s : Scope) (p : Parameter) : String :=
  (if p.isVarargs then "..." else "") ++ parameterName p.name ++ ": " ++ s.convert p.typeName

def Method.render (s : Scope) (indent : String) (m : Method) : List String :=
  let scope := s.withGenerics m.typeParameterNames
  docLinesOf indent m.doc ++
    [indent ++ m.name ++ m.typeParameters.getD "" ++ "(" ++
      String.intercalate ", " (m.parameters.map (Parameter.render scope)) ++ "): " ++
      scope.convert m.returnType ++ ";"]

-- ---------------------------------------------------------------------------
-- Supertypes
-- ---------------------------------------------------------------------------

/-- A reference to the type around a nested type, with its type arguments if it has some. -/
def enclosingReference? (s : Scope) (enclosing reference : String) : Option String :=
  match Text.splitFirst? '<' reference.toList with
  | none => if Text.trim reference.toList = enclosing.toList then some enclosing else none
  | some (base, opened) =>
    if Text.trim base ≠ enclosing.toList then none
    else
      match Text.beforeSuffix? ['>'] opened with
      | none => some enclosing
      | some arguments =>
        let converted := (Text.splitTopLevel ',' arguments).map fun a => s.convert (String.ofList a)
        some (enclosing ++ "<" ++ String.intercalate ", " converted ++ ">")

/-- The TypeScript type for a supertype. The type around a nested type keeps its plain name. -/
def superType (s : Scope) (enclosing : Option String) (reference : String) : String :=
  match enclosing with
  | none => s.convert reference
  | some outer => (enclosingReference? s outer reference).getD (s.convert reference)

/-- The supertypes that a declaration is written with: a class extends at most one type, and what
it implements is left out. -/
def TypeDecl.renderedSuperTypes (s : Scope) (enclosing : Option String) (d : TypeDecl) :
    List String :=
  match d.kind with
  | .interface => d.superTypeList.map (superType s enclosing)
  | .class_ => (d.superTypeList.take 1).map (superType s enclosing)

-- ---------------------------------------------------------------------------
-- Types
-- ---------------------------------------------------------------------------

/-- The line of an alias for a nested type that only extends something. -/
def TypeDecl.aliasLine (s : Scope) (indent : String) (enclosing : Option String) (d : TypeDecl) :
    String :=
  indent ++ "export type " ++ d.name ++ d.typeParameters.getD "" ++ " = " ++
    String.intercalate " & " (d.superTypeList.map (superType s enclosing)) ++ ";"

/-- The line that opens an interface or class. -/
def TypeDecl.openingLine (s : Scope) (indent : String) (enclosing : Option String)
    (d : TypeDecl) : String :=
  let supers := d.renderedSuperTypes s enclosing
  indent ++ "export " ++ d.kind.keyword ++ " " ++ d.name ++ d.typeParameters.getD "" ++
    (if supers.isEmpty then "" else " extends " ++ String.intercalate ", " supers) ++ " \x7b"

/-- The lines between the braces of an interface or class. -/
def TypeDecl.memberLines (s : Scope) (indent : String) (d : TypeDecl) : List String :=
  (match d.kind with
    | .interface => []
    | .class_ => d.fields.flatMap (Field.render s indent)) ++
    d.methods.flatMap (Method.render s indent)

/-- Whether a declaration is written as an alias. -/
def TypeDecl.isAlias (enclosing : Option String) (d : TypeDecl) : Bool :=
  enclosing.isSome && d.isMarker

/-- The lines of a declaration apart from the namespace of its nested types. -/
def TypeDecl.ownLines (s : Scope) (indent : String) (enclosing : Option String) (d : TypeDecl) :
    List String :=
  docLinesOf indent d.doc ++
    if d.isAlias enclosing then [d.aliasLine s indent enclosing]
    else d.openingLine s indent enclosing :: d.memberLines s (deeper indent) ++ [indent ++ "\x7d"]

mutual

/-- The lines of a declaration and of the types nested in it. Type parameters stay visible in
nested types. -/
def TypeDecl.render (s : Scope) (indent : String) (enclosing : Option String) :
    TypeDecl → List String
  | ⟨o, nested⟩ =>
    let d : TypeDecl := ⟨o, nested⟩
    let scope := s.withGenerics d.typeParameterNames
    d.ownLines scope indent enclosing ++
      if nested.isEmpty then []
      else
        "" :: (indent ++ "export namespace " ++ o.name ++ " \x7b") ::
          TypeDecl.renderNested scope (deeper indent) o.name nested ++ [indent ++ "\x7d"]

/-- The lines of nested declarations, with an empty line between two of them. -/
def TypeDecl.renderNested (s : Scope) (indent outer : String) : List TypeDecl → List String
  | [] => []
  | d :: rest =>
    d.render s indent (some outer) ++
      if rest.isEmpty then [] else "" :: TypeDecl.renderNested s indent outer rest

end

-- ---------------------------------------------------------------------------
-- Files
-- ---------------------------------------------------------------------------

/-- The text of lines, each with a newline after it. -/
def unlines (lines : List String) : String := String.join (lines.map (· ++ "\n"))

/-- The lines of the declaration file for a file. -/
def SourceFile.renderLines (s : Scope) (f : SourceFile) : List String :=
  ("// Type definitions for " ++ f.package) :: notice ::
    f.types.flatMap fun d => "" :: d.render s "" none

/-- The declaration file for a file. -/
def SourceFile.render (s : Scope) (f : SourceFile) : String := unlines (f.renderLines s)

end Typings
