import Typings.Model.Basic
import Typings.Output.ModulePath
import Typings.Text.Case

/-!
# What names mean in a file

A name in a Java file stands for a type parameter, a type declared in the file, an imported type,
a type of `java.lang`, or a type of the same package. Types of the API packages are written as
imports from the declaration file that holds them.
-/

namespace Typings

-- ---------------------------------------------------------------------------
-- Types of the file
-- ---------------------------------------------------------------------------

mutual

/-- Every type in declaration order, outer before inner: its name and its dotted path in the
file. -/
def TypeDecl.localPaths (outer : String) : TypeDecl → List (String × String)
  | ⟨o, nested⟩ =>
    let path := if outer = "" then o.name else outer ++ "." ++ o.name
    (o.name, path) :: TypeDecl.localPathsAll path nested

def TypeDecl.localPathsAll (outer : String) : List TypeDecl → List (String × String)
  | [] => []
  | d :: ds => d.localPaths outer ++ TypeDecl.localPathsAll outer ds

end

/-- The entries whose key no earlier entry has. -/
def firstEntries : List (String × String) → List (String × String)
  | [] => []
  | (key, value) :: rest => (key, value) :: (firstEntries rest).filter (·.1 ≠ key)

/-- The dotted path in the file for each name that it declares. A name of the outermost level
stands for the type of that level, any other for the first type of that name. -/
def localTypeNames (types : List TypeDecl) : List (String × String) :=
  firstEntries (types.map (fun d => (d.name, d.name)) ++ TypeDecl.localPathsAll "" types)

-- ---------------------------------------------------------------------------
-- Scopes
-- ---------------------------------------------------------------------------

/-- All that the meaning of a name depends on. -/
structure Scope where
  file : SourceFile
  /-- The declaration file that is written. -/
  outputPath : String
  apiPackages : List String
  /-- The types that the file declares. -/
  localTypes : List (String × String)
  /-- The type parameters that are visible. -/
  generics : List String := []
deriving Repr, Inhabited

/-- Types of `java.lang` that need no import. -/
def javaLang : List String :=
  ["AutoCloseable", "CharSequence", "Class", "Cloneable", "Comparable", "Enum", "Error",
    "Exception", "Iterable", "Number", "Record", "Runnable", "RuntimeException", "StringBuilder",
    "Thread", "Throwable", "Void"]

/-- A dotted name as its first segment and the rest. -/
def splitHead (name : String) : String × Option String :=
  match Text.splitFirst? '.' name.toList with
  | some (head, rest) => (String.ofList head, some (String.ofList rest))
  | none => (name, none)

/-- A path and, when there is one, a rest after a dot. -/
def withRest (path : String) : Option String → String
  | some rest => path ++ "." ++ rest
  | none => path

namespace Scope

/-- The scope of the outermost types of a file. -/
def ofFile (file : SourceFile) (outputPath : String) (apiPackages : List String) : Scope :=
  { file, outputPath, apiPackages, localTypes := localTypeNames file.types }

/-- The scope with further type parameters. -/
def withGenerics (s : Scope) (names : List String) : Scope :=
  { s with generics := s.generics ++ names }

/-- The dotted path of a type declared in the file. -/
def localType? (s : Scope) (name : String) : Option String :=
  (s.localTypes.find? fun entry => entry.1 == name).map (·.2)

/-- The dotted path, from the root of all packages, of a name that the file does not declare. -/
def qualify (s : Scope) (head : String) (rest : Option String) : String :=
  match s.file.resolveImport? head with
  | some path => withRest path rest
  | none =>
    if rest.isSome && head.toList.head?.any Text.isLower then withRest head rest
    else if rest.isNone && javaLang.contains head then "java.lang." ++ head
    else withRest (s.file.qualify head) rest

/-- A package name without the dots at its end. -/
def trimDots (package : Text) : Text := (package.reverse.dropWhile (· = '.')).reverse

/-- Whether a dotted path lies in an API package. -/
def isApi (s : Scope) (path : String) : Bool :=
  s.apiPackages.any fun package =>
    match Text.afterPrefix? (trimDots package.toList) path.toList with
    | some rest => rest.head? = some '.'
    | none => false

/-- The import of a type with a dotted path. The first segment with an upper-case initial names
the file, and later segments the type inside it. -/
def importOf? (s : Scope) (path : String) : Option String :=
  let parts := path.toList.splitOn '.'
  let packages := parts.takeWhile fun p => !p.head?.any Text.isUpper
  let types := (parts.dropWhile fun p => !p.head?.any Text.isUpper).map String.ofList
  match types with
  | [] => none
  | type :: _ =>
    let target :=
      ModulePath.ofDotted (String.intercalate "." (packages.map String.ofList ++ [type]))
    some ("import(\"" ++ ModulePath.relative s.outputPath target ++ "\")." ++
      String.intercalate "." types)

/-- The text that stands for a dotted name that is not in the file. -/
def foreignName (s : Scope) (name path : String) : String :=
  match if s.isApi path then s.importOf? path else none with
  | some reference => reference
  | none => if Text.startsWith "java.".toList path.toList then "Java." ++ path else name

/-- The text that stands for a dotted name. -/
def resolve (s : Scope) (name : String) : String :=
  if s.generics.contains name then name
  else
    let (head, rest) := splitHead name
    match s.localType? head with
    | some path => withRest path rest
    | none => s.foreignName name (s.qualify head rest)

end Scope

end Typings
