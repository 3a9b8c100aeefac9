import Typings.Model.Basic
import Typings.Proofs.JavaType.Basic

/-!
# Printing declarations

Writes the declarations of a file as Java text, one line for each import, field and method, and says
which files can be written: their names are plain words, their types are written as in
`JavaType.text`, and nothing has documentation.
-/

namespace Typings

-- ---------------------------------------------------------------------------
-- Names and types
-- ---------------------------------------------------------------------------

/-- Words with a meaning in declarations and statements. Other keywords, such as those of the
primitive types, are read like names. -/
def declarationKeywords : List Text :=
  ["public", "protected", "private", "abstract", "static", "final", "sealed", "strictfp",
    "synchronized", "native", "default", "transient", "volatile", "package", "import", "interface",
    "class", "record", "enum", "extends", "implements", "permits", "return", "if", "else", "for",
    "while", "switch", "case", "break", "continue", "throw", "try", "catch", "finally", "new",
    "this", "super"].map String.toList

/-- Characters of a plain name. -/
def isPlainChar (c : Char) : Bool := c.isAlphanum || c = '_'

/-- A plain name: Latin letters, digits and underscores, no digit first and no reserved word. -/
def isName (s : Text) : Bool :=
  s.head?.any (!·.isDigit) && s.all isPlainChar && !declarationKeywords.contains s

def JavaName.isPlain (n : JavaName) : Bool := n.segments.all isName

mutual

/-- Whether the names in a type are plain. -/
def JavaType.isPlain : JavaType → Bool
  | .name n => n.isPlain
  | .array element => element.isPlain
  | .generic base arguments => base.isPlain && TypeArgument.arePlain arguments

def TypeArgument.isPlain : TypeArgument → Bool
  | .type t => t.isPlain
  | .wildcard => true
  | .bounded _ bound => bound.isPlain

def TypeArgument.arePlain : List TypeArgument → Bool
  | [] => true
  | a :: as => a.isPlain && TypeArgument.arePlain as

end

/-- The text of a dotted name. -/
def IsPath (s : Text) : Prop := ∃ n : JavaName, n.isPlain = true ∧ s = n.text

/-- The text of a type. -/
def IsTypeText (s : Text) : Prop := ∃ t : JavaType, t.isPlain = true ∧ s = t.text

/-- Types with commas between them, at least one. -/
def IsTypeList (s : Text) : Prop :=
  ∃ types, types ≠ [] ∧ (∀ t ∈ types, IsTypeText t) ∧ s = [',', ' '].intercalate types

/-- A type parameter and its bounds, as in `K extends A & B`. -/
structure BoundedName where
  name : Text
  bounds : List Text := []

def BoundedName.text (b : BoundedName) : Text :=
  match b.bounds with
  | [] => b.name
  | bounds => b.name ++ " extends ".toList ++ [' ', '&', ' '].intercalate bounds

structure BoundedName.IsPlain (b : BoundedName) : Prop where
  name : isName b.name = true
  bounds : ∀ t ∈ b.bounds, IsTypeText t

/-- Type parameters in angle brackets. -/
def IsTypeParameters (s : Text) : Prop :=
  ∃ entries : List BoundedName, (∀ e ∈ entries, e.IsPlain) ∧
    s = '<' :: ([',', ' '].intercalate (entries.map BoundedName.text) ++ ['>'])

-- ---------------------------------------------------------------------------
-- Text
-- ---------------------------------------------------------------------------

/-- The text of an optional part after a word. -/
def clauseText (lead : String) (text : Option String) : Text :=
  match text with
  | some s => lead.toList ++ s.toList
  | none => []

/-- `T name`, or `T... name` for a parameter of type `T[]` with any number of arguments. -/
def Parameter.print (p : Parameter) : Text :=
  match p.isVarargs, Text.beforeSuffix? "[]".toList p.typeName.toList with
  | true, some element => element ++ "...".toList ++ ' ' :: p.name.toList
  | _, _ => p.typeName.toList ++ ' ' :: p.name.toList

def Method.print (m : Method) : Text :=
  (match m.typeParameters with
    | some s => s.toList ++ [' ']
    | none => []) ++
    m.returnType.toList ++ ' ' :: m.name.toList ++ '(' ::
      [',', ' '].intercalate (m.parameters.map Parameter.print) ++ ");\n".toList

def Field.print (f : Field) : Text :=
  "public ".toList ++ f.typeName.toList ++ ' ' :: f.name.toList ++ ";\n".toList

namespace Import

/-- The word of a static import and the space after it. -/
def staticText (i : Import) : Text := if i.isStatic then "static".toList ++ [' '] else []

/-- What a wildcard import has after its path. -/
def wildcardText (i : Import) : Text := if i.isWildcard then ".*".toList else []

def print (i : Import) : Text :=
  "import".toList ++ ' ' :: (i.staticText ++ (i.path.toList ++ (i.wildcardText ++ [';', '\n'])))

end Import

namespace TypeOutline

/-- The header of a type up to its name. -/
def printOpening (top : Bool) (o : TypeOutline) : Text :=
  (if top then "public ".toList else []) ++ (if o.isAbstract then "abstract ".toList else []) ++
    o.kind.keyword.toList ++ ' ' :: o.name.toList

/-- The header of a type after its name, up to the brace. -/
def printTail (o : TypeOutline) : Text :=
  clauseText "" o.typeParameters ++ clauseText " extends " o.superTypes ++
    clauseText " implements " o.interfaces ++ [' ']

/-- The fields and methods of a type. -/
def printMembers (o : TypeOutline) : Text :=
  '\n' :: (o.fields.flatMap Field.print ++ o.methods.flatMap Method.print)

end TypeOutline

namespace TypeDecl

mutual

/-- The text of a type. Types at the top of a file are public. -/
def print (top : Bool) : TypeDecl → Text
  | ⟨o, nested⟩ =>
    o.printOpening top ++ o.printTail ++ '{' ::
      (o.printMembers ++ printAll false nested ++ ['}', '\n'])

def printAll (top : Bool) : List TypeDecl → Text
  | [] => []
  | d :: ds => print top d ++ printAll top ds

end

end TypeDecl

/-- The line of the package, none for the unnamed one. -/
def SourceFile.printPackage (f : SourceFile) : Text :=
  if f.package = "" then [] else "package".toList ++ ' ' :: (f.package.toList ++ [';', '\n'])

/-- The text of a file. -/
def SourceFile.print (f : SourceFile) : String :=
  String.ofList (f.printPackage ++ f.imports.flatMap Import.print ++ TypeDecl.printAll true f.types)

-- ---------------------------------------------------------------------------
-- What can be printed
-- ---------------------------------------------------------------------------

structure Parameter.Printable (p : Parameter) : Prop where
  name : isName p.name.toList = true
  type : IsTypeText p.typeName.toList
  /-- The type of a parameter with any number of arguments is an array. -/
  varargs : p.isVarargs = true →
    ∃ element, IsTypeText element ∧ p.typeName.toList = element ++ "[]".toList

structure Method.Printable (m : Method) : Prop where
  name : isName m.name.toList = true
  returnType : IsTypeText m.returnType.toList
  typeParameters : ∀ s ∈ m.typeParameters, IsTypeParameters s.toList
  parameters : ∀ p ∈ m.parameters, p.Printable
  doc : m.doc = none

structure Field.Printable (f : Field) : Prop where
  name : isName f.name.toList = true
  type : IsTypeText f.typeName.toList
  doc : f.doc = none

structure TypeOutline.Printable (o : TypeOutline) : Prop where
  name : isName o.name.toList = true
  typeParameters : ∀ s ∈ o.typeParameters, IsTypeParameters s.toList
  superTypes : ∀ s ∈ o.superTypes, IsTypeList s.toList
  interfaces : ∀ s ∈ o.interfaces, IsTypeList s.toList
  methods : ∀ m ∈ o.methods, m.Printable
  fields : ∀ f ∈ o.fields, f.Printable
  /-- Fields of interfaces are not kept. -/
  interface_fields : o.kind = .interface → o.fields = []
  doc : o.doc = none

inductive TypeDecl.Printable : TypeDecl → Prop where
  | mk {o : TypeOutline} {nested : List TypeDecl} (ho : o.Printable)
      (hnested : ∀ d ∈ nested, d.Printable) : TypeDecl.Printable ⟨o, nested⟩

structure SourceFile.Printable (f : SourceFile) : Prop where
  package : f.package = "" ∨ IsPath f.package.toList
  imports : ∀ i ∈ f.imports, IsPath i.path.toList
  types : ∀ d ∈ f.types, d.Printable

end Typings
