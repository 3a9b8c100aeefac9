import Typings.Text.Split

/-!
# The declarations of a Java file

What is known of a Java file: its package, its imports and the interfaces and classes it
declares, with their methods, fields and nested types. Types are kept as the text of a Java type
expression.
-/

namespace Typings

-- ---------------------------------------------------------------------------
-- Parts of a declaration
-- ---------------------------------------------------------------------------

/-- An import. The path of a wildcard import does not include the `.*`. -/
structure Import where
  path : String
  isStatic : Bool := false
  isWildcard : Bool := false
deriving Repr, DecidableEq, Inhabited

/-- The last segment of the path. -/
def Import.simpleName (i : Import) : String :=
  match Text.splitLast? '.' i.path.toList with
  | some (_, last) => String.ofList last
  | none => i.path

/-- A parameter. The type of a parameter declared with `...` is an array. -/
structure Parameter where
  name : String
  typeName : String
  isVarargs : Bool := false
deriving Repr, DecidableEq, Inhabited

/-- A method. Its type parameters are kept with their angle brackets. -/
structure Method where
  name : String
  returnType : String
  typeParameters : Option String := none
  parameters : List Parameter := []
  doc : Option String := none
deriving Repr, DecidableEq, Inhabited

structure Field where
  name : String
  typeName : String
  doc : Option String := none
deriving Repr, DecidableEq, Inhabited

inductive TypeKind where
  | interface
  | class_
deriving Repr, DecidableEq, Inhabited

/-- The word that declares a type of a kind. -/
def TypeKind.keyword : TypeKind → String
  | .interface => "interface"
  | .class_ => "class"

/-- The kind of type that a word declares. -/
def TypeKind.ofKeyword? (word : String) : Option TypeKind :=
  if word = "interface" then some .interface
  else if word = "class" then some .class_
  else none

theorem TypeKind.ofKeyword?_eq_some_iff {word : String} {kind : TypeKind} :
    TypeKind.ofKeyword? word = some kind ↔ word = kind.keyword := by
  unfold TypeKind.ofKeyword?
  cases kind <;> split <;> simp_all [TypeKind.keyword]

/-- The names that type-parameter text declares; none without such text. -/
def declaredNames (typeParameters : Option String) : List String :=
  match typeParameters with
  | some text => (Text.typeParameterNames text.toList).map String.ofList
  | none => []

def Method.typeParameterNames (m : Method) : List String := declaredNames m.typeParameters

-- ---------------------------------------------------------------------------
-- Type declarations
-- ---------------------------------------------------------------------------

/-- What a type declares apart from its nested types. -/
structure TypeOutline where
  name : String
  kind : TypeKind
  isAbstract : Bool := false
  /-- With the angle brackets. -/
  typeParameters : Option String := none
  /-- The text after the keyword `extends`. -/
  superTypes : Option String := none
  /-- The text after the keyword `implements`. -/
  interfaces : Option String := none
  doc : Option String := none
  methods : List Method := []
  fields : List Field := []
deriving Repr, DecidableEq, Inhabited

/-- An interface or class with the types nested in it. -/
structure TypeDecl extends TypeOutline where
  nested : List TypeDecl := []
deriving Repr, Inhabited

namespace TypeDecl

mutual

/-- Decides whether two declarations are equal. -/
def decEq : (a b : TypeDecl) → Decidable (a = b)
  | ⟨o, ns⟩, ⟨p, ms⟩ =>
    match instDecidableEqTypeOutline o p, decEqList ns ms with
    | .isTrue h, .isTrue k => .isTrue (by rw [h, k])
    | .isFalse h, _ => .isFalse fun e => h (by injection e)
    | _, .isFalse k => .isFalse fun e => k (by injection e)

/-- Decides whether two lists of declarations are equal. -/
def decEqList : (as bs : List TypeDecl) → Decidable (as = bs)
  | [], [] => .isTrue rfl
  | [], _ :: _ => .isFalse nofun
  | _ :: _, [] => .isFalse nofun
  | a :: as, b :: bs =>
    match decEq a b, decEqList as bs with
    | .isTrue h, .isTrue k => .isTrue (by rw [h, k])
    | .isFalse h, _ => .isFalse fun e => h (by injection e)
    | _, .isFalse k => .isFalse fun e => k (by injection e)

end

instance : DecidableEq TypeDecl := decEq

/-- A declaration without members. -/
def ofKind (kind : TypeKind) (name : String) : TypeDecl := { name, kind }

/-- Sets the fields; an interface has none and stays as it is. -/
def withFields (d : TypeDecl) (fields : List Field) : TypeDecl :=
  match d.kind with
  | .interface => d
  | .class_ => { d with fields }

/-- A declaration that only extends something. -/
def isMarker (d : TypeDecl) : Bool :=
  d.methods.isEmpty && d.fields.isEmpty && d.nested.isEmpty && d.superTypes.isSome

/-- The types that a declaration extends. -/
def superTypeList (d : TypeDecl) : List String :=
  match d.superTypes with
  | some text => (Text.splitTopLevel ',' text.toList).map String.ofList
  | none => []

def typeParameterNames (d : TypeDecl) : List String := declaredNames d.typeParameters

mutual

/-- Number of declarations, the declaration itself and all nested ones. -/
def typeCount : TypeDecl → Nat
  | ⟨_, nested⟩ => 1 + typeCountList nested

def typeCountList : List TypeDecl → Nat
  | [] => 0
  | d :: ds => d.typeCount + typeCountList ds

end

mutual

/-- Number of methods, those of nested declarations included. -/
def methodCount : TypeDecl → Nat
  | ⟨outline, nested⟩ => outline.methods.length + methodCountList nested

def methodCountList : List TypeDecl → Nat
  | [] => 0
  | d :: ds => d.methodCount + methodCountList ds

end

end TypeDecl

-- ---------------------------------------------------------------------------
-- Files
-- ---------------------------------------------------------------------------

/-- A Java file: its package, empty for the unnamed one, its imports in order and its public
types. -/
structure SourceFile where
  package : String := ""
  imports : List Import := []
  types : List TypeDecl := []
deriving Repr, DecidableEq, Inhabited

namespace SourceFile

/-- Whether a file declares no type, so that nothing is written for it. -/
def isEmpty (f : SourceFile) : Bool := f.types.isEmpty

def typeCount (f : SourceFile) : Nat := TypeDecl.typeCountList f.types

def methodCount (f : SourceFile) : Nat := TypeDecl.methodCountList f.types

/-- The path that a simple name is imported from: that of the last import of it that is neither
static nor a wildcard. -/
def resolveImport? (f : SourceFile) (name : String) : Option String :=
  (f.imports.reverse.find? fun i => !i.isStatic && !i.isWildcard && i.simpleName == name).map
    (·.path)

/-- The dotted path of a name declared in the package of the file. -/
def qualify (f : SourceFile) (name : String) : String :=
  if f.package = "" then name else f.package ++ "." ++ name

end SourceFile

end Typings
