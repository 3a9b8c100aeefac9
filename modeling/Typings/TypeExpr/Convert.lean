import Typings.TypeExpr.Basic
import Typings.TypeExpr.Scope

/-!
# TypeScript types for Java types

The TypeScript type that stands for a Java type. Primitive types and their wrappers become the
TypeScript primitives, collections become arrays, maps become records, and the functional
interfaces of Java become function types.
-/

namespace Typings

/-- The TypeScript type of a primitive type, a wrapper of one, `String` or `Object`. -/
def primitive? (name : String) : Option String :=
  if ["byte", "short", "int", "long", "float", "double", "Byte", "Short", "Integer", "Long",
      "Float", "Double"].contains name then some "number"
  else if ["boolean", "Boolean"].contains name then some "boolean"
  else if ["char", "Character", "String"].contains name then some "string"
  else if name = "Object" then some "any"
  else if name = "void" then some "void"
  else none

/-- The array of a type. A union or function type needs parentheses. -/
def arrayOf (element : String) : String :=
  if Text.contains " | ".toList element.toList || Text.contains "=>".toList element.toList then
    "(" ++ element ++ ")[]"
  else element ++ "[]"

-- ---------------------------------------------------------------------------
-- Well-known generic types
-- ---------------------------------------------------------------------------

/-- Generic types with a TypeScript form of their own. -/
inductive WellKnown where
  | collection
  | map
  | optional
  | consumer
  | supplier
  | predicate
  | function
  | biConsumer
  | biFunction
deriving Repr, DecidableEq, Inhabited

namespace WellKnown

/-- The well-known type with a simple name. -/
def ofName? (name : String) : Option WellKnown :=
  if ["List", "ArrayList", "LinkedList", "Collection", "Set", "HashSet", "Queue"].contains name
  then some .collection
  else if ["Map", "HashMap", "LinkedHashMap"].contains name then some .map
  else if name = "Optional" then some .optional
  else if name = "Consumer" then some .consumer
  else if name = "Supplier" then some .supplier
  else if name = "Predicate" then some .predicate
  else if name = "Function" then some .function
  else if name = "BiConsumer" then some .biConsumer
  else if name = "BiFunction" then some .biFunction
  else none

/-- The well-known type that the base of a generic type names, alone or in a package of
`java`. -/
def ofBase? (base : String) : Option WellKnown :=
  match Text.splitLast? '.' base.toList with
  | none => ofName? base
  | some (package, name) =>
    if Text.startsWith "java.".toList package then ofName? (String.ofList name) else none

/-- The TypeScript type for a well-known type, given those of its arguments. Missing arguments
are `any`; a map or function type with the wrong number of arguments forgets them all. -/
def render (w : WellKnown) (arguments : List String) : String :=
  let first := arguments.headD "any"
  match w with
  | .collection => arrayOf first
  | .map =>
    match arguments with
    | [key, value] => "Record<" ++ key ++ ", " ++ value ++ ">"
    | _ => "Record<any, any>"
  | .optional => first ++ " | null"
  | .consumer => "(arg0: " ++ first ++ ") => void"
  | .supplier => "() => " ++ first
  | .predicate => "(arg0: " ++ first ++ ") => boolean"
  | .function =>
    match arguments with
    | [a, b] => "(arg0: " ++ a ++ ") => " ++ b
    | _ => "(arg0: any) => any"
  | .biConsumer =>
    match arguments with
    | [a, b] => "(arg0: " ++ a ++ ", arg1: " ++ b ++ ") => void"
    | _ => "(arg0: any, arg1: any) => void"
  | .biFunction =>
    match arguments with
    | [a, b, c] => "(arg0: " ++ a ++ ", arg1: " ++ b ++ ") => " ++ c
    | _ => "(arg0: any, arg1: any) => any"

end WellKnown

-- ---------------------------------------------------------------------------
-- Conversion
-- ---------------------------------------------------------------------------

namespace Scope

/-- The TypeScript type for a name. -/
def nameType (s : Scope) (name : String) : String := (primitive? name).getD (s.resolve name)

/-- The TypeScript type for a generic type, given those of its arguments. An import carries no
type arguments. -/
def genericType (s : Scope) (base : String) (arguments : List String) : String :=
  match WellKnown.ofBase? base with
  | some w => w.render arguments
  | none =>
    let name := s.resolve base
    if Text.startsWith "import(".toList name.toList || arguments.isEmpty then name
    else name ++ "<" ++ String.intercalate ", " arguments ++ ">"

mutual

/-- The TypeScript type for a Java type. -/
def typeOf (s : Scope) : TypeExpr → String
  | .anything => "any"
  | .name text => s.nameType text
  | .bounded bound => s.typeOf bound
  | .array element => arrayOf (s.typeOf element)
  | .generic base arguments => s.genericType base (s.typesOf arguments)

def typesOf (s : Scope) : List TypeExpr → List String
  | [] => []
  | t :: ts => s.typeOf t :: s.typesOf ts

end

theorem typesOf_eq_map (s : Scope) (ts : List TypeExpr) : s.typesOf ts = ts.map s.typeOf := by
  induction ts with
  | nil => rfl
  | cons t ts ih => simp [typesOf, ih]

/-- The TypeScript type for the text of a Java type. -/
def convert (s : Scope) (text : String) : String := s.typeOf (.ofText text)

end Scope

end Typings
