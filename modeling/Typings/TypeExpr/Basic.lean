import Typings.Text.Split

/-!
# Java type expressions

The structure of the text of a Java type. Reading never fails: what has no other structure is a
name.
-/

namespace Typings

/-- A Java type expression. -/
inductive TypeExpr where
  /-- An unbounded wildcard, or no text at all. -/
  | anything
  | name (text : String)
  /-- A wildcard `? extends T` or `? super T`. -/
  | bounded (bound : TypeExpr)
  /-- `T[]` or `T...`. -/
  | array (element : TypeExpr)
  /-- `Base<T, U>`. -/
  | generic (base : String) (arguments : List TypeExpr)
deriving Repr, Inhabited

namespace TypeExpr

/-- The text of the bound of a bounded wildcard. -/
def boundText? (s : Text) : Option Text :=
  match Text.afterPrefix? "? extends ".toList s with
  | some bound => some bound
  | none => Text.afterPrefix? "? super ".toList s

/-- The text of the elements of an array type. -/
def elementText? (s : Text) : Option Text :=
  match Text.beforeSuffix? "[]".toList s with
  | some element => some element
  | none => Text.beforeSuffix? "...".toList s

/-- The text of the base and of the arguments of a generic type. -/
def genericText? (s : Text) : Option (Text × List Text) :=
  match Text.beforeSuffix? ['>'] s with
  | none => none
  | some opened =>
    match Text.splitFirst? '<' opened with
    | some (base, inside) => some (Text.trim base, Text.splitTopLevel ',' inside)
    | none => none

/-- Reads a type expression. Each part is shorter than the whole, so one more than the length of
the text is fuel enough. -/
def read : (fuel : Nat) → Text → TypeExpr
  | 0, _ => .anything
  | fuel + 1, raw =>
    let s := Text.trim raw
    if s.isEmpty || s = ['?'] then .anything
    else
      match boundText? s with
      | some bound => .bounded (read fuel bound)
      | none =>
        match elementText? s with
        | some element => .array (read fuel element)
        | none =>
          match genericText? s with
          | some (base, arguments) =>
            .generic (String.ofList base) (arguments.map (read fuel))
          | none => .name (String.ofList s)

/-- The type expression that a text spells. -/
def ofText (s : String) : TypeExpr := read (s.toList.length + 1) s.toList

end TypeExpr

end Typings
