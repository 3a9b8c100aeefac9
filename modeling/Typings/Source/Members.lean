import Typings.Source.Parameters

/-!
# Methods and fields

Finds the methods and fields in the text between the braces of a type, masked and with the
nested types blanked.
-/

namespace Typings.Source

open Declaration (Part)

/-- Words that can stand before a constructor and are no return type. -/
def modifierWords : List Text :=
  ["public", "protected", "private", "abstract", "static", "final", "synchronized", "native",
    "strictfp"].map String.toList

/-- Words that open declarations which are left out. -/
def declarationWords : List Text := ["record", "enum"].map String.toList

/-- Words of statements that look like a type. -/
def statementWords : List Text :=
  ["return", "if", "else", "for", "while", "switch", "case", "break", "continue", "throw", "try",
    "catch", "finally", "new", "this", "super"].map String.toList

/-- The documentation comment of a match, when documentation is wanted. -/
def docOf (includeDocs : Bool) (m : Match Part) : Option String :=
  if includeDocs then
    (m.get? .doc).map fun doc => String.ofList (Text.trimEnd doc.text)
  else none

-- ---------------------------------------------------------------------------
-- Methods
-- ---------------------------------------------------------------------------

/-- Whether the statement that holds an offset has an `=` before it. -/
def inInitializer (members : Text) (offset : Nat) : Bool :=
  ((Text.takeBytes offset members).reverse.takeWhile fun c =>
    !(c = ';' || c = '{' || c = '}')).contains '='

/-- The method that a match declares. A match whose return type is a modifier is a constructor,
and one in an initializer is a call. -/
def methodOf? (includeDocs : Bool) (members : Text) (m : Match Part) : Option Method :=
  let result := Text.compact (m.text .result)
  if modifierWords.contains result || statementWords.contains result ||
      declarationWords.contains result then none
  else if inInitializer members m.whole.start then none
  else some
    { name := String.ofList (m.text .name)
      returnType := String.ofList result
      typeParameters :=
        (m.get? .typeParameters).map fun text => String.ofList (Text.compact text.text)
      parameters := parameters (m.text .parameters)
      doc := docOf includeDocs m }

/-- The methods of a type. -/
def methods (includeDocs : Bool) (members : Text) : List Method :=
  (Declaration.method.allMatches members).filterMap (methodOf? includeDocs members)

-- ---------------------------------------------------------------------------
-- Fields
-- ---------------------------------------------------------------------------

/-- The type of a variable: the type of its declaration and the brackets after its name. -/
def variableType (base dimensions : Text) : Text := base ++ pairs (dimensions.count '[')

/-- The variables that follow the first one in a field declaration. The text starts after the
first variable, at its initializer when it has one. -/
def furtherVariables (hasInitializer : Bool) (rest : Text) : List (Match Part) :=
  let declarators := Text.splitTopLevel ',' (rest.takeWhile (· ≠ ';'))
  (declarators.drop (if hasInitializer then 1 else 0)).filterMap Declaration.declarator.firstMatch?

/-- The fields that a match declares: its own variable and those that follow it. -/
def fieldsOf (includeDocs : Bool) (members : Text) (m : Match Part) : List Field :=
  let base := Text.compact (m.text .fieldType)
  if statementWords.contains base then []
  else
    let last := m.whole.text.getLast?
    let further :=
      if last = some ';' then []
      else furtherVariables (last = some '=') (Text.dropBytes m.whole.stop members)
    (m :: further).map fun v =>
      { name := String.ofList (v.text .name)
        typeName := String.ofList (variableType base (v.text .dimensions))
        doc := docOf includeDocs m }

/-- The fields of a class. -/
def fields (includeDocs : Bool) (members : Text) : List Field :=
  (Declaration.field.allMatches members).flatMap (fieldsOf includeDocs members)

end Typings.Source
