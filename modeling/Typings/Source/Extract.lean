import Typings.Source.Header
import Typings.Source.Mask
import Typings.Source.Members

/-!
# Extraction

Reads the declarations of a Java file. Text that is not recognised is passed over, so every text
gives some file. A type is found in the masked view of its level; its body is the next level.
-/

namespace Typings.Source

open Declaration (Part)

/-- Whether modifiers hold a word. -/
def hasModifier (modifiers : Text) (word : String) : Bool :=
  (Text.words modifiers).contains word.toList

/-- The outline of the type that a header match declares and the rest of its header. Prose in a
documentation comment and annotation types declare none; nor do types that are not public where
that is asked for. -/
def headerOf? (includeDocs publicOnly : Bool) (masked : Masked) (m : Match Part) :
    Option (TypeOutline × HeaderTail) := do
  let kindPart ← m.get? .kind
  let namePart ← m.get? .name
  let before := Text.takeBytes kindPart.start masked.text
  if masked.inDoc kindPart.start || before.getLast? = some '@' then none
  let modifiers := m.text .modifiers
  if publicOnly && !hasModifier modifiers "public" then none
  let kind ← TypeKind.ofKeyword? (String.ofList kindPart.text)
  let tail ←
    match headerTail masked.text namePart.stop with
    | .ok tail => tail
    | .error _ => none
  return (
    { name := String.ofList namePart.text
      kind
      isAbstract := hasModifier modifiers "abstract"
      typeParameters := tail.typeParameters.map String.ofList
      superTypes := tail.superTypes.map String.ofList
      interfaces := tail.interfaces.map String.ofList
      doc := docOf includeDocs m },
    tail)

/-- Completes a type with the members in the text between its braces and its nested types, each
with its span there. -/
def withBody (includeDocs : Bool) (outline : TypeOutline) (body : Text)
    (nested : List (TypeDecl × Span)) : TypeDecl :=
  let members := Text.blank (mask body).text (nested.map (·.2))
  { outline with
    methods := methods includeDocs members
    fields :=
      match outline.kind with
      | .interface => []
      | .class_ => fields includeDocs members
    nested := nested.map (·.1) }

/-- The types at the outer level of a text, each with its span from the documentation comment to
the closing brace. A type whose body is never closed has no members and reaches to the end. Each
body is shorter than the text around it, so one more than the length of the text is fuel
enough. -/
def typesIn (includeDocs : Bool) : (fuel : Nat) → (publicOnly : Bool) → Text →
    List (TypeDecl × Span)
  | 0, _, _ => []
  | fuel + 1, publicOnly, text =>
    let masked := mask text
    (Declaration.typeHeader.allMatches masked.text).filterMap fun m =>
      match headerOf? includeDocs publicOnly masked m with
      | none => none
      | some (outline, tail) =>
        match blockEnd? text tail.brace with
        | some close =>
          let body := Text.slice text (tail.brace + 1) close
          let nested := typesIn includeDocs fuel false body
          some (withBody includeDocs outline body nested, ⟨m.whole.start, close + 1⟩)
        | none => some ({ outline with }, ⟨m.whole.start, Text.byteLength text⟩)

/-- The package that a masked file declares, empty when it declares none. -/
def packageOf (masked : Text) : Text :=
  match Declaration.package.firstMatch? masked with
  | some m => m.text .package
  | none => []

/-- The import that a match declares. -/
def importOf (m : Match Part) : Import :=
  { path := String.ofList (m.text .path)
    isStatic := (m.get? .static).isSome
    isWildcard := (m.get? .wildcard).isSome }

/-- The declarations of a Java file. -/
def extract (includeDocs : Bool) (source : String) : SourceFile :=
  let text := source.toList
  let masked := (mask text).text
  { package := String.ofList (packageOf masked)
    imports := (Declaration.importLine.allMatches masked).map importOf
    types := (typesIn includeDocs (text.length + 1) true text).map (·.1) }

end Typings.Source
