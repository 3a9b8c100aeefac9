import Typings.Pattern.Search
import Typings.Text.Space

/-!
# Patterns of Java declarations

The shapes of package, import, type, method and field declarations. They are meant for masked
text, in which bodies, literals and ordinary comments are blank.
-/

namespace Typings.Declaration

/-- The parts of a declaration that patterns remember. -/
inductive Part where
  | package
  | static
  | path
  | wildcard
  | doc
  | modifiers
  | kind
  | name
  | typeParameters
  | result
  | parameters
  | visibility
  | fieldType
  | dimensions
deriving Repr, DecidableEq, Inhabited

/-- A pattern for part of a declaration. -/
abbrev Shape := Pattern Part

-- ---------------------------------------------------------------------------
-- Characters and names
-- ---------------------------------------------------------------------------

/-- Any one character but those of a text. -/
def except (chars : String) : Shape := .char fun c => !chars.toList.contains c

def spaces : Shape := .star (.char Text.isSpace)

def someSpaces : Shape := .plus (.char Text.isSpace)

def boundary : Shape := .anchor .wordBoundary

/-- Characters of a dotted name. -/
def dotted : Shape := .char fun c => Text.isWordChar c || c = '.'

/-- Characters of a dotted name that may hold dollar signs. -/
def dottedDollar : Shape := .char fun c => Text.isWordChar c || c = '$' || c = '.'

/-- A name: a Latin letter, underscore or dollar sign, then word characters and dollar signs. -/
def identifier : Shape :=
  .char (fun c => c.isAlpha || c = '_' || c = '$') ++
    .star (.char fun c => Text.isWordChar c || c = '$')

/-- One of the words, and the space after it. -/
def keyword (words : List String) : Shape := .oneOf words ++ someSpaces

/-- Text in which parentheses may be nested once. -/
def parenthesized : Shape :=
  .star (except "()" ||| .lit "(" ++ .star (except "()") ++ .lit ")")

/-- An annotation such as `@Name` or `@Name(...)`, and the space after it. -/
def annotationUse : Shape :=
  .lit "@" ++ .plus dotted ++ .opt (spaces ++ .lit "(" ++ parenthesized ++ .lit ")") ++ spaces

/-- A documentation comment and the space after it. -/
def docComment : Shape :=
  .lit "/**" ++
    .star (except "*" ||| .plus (.lit "*") ++ except "*/") ++
    .plus (.lit "*") ++ .lit "/" ++ spaces

/-- What may stand before the modifiers of a declaration. -/
def opening : Shape := .opt (.group .doc docComment) ++ .star annotationUse

/-- Angle brackets around text that holds none of the characters that end a declaration. -/
def angled : Shape := .lit "<" ++ .star (except "()\x7b\x7d;=") ++ .lit ">"

/-- A pair of square brackets. -/
def squarePair : Shape := .lit "[" ++ spaces ++ .lit "]"

/-- A type: a dotted name, type arguments and pairs of square brackets. -/
def typeText : Shape :=
  .plus dottedDollar ++ .opt (spaces ++ angled) ++ .star (spaces ++ squarePair)

/-- Pairs of square brackets after the name of a variable. -/
def dimensions : Shape := .group .dimensions (.star (squarePair ++ spaces))

-- ---------------------------------------------------------------------------
-- Declarations
-- ---------------------------------------------------------------------------

def package : Shape :=
  .anchor .lineStart ++ spaces ++ .lit "package" ++ someSpaces ++
    .group .package (.plus dotted) ++ spaces ++ .lit ";"

/-- `import a.b.C;`, `import static a.b.C.d;` or `import a.b.*;`. -/
def importLine : Shape :=
  .anchor .lineStart ++ spaces ++ .lit "import" ++ someSpaces ++
    .opt (.group .static (keyword ["static"])) ++
    .group .path (.lazyPlus dotted) ++ .opt (.group .wildcard (.lit ".*")) ++ spaces ++ .lit ";"

/-- The header of an interface or class up to its name. -/
def typeHeader : Shape :=
  opening ++
    .group .modifiers (.star (boundary ++ keyword
      ["public", "protected", "private", "abstract", "static", "final", "sealed", "non-sealed",
        "strictfp"])) ++
    boundary ++ .group .kind (.oneOf ["interface", "class"]) ++ someSpaces ++
    .group .name identifier

/-- A method from its documentation comment to the `{` of its body or the `;` at its end. -/
def method : Shape :=
  opening ++
    .group .modifiers (.star (boundary ++ keyword
      ["public", "protected", "private", "abstract", "static", "final", "synchronized", "native",
        "strictfp", "default"])) ++
    .opt (.group .typeParameters angled ++ spaces) ++
    boundary ++ .group .result typeText ++ someSpaces ++
    .group .name identifier ++ spaces ++
    .lit "(" ++ .group .parameters parenthesized ++ .lit ")" ++ spaces ++
    .star (squarePair ++ spaces) ++
    .opt (keyword ["throws"] ++ .lazyPlus (except "\x7b\x7d;")) ++ spaces ++
    .oneOf ["\x7b", ";"]

/-- The words between visibility and type of a field. -/
def storage : List String := ["static", "final", "transient", "volatile"]

/-- A field with a visibility, up to the end of its first variable. -/
def field : Shape :=
  opening ++
    .star (boundary ++ keyword storage) ++
    boundary ++ .group .visibility (.oneOf ["public", "protected", "private"]) ++ someSpaces ++
    .star (keyword storage) ++
    .group .fieldType typeText ++ someSpaces ++
    .group .name identifier ++ spaces ++ dimensions ++ .oneOf ["=", ";", ","]

/-- A further variable of a field declaration, such as `y` or `z[] = ...`. -/
def declarator : Shape :=
  .anchor .textStart ++ .group .name identifier ++ spaces ++ dimensions ++
    (.lit "=" ||| .anchor .textEnd)

end Typings.Declaration
