import Typings.Order
import Typings.Text.Basic

/-!
# Paths

Paths are texts with `/` between the segments. They are shown as they were given, and taken apart
only to compare them and to find what they name.
-/

namespace Typings.Path

/-- A part of a path that matters for comparing paths. -/
inductive Component where
  /-- The slash at the start of an absolute path. -/
  | root
  /-- The single dot at the start of a path. -/
  | current
  | parent
  | name (text : Text)
deriving Repr, DecidableEq, Inhabited

/-- The segments of a path between its slashes. -/
def segments (path : String) : List Text := path.toList.splitOn '/'

/-- The component that a segment stands for. An empty segment, or a dot after the start, is
none. -/
def component? (segment : Text) : Option Component :=
  if segment.isEmpty || segment = ['.'] then none
  else if segment = ['.', '.'] then some .parent
  else some (.name segment)

def isAbsolute (path : String) : Bool := path.toList.head? = some '/'

/-- The components of a path. -/
def components (path : String) : List Component :=
  let named := (segments path).filterMap component?
  if isAbsolute path then .root :: named
  else if (segments path).head? = some ['.'] then .current :: named
  else named

/-- The last component, when it is a name. -/
def fileName? (path : String) : Option Text :=
  match (components path).getLast? with
  | some (.name text) => some text
  | _ => none

/-- What follows the last dot of a file name that does not stand at its start. -/
def extension? (path : String) : Option Text :=
  match (fileName? path).bind (Text.splitLast? '.') with
  | some (stem, ending) => if stem.isEmpty then none else some ending
  | none => none

/-- The path of something inside the directory at a path. An absolute path stays as it is. -/
def join (dir inner : String) : String :=
  if isAbsolute inner || dir = "" then inner
  else if dir.toList.getLast? = some '/' then dir ++ inner
  else dir ++ "/" ++ inner

/-- Drops the segments that count for nothing from the front of a list of segments, the first
segment of the path excepted. -/
def dropIdle : List Text → List Text
  | s :: t :: rest => if (component? s).isNone then dropIdle (t :: rest) else s :: t :: rest
  | segments => segments

/-- The path of the directory that holds what a path names; none for the root and for the empty
path. -/
def parent? (path : String) : Option String :=
  let trimmed := dropIdle (segments path).reverse
  if trimmed = [[]] then none
  else
    let above := dropIdle trimmed.tail
    if isAbsolute path && above = [[]] then some "/"
    else some (String.ofList (['/'].intercalate above.reverse))

/-- The path without slashes at its end, the root excepted. -/
def trimSlashes (path : String) : String :=
  match path.toList.reverse.dropWhile (· = '/') with
  | [] => if path = "" then "" else "/"
  | rest => String.ofList rest.reverse

-- ---------------------------------------------------------------------------
-- Order
-- ---------------------------------------------------------------------------

/-- Whether one list of names comes before another: the first difference decides, and a list comes
before its extensions. -/
def namesBefore : List String → List String → Bool
  | [], [] => false
  | [], _ :: _ => true
  | _ :: _, [] => false
  | a :: as, b :: bs => if a < b then true else if a = b then namesBefore as bs else false

end Typings.Path
