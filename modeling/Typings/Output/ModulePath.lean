import Typings.Text.Basic

/-!
# Paths of declaration files

Declaration files are named by paths with `/` between the segments, relative to the output
directory, such as `com/example/Server.d.ts`. A file refers to another by a module path that is
relative to its own directory and has no extension.
-/

namespace Typings.ModulePath

/-- The ending of declaration files. -/
def extension : String := ".d.ts"

/-- The segments of a path. Empty segments and single dots do not count. -/
def segments (path : Text) : List Text :=
  (path.splitOn '/').filter fun s => !s.isEmpty && s ≠ ['.']

/-- Length of the longest common start of two lists. -/
def commonLength : List Text → List Text → Nat
  | a :: as, b :: bs => if a = b then commonLength as bs + 1 else 0
  | _, _ => 0

/-- The path without the ending of declaration files. -/
def withoutExtension (path : Text) : Text :=
  (Text.beforeSuffix? extension.toList path).getD path

/-- The module path for the file `target` in the file `origin`: steps up to the last directory
that both share, then down to the target. -/
def relative (origin target : String) : String :=
  let originDirs := (segments origin.toList).dropLast
  let targetSegments := segments (withoutExtension target.toList)
  let common := commonLength originDirs targetSegments.dropLast
  let ups := originDirs.length - common
  let steps := if ups = 0 then "./" else String.join (List.replicate ups "../")
  steps ++ String.intercalate "/" ((targetSegments.drop common).map String.ofList)

/-- The declaration file of a type with a dotted path. -/
def ofDotted (dotted : String) : String :=
  String.ofList (dotted.toList.map fun c => if c = '.' then '/' else c) ++ extension

/-- The declaration file of a Java file, whose path is relative to its source directory. Steps up
do not count. -/
def ofSource (path : String) : String :=
  let joined := ['/'].intercalate ((segments path.toList).filter (· ≠ ['.', '.']))
  String.ofList ((Text.beforeSuffix? ".java".toList joined).getD joined) ++ extension

end Typings.ModulePath
