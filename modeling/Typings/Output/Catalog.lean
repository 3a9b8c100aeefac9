import Typings.Config.Basic
import Typings.Output.DeclarationFile
import Typings.Output.Hooks

/-!
# The catalog of a run

Java files become declaration files one after another. The catalog keeps the records of their types
and hooks, from which the index and the hooks file are written at the end.
-/

namespace Typings

/-- A file to be written, its path relative to the output directory. -/
structure OutputFile where
  path : String
  contents : String
deriving Repr, DecidableEq, Inhabited

/-- The types and hooks of the files so far. -/
structure Catalog where
  config : RunConfig
  types : List TypeRecord := []
  hooks : List HookRecord := []
deriving Repr, Inhabited

namespace Catalog

/-- The declaration file for a file at an output path; none for a file without types. -/
def outputFor? (c : Catalog) (file : SourceFile) (path : String) : Option OutputFile :=
  if file.isEmpty then none
  else some { path, contents := file.render (.ofFile file path c.config.apiPackages) }

/-- The catalog with the records of the types and hooks of a file added. -/
def record (c : Catalog) (file : SourceFile) (path : String) : Catalog :=
  { c with
    types := c.types ++ TypeDecl.typeRecordsAll file.package path none file.types
    hooks := c.hooks ++ TypeDecl.hookRecordsAll file path none file.types }

/-- The declaration file for a file, and the catalog after it. -/
def emit (c : Catalog) (file : SourceFile) (path : String) : Catalog × Option OutputFile :=
  (c.record file path, c.outputFor? file path)

def indexFile (c : Catalog) : OutputFile :=
  { path := c.config.indexFile, contents := renderIndex c.config.indexFile c.types }

def hooksFile (c : Catalog) : OutputFile :=
  { path := c.config.hooksFile
    contents := renderHooks c.config.hooksFile c.config.hookReferences c.hooks }

/-- The index and the hooks file for all files so far. -/
def finish (c : Catalog) : List OutputFile := [c.indexFile, c.hooksFile]

end Catalog

end Typings
