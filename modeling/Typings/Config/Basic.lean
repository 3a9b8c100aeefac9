import Typings.FileSystem.Error
import Typings.Text.Space

/-!
# Configuration

The settings of a run and of the reader it uses, their defaults, and the check that they can be
used.
-/

namespace Typings

/-- Hand-written declaration files that live beside the generated ones. -/
def rawFiles : List String := ["minecraft-raw.d.ts", "forge-events-raw.d.ts"]

/-- How Java files are read. -/
structure ReadingConfig where
  /-- Files with more bytes are not read. -/
  maxFileSize : UInt64 := 10485760
  parallel : Bool := false
  /-- Number of parallel workers; without one the machine decides. -/
  workers : Option UInt64 := none
  /-- Whether documentation comments are kept. -/
  includeDocs : Bool := true
deriving Repr, DecidableEq, Inhabited

/-- Reads in parallel and drops documentation comments. -/
def ReadingConfig.fast : ReadingConfig := { parallel := true, includeDocs := false }

/-- What a run reads, where it writes and how it names things. -/
structure RunConfig where
  /-- Directories that are searched for Java files. -/
  sourceDirs : List String := []
  /-- Directory of the generated declarations. -/
  outputDir : String := "build/typings"
  /-- Dotted package names whose types are imported across files. -/
  apiPackages : List String := []
  /-- Whether earlier declarations are deleted first. -/
  cleanOutput : Bool := false
  /-- Names of files that cleaning spares. -/
  preservedFiles : List String := rawFiles
  /-- Directory of hand-written declarations that are copied along. -/
  patchDir : Option String := none
  /-- Files that the hooks file refers to. -/
  hookReferences : List String := rawFiles
  indexFile : String := "index.d.ts"
  hooksFile : String := "hooks.d.ts"
  reading : ReadingConfig := {}
deriving Repr, DecidableEq, Inhabited

-- ---------------------------------------------------------------------------
-- Validation
-- ---------------------------------------------------------------------------

/-- A setting that cannot be used. -/
inductive ConfigFault where
  | noWorkers
  | noFileSize
  | blankFileName
  | sameFileName
  | blankPackage (package : String)
deriving Repr, DecidableEq, Inhabited

/-- A white-space character as it is shown in a message: a plain space as it is, others as an
escape. -/
def showSpace (c : Char) : String :=
  if c = ' ' then " "
  else if c = '\t' then "\\t"
  else if c = '\n' then "\\n"
  else if c = '\r' then "\\r"
  else "\\u\x7b" ++ String.ofList (Nat.toDigits 16 c.toNat) ++ "\x7d"

/-- A text of white space in quotes. -/
def quoteBlank (s : String) : String :=
  "\"" ++ String.join (s.toList.map showSpace) ++ "\""

def ConfigFault.message : ConfigFault → String
  | .noWorkers => "parallel_workers must be greater than 0"
  | .noFileSize => "max_file_size must be greater than 0"
  | .blankFileName => "index_file and hooks_file must not be empty"
  | .sameFileName => "index_file and hooks_file must differ"
  | .blankPackage package => "api_packages contains an empty prefix: " ++ quoteBlank package

def ReadingConfig.fault? (c : ReadingConfig) : Option ConfigFault :=
  if c.workers = some 0 then some .noWorkers
  else if c.maxFileSize = 0 then some .noFileSize
  else none

namespace RunConfig

/-- The first setting that cannot be used. -/
def fault? (c : RunConfig) : Option ConfigFault :=
  match c.reading.fault? with
  | some fault => some fault
  | none =>
    if Text.isBlankText c.indexFile.toList || Text.isBlankText c.hooksFile.toList then
      some .blankFileName
    else if c.indexFile = c.hooksFile then some .sameFileName
    else (c.apiPackages.find? fun p => Text.isBlankText p.toList).map .blankPackage

/-- Whether every setting can be used. -/
def Valid (c : RunConfig) : Prop := c.fault? = none

instance (c : RunConfig) : Decidable c.Valid := inferInstanceAs (Decidable (c.fault? = none))

/-- Whether cleaning spares files of a name. -/
def isPreserved (c : RunConfig) (name : String) : Bool := c.preservedFiles.contains name

end RunConfig

-- ---------------------------------------------------------------------------
-- Failures
-- ---------------------------------------------------------------------------

/-- Why no configuration could be had. -/
inductive ConfigError where
  | unreadable (path : String) (cause : OsError)
  /-- The text is not JSON of the expected form. -/
  | malformed
  | invalid (fault : ConfigFault)
deriving Repr, DecidableEq, Inhabited

def ConfigError.message : ConfigError → String
  | .unreadable path cause => "Failed to read config " ++ path ++ ": " ++ cause.message
  | .malformed => "Invalid config JSON"
  | .invalid fault => "Invalid configuration: " ++ fault.message

end Typings
